import CobolFlow.Proofs.Trace.Fragment

/-!
# From one place to another

A place is a block and a number of its instructions, those that stand before it. A *passage* leads
from one place to the first visit of another and reads what stands in between; or it ends where the
program does, before the other place is visited.

What is read on passages is what is read in a graph that is cut at their end. At the cut a mark is
read, and then either nothing more or the mark for ever. In the first case all passages are read
that arrive, each with the mark, beside those that end on the way; in the second case these alone.

## Main definitions

* `Place`, `Chart.Arrives`, `Chart.Ends` — passages
* `Chart.cut` — a chart that is cut at a place
* `Chart.Confined` — blocks that passages do not leave, and in which only endings lead nowhere

## Main results

* `Chart.mem_rest_cut` — what is read in a chart that is cut
* `Chart.arrives_congr`, `Chart.ends_congr` — passages depend on the blocks they go through
-/

namespace CobolFlow

/-- A place in a graph: a block, and how many of its instructions stand before the place. -/
structure Place where
  block : ℕ
  skip : ℕ
deriving DecidableEq

/-- Where the next statement of a sketch goes. -/
def Sketch.place (Γ : Sketch) : Place := ⟨Γ.here, (Γ.chart Γ.here).nodes.length⟩

/-- A passage that begins at `p` leaves the block before it comes to `q`. -/
def Place.Misses (p q : Place) : Prop := p.block = q.block → q.skip < p.skip

namespace Chart

/-- A passage from a place to the first visit of `q` reads a word. -/
inductive Arrives (χ : Chart) (q : Place) : Place → List Instruction → Prop
  | here {k : ℕ} (h : k ≤ q.skip) :
    Arrives χ q ⟨q.block, k⟩ (((χ q.block).nodes.take q.skip).drop k)
  | step {p : Place} {c : ℕ} {w : List Instruction} (h : p.Misses q) (hc : c ∈ (χ p.block).next)
    (hw : Arrives χ q ⟨c, 0⟩ w) : Arrives χ q p ((χ p.block).nodes.drop p.skip ++ w)

/-- A passage on which the program ends before `q` is visited reads a word. -/
inductive Ends (χ : Chart) (q : Place) : Place → List Instruction → Prop
  | here {p : Place} (h : p.Misses q) (hend : (χ p.block).flags.ending = true) :
    Ends χ q p ((χ p.block).nodes.drop p.skip)
  | step {p : Place} {c : ℕ} {w : List Instruction} (h : p.Misses q) (hc : c ∈ (χ p.block).next)
    (hw : Ends χ q ⟨c, 0⟩ w) : Ends χ q p ((χ p.block).nodes.drop p.skip ++ w)

variable {χ χ' : Chart} {p q : Place} {S : Set ℕ} {b k : ℕ} {w : List Instruction}
  {i : Instruction} {loops : Bool}

theorem Ends.misses (h : χ.Ends q p w) : p.Misses q := by
  cases h <;> assumption

/-- Passages to `q` do not leave these blocks, and lead nowhere only where the program ends. -/
structure Confined (χ : Chart) (q : Place) (S : Set ℕ) : Prop where
  closed : ∀ b ∈ S, b ≠ q.block → ∀ c ∈ (χ b).next, c ∈ S
  sinks : ∀ b ∈ S, b ≠ q.block → ((χ b).next = [] ↔ (χ b).flags.ending = true)

/-! ### Passages in two charts -/

/-- The two charts have the same blocks on passages to `q`, and the same instructions before it. -/
structure Agree (χ χ' : Chart) (q : Place) (S : Set ℕ) : Prop where
  chart : ∀ b ∈ S, b ≠ q.block → χ' b = χ b
  nodes : (χ' q.block).nodes.take q.skip = (χ q.block).nodes.take q.skip

theorem Agree.symm (h : Agree χ χ' q S) : Agree χ' χ q S :=
  ⟨fun b hb hne => (h.chart b hb hne).symm, h.nodes.symm⟩

theorem Confined.congr (h : χ.Confined q S) (hχ : Agree χ χ' q S) : χ'.Confined q S where
  closed b hb hne c hc := h.closed b hb hne c (hχ.chart b hb hne ▸ hc)
  sinks b hb hne := hχ.chart b hb hne ▸ h.sinks b hb hne

/-- A place at which passages may begin. -/
def Confined.Within (q : Place) (S : Set ℕ) (p : Place) : Prop :=
  p.block ∈ S ∧ (p.block = q.block → p.skip ≤ q.skip)

theorem Confined.next (h : χ.Confined q S) (hp : Within q S p) (hne : p.block ≠ q.block) {c : ℕ}
    (hc : c ∈ (χ p.block).next) : Within q S ⟨c, 0⟩ :=
  ⟨h.closed _ hp.1 hne c hc, fun _ => Nat.zero_le _⟩

theorem Confined.Within.ne (h : Within q S p) (hmisses : p.Misses q) : p.block ≠ q.block :=
  fun heq => (h.2 heq).not_gt (hmisses heq)

theorem Arrives.congr (hS : χ.Confined q S) (hχ : Agree χ χ' q S) (h : χ.Arrives q p w)
    (hp : Confined.Within q S p) : χ'.Arrives q p w := by
  induction h with
  | here hk => exact hχ.nodes ▸ .here hk
  | step hmisses hc _ ih =>
    have hne := hp.ne hmisses
    have hsame := hχ.chart _ hp.1 hne
    rw [← hsame]
    exact .step hmisses (hsame ▸ hc) (ih (hS.next hp hne hc))

theorem Ends.congr (hS : χ.Confined q S) (hχ : Agree χ χ' q S) (h : χ.Ends q p w)
    (hp : Confined.Within q S p) : χ'.Ends q p w := by
  induction h with
  | here hmisses hend =>
    have hsame := hχ.chart _ hp.1 (hp.ne hmisses)
    rw [← hsame]
    exact .here hmisses (hsame ▸ hend)
  | step hmisses hc _ ih =>
    have hne := hp.ne hmisses
    have hsame := hχ.chart _ hp.1 hne
    rw [← hsame]
    exact .step hmisses (hsame ▸ hc) (ih (hS.next hp hne hc))

/-- **Passages that arrive** depend on the blocks that they go through. -/
theorem arrives_congr (hS : χ.Confined q S) (hχ : Agree χ χ' q S) (hp : Confined.Within q S p) :
    χ'.Arrives q p w ↔ χ.Arrives q p w :=
  ⟨fun h => h.congr (hS.congr hχ) hχ.symm hp, fun h => h.congr hS hχ hp⟩

/-- **Passages on which the program ends** depend on the blocks that they go through. -/
theorem ends_congr (hS : χ.Confined q S) (hχ : Agree χ χ' q S) (hp : Confined.Within q S p) :
    χ'.Ends q p w ↔ χ.Ends q p w :=
  ⟨fun h => h.congr (hS.congr hχ) hχ.symm hp, fun h => h.congr hS hχ hp⟩

/-! ### A chart that is cut -/

/-- The chart in which, from `q` on, `i` is read, either once or for ever. -/
def cut (χ : Chart) (q : Place) (i : Instruction) (loops : Bool) : Chart :=
  Function.update χ q.block { χ q.block with
    nodes := (χ q.block).nodes.take q.skip ++ [i], next := if loops then [q.block] else [] }

theorem cut_of_ne (hb : b ≠ q.block) : χ.cut q i loops b = χ b := Function.update_of_ne hb _ _

theorem nodes_cut : (χ.cut q i loops q.block).nodes = (χ q.block).nodes.take q.skip ++ [i] := by
  rw [cut, Function.update_self]

theorem next_cut : (χ.cut q i loops q.block).next = if loops then [q.block] else [] := by
  rw [cut, Function.update_self]

/-- One step at a time: what is read from a place. -/
theorem mem_rest : w ∈ χ.rest k b ↔ ∃ v, w = (χ b).nodes.drop k ++ v ∧
    ((χ b).next = [] ∧ v = [] ∨ ∃ c ∈ (χ b).next, χ.Reads IsSink c v) := by
  rw [rest, Language.mem_mul]
  simp only [mem_just, exists_eq_left]
  by_cases hnil : (χ b).next = []
  · simp [onward_of_next_eq_nil hnil, hnil, Language.mem_one, eq_comm]
  · simp [onward_of_next_ne_nil hnil, hnil, mem_sum_map, eq_comm, and_comm]

/-- What is read from a place in a chart that is cut. -/
def ReadsCut (χ : Chart) (q : Place) (i : Instruction) (loops : Bool) (p : Place)
    (w : List Instruction) : Prop :=
  (loops = false ∧ ∃ v, χ.Arrives q p v ∧ w = v ++ [i]) ∨ χ.Ends q p w

theorem ReadsCut.step {c : ℕ} {v : List Instruction} (hmisses : p.Misses q)
    (hc : c ∈ (χ p.block).next) (h : χ.ReadsCut q i loops ⟨c, 0⟩ v) :
    χ.ReadsCut q i loops p ((χ p.block).nodes.drop p.skip ++ v) := by
  obtain ⟨hloops, v, hv, rfl⟩ | h := h
  · exact .inl ⟨hloops, _, .step hmisses hc hv, (List.append_assoc _ _ _).symm⟩
  · exact .inr (.step hmisses hc h)

/-- From a place that passages may begin at, if it is known what is read from the next blocks. -/
theorem ReadsCut.of_next (hS : χ.Confined q S) (hq : q.skip ≤ (χ q.block).nodes.length)
    (hp : Confined.Within q S p) {v : List Instruction}
    (hv : (χ.cut q i loops p.block).next = [] ∧ v = [] ∨
      ∃ c ∈ (χ.cut q i loops p.block).next, (Confined.Within q S ⟨c, 0⟩ →
        χ.ReadsCut q i loops ⟨c, 0⟩ v)) :
    χ.ReadsCut q i loops p ((χ.cut q i loops p.block).nodes.drop p.skip ++ v) := by
  by_cases hne : p.block = q.block
  · obtain ⟨b, k⟩ := p
    obtain rfl : b = q.block := hne
    have hk : k ≤ q.skip := hp.2 rfl
    rw [nodes_cut, List.drop_append_of_le_length (by simpa using ⟨hk, hk.trans hq⟩)]
    simp only [next_cut] at hv
    cases loops with
    | false =>
      obtain rfl : v = [] := by simpa using hv
      exact .inl ⟨rfl, _, .here hk, by simp⟩
    | true =>
      -- Whoever comes to the cut is there again, and no passage ends that begins before it.
      obtain ⟨c, rfl, h⟩ : ∃ c, c = q.block ∧ _ := by simpa using hv
      obtain ⟨hloops, -⟩ | h := h ⟨hp.1, fun _ => Nat.zero_le _⟩
      · exact absurd hloops (by simp)
      · exact absurd (h.misses rfl) (Nat.not_lt_zero _)
  · have hmisses : p.Misses q := fun heq => absurd heq hne
    rw [cut_of_ne hne] at hv ⊢
    obtain ⟨hnil, rfl⟩ | ⟨c, hc, h⟩ := hv
    · rw [List.append_nil]
      exact .inr (.here hmisses ((hS.sinks _ hp.1 hne).1 hnil))
    · exact (h (hS.next hp hne hc)).step hmisses hc

theorem readsCut_of_reads (hS : χ.Confined q S) (hq : q.skip ≤ (χ q.block).nodes.length)
    (h : (χ.cut q i loops).Reads IsSink b w) (hb : Confined.Within q S ⟨b, 0⟩) :
    χ.ReadsCut q i loops ⟨b, 0⟩ w := by
  induction h with
  | stop hsink =>
    rw [← List.append_nil (χ.cut q i loops _).nodes]
    exact .of_next hS hq hb (.inl ⟨hsink, rfl⟩)
  | step hc _ ih => exact .of_next hS hq hb (.inr ⟨_, hc, ih⟩)

theorem Arrives.mem_rest_cut (hS : χ.Confined q S) (hq : q.skip ≤ (χ q.block).nodes.length)
    (h : χ.Arrives q p w) (hp : Confined.Within q S p) :
    w ++ [i] ∈ (χ.cut q i false).rest p.skip p.block := by
  induction h with
  | @here k hk =>
    refine mem_rest.2 ⟨[], ?_, .inl ⟨by simp [next_cut], rfl⟩⟩
    rw [nodes_cut, List.drop_append_of_le_length (by simpa using ⟨hk, hk.trans hq⟩),
      List.append_nil]
  | @step p c w hmisses hc _ ih =>
    have hne := hp.ne hmisses
    refine mem_rest.2 ⟨w ++ [i], by rw [cut_of_ne hne, List.append_assoc], .inr ⟨c, ?_, ?_⟩⟩
    · rwa [cut_of_ne hne]
    · exact mem_reading.1 (reading_eq_rest _ c ▸ ih (hS.next hp hne hc))

theorem Ends.mem_rest_cut (hS : χ.Confined q S) (h : χ.Ends q p w)
    (hp : Confined.Within q S p) : w ∈ (χ.cut q i loops).rest p.skip p.block := by
  induction h with
  | @here p hmisses hend =>
    have hne := hp.ne hmisses
    refine mem_rest.2 ⟨[], by rw [cut_of_ne hne, List.append_nil], .inl ⟨?_, rfl⟩⟩
    rw [cut_of_ne hne]
    exact (hS.sinks _ hp.1 hne).2 hend
  | @step p c w hmisses hc _ ih =>
    have hne := hp.ne hmisses
    refine mem_rest.2 ⟨w, by rw [cut_of_ne hne], .inr ⟨c, ?_, ?_⟩⟩
    · rwa [cut_of_ne hne]
    · exact mem_reading.1 (reading_eq_rest _ c ▸ ih (hS.next hp hne hc))

/-- **What is read in a chart that is cut**: the passages that arrive, if the mark is read once, and
those that end on the way. -/
theorem mem_rest_cut (hS : χ.Confined q S) (hq : q.skip ≤ (χ q.block).nodes.length)
    (hp : Confined.Within q S p) : w ∈ (χ.cut q i loops).rest p.skip p.block ↔
      (loops = false ∧ ∃ v, χ.Arrives q p v ∧ w = v ++ [i]) ∨ χ.Ends q p w := by
  constructor
  · intro hw
    obtain ⟨v, rfl, hv⟩ := mem_rest.1 hw
    exact ReadsCut.of_next hS hq hp (hv.imp_right fun ⟨c, hc, h⟩ =>
      ⟨c, hc, readsCut_of_reads hS hq h⟩)
  · rintro (⟨rfl, v, hv, rfl⟩ | h)
    · exact hv.mem_rest_cut hS hq hp
    · exact h.mem_rest_cut hS hp

/-- At the cut the mark is read, and nothing that ends if it is read for ever. -/
theorem rest_cut (hq : q.skip ≤ (χ q.block).nodes.length) :
    (χ.cut q i loops).rest q.skip q.block = if loops then 0 else just [i] := by
  obtain ⟨b, k⟩ := q
  have hconfined : χ.Confined ⟨b, k⟩ {b} :=
    ⟨fun b hb hne => absurd hb hne, fun b hb hne => absurd hb hne⟩
  ext w
  rw [mem_rest_cut (p := ⟨b, k⟩) hconfined hq ⟨rfl, fun _ => le_rfl⟩]
  have hends : ¬ χ.Ends ⟨b, k⟩ ⟨b, k⟩ w := fun h => absurd (h.misses rfl) (lt_irrefl _)
  have harrives : ∀ v, χ.Arrives ⟨b, k⟩ ⟨b, k⟩ v ↔ v = [] := fun v => by
    constructor
    · intro h
      cases h with
      | here h => simp
      | step h => exact absurd (h rfl) (lt_irrefl _)
    · rintro rfl
      simpa using Arrives.here (χ := χ) (q := ⟨b, k⟩) (le_refl k)
  cases loops <;> simp [hends, harrives, Language.notMem_zero]

end Chart

end CobolFlow
