import CobolFlow.Proofs.Trace.Behaviour

/-!
# Fragments

The blocks that a piece of a program makes form a fragment: it is entered at the block that was
current before, left at the block that is current afterwards, and may also be left at the blocks of
its jumps, which get their edges only when the division ends. `Fragment` says that such a piece of
a graph does what a `Behaviour` says.

The graph that is read in the end is not the graph in which the fragment was made: its last block
goes on growing and gets a way on, and jumps are drawn. So the reading is stated for every chart
`G` that has *settled* the fragment, which means that it agrees with the fragment's own chart at
all blocks but the last and the jumps, and only extends these. In such a chart what is read from
the first block on is what the behaviour is put to use for: with what is read from the last block
on, and with what the jumps are taken to lead to.

What is known of paths is kept in two halves. `ends` bounds the blocks where a search for open ends
can stop, by giving a set of blocks that no path leaves; `reaches` says that the search does find
the last block, unless the behaviour never falls through.

## Main definitions

* `Sketch` — a chart in the making, with the block that is current
* `Chart.Settles` — agreeing with a chart in the making
* `Fragment` — a piece of a chart that does what a behaviour says

## Main results

* `Fragment.trans` — one fragment after another
* `Fragment.say`, `Fragment.depart`, `Fragment.depend`, `Fragment.call` — the fragments of single
  statements
-/

namespace CobolFlow

/-- A chart in the making. -/
structure Sketch where
  chart : Chart
  /-- How many blocks there are. -/
  size : ℕ
  /-- The block that is current. -/
  here : ℕ

namespace Sketch

/-- The current block exists and is open: it goes on nowhere yet, and does not end the program. -/
structure Open (Γ : Sketch) : Prop where
  here_lt : Γ.here < Γ.size
  next : (Γ.chart Γ.here).next = []
  ending : (Γ.chart Γ.here).flags.ending = false
  finish : (Γ.chart Γ.here).flags.finish = false

/-- Appends instructions to a block. -/
def sayAt (Γ : Sketch) (b : ℕ) (is : List Instruction) : Sketch :=
  { Γ with
    chart := fun c =>
      if c = b then { Γ.chart c with nodes := (Γ.chart c).nodes ++ is } else Γ.chart c }

/-- Appends instructions to the current block. -/
def say (Γ : Sketch) (is : List Instruction) : Sketch := Γ.sayAt Γ.here is

@[simp] theorem say_nil (Γ : Sketch) : Γ.say [] = Γ := by
  simp [say, sayAt]

/-- Marks a block. -/
def flag (Γ : Sketch) (b : ℕ) (f : BlockFlags) : Sketch :=
  { Γ with
    chart := fun c =>
      if c = b then { Γ.chart c with flags := (Γ.chart c).flags.union f } else Γ.chart c }

/-- Adds an edge. -/
def edge (Γ : Sketch) (b c : ℕ) : Sketch :=
  { Γ with
    chart := fun d =>
      if d = b then { Γ.chart d with next := (Γ.chart d).next ++ [c] } else Γ.chart d }

/-- Leads some blocks to another. -/
def lead (Γ : Sketch) (sources : List ℕ) (t : ℕ) : Sketch :=
  { Γ with
    chart := fun b =>
      if b ∈ sources then { Γ.chart b with next := (Γ.chart b).next ++ [t] } else Γ.chart b }

/-- Adds a block. -/
def fresh (Γ : Sketch) (s : Spot) : Sketch :=
  { Γ with chart := fun b => if b = Γ.size then s else Γ.chart b, size := Γ.size + 1 }

/-- Makes another block the current one. -/
def goTo (Γ : Sketch) (b : ℕ) : Sketch := { Γ with here := b }

/-- The blocks of a piece between two sketches: the one that was current, and all made since. -/
def Between (Γ Γ' : Sketch) (b : ℕ) : Prop := b = Γ.here ∨ Γ.size ≤ b ∧ b < Γ'.size

/-- A statement leaves: its block ends, and the next statements go to a new one. -/
def depart (Γ : Sketch) (i : Instruction) (s : Spot) : Sketch :=
  (((Γ.say [i]).flag Γ.here { ending := true }).fresh s).goTo Γ.size

/-- A statement may leave or go on: the next statements go to a new block it leads to. -/
def depend (Γ : Sketch) (i : Instruction) (s : Spot) : Sketch :=
  (((Γ.say [i]).fresh s).goTo Γ.size).edge Γ.here Γ.size

/-- A statement has a block to itself, between the one before it and a new one. -/
def call (Γ : Sketch) (t s : Spot) : Sketch :=
  ((((Γ.fresh t).edge Γ.here Γ.size).fresh s).goTo (Γ.size + 1)).edge Γ.size (Γ.size + 1)

end Sketch

/-- The blocks at which exits are taken. -/
abbrev Departures := Exit → ℕ → Prop

/-- `G` agrees with `χ` on the blocks of `region`, except that the `loose` ones may have grown and
those in `marks` lead where `K` says in addition. -/
structure Chart.Settles (G χ : Chart) (region loose : ℕ → Prop) (marks : Departures)
    (K : Exit → Language Instruction) : Prop where
  halt : K .halt = 1
  nodes : ∀ b, region b → ¬ loose b → (G b).nodes = (χ b).nodes
  grows : ∀ b, loose b → (χ b).nodes <+: (G b).nodes
  next : ∀ b, region b → ¬ loose b → (∀ e, ¬ marks e b) → (G b).next = (χ b).next
  jump : ∀ e b, marks e b → G.onward b = K e + ((χ b).next.map G.reading).sum

/-- What has settled a chart has settled any part of it, and any earlier state of the part. -/
theorem Chart.Settles.restrict {G χ χ' : Chart} {region region' loose loose' : ℕ → Prop}
    {marks marks' : Departures} {K : Exit → Language Instruction}
    (h : G.Settles χ region loose marks K)
    (hfirm : ∀ b, region' b → ¬ loose' b →
      (region b ∧ ¬ loose b) ∧ χ' b = χ b ∧ ∀ e, marks e b → marks' e b)
    (hgrows : ∀ b, loose' b → (χ' b).nodes <+: (G b).nodes)
    (hmarks : ∀ e b, marks' e b → marks e b ∧ χ' b = χ b) :
    G.Settles χ' region' loose' marks' K where
  halt := h.halt
  nodes b hb hl := by
    obtain ⟨⟨hregion, hloose⟩, hsame, -⟩ := hfirm b hb hl
    rw [hsame, h.nodes b hregion hloose]
  grows := hgrows
  next b hb hl hm := by
    obtain ⟨⟨hregion, hloose⟩, hsame, hback⟩ := hfirm b hb hl
    rw [hsame, h.next b hregion hloose fun e he => hm e (hback e he)]
  jump e b he := by
    obtain ⟨hmark, hsame⟩ := hmarks e b he
    rw [hsame, h.jump e b hmark]

/-- A block without instructions or edges that the program may go on in. -/
structure Spot.Blank (s : Spot) : Prop where
  nodes : s.nodes = []
  next : s.next = []
  ending : s.flags.ending = false
  finish : s.flags.finish = false

/-- The block is not the last of the program, and leads nowhere if it ends it. -/
structure Spot.Calm (s : Spot) : Prop where
  finish : s.flags.finish = false
  next : s.flags.ending → s.next = []

theorem Spot.Blank.calm {s : Spot} (h : s.Blank) : s.Calm := ⟨h.finish, fun _ => h.next⟩

theorem Sketch.Open.calm {Γ : Sketch} (h : Γ.Open) : (Γ.chart Γ.here).Calm :=
  ⟨h.finish, fun _ => h.next⟩

/-- A piece of a chart that does what `B` says. -/
structure Fragment (Γ Γ' : Sketch) (marks : Departures) (B : Behaviour) : Prop where
  size_le : Γ.size ≤ Γ'.size
  opened : Γ'.Open
  /-- The current block is the newest, unless no block was made. -/
  newest : Γ.size ≤ Γ'.here ∧ Γ'.here + 1 = Γ'.size ∨ Γ'.here = Γ.here ∧ Γ'.size = Γ.size
  /-- Nothing else is touched. -/
  frame : ∀ b < Γ.size, b ≠ Γ.here → Γ'.chart b = Γ.chart b
  nodes : (Γ.chart Γ.here).nodes <+: (Γ'.chart Γ.here).nodes
  /-- No edge leads out of the piece. -/
  closed : ∀ b, Γ.Between Γ' b → ∀ c ∈ (Γ'.chart b).next, Γ.Between Γ' c
  calm : ∀ b, Γ.Between Γ' b → (Γ'.chart b).Calm
  marked : ∀ e b, marks e b → Γ.Between Γ' b ∧ b ≠ Γ'.here
  signed : ∀ e b, marks e b → e.Signs (Γ'.chart b).nodes
  /-- The blocks in some set that no edge leaves are the last, on their way, or ends. -/
  ends : ∃ S : Set ℕ, Γ.here ∈ S ∧ (∀ b ∈ S, ∀ c ∈ (Γ'.chart b).next, c ∈ S) ∧
    ∀ b ∈ S, (Γ'.chart b).next = [] → b = Γ'.here ∨ (Γ'.chart b).flags.ending
  reaches : B.falls ≠ 0 → Γ'.chart.Reaches Γ.here Γ'.here
  reads : ∀ G K, Chart.Settles G Γ'.chart (Γ.Between Γ') (· = Γ'.here) marks K →
    G.rest (Γ.chart Γ.here).nodes.length Γ.here =
      B.into (G.rest (Γ'.chart Γ'.here).nodes.length Γ'.here) K

namespace Fragment

variable {Γ Γ₁ Γ₂ : Sketch} {marks marks₁ marks₂ : Departures} {B B₁ B₂ : Behaviour}

theorem here_between (h : Fragment Γ Γ₁ marks B) : Γ.Between Γ₁ Γ₁.here := by
  obtain ⟨hge, hnew⟩ | ⟨hsame, -⟩ := h.newest
  · exact .inr ⟨hge, by omega⟩
  · exact .inl hsame

theorem between_lt (hlt : Γ.here < Γ.size) (h : Fragment Γ Γ₁ marks B) {b : ℕ}
    (hb : Γ.Between Γ₁ b) : b < Γ₁.size := by
  have := h.size_le
  obtain rfl | hb := hb <;> omega

/-- Nothing is done. -/
theorem refl (h : Γ.Open) : Fragment Γ Γ (fun _ _ => False) .skip where
  size_le := le_rfl
  opened := h
  newest := .inr ⟨rfl, rfl⟩
  frame _ _ _ := rfl
  nodes := List.prefix_rfl
  closed b hb c hc := by
    obtain rfl | hb := hb
    · simp [h.next] at hc
    · omega
  calm b hb := by
    obtain rfl | hb := hb
    · exact h.calm
    · omega
  marked _ _ h := h.elim
  signed _ _ h := h.elim
  ends := ⟨{Γ.here}, rfl, fun b hb c hc => by
    obtain rfl : b = Γ.here := hb
    simp [h.next] at hc, fun b hb _ => .inl hb⟩
  reaches _ := .refl
  reads G K _ := by rw [Behaviour.into_skip]

section Trans

variable (h₁ : Fragment Γ Γ₁ marks₁ B₁) (h₂ : Fragment Γ₁ Γ₂ marks₂ B₂)

include h₁ h₂

theorem between_trans (b : ℕ) :
    Γ.Between Γ₂ b ↔ Γ.Between Γ₁ b ∨ Γ₁.Between Γ₂ b := by
  have := h₁.size_le
  have := h₂.size_le
  have hhere := h₁.here_between
  simp only [Sketch.Between] at hhere ⊢
  constructor
  · rintro (rfl | hb)
    · exact .inl (.inl rfl)
    · by_cases hlt : b < Γ₁.size <;> omega
  · rintro ((rfl | hb) | rfl | hb) <;> omega

/-- What the first fragment has left behind it stays as it is. -/
theorem chart_eq_of_between (hlt : Γ.here < Γ.size) {b : ℕ} (hb : Γ.Between Γ₁ b)
    (hne : b ≠ Γ₁.here) : Γ₂.chart b = Γ₁.chart b ∧ b ≠ Γ₂.here ∧ ¬ Γ₁.Between Γ₂ b := by
  have hb₁ := between_lt hlt h₁ hb
  refine ⟨h₂.frame b hb₁ hne, ?_, ?_⟩
  · obtain ⟨hge, -⟩ | ⟨hsame, -⟩ := h₂.newest
    · omega
    · rwa [hsame]
  · rintro (rfl | hb)
    · exact hne rfl
    · omega

end Trans

/-- One fragment after another. -/
theorem trans (hlt : Γ.here < Γ.size) (h₁ : Fragment Γ Γ₁ marks₁ B₁)
    (h₂ : Fragment Γ₁ Γ₂ marks₂ B₂) :
    Fragment Γ Γ₂ (fun e b => marks₁ e b ∨ marks₂ e b) (B₁.seq B₂) where
  size_le := h₁.size_le.trans h₂.size_le
  opened := h₂.opened
  newest := by
    have := h₁.size_le
    have := h₁.newest
    have := h₂.newest
    omega
  frame b hb hne := by
    have hne₁ : b ≠ Γ₁.here := by
      have := h₁.newest
      omega
    rw [h₂.frame b (hb.trans_le h₁.size_le) hne₁, h₁.frame b hb hne]
  nodes := by
    refine h₁.nodes.trans ?_
    by_cases hsame : Γ₁.here = Γ.here
    · simpa only [hsame] using h₂.nodes
    · rw [h₂.frame _ (hlt.trans_le h₁.size_le) (Ne.symm hsame)]
  closed b hb c hc := by
    rw [between_trans h₁ h₂] at hb ⊢
    by_cases hb₂ : Γ₁.Between Γ₂ b
    · exact .inr (h₂.closed b hb₂ c hc)
    · have hb₁ := hb.resolve_right hb₂
      have hne : b ≠ Γ₁.here := fun h => hb₂ (.inl h)
      rw [(chart_eq_of_between h₁ h₂ hlt hb₁ hne).1] at hc
      exact .inl (h₁.closed b hb₁ c hc)
  calm b hb := by
    by_cases hb₂ : Γ₁.Between Γ₂ b
    · exact h₂.calm b hb₂
    · have hb₁ := ((between_trans h₁ h₂ b).1 hb).resolve_right hb₂
      have hne : b ≠ Γ₁.here := fun h => hb₂ (.inl h)
      rw [(chart_eq_of_between h₁ h₂ hlt hb₁ hne).1]
      exact h₁.calm b hb₁
  marked e b := by
    rintro (he | he)
    · obtain ⟨hb, hne⟩ := h₁.marked e b he
      exact ⟨(between_trans h₁ h₂ b).2 (.inl hb), (chart_eq_of_between h₁ h₂ hlt hb hne).2.1⟩
    · obtain ⟨hb, hne⟩ := h₂.marked e b he
      exact ⟨(between_trans h₁ h₂ b).2 (.inr hb), hne⟩
  signed e b := by
    rintro (he | he)
    · obtain ⟨hb, hne⟩ := h₁.marked e b he
      rw [(chart_eq_of_between h₁ h₂ hlt hb hne).1]
      exact h₁.signed e b he
    · exact h₂.signed e b he
  ends := by
    obtain ⟨S₁, hhere₁, hclosed₁, hends₁⟩ := h₁.ends
    obtain ⟨S₂, hhere₂, hclosed₂, hends₂⟩ := h₂.ends
    -- paths that arrive at the end of the first fragment go on in the second
    refine ⟨{b | Γ.Between Γ₁ b ∧ b ∈ S₁ ∧ b ≠ Γ₁.here ∨ Γ₁.here ∈ S₁ ∧ b ∈ S₂}, ?_, ?_, ?_⟩
    · by_cases hsame : Γ.here = Γ₁.here
      · exact .inr ⟨hsame ▸ hhere₁, hsame ▸ hhere₂⟩
      · exact .inl ⟨.inl rfl, hhere₁, hsame⟩
    · rintro b (⟨hb, hbS, hne⟩ | ⟨hS, hbS⟩) c hc
      · rw [(chart_eq_of_between h₁ h₂ hlt hb hne).1] at hc
        have hcS := hclosed₁ b hbS c hc
        by_cases hc₁ : c = Γ₁.here
        · exact .inr ⟨hc₁ ▸ hcS, hc₁ ▸ hhere₂⟩
        · exact .inl ⟨h₁.closed b hb c hc, hcS, hc₁⟩
      · exact .inr ⟨hS, hclosed₂ b hbS c hc⟩
    · rintro b (⟨hb, hbS, hne⟩ | ⟨-, hbS⟩) hnil
      · rw [(chart_eq_of_between h₁ h₂ hlt hb hne).1] at hnil ⊢
        exact .inr ((hends₁ b hbS hnil).resolve_left hne)
      · exact hends₂ b hbS hnil
  reaches hfalls := by
    have hfalls₁ : B₁.falls ≠ 0 := fun h => hfalls (by simp [Behaviour.seq, h])
    have hfalls₂ : B₂.falls ≠ 0 := fun h => hfalls (by simp [Behaviour.seq, h])
    refine Relation.ReflTransGen.trans ?_ (h₂.reaches hfalls₂)
    refine (h₁.reaches hfalls₁).transfer (P := Γ.Between Γ₁) (.inl rfl) fun b hb hne c hc => ?_
    exact ⟨h₁.closed b hb c hc, by rwa [(chart_eq_of_between h₁ h₂ hlt hb hne).1]⟩
  reads G K hG := by
    have hG₁ : G.Settles Γ₁.chart (Γ.Between Γ₁) (· = Γ₁.here) marks₁ K := by
      refine hG.restrict (fun b hb hne => ?_) ?_ fun e b he => ?_
      · obtain ⟨hsame, hne₂, hout⟩ := chart_eq_of_between h₁ h₂ hlt hb hne
        refine ⟨⟨(between_trans h₁ h₂ b).2 (.inl hb), hne₂⟩, hsame.symm, fun e he => ?_⟩
        exact he.resolve_right fun he₂ => hout (h₂.marked e b he₂).1
      · rintro _ rfl
        refine h₂.nodes.trans ?_
        by_cases hsame : Γ₁.here = Γ₂.here
        · rw [hsame]
          exact hG.grows _ rfl
        · rw [hG.nodes _ ((between_trans h₁ h₂ _).2 (.inr (.inl rfl))) hsame]
      · obtain ⟨hb, hne⟩ := h₁.marked e b he
        exact ⟨.inl he, (chart_eq_of_between h₁ h₂ hlt hb hne).1.symm⟩
    have hG₂ : G.Settles Γ₂.chart (Γ₁.Between Γ₂) (· = Γ₂.here) marks₂ K := by
      refine hG.restrict (fun b hb hne => ⟨⟨(between_trans h₁ h₂ b).2 (.inr hb), hne⟩, rfl, ?_⟩)
        hG.grows fun e b he => ⟨.inr he, rfl⟩
      rintro e (he | he)
      · obtain ⟨hb₁, hne₁⟩ := h₁.marked e b he
        exact absurd hb (chart_eq_of_between h₁ h₂ hlt hb₁ hne₁).2.2
      · exact he
    rw [h₁.reads G K hG₁, h₂.reads G K hG₂, Behaviour.into_seq]

/-! ### Single statements -/

/-- A statement that only does its work. -/
theorem say (h : Γ.Open) (is : List Instruction) :
    Fragment Γ (Γ.say is) (fun _ _ => False) (Behaviour.skip.saying is) where
  size_le := le_rfl
  opened := ⟨h.here_lt, by simp [Sketch.say, Sketch.sayAt, h.next],
    by simp [Sketch.say, Sketch.sayAt, h.ending], by simp [Sketch.say, Sketch.sayAt, h.finish]⟩
  newest := .inr ⟨rfl, rfl⟩
  frame b _ hne := by simp [Sketch.say, Sketch.sayAt, hne]
  nodes := by simp [Sketch.say, Sketch.sayAt]
  closed b hb c hc := by
    obtain rfl | hb := hb
    · simp [Sketch.say, Sketch.sayAt, h.next] at hc
    · simp only [Sketch.say, Sketch.sayAt] at hb
      omega
  calm b hb := by
    obtain rfl | hb := hb
    · exact ⟨by simp [Sketch.say, Sketch.sayAt, h.finish],
        by simp [Sketch.say, Sketch.sayAt, h.next]⟩
    · simp only [Sketch.say, Sketch.sayAt] at hb
      omega
  marked _ _ h := h.elim
  signed _ _ h := h.elim
  ends := ⟨{Γ.here}, rfl, fun b hb c hc => by
    obtain rfl : b = Γ.here := hb
    simp [Sketch.say, Sketch.sayAt, h.next] at hc, fun b hb _ => .inl hb⟩
  reaches _ := .refl
  reads G K hG := by
    have hgrows := hG.grows Γ.here rfl
    simp only [Sketch.say, Sketch.sayAt, if_true] at hgrows ⊢
    rw [Chart.rest_eq_just_mul_rest hgrows, Behaviour.saying, Behaviour.into_after,
      Behaviour.into_skip]

section Departures

variable {i : Instruction} {s t : Spot}

theorem chart_depart (hne : Γ.here ≠ Γ.size) (b : ℕ) : (Γ.depart i s).chart b =
    if b = Γ.size then s else if b = Γ.here then
      { Γ.chart b with
        nodes := (Γ.chart b).nodes ++ [i]
        flags := (Γ.chart b).flags.union { ending := true } }
    else Γ.chart b := by
  by_cases hsize : b = Γ.size
  · simp [Sketch.depart, Sketch.fresh, Sketch.goTo, Sketch.flag, Sketch.say, Sketch.sayAt, hsize]
  · by_cases hhere : b = Γ.here <;>
      simp [Sketch.depart, Sketch.fresh, Sketch.goTo, Sketch.flag, Sketch.say, Sketch.sayAt, hsize,
        hhere, hne]

/-- All but the reading of a statement that leaves. -/
theorem of_depart (h : Γ.Open) (hs : s.Blank) {marks : Departures}
    (hmarks : ∀ e b, marks e b → e.IsBy i ∧ b = Γ.here) {B : Behaviour} (hfalls : B.falls = 0)
    (hreads : ∀ G K, Chart.Settles G (Γ.depart i s).chart (Γ.Between (Γ.depart i s))
      (· = Γ.size) marks K → G.onward Γ.here = B.into 0 K) :
    Fragment Γ (Γ.depart i s) marks (B.saying [i]) := by
  have hne : Γ.here ≠ Γ.size := h.here_lt.ne
  have hhere : (Γ.depart i s).here = Γ.size := rfl
  have hsize : (Γ.depart i s).size = Γ.size + 1 := rfl
  have hnext : ∀ b, Γ.Between (Γ.depart i s) b → ((Γ.depart i s).chart b).next = [] := by
    intro b hb
    rw [chart_depart hne]
    obtain rfl | hb := hb
    · simp [hne, h.next]
    · have hb : b = Γ.size := by omega
      simp [hb, hs.next]
  have hends : ((Γ.depart i s).chart Γ.here).flags.ending = true := by
    simp [chart_depart hne, hne, BlockFlags.union]
  refine
    { size_le := by omega
      opened := ⟨by omega, hnext _ (.inr (by omega)), by simp [chart_depart hne, hhere, hs.ending],
        by simp [chart_depart hne, hhere, hs.finish]⟩
      newest := .inl (by omega)
      frame := fun b hb hb' => by simp [chart_depart hne, hb.ne, hb']
      nodes := by simp [chart_depart hne, hne]
      closed := fun b hb c hc => by simp [hnext b hb] at hc
      calm := fun b hb => ⟨?_, fun _ => hnext b hb⟩
      marked := fun e b he => by
        obtain ⟨-, rfl⟩ := hmarks e b he
        exact ⟨.inl rfl, hne⟩
      signed := fun e b he => by
        obtain ⟨hby, rfl⟩ := hmarks e b he
        exact ⟨i, by simp [chart_depart hne, hne], hby⟩
      ends := ⟨{Γ.here}, rfl, fun b hb c hc => ?_, fun b hb _ => ?_⟩
      reaches := fun hB => absurd (by simp [Behaviour.saying, Behaviour.after, hfalls]) hB
      reads := fun G K hG => ?_ }
  · obtain rfl | hb := hb
    · simp [chart_depart hne, hne, BlockFlags.union, h.finish]
    · obtain rfl : b = Γ.size := by omega
      simp [chart_depart hne, hs.finish]
  · obtain rfl : b = Γ.here := hb
    simp [hnext _ (.inl rfl)] at hc
  · obtain rfl : b = Γ.here := hb
    exact .inr hends
  · have hnodes := hG.nodes Γ.here (.inl rfl) hne
    simp only [chart_depart hne, hne, if_true, if_false] at hnodes
    have hprefix : (Γ.chart Γ.here).nodes ++ [i] <+: (G Γ.here).nodes := hnodes ▸ List.prefix_rfl
    rw [Chart.rest_eq_just_mul_rest hprefix, ← hnodes, Chart.rest_length, Behaviour.saying,
      Behaviour.into_after, hreads G K hG]
    congr 1
    exact B.into_congr 0 _ K fun hB => absurd hfalls hB

/-- A statement that ends the program. -/
theorem halt (h : Γ.Open) (hs : s.Blank) :
    Fragment Γ (Γ.depart i s) (fun _ _ => False) ((Behaviour.leave .halt).saying [i]) := by
  have hne : Γ.here ≠ Γ.size := h.here_lt.ne
  refine of_depart h hs (fun _ _ h => h.elim) rfl fun G K hG => ?_
  have hnext := hG.next Γ.here (.inl rfl) hne fun _ h => h
  simp only [chart_depart hne, hne, if_true, if_false, h.next] at hnext
  rw [Chart.onward_of_next_eq_nil hnext, Behaviour.into_leave, hG.halt]

/-- A statement that always jumps. -/
theorem jump (h : Γ.Open) (hs : s.Blank) {e : Exit} (he : e.IsBy i) :
    Fragment Γ (Γ.depart i s) (fun e' b => e' = e ∧ b = Γ.here)
      ((Behaviour.leave e).saying [i]) := by
  have hne : Γ.here ≠ Γ.size := h.here_lt.ne
  refine of_depart h hs (fun _ _ h => ⟨h.1 ▸ he, h.2⟩) rfl fun G K hG => ?_
  have hjump := hG.jump e Γ.here ⟨rfl, rfl⟩
  simp only [chart_depart hne, hne, if_true, if_false, h.next] at hjump
  rw [hjump, Behaviour.into_leave, List.map_nil, List.sum_nil, add_zero]

theorem chart_depend (hne : Γ.here ≠ Γ.size) (b : ℕ) : (Γ.depend i s).chart b =
    if b = Γ.size then s else if b = Γ.here then
      { Γ.chart b with
        nodes := (Γ.chart b).nodes ++ [i]
        next := (Γ.chart b).next ++ [Γ.size] }
    else Γ.chart b := by
  by_cases hsize : b = Γ.size
  · subst hsize
    simp [Sketch.depend, Sketch.fresh, Sketch.goTo, Sketch.edge, Sketch.say, Sketch.sayAt, hne.symm]
  · by_cases hhere : b = Γ.here <;>
      simp [Sketch.depend, Sketch.fresh, Sketch.goTo, Sketch.edge, Sketch.say, Sketch.sayAt, hsize,
        hhere, hne]

/-- A statement that jumps or goes on. -/
theorem depend (h : Γ.Open) (hs : s.Blank) {e : Exit} (he : e.IsBy i) :
    Fragment Γ (Γ.depend i s) (fun e' b => e' = e ∧ b = Γ.here)
      ((Behaviour.skip + .leave e).saying [i]) := by
  have hne : Γ.here ≠ Γ.size := h.here_lt.ne
  have hhere : (Γ.depend i s).here = Γ.size := rfl
  have hsize : (Γ.depend i s).size = Γ.size + 1 := rfl
  have horigin : ((Γ.depend i s).chart Γ.here).next = [Γ.size] := by
    simp [chart_depend hne, hne, h.next]
  have hnew : ((Γ.depend i s).chart Γ.size).next = [] := by simp [chart_depend hne, hs.next]
  refine
    { size_le := by omega
      opened := ⟨by omega, hnew, by simp [chart_depend hne, hhere, hs.ending],
        by simp [chart_depend hne, hhere, hs.finish]⟩
      newest := .inl (by omega)
      frame := fun b hb hb' => by simp [chart_depend hne, hb.ne, hb']
      nodes := by simp [chart_depend hne, hne]
      closed := fun b hb c hc => ?_
      calm := fun b hb => ?_
      marked := fun e b he => ⟨.inl he.2, he.2 ▸ hne⟩
      signed := fun e' b h => ⟨i, by simp [chart_depend hne, h.2, hne], h.1 ▸ he⟩
      ends := ⟨{Γ.here, Γ.size}, by simp, fun b hb c hc => ?_, fun b hb hnil => ?_⟩
      reaches := fun _ => .single (by simp [horigin, hhere])
      reads := fun G K hG => ?_ }
  · obtain rfl | hb := hb
    · rw [horigin, List.mem_singleton] at hc
      exact .inr (by omega)
    · obtain rfl : b = Γ.size := by omega
      simp [hnew] at hc
  · obtain rfl | hb := hb
    · exact ⟨by simp [chart_depend hne, hne, h.finish],
        by simp [chart_depend hne, hne, h.ending]⟩
    · obtain rfl : b = Γ.size := by omega
      exact ⟨by simp [chart_depend hne, hs.finish], fun _ => hnew⟩
  · obtain rfl | rfl := hb
    · rw [horigin, List.mem_singleton] at hc
      exact .inr hc
    · simp [hnew] at hc
  · obtain rfl | rfl := hb
    · simp [horigin] at hnil
    · exact .inl rfl
  · have hnodes := hG.nodes Γ.here (.inl rfl) hne
    have hjump := hG.jump e Γ.here ⟨rfl, rfl⟩
    simp only [chart_depend hne, hne, if_true, if_false, h.next, List.nil_append, List.map_cons,
      List.map_nil, List.sum_cons, List.sum_nil, add_zero] at hnodes hjump
    have hprefix : (Γ.chart Γ.here).nodes ++ [i] <+: (G Γ.here).nodes := hnodes ▸ List.prefix_rfl
    rw [Chart.rest_eq_just_mul_rest hprefix, ← hnodes, Chart.rest_length, Behaviour.saying,
      Behaviour.into_after, hjump, Behaviour.into_add, Behaviour.into_skip, Behaviour.into_leave,
      hhere, Chart.reading_eq_rest, add_comm]
    simp [chart_depend hne, hs.nodes]

theorem chart_call (hne : Γ.here ≠ Γ.size) (hlt : Γ.here ≠ Γ.size + 1) (b : ℕ) :
    (Γ.call t s).chart b =
      if b = Γ.size + 1 then s
      else if b = Γ.size then { t with next := t.next ++ [Γ.size + 1] }
      else if b = Γ.here then { Γ.chart b with next := (Γ.chart b).next ++ [Γ.size] }
      else Γ.chart b := by
  have hsucc : Γ.size + 1 ≠ Γ.size := by omega
  simp only [Sketch.call, Sketch.fresh, Sketch.goTo, Sketch.edge]
  by_cases h₁ : b = Γ.size + 1
  · simp [h₁]
  · by_cases h₂ : b = Γ.size
    · simp [h₂, hne.symm]
    · by_cases h₃ : b = Γ.here <;> simp [h₁, h₂, h₃, hne, hlt]

/-- A statement in a block of its own. -/
theorem call (h : Γ.Open) (ht : t.nodes = [i] ∧ t.next = []) (hending : t.flags.ending = false)
    (hfinish : t.flags.finish = false) (hs : s.Blank) :
    Fragment Γ (Γ.call t s) (fun _ _ => False) (Behaviour.skip.saying [i]) := by
  have hne : Γ.here ≠ Γ.size := h.here_lt.ne
  have hne' : Γ.here ≠ Γ.size + 1 := (Nat.lt_succ_of_lt h.here_lt).ne
  have hhere : (Γ.call t s).here = Γ.size + 1 := rfl
  have hsize : (Γ.call t s).size = Γ.size + 2 := rfl
  have horigin : ((Γ.call t s).chart Γ.here).next = [Γ.size] := by
    simp [chart_call hne hne', hne, hne', h.next]
  have hcall : ((Γ.call t s).chart Γ.size).next = [Γ.size + 1] := by
    simp [chart_call hne hne', ht.2]
  have hnew : ((Γ.call t s).chart (Γ.size + 1)).next = [] := by
    simp [chart_call hne hne', hs.next]
  refine
    { size_le := by omega
      opened := ⟨by omega, hnew, by simp [chart_call hne hne', hhere, hs.ending],
        by simp [chart_call hne hne', hhere, hs.finish]⟩
      newest := .inl (by omega)
      frame := fun b hb hb' => by
        simp [chart_call hne hne', hb.ne, hb', (Nat.lt_succ_of_lt hb).ne]
      nodes := by simp [chart_call hne hne', hne, hne']
      closed := fun b hb c hc => ?_
      calm := fun b hb => ?_
      marked := fun _ _ h => h.elim
      signed := fun _ _ h => h.elim
      ends := ⟨{Γ.here, Γ.size, Γ.size + 1}, by simp, fun b hb c hc => ?_, fun b hb hnil => ?_⟩
      reaches := fun _ => Relation.ReflTransGen.head (show Γ.size ∈ _ by simp [horigin])
        (.single (show Γ.size + 1 ∈ _ by simp [hcall]))
      reads := fun G K hG => ?_ }
  · obtain rfl | hb := hb
    · rw [horigin, List.mem_singleton] at hc
      exact .inr (by omega)
    · obtain rfl | rfl : b = Γ.size ∨ b = Γ.size + 1 := by omega
      · rw [hcall, List.mem_singleton] at hc
        exact .inr (by omega)
      · simp [hnew] at hc
  · obtain rfl | hb := hb
    · exact ⟨by simp [chart_call hne hne', hne, hne', h.finish],
        by simp [chart_call hne hne', hne, hne', h.ending]⟩
    · obtain rfl | rfl : b = Γ.size ∨ b = Γ.size + 1 := by omega
      · exact ⟨by simp [chart_call hne hne', hfinish], by simp [chart_call hne hne', hending]⟩
      · exact ⟨by simp [chart_call hne hne', hs.finish], fun _ => hnew⟩
  · obtain rfl | rfl | rfl := hb
    · rw [horigin, List.mem_singleton] at hc
      exact .inr (.inl hc)
    · rw [hcall, List.mem_singleton] at hc
      exact .inr (.inr hc)
    · simp [hnew] at hc
  · obtain rfl | rfl | rfl := hb
    · simp [horigin] at hnil
    · simp [hcall] at hnil
    · exact .inl rfl
  · have hin : Γ.Between (Γ.call t s) Γ.size := .inr (by omega)
    have hloose : Γ.size ≠ (Γ.call t s).here := by omega
    have hnodes := hG.nodes Γ.here (.inl rfl) hne'
    have hnext := hG.next Γ.here (.inl rfl) hne' fun _ h => h
    have hnodes' := hG.nodes Γ.size hin hloose
    have hnext' := hG.next Γ.size hin hloose fun _ h => h
    simp only [chart_call hne hne', hne, hne', if_true, if_false, h.next, List.nil_append]
      at hnodes hnext
    simp only [chart_call hne hne', if_true, if_false, ht.1, ht.2, List.nil_append,
      (Nat.lt_succ_self Γ.size).ne] at hnodes' hnext'
    rw [← hnodes, Chart.rest_length, Chart.onward_of_next_ne_nil (by simp [hnext]), hnext,
      List.map_singleton, List.sum_singleton, Chart.reading_eq, hnodes',
      Chart.onward_of_next_ne_nil (by simp [hnext']), hnext', List.map_singleton,
      List.sum_singleton, Behaviour.saying, Behaviour.into_after, Behaviour.into_skip, hhere,
      Chart.reading_eq_rest]
    simp [chart_call hne hne', hs.nodes]

end Departures

end Fragment

end CobolFlow
