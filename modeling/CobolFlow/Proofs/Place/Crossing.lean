import CobolFlow.Proofs.Place.Clear
import CobolFlow.Proofs.Place.Passage
import CobolFlow.Proofs.Structured

/-!
# Passages through a fragment

A fragment from which nothing departs is crossed from the place where it begins to the place where
it ends. The passages that arrive read what its behaviour says that falls through, and those on
which the program ends what it says that halts.

The behaviour of a fragment is known from what is read in charts that agree with it. So the chart is
cut where the fragment ends, at a mark that does not occur in it.

## Main results

* `Fragment.exists_crossing` — what is read on passages through a fragment
-/

namespace CobolFlow

open Chart (Confined)

theorem Behaviour.into_endings_eq_add (B : Behaviour) (X : Language Instruction) :
    B.into X endings = B.falls * X + B.exits .halt := by
  rw [B.into_eq_add_leaving X 1, into_endings, traces, leaving, zero_add]

/-- Where an instruction of a passage comes from on which the program ends. -/
theorem Chart.Ends.exists_mem {χ : Chart} {p q : Place} {S : Set ℕ} {w : List Instruction}
    (hS : χ.Confined q S) (h : χ.Ends q p w) (hp : Confined.Within q S p) {i : Instruction}
    (hi : i ∈ w) : ∃ b ∈ S, i ∈ (χ b).nodes := by
  induction h with
  | here => exact ⟨_, hp.1, List.mem_of_mem_drop hi⟩
  | step hmisses hc _ ih =>
    obtain hi | hi := List.mem_append.1 hi
    · exact ⟨_, hp.1, List.mem_of_mem_drop hi⟩
    · exact ih (hS.next hp (hp.ne hmisses) hc) hi

/-- There is always another instruction. -/
theorem exists_fresh_instruction (is : List Instruction) : ∃ i : Instruction, i ∉ is := by
  have : Infinite Instruction :=
    .of_injective (fun n => (⟨n, .exit⟩ : Instruction)) fun _ _ h => (Instruction.mk.inj h).1
  obtain ⟨i, hi⟩ := Infinite.exists_notMem_finset is.toFinset
  exact ⟨i, fun h => hi (List.mem_toFinset.2 h)⟩

namespace Fragment

variable {Γ Γ' : Sketch} {marks : Departures} {B : Behaviour} {i : Instruction} {loops : Bool}

/-- A chart that is cut where a fragment ends has settled it, if nothing departs. -/
theorem settles_cut (hmarks : ∀ e b, ¬ marks e b) :
    Chart.Settles (Γ'.chart.cut Γ'.place i loops) Γ'.chart (Γ.Between Γ') (· = Γ'.here) marks
      Behaviour.endings where
  halt := if_pos rfl
  nodes b _ hb := by rw [Chart.cut_of_ne hb]
  grows b hb := by
    obtain rfl := hb
    change (Γ'.chart Γ'.place.block).nodes <+:
      (Γ'.chart.cut Γ'.place i loops Γ'.place.block).nodes
    rw [Chart.nodes_cut]
    exact ⟨[i], congrArg (· ++ [i]) List.take_length.symm⟩
  next b _ hb _ := by rw [Chart.cut_of_ne hb]
  jump e b he := absurd he (hmarks e b)

theorem rest_cut (h : Fragment Γ Γ' marks B) (hmarks : ∀ e b, ¬ marks e b) :
    (Γ'.chart.cut Γ'.place i loops).rest Γ.place.skip Γ.place.block =
      B.falls * (if loops then 0 else just [i]) + B.exits .halt := by
  rw [← Chart.rest_cut (le_refl _ : Γ'.place.skip ≤ (Γ'.chart Γ'.place.block).nodes.length),
    ← Behaviour.into_endings_eq_add]
  exact h.reads _ _ (settles_cut hmarks)

/-- The blocks of a fragment that passages to its end go through. -/
theorem exists_confined (hlt : Γ.here < Γ.size) (h : Fragment Γ Γ' marks B) :
    ∃ S : Set ℕ, (∀ b ∈ S, Γ.Between Γ' b ∧ (b ≠ Γ'.here → Γ'.Busy b)) ∧
      Γ'.chart.Confined Γ'.place S ∧ Confined.Within Γ'.place S Γ.place := by
  obtain ⟨S, hhere, hclosed, hends⟩ := h.ends
  have hsinks : ∀ b ∈ {b ∈ S | Γ.Between Γ' b}, b ≠ Γ'.here →
      ((Γ'.chart b).next = [] ↔ (Γ'.chart b).flags.ending = true) := fun b hb hne =>
    ⟨fun hnil => (hends b hb.1 hnil).resolve_left hne, (h.calm b hb.2).next⟩
  refine ⟨{b ∈ S | Γ.Between Γ' b}, fun b hb => ⟨hb.2, fun hne => ?_⟩, ⟨fun b hb _ c hc => ?_,
    hsinks⟩, ⟨hhere, .inl rfl⟩, fun heq => ?_⟩
  · refine ⟨between_lt hlt h hb.2, ?_⟩
    by_cases hnil : (Γ'.chart b).next = []
    · exact .inr ((hsinks b hb hne).1 hnil)
    · exact .inl hnil
  · exact ⟨hclosed b hb.1 c hc, h.closed b hb.2 c hc⟩
  · obtain heq : Γ.here = Γ'.here := heq
    have hle := h.nodes.length_le
    change (Γ.chart Γ.here).nodes.length ≤ (Γ'.chart Γ'.here).nodes.length
    rwa [← heq]

/-- **Passages through a fragment.** There are blocks among those of the fragment that passages to
its end do not leave, and what is read on these passages is what its behaviour says. -/
theorem exists_crossing (hlt : Γ.here < Γ.size) (h : Fragment Γ Γ' marks B)
    (hmarks : ∀ e b, ¬ marks e b) :
    ∃ S : Set ℕ, (∀ b ∈ S, Γ.Between Γ' b ∧ (b ≠ Γ'.here → Γ'.Busy b)) ∧
      Γ'.chart.Confined Γ'.place S ∧ Confined.Within Γ'.place S Γ.place ∧
      (∀ w, Γ'.chart.Arrives Γ'.place Γ.place w ↔ w ∈ B.falls) ∧
      ∀ w, Γ'.chart.Ends Γ'.place Γ.place w ↔ w ∈ B.exits .halt := by
  obtain ⟨S, hS, hconfined, hwithin⟩ := h.exists_confined hlt
  obtain ⟨i, hi⟩ := exists_fresh_instruction
    ((List.range Γ'.size).flatMap fun b => (Γ'.chart b).nodes)
  have hcut : ∀ (loops : Bool) (w : List Instruction),
      ((loops = false ∧ ∃ v, Γ'.chart.Arrives Γ'.place Γ.place v ∧ w = v ++ [i]) ∨
        Γ'.chart.Ends Γ'.place Γ.place w) ↔
      w ∈ B.falls * (if loops then 0 else just [i]) + B.exits .halt := fun loops w => by
    rw [← h.rest_cut hmarks, Chart.mem_rest_cut hconfined (le_refl _) hwithin]
  have hends : ∀ w, Γ'.chart.Ends Γ'.place Γ.place w ↔ w ∈ B.exits .halt := fun w => by
    simpa using hcut true w
  -- What ends on the way does not read the mark, so what reads it last arrives.
  have hmark : ∀ v, v ++ [i] ∉ B.exits .halt := fun v hv => by
    obtain ⟨b, hb, hmem⟩ := ((hends _).2 hv).exists_mem hconfined hwithin (List.mem_append_right v
      List.mem_cons_self)
    exact hi (List.mem_flatMap.2 ⟨b, List.mem_range.2 (between_lt hlt h (hS b hb).1), hmem⟩)
  refine ⟨S, hS, hconfined, hwithin, fun w => ?_, hends⟩
  have hw := hcut false (w ++ [i])
  simpa [hends, hmark, Language.mem_add, Language.mem_mul] using hw

end Fragment

end CobolFlow
