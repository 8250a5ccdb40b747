import CobolFlow.Proofs.Calls.Capturing
import CobolFlow.Proofs.Calls.Carrying
import CobolFlow.Proofs.Calls.Filing

/-!
# The captured ranges stand aside

Capturing reports, marks groups that close a cycle, and puts copies of blocks beside the graph. The
catalog of procedures stays as it is, so that every range is one of the draft, whose sentences begin
where control may come to. Control is carried on after the capture as it was before, and comes to
none of the copies.

## Main definitions

* `Scope.Opens` — control may come to the beginning of every sentence
* `Scope.StandsAside` — how far the capture of ranges has come

## Main results

* `Build.resolvePerforms_standsAside` — it is true at the end
-/

namespace CobolFlow

/-- Control may come to the beginning of every sentence. -/
def Scope.Opens (s : Scope) (live : BlockId → Prop) : Prop :=
  ∀ {j : SentenceId} {t : Sentence}, s.procedures.sentences[j]? = some t →
    (∀ b ∈ t.blocks, b < s.graph.size) ∧ ∀ b ∈ t.blocks.head?, live b

/-- Since `s₀` nothing has been done but that groups were marked, and copies put aside. -/
structure Scope.StandsAside (s₀ : Scope) (live : BlockId → Prop) (s : Scope) : Prop where
  procedures : s.procedures = s₀.procedures
  le : s₀.graph.size ≤ s.graph.size
  carries : ∃ live', s.graph.Carries (fun b => s₀.graph.size ≤ b ∧ b < s.graph.size)
    (fun _ => False) live' ∧ ∀ b < s₀.graph.size, live' b ↔ live b

namespace Scope

variable {s s₀ s' : Scope} {live : BlockId → Prop}

namespace StandsAside

/-- Before the first capture there are no copies. -/
theorem start (h : s₀.graph.Carries (fun _ => False) (fun _ => False) live) :
    s₀.StandsAside live s₀ where
  procedures := rfl
  le := le_rfl
  carries := by
    have hnone : (fun b => s₀.graph.size ≤ b ∧ b < s₀.graph.size) = fun _ => False := by
      funext b
      exact eq_false fun hb => hb.2.not_ge hb.1
    exact ⟨live, hnone ▸ h, fun _ _ => Iff.rfl⟩

theorem congr (h : s₀.StandsAside live s) (hgraph : s'.graph = s.graph)
    (hprocedures : s'.procedures = s.procedures) : s₀.StandsAside live s' where
  procedures := hprocedures.trans h.procedures
  le := hgraph ▸ h.le
  carries := hgraph ▸ h.carries

/-- A group is found to close a cycle. -/
theorem mark (h : s₀.StandsAside live s) {i : GroupId} {g : Graph}
    (hrun : Graph.modifyGroup i (fun group => { group with recursive := true }) s.graph =
      .ok ((), g)) : s₀.StandsAside live { s with graph := g } := by
  obtain ⟨-, rfl⟩ := Graph.eq_of_modifyGroup_eq_ok hrun
  obtain ⟨live', hcarries, hlive⟩ := h.carries
  exact
    { procedures := h.procedures
      le := h.le
      carries := ⟨live', hcarries.modifyGroup (fun _ => rfl)
        (fun _ hgroup m hm => hcarries.members hgroup m hm)
        (fun _ hgroup hsite m hm => hcarries.enters hgroup hsite m hm), hlive⟩ }

end StandsAside

end Scope

namespace Build

open Scope (StandsAside)

variable {s s₀ : Scope} {live : BlockId → Prop}

/-! ### The blocks of a range -/

/-- A range begins with a sentence. -/
theorem blocks_of_opens (h : s₀.Opens live) {first last : ProcedureId} {blocks : List BlockId}
    (hblocks : capturedBlocks s₀.procedures first last = .ok blocks) :
    (∀ b ∈ blocks, b < s₀.graph.size) ∧ ∀ b ∈ blocks.head?, live b := by
  obtain ⟨found, -, rfl⟩ := Procedures.exists_of_capturedBlocks_eq_ok hblocks
  constructor
  · intro b hb
    obtain ⟨j, -, hb⟩ := List.mem_flatMap.1 hb
    obtain ⟨t, ht, hb⟩ := Procedures.mem_getD_blocks.1 hb
    exact (h ht).1 b hb
  · intro b hb
    rw [List.head?_flatMap] at hb
    obtain ⟨j, -, hb⟩ := List.exists_of_findSome?_eq_some hb
    cases ht : s₀.procedures.sentences[j]? with
    | none => rw [ht] at hb; exact nomatch hb
    | some t => exact (h ht).2 b (by rw [ht] at hb; exact hb)

/-! ### The capture -/

/-- **The capture of a range** puts its copies aside. -/
theorem captures_standsAside (hopens : s₀.Opens live) : Captures (s₀.StandsAside live) where
  report _ h := h.congr rfl rfl
  mark h hg := h.mark hg
  relocate {s w range blocks captured} h hblocks hsub hfirst := by
    rw [h.procedures] at hblocks
    obtain ⟨first, last, -, hblocks⟩ := Procedures.captured?_eq_some_iff.1 hblocks
    obtain ⟨hlt, hhead⟩ := blocks_of_opens hopens hblocks
    obtain ⟨live', hcarries, hlive⟩ := h.carries
    refine (relocate_carries hcarries w range (fun b hb => ?_) fun b hb => ?_).mono ?_
    · have hb := hlt b (hsub hb)
      exact ⟨hb.trans_le h.le, fun ha => ha.1.not_gt hb⟩
    · have hb : b ∈ blocks.head? := hfirst ▸ hb
      exact (hlive b (hlt b (List.mem_of_mem_head? hb))).2 (hhead b hb)
    · rintro _ s' ⟨hprocedures, hle, live₁, hcarries₁, hlive₁⟩
      have haside : (fun b => (s₀.graph.size ≤ b ∧ b < s.graph.size) ∨
          s.graph.size ≤ b ∧ b < s'.graph.size) =
          fun b => s₀.graph.size ≤ b ∧ b < s'.graph.size := by
        funext b
        have hle₀ := h.le
        exact propext (by omega)
      exact
        { procedures := hprocedures.trans h.procedures
          le := h.le.trans hle
          carries := ⟨live₁, haside ▸ hcarries₁, fun b hb =>
            (hlive₁ b (hb.trans_le h.le)).trans (hlive b hb)⟩ }

/-- **The capture of all ranges** puts their copies aside. -/
theorem resolvePerforms_standsAside (hopens : s₀.Opens live) (h : s₀.StandsAside live s)
    (waiting : List PendingPerform) :
    Ensures (resolvePerforms waiting) s fun _ s' => s₀.StandsAside live s' :=
  (captures_standsAside hopens).resolvePerforms h waiting

end Build

end CobolFlow
