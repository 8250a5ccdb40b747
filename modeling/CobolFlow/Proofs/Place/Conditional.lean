import CobolFlow.Proofs.Place.Division
import CobolFlow.Proofs.Steps.Inside
import CobolFlow.Proofs.Steps.Lengthening

/-!
# Where a GO TO is entered

What follows a GO TO is written into a new block. A GO TO with DEPENDING ON need not leave, so its
block leads on to the new one; the block of any other leads nowhere. It does so from the moment at
which the GO TO is entered, and whatever is built later takes no edge away.

## Main results

* `Scope.Ready.of_goTo` — what is there when a GO TO has been entered
* `Build.exists_next_of_conditional` — the block of a GO TO that may go on leads on
-/

namespace CobolFlow

open Scope

namespace Scope

variable {o : Options} {s s' : Scope} {n : Node} {j : Jump}

/-- **A GO TO** is written at the end of its block, and what follows goes into a new one. -/
theorem Ready.of_goTo (h : Ready s) (hn : n.kind = .goTo j)
    (htake : Build.take o (.enter n) s = .ok ((), s')) : ∃ s₁ l, s' = s₁.under n.tag ∧
      Since s s₁ (if j.isSimple then s.sketch.depart n.instruction s.spot
        else s.sketch.depend n.instruction s.spot) s.forks l := by
  have htag : n.tag ≠ .procedureDivision := by
    rw [Node.tag, hn, NodeKind.tag_goTo]
    split <;> nofun
  obtain ⟨s₁, hrun, l, h₁⟩ := h.since.exists_enter (o := o) (n := n)
    (P := fun s₁ => ∃ l, Since s s₁ (if j.isSimple then s.sketch.depart n.instruction s.spot
      else s.sketch.depend n.instruction s.spot) s.forks l) h htag fun s₁ h₁ => by
    simp only [Build.enterKind, hn]
    cases hj : j.isSimple with
    | true =>
      obtain ⟨s₂, hrun, h₂⟩ := h₁.exists_enterJump_simple n.instruction n.span hj
      exact ⟨s₂, hrun, _, h₂⟩
    | false =>
      obtain ⟨s₂, hrun, h₂⟩ := h₁.exists_enterJump_conditional n.instruction n.span hj
      exact ⟨s₂, hrun, _, h₂⟩
  exact ⟨s₁, l, (Prod.mk.inj (Except.ok.inj (htake.symm.trans hrun))).2, h₁⟩

/-- The block of a GO TO that need not leave leads on to the new block, and any other nowhere. -/
theorem Ready.next_of_goTo (h : Ready s) (hn : n.kind = .goTo j)
    (htake : Build.take o (.enter n) s = .ok ((), s')) :
    n.instruction ∈ (s'.graph.chart s.sketch.here).nodes ∧
      (s'.graph.chart s.sketch.here).next = if j.isSimple then [] else [s.graph.size] := by
  obtain ⟨s₁, l, rfl, hsince⟩ := h.of_goTo hn htake
  have hlt : s.sketch.here < s.sketch.size := h.opened.here_lt
  have hnext := h.opened.next
  change n.instruction ∈ (s₁.graph.chart _).nodes ∧ (s₁.graph.chart _).next = _
  rw [hsince.chart]
  cases j.isSimple <;>
    simp [Sketch.depend, Sketch.depart, Sketch.fresh, Sketch.flag, Sketch.goTo, Sketch.edge,
      Sketch.say, Sketch.sayAt, hlt.ne, hnext]
  rfl

end Scope

namespace Build

variable {o : Options} {s s' : Scope} {events : List Notification} {n : Node} {j : Jump}

/-- **The block of such a GO TO leads on.** -/
theorem exists_next_of_conditional (hadmits : Admits o events s)
    (hwithin : ∀ e ∈ events, e.IsWithin) (hplay : play o events s = .ok ((), s'))
    (hmem : .enter n ∈ events) (hn : n.kind = .goTo j) (hj : j.isSimple = false) :
    ∃ b, n.instruction ∈ (s'.graph.chart b).nodes ∧ (s'.graph.chart b).next ≠ [] := by
  obtain ⟨before, rest, rfl⟩ := List.append_of_mem hmem
  obtain ⟨s₁, hbefore, hplay⟩ := exists_of_play_append hplay
  obtain ⟨s₂, htake, hrest⟩ := exists_of_play_cons hplay
  have hstatement : n.tag.isStatement = true := by
    rw [Node.tag, hn, NodeKind.tag_goTo, hj]
    rfl
  -- it is entered as in a clear block
  obtain ⟨t, hclear, -, htake'⟩ := ((Admits.append_iff.1 hadmits).2 s₁ hbefore).1.2 hstatement
  obtain ⟨hnodes, hnext⟩ := hclear.ready.next_of_goTo hn (htake'.trans htake)
  rw [hj] at hnext
  have hlengthens : s₂.graph.Lengthens s'.graph := lengthens_of_strides
    (play_strides o fun e he => hwithin e (by simp [he])) s₂ () s' hrest
  refine ⟨_, (hlengthens.nodes _).subset hnodes, fun hnil => ?_⟩
  have hnone := List.subset_nil.1 (hnil ▸ hlengthens.next _)
  exact nomatch hnext.symm.trans hnone

end Build

end CobolFlow
