import CobolFlow.Build.Perform
import CobolFlow.Proofs.Steps

/-!
# Drawing jumps and capturing ranges, step by step

Jumps are drawn in small steps. A range is captured in one move, after the moves in which the ranges
are captured that it calls.
-/

namespace CobolFlow.Build

open Scope (Step Move)

variable {α : Type}

/-! ### Drawing the jumps -/

theorem lookup_steps (n : QualifiedName) (span : Span) : Within Step (lookup n span) := by
  refine .bind .get fun s => .bind (.lift _) fun r => ?_
  split
  · exact .pure _
  · exact .bind (report_steps _) fun _ => .pure _
  · exact .bind (report_steps _) fun _ => .pure _

theorem enterSentence_steps (i : SentenceId) (k : SlotId) : Within Step
    (editProcedures (Procedures.modifySentence i fun t => { t with entry := some k })) := by
  intro s _ s' hrun
  obtain ⟨c, hc, rfl⟩ := exists_of_editProcedures_eq_ok hrun
  rw [eq_of_modifySentence_eq_ok hc]
  exact .single (.entry i k)

theorem sentenceEntry_steps (i : SentenceId) : Within Step (sentenceEntry i) := by
  refine .bind .get fun s => .bind (.lift _) fun t => ?_
  split
  · exact .pure _
  · exact .pure _
  · exact .bind (editGraph_steps (Graph.newSlot_steps _)) fun k =>
      .bind (enterSentence_steps i k) fun _ => .pure _

theorem linkToSentence_steps (b : BlockId) (i : SentenceId) :
    Within Step (linkToSentence b i) := by
  refine .bind (sentenceEntry_steps i) fun k? => ?_
  split
  · exact .bind (editGraph_steps (Graph.link_steps b _)) fun _ => .pure _
  · exact .pure _

theorem resolveNextSentences_steps (waiting : List PendingNextSentence) :
    Within Step (resolveNextSentences waiting) := by
  refine .bind (.forIn fun w _ => .bind .get fun s => ?_) fun _ => .pure _
  split
  · exact .bind (linkToSentence_steps _ _) fun _ => .pure _
  · exact .pure _

theorem leadingJump_steps (p : ProcedureId) : Within Step (leadingJump p) := by
  refine .bind .get fun s => .bind (.lift _) fun sentence? => ?_
  split
  · refine .bind (.lift _) fun t => ?_
    split
    · refine .bind (.lift _) fun block => ?_
      split
      · split
        · exact .pure _
        · exact .pure _
      · exact .pure _
    · exact .pure _
  · exact .pure _

theorem resolveAlterClause_steps (span : Span) (known : Alterations) (clause : AlterClause) :
    Within Step (resolveAlterClause span known clause) := by
  refine .bind (lookup_steps _ _) fun altered? => ?_
  split
  · refine .bind (lookup_steps _ _) fun target? => ?_
    split
    · refine .bind (leadingJump_steps _) fun jump? => ?_
      split
      · exact .pure _
      · exact .bind .get fun s => .bind (.lift _) fun _ => .bind (report_steps _) fun _ => .pure _
    · exact .pure _
  · exact .pure _

theorem resolveAlters_steps (waiting : List PendingAlter) :
    Within Step (resolveAlters waiting) :=
  .foldlM fun _ w => .foldlM (resolveAlterClause_steps w.span)

theorem resolveJump_steps (a : Alterations) (w : PendingJump) :
    Within Step (resolveJump a w) := by
  refine .bind (.foldlM fun reached target => .bind (lookup_steps _ _) fun p? => ?_) fun _ =>
    .pure _
  split
  · split
    · exact .pure _
    · refine .bind .get fun s => .bind (.lift _) fun sentence? => ?_
      split
      · exact .bind (linkToSentence_steps _ _) fun _ => .pure _
      · exact .pure _
  · exact .pure _

theorem resolveJumps_steps (a : Alterations) (waiting : List PendingJump) :
    Within Step (resolveJumps a waiting) :=
  .forM (resolveJump_steps a)

/-! ### Capturing performed ranges -/

/-- A small step is a step. -/
theorem within_of_steps {x : Build α} (h : Within Step x) : Within Move x :=
  h.mono fun _ _ => .step

theorem performedRange_steps (w : PendingPerform) : Within Step (performedRange w) := by
  refine .bind (lookup_steps _ _) fun first? => ?_
  split
  · next first =>
    have hlast : ∀ last : ProcedureId, Within Step (do
        if last < first then
          let c := (← get).procedures
          report
            { kind := .invalidPerformRange (← c.procedure first).name (← c.procedure last).name
              span := w.span }
          return none
        else
          return some (first, last)) := fun last => by
      split
      · exact .bind .get fun s => .bind (.lift _) fun _ => .bind (.lift _) fun _ =>
          .bind (report_steps _) fun _ => .pure _
      · exact .pure _
    cases w.range.through with
    | some through =>
      refine .bind (lookup_steps _ _) fun last? => ?_
      cases last? with
      | some last => exact hlast last
      | none => exact .pure _
    | none => exact hlast first
  · exact .pure _

section Captures

variable {capture : ℕ → Capture → Build Capture}

theorem visitCallSite_within (hcapture : ∀ j c, Within Move (capture j c)) (w : PendingPerform)
    (range : String) (b : BlockId) (c : Capture) :
    Within Move (visitCallSite capture w range b c) := by
  refine .bind .get fun s => .bind (.lift _) fun block => ?_
  split
  · split
    · split
      · exact hcapture _ c
      · refine .bind (within_of_steps (report_steps _)) fun _ => .bind ?_ fun _ => .pure _
        intro s _ s' hrun
        obtain ⟨g, hg, rfl⟩ := exists_of_editGraph_eq_ok hrun
        exact .single (.markRecursive hg)
      · exact .pure _
    · exact .pure _
  · exact .pure _

theorem collect_within (hcapture : ∀ j c, Within Move (capture j c)) (w : PendingPerform)
    (range : String) (blocks : List BlockId) (c : Capture) :
    Within Move (collect capture w range blocks c) := by
  refine .foldlM fun (collected, c) b => ?_
  dsimp only
  split
  · exact .bind (within_of_steps (report_steps _)) fun _ => .pure _
  · exact .bind (visitCallSite_within hcapture w range b c) fun _ => .pure _

end Captures

theorem resolvePerform_within (depth k : ℕ) (c : Capture) :
    Within Move (resolvePerform depth k c) := by
  induction depth generalizing k c with
  | zero => exact .pure c
  | succ depth ih =>
    unfold resolvePerform
    split
    · next w _ =>
      split
      · refine .bind (within_of_steps (performedRange_steps w)) fun range? => ?_
        split
        · exact .pure _
        · refine .bind .get fun s => .bind (.lift _) fun group => .bind .get fun s' =>
            .bind (.lift _) fun blocks => .bind (collect_within ih w _ blocks _) fun r =>
            .bind (fun s _ s' hrun => .single (.relocate hrun)) fun _ => .pure _
      · exact .pure c
    · exact .pure c

theorem resolvePerforms_within (waiting : List PendingPerform) :
    Within Move (resolvePerforms waiting) :=
  .bind (.foldlM fun c k => resolvePerform_within _ k c) fun _ => .pure _

end CobolFlow.Build
