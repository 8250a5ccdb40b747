import CobolFlow.Proofs.Pruning
import CobolFlow.Proofs.Steps.Inside
import CobolFlow.Proofs.Unaware.Decision

/-!
# Replays with some of the references only

References are put aside where a GO TO or an ALTER is entered, and nothing else is done with them
before the division ends. So a pruned division is drawn like the whole one, and less waits in the
end.

## Main definitions

* `Pending.pruned` — what waits, with some of the references only

## Main results

* `Build.take_lockstep`, `Build.play_lockstep` — one notification, and many
-/

namespace CobolFlow

variable {keep : Reference → Bool} {ps : List Problem}

def PendingJump.pruned (keep : Reference → Bool) (w : PendingJump) : PendingJump :=
  { w with jump := w.jump.pruned keep w.span }

def PendingAlter.pruned (keep : Reference → Bool) (w : PendingAlter) : PendingAlter :=
  { w with clauses := w.clauses.filter fun c => keep (.clause c w.span) }

/-- What waits for the end of a division, with some of the references only. -/
def Pending.pruned (keep : Reference → Bool) (p : Pending) : Pending :=
  { p with jumps := p.jumps.map (·.pruned keep), alters := p.alters.map (·.pruned keep) }

/-- If all references are kept nothing changes. -/
theorem Pending.pruned_true (p : Pending) : p.pruned (fun _ => true) = p := by
  have hjump : ∀ w : PendingJump, w.pruned (fun _ => true) = w := fun ⟨node, span, j, block⟩ => by
    cases j <;> simp [PendingJump.pruned, Jump.pruned]
  have halter : ∀ w : PendingAlter, w.pruned (fun _ => true) = w := fun w => by
    simp [PendingAlter.pruned]
  simp [Pending.pruned, hjump, halter]

theorem Pending.regular_pruned (keep : Reference → Bool) : Regular (pruned keep) where
  perform _ _ := rfl
  nextSentence _ _ := rfl

namespace Build

theorem enterJump_lockstep (i : Instruction) (span : Span) (jump : Jump) :
    Lockstep (Pending.pruned keep) ps (enterJump i span jump)
      (enterJump i span (jump.pruned keep span)) := by
  refine .bind current?_unaware fun b? => ?_
  split
  · refine .bind (.modify fun s => ?_) fun _ => .bind (addInstruction_unaware i) fun _ => ?_
    · simp [Scope.revised, Pending.pruned, PendingJump.pruned]
    · rw [Jump.isSimple_pruned]
      split
      · exact .bind (markCurrent_unaware _) fun _ => .bind breakBlock_unaware fun _ => .pure _
      · exact .bind breakBlock_unaware fun _ => .bind (.editGraph _) fun _ => .pure _
  · exact .pure _

theorem enterAlter_lockstep (i : Instruction) (span : Span) (clauses : List AlterClause) :
    Lockstep (Pending.pruned keep) ps (enterAlter i span clauses)
      (enterAlter i span (clauses.filter fun c => keep (.clause c span))) := by
  refine .bind (addInstruction_unaware i) fun _ => .modify fun s => ?_
  simp [Scope.revised, Pending.pruned, PendingAlter.pruned]

theorem enterKind_lockstep (o : Options) (n : Node) : Lockstep (Pending.pruned keep) ps
    (enterKind o n) (enterKind o (n.pruned keep)) := by
  have hregular := Pending.regular_pruned keep
  have htag : (⟨(n.pruned keep).id, (n.pruned keep).tag⟩ : Instruction) = ⟨n.id, n.tag⟩ := by
    rw [Node.tag_pruned]
    rfl
  unfold enterKind
  rw [htag]
  obtain ⟨id, kind, span, text⟩ := n
  cases kind with
  | program _ | function _ | procedureDivision => exact .pure _
  | declaratives => exact enterDeclaratives_unaware
  | sectionHeader name => exact enterSection_unaware name span
  | paragraphHeader name => exact enterParagraph_unaware name span
  | ifThen => exact enterIf_unaware _
  | elsePart => exact enterElse_unaware _
  | evaluate => exact enterEvaluate_unaware _
  | whenPhrase | whenOther | searchWhen => exact deferPhrase_unaware _
  | search => exact enterSearch_unaware o _
  | alter clauses => exact enterAlter_lockstep _ span clauses
  | goTo jump => exact enterJump_lockstep _ span jump
  | nextSentence => exact enterNextSentence_unaware hregular _
  | perform range => exact enterPerform_unaware hregular _ span range
  | loop repetition testAfter => exact enterLoop_unaware _ testAfter
  | terminate ending => exact enterEnding_unaware _
  | exception phrase => exact enterException_unaware o _ phrase
  | exit | call _ | ordinary _ => exact addInstruction_unaware _

theorem enterInside_lockstep (o : Options) (n : Node) : Lockstep (Pending.pruned keep) ps
    (enterInside o n) (enterInside o (n.pruned keep)) := by
  have hrecord : Graph.recordNode (n.pruned keep) = Graph.recordNode n := by
    rw [Graph.recordNode, Graph.recordNode, Node.info_pruned]
    rfl
  unfold enterInside
  rw [hrecord, Node.tag_pruned]
  refine .bind (.editGraph _) fun _ => ?_
  split
  · exact .bind ensureSentence_unaware fun _ => enterKind_lockstep o n
  · exact enterKind_lockstep o n

/-- A node is entered that is not a division. -/
theorem enterNode_lockstep (o : Options) {n : Node} (hn : n.tag ≠ .procedureDivision) :
    Lockstep (Pending.pruned keep) ps (enterNode o n) (enterNode o (n.pruned keep)) := by
  unfold enterNode
  rw [Node.tag_pruned, if_neg hn, if_neg hn]
  refine .get_bind (fun _ => rfl) fun s => ?_
  split
  · exact .bind (enterInside_lockstep o n) fun _ => .modify fun _ => rfl
  · exact .modify fun _ => rfl

/-- A node is left that is not a division. -/
theorem leaveNode_lockstep (o : Options) {n : Node} (hn : n.kind ≠ .procedureDivision) :
    Lockstep (Pending.pruned keep) ps (leaveNode o n) (leaveNode o (n.pruned keep)) := by
  refine .bind (.modify fun _ => rfl) fun _ => .get_bind (fun _ => rfl) fun s => ?_
  split
  · obtain ⟨id, kind, span, text⟩ := n
    cases kind with
    | procedureDivision => exact absurd rfl hn
    | declaratives => exact leaveDeclaratives_unaware
    | ifThen => exact leaveIf_unaware
    | evaluate => exact leaveEvaluate_unaware o
    | search => exact leaveSearch_unaware o
    | loop repetition testAfter => exact leaveLoop_unaware repetition
    | exception phrase => exact leaveException_unaware phrase
    | _ => exact .pure _
  · exact .pure _

theorem take_lockstep (o : Options) {e : Notification} (he : e.IsWithin) :
    Lockstep (Pending.pruned keep) ps (take o e) (take o (e.pruned keep)) := by
  cases e with
  | enter n => exact enterNode_lockstep o fun htag => he (NodeKind.eq_procedureDivision htag)
  | leave n => exact leaveNode_lockstep o he
  | sentenceEnd => exact endSentence_unaware
  | whenClause => exact startWhen_unaware o
  | whenOtherClause => exact startWhenOther_unaware
  | searchClause atEnd => exact startSearchWhen_unaware o atEnd

/-- **A division** is drawn alike if it is pruned. -/
theorem play_lockstep (o : Options) {events : List Notification} (h : ∀ e ∈ events, e.IsWithin) :
    Lockstep (Pending.pruned keep) ps (play o events)
      (play o (events.map (·.pruned keep))) := by
  induction events with
  | nil => exact .pure _
  | cons e rest ih =>
    exact .bind (take_lockstep o (h e (by simp))) fun _ => ih fun e he => h e (by simp [he])

end Build

end CobolFlow
