import CobolFlow.Build.Decision
import CobolFlow.Proofs.Unaware

/-!
# Decisions, whatever waits

What is done at a fork depends on the fork and on the graph, and never on what has been put aside or
reported.
-/

namespace CobolFlow.Build

variable {f : Pending → Pending} {ps : List Problem}

/-! ### The stack of forks -/

theorem pushFork_unaware (fork : Fork) : Unaware f ps (pushFork fork) := .modify fun _ => rfl

theorem popFork?_unaware : Unaware f ps popFork? := by
  refine .get_bind (fun _ => rfl) fun s => ?_
  split
  · exact .bind (.modify fun _ => rfl) fun _ => .pure _
  · exact .bind (violate_unaware _) fun _ => .pure _

theorem popCascade_unaware : Unaware f ps popCascade :=
  .get_set_bind (fun _ => rfl) (fun _ => rfl) fun _ => .bind popFork?_unaware fun _ => .pure _

theorem openBranch_unaware (b : BlockId) : Unaware f ps (openBranch b) := by
  refine .get_bind (fun _ => rfl) fun s => ?_
  split
  · exact .bind (.editGraph _) fun _ => .bind (.modify fun _ => rfl) fun _ => setCurrent_unaware b
  · exact setCurrent_unaware b

theorem joinFork_unaware (fork : Fork) (originToNext : Bool) :
    Unaware f ps (joinFork fork originToNext) :=
  .bind (newBlock_unaware none) fun _ => .bind (.editGraph _) fun _ => setCurrent_unaware _

theorem takePhrases_unaware (depth : ℕ) : Unaware f ps (takePhrases depth) :=
  .modifyGet fun _ => rfl

theorem deferPhrase_unaware (i : Instruction) : Unaware f ps (deferPhrase i) := by
  refine .get_bind (fun _ => rfl) fun s => ?_
  split
  · exact .modify fun _ => rfl
  · exact violate_unaware _

theorem isDefault_unaware (branch : Option BlockId) : Unaware f ps (isDefault branch) := by
  cases branch with
  | none => exact .pure _
  | some b => exact .get_bind (fun _ => rfl) fun s => .bind (.lift _) fun _ => .pure _

/-! ### IF and EVALUATE -/

theorem enterIf_unaware (i : Instruction) : Unaware f ps (enterIf i) := by
  refine .bind current?_unaware fun b? => ?_
  split
  · exact .bind (pushFork_unaware _) fun _ => .bind (addInstruction_unaware i) fun _ =>
      .bind (newBlock_unaware none) fun _ => openBranch_unaware _
  · exact .pure _

theorem enterElse_unaware (i : Option Instruction) : Unaware f ps (enterElse i) :=
  .bind (newBlock_unaware i) fun _ => openBranch_unaware _

theorem leaveIf_unaware : Unaware f ps leaveIf := by
  refine .bind popFork?_unaware fun fork? => ?_
  split
  · exact joinFork_unaware _ _
  · exact .pure _

theorem enterEvaluate_unaware (i : Instruction) : Unaware f ps (enterEvaluate i) := by
  refine .bind current?_unaware fun b? => ?_
  split
  · exact .bind (pushFork_unaware _) fun _ => addInstruction_unaware i
  · exact .pure _

theorem pushLevel_unaware : Unaware f ps pushLevel := by
  refine .bind current?_unaware fun b? => ?_
  split
  · refine .get_bind (fun _ => rfl) fun s => .bind (pushFork_unaware _) fun _ =>
      .bind (takePhrases_unaware 1) fun phrases => .bind (.forIn fun i _ => ?_) fun _ =>
      .bind (newBlock_unaware none) fun _ => openBranch_unaware _
    exact .bind (addInstruction_unaware i) fun _ => .pure _
  · exact .pure _

theorem openPhraseBranch_unaware (m : BlockFlags) : Unaware f ps (openPhraseBranch m) :=
  .bind (takePhrases_unaware 0) fun _ => .bind (newBlock_unaware none) fun b =>
    .bind (.editGraph _) fun _ =>
    .bind (.forIn fun _ _ => .bind (.editGraph _) fun _ => .pure _) fun _ => openBranch_unaware b

theorem startWhen_unaware (o : Options) : Unaware f ps (startWhen o) := by
  refine .get_bind (fun _ => rfl) fun s => ?_
  split
  · exact violate_unaware _
  · split
    · split
      · exact pushLevel_unaware
      · exact .bind (enterElse_unaware none) fun _ => pushLevel_unaware
    · exact openPhraseBranch_unaware _

theorem startWhenOther_unaware : Unaware f ps startWhenOther := by
  refine .get_bind (fun _ => rfl) fun s => ?_
  split
  · exact violate_unaware _
  · exact .bind (takePhrases_unaware 0) fun _ => .bind (newBlock_unaware none) fun b =>
      .bind (.editGraph _) fun _ =>
      .bind (.forIn fun _ _ => .bind (.editGraph _) fun _ => .pure _) fun _ => openBranch_unaware b

theorem joinLevels_unaware (levels : List Fork) : Unaware f ps (forIn levels PUnit.unit
    fun level _ => do
      joinFork level (level.branches.length == 1)
      pure (ForInStep.yield PUnit.unit) : Build PUnit) :=
  .forIn fun fork _ => .bind (joinFork_unaware fork _) fun _ => .pure _

theorem leaveEvaluate_unaware (o : Options) : Unaware f ps (leaveEvaluate o) := by
  unfold leaveEvaluate
  split
  · refine .bind popCascade_unaware fun r => .bind (joinLevels_unaware _) fun _ => ?_
    split
    · split
      · exact .pure _
      · exact .bind (isDefault_unaware _) fun _ => joinFork_unaware _ _
    · exact .pure _
  · refine .bind popFork?_unaware fun fork? => ?_
    split
    · exact .bind (isDefault_unaware _) fun _ => joinFork_unaware _ _
    · exact .pure _

/-! ### SEARCH -/

theorem enterSearch_unaware (o : Options) (i : Instruction) : Unaware f ps (enterSearch o i) := by
  refine .bind current?_unaware fun b? => ?_
  split
  · next here =>
    split
    · have hbody : ∀ (root : BlockId) (rootSlot : Option SlotId), Unaware f ps (do
          let body ← newBlock none
          let _ ← editGraph (Graph.addEdge root body)
          pushFork { Fork.openedBy i body with root := some root, rootSlot }
          setCurrent body) := fun root rootSlot =>
        .bind (newBlock_unaware none) fun _ => .bind (.editGraph _) fun _ =>
          .bind (pushFork_unaware _) fun _ => setCurrent_unaware _
      refine .get_bind (fun _ => rfl) fun s => .bind (.lift _) fun block => ?_
      simp only [pure_bind]
      split
      · exact .bind (addInstruction_unaware i) fun _ => hbody here none
      · exact .bind (newBlock_unaware _) fun b => .bind (.editGraph _) fun k => hbody b (some k)
    · exact .bind (pushFork_unaware _) fun _ => addInstruction_unaware i
  · exact .pure _

theorem startSearchWhen_unaware (o : Options) (atEnd : Bool) :
    Unaware f ps (startSearchWhen o atEnd) := by
  refine .get_bind (fun _ => rfl) fun s => ?_
  split
  · exact violate_unaware _
  · split
    · exact openPhraseBranch_unaware _
    · split
      · split
        · split
          · exact .bind (setCurrent_unaware _) fun _ => pushLevel_unaware
          · exact pushLevel_unaware
        · exact pushLevel_unaware
      · exact .bind (enterElse_unaware none) fun _ => pushLevel_unaware

theorem closeSearchLevels_unaware (levels : List Fork) :
    Unaware f ps (closeSearchLevels levels) := by
  unfold closeSearchLevels
  split
  · exact .pure _
  · next last outer =>
    refine .bind (newBlock_unaware none) fun next => .bind (.editGraph _) fun _ => ?_
    have hrest : Unaware f ps (do
        setCurrent next
        for level in outer do
          joinFork level (level.branches.length == 1)
        return (← get).currentBlock) :=
      .bind (setCurrent_unaware next) fun _ => .bind (joinLevels_unaware outer) fun _ =>
        .get_bind (fun _ => rfl) fun _ => .pure _
    split
    · next origin root _ =>
      have hlink : ∀ k : SlotId, Unaware f ps (do
          let _ ← editGraph (Graph.link origin k)
          setCurrent next
          for level in outer do
            joinFork level (level.branches.length == 1)
          return (← get).currentBlock) :=
        fun k => .bind (.editGraph _) fun _ => hrest
      split
      · exact hlink _
      · exact .bind (.editGraph _) hlink
    · exact hrest

theorem leaveSearch_unaware (o : Options) : Unaware f ps (leaveSearch o) := by
  unfold leaveSearch
  split
  · refine .bind popCascade_unaware fun ⟨levels, statement?⟩ =>
      .bind (closeSearchLevels_unaware _) fun continuation => ?_
    split
    · simp only [pure_bind]
      cases continuation with
      | some b =>
        dsimp only
        split <;> exact .editGraph _
      | none =>
        refine .bind breakBlock_unaware fun next => ?_
        split <;> exact .editGraph _
    · exact .pure _
  · refine .bind popFork?_unaware fun fork? => ?_
    split
    · exact .bind (isDefault_unaware _) fun _ => joinFork_unaware _ _
    · exact .pure _

/-! ### In-line PERFORM -/

theorem enterLoop_unaware (i : Instruction) (testAfter : Bool) :
    Unaware f ps (enterLoop i testAfter) := by
  refine .bind current?_unaware fun b? => ?_
  split
  · next origin =>
    refine .bind (newBlock_unaware _) fun test => .bind (newBlock_unaware none) fun body => ?_
    have hopen : ∀ testSlot bodySlot : SlotId, Unaware f ps (do
        let _ ← editGraph (Graph.link test bodySlot)
        pushFork (((Fork.openedBy i origin).trackBranch test testSlot).trackBranch body bodySlot)
        setCurrent body) := fun _ _ =>
      .bind (.editGraph _) fun _ => .bind (pushFork_unaware _) fun _ => setCurrent_unaware body
    simp only [pure_bind]
    split
    · exact .bind (.editGraph _) fun bodySlot => .bind (.editGraph _) fun testSlot =>
        hopen testSlot bodySlot
    · exact .bind (.editGraph _) fun testSlot => .bind (.editGraph _) fun bodySlot =>
        hopen testSlot bodySlot
  · exact .pure _

theorem leaveLoop_unaware (repetition : Repetition) : Unaware f ps (leaveLoop repetition) := by
  refine .bind popFork?_unaware fun fork? => ?_
  split
  · split
    · refine .get_bind (fun _ => rfl) fun s => .bind (.lift _) fun unjoined =>
        .bind (newBlock_unaware none) fun next => .bind (.editGraph _) fun nextSlot => ?_
      have hback : ∀ back : SlotId, Unaware f ps (do
          for b in unjoined do
            unless (← (← get).graph.block b).flags.ending do
              let _ ← editGraph (Graph.link b back)
          setCurrent next) := fun back => by
        refine .bind (.forIn fun b _ => .get_bind (fun _ => rfl) fun s =>
          .bind (.lift _) fun block => ?_) fun _ => setCurrent_unaware next
        split
        · exact .pure _
        · exact .bind (.editGraph _) fun _ => .pure _
      dsimp only
      split
      · exact .bind (.editGraph _) fun _ => hback _
      · exact hback _
    · exact violate_unaware _
  · exact .pure _

/-! ### Exception phrases -/

theorem isSearchAtEnd_unaware (phrase : ExceptionPhrase) : Unaware f ps (isSearchAtEnd phrase) :=
  .get_bind (fun _ => rfl) fun _ => .pure _

theorem enterException_unaware (o : Options) (i : Instruction) (phrase : ExceptionPhrase) :
    Unaware f ps (enterException o i phrase) := by
  refine .bind (isSearchAtEnd_unaware phrase) fun r => ?_
  split
  · exact .bind (deferPhrase_unaware i) fun _ => startSearchWhen_unaware o true
  · refine .bind current?_unaware fun b? => ?_
    split
    · exact .bind (pushFork_unaware _) fun _ => .bind (newBlock_unaware _) fun _ =>
        openBranch_unaware _
    · exact .pure _

theorem leaveException_unaware (phrase : ExceptionPhrase) :
    Unaware f ps (leaveException phrase) := by
  refine .bind (isSearchAtEnd_unaware phrase) fun r => ?_
  split
  · exact .pure _
  · refine .bind popFork?_unaware fun fork? => ?_
    split
    · exact joinFork_unaware _ _
    · exact .pure _

end CobolFlow.Build
