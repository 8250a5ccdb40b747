import CobolFlow.Build.Decision
import CobolFlow.Proofs.Steps.Division

/-!
# Decisions in small steps

What is done at a fork depends on what it holds, but each of the things that may be done is an edit
of the graph or leaves graph and catalog alone.
-/

namespace CobolFlow.Build

open Scope (Step)

/-! ### The stack of forks -/

theorem pushFork_steps (f : Fork) : Within Step (pushFork f) :=
  modify_steps (fun _ => rfl) (fun _ => rfl) (fun _ => rfl) fun _ => .inl rfl

theorem popFork?_steps : Within Step popFork? := by
  refine .bind .get fun s => ?_
  split
  · exact .bind (modify_steps (fun _ => rfl) (fun _ => rfl) (fun _ => rfl) fun _ => .inl rfl)
      fun _ => .pure _
  · exact .bind (violate_steps _) fun _ => .pure _

theorem popCascade_steps : Within Step popCascade :=
  .get_set_bind (f := fun s : Scope => { s with forks := s.forks.dropWhile (·.isLevel) })
    (fun _ => .aside rfl rfl rfl (.inl rfl)) fun _ => .bind popFork?_steps fun _ => .pure _

theorem openBranch_steps (b : BlockId) : Within Step (openBranch b) := by
  refine .bind .get fun s => ?_
  split
  · exact .bind (editGraph_steps (Fork.addBranch_steps _ b)) fun _ =>
      .bind (modify_steps (fun _ => rfl) (fun _ => rfl) (fun _ => rfl) fun _ => .inl rfl)
        fun _ => setCurrent_steps b
  · exact setCurrent_steps b

theorem joinFork_steps (f : Fork) (originToNext : Bool) :
    Within Step (joinFork f originToNext) :=
  .bind (newBlock_steps none) fun _ => .bind (editGraph_steps (f.close_steps _ _ _)) fun _ =>
    setCurrent_steps _

theorem takePhrases_steps (depth : ℕ) : Within Step (takePhrases depth) :=
  fun _ => .modifyGet (.single (.aside rfl rfl rfl (.inl rfl)))

theorem deferPhrase_steps (i : Instruction) : Within Step (deferPhrase i) := by
  refine .bind .get fun s => ?_
  split
  · exact modify_steps (fun _ => rfl) (fun _ => rfl) (fun _ => rfl) fun _ => .inl rfl
  · exact violate_steps _

theorem isDefault_steps (branch : Option BlockId) : Within Step (isDefault branch) := by
  cases branch with
  | none => exact .pure _
  | some b => exact .bind .get fun s => .bind (.lift _) fun _ => .pure _

theorem enterIf_steps (i : Instruction) : Within Step (enterIf i) := by
  refine .bind current?_steps fun b? => ?_
  split
  · exact .bind (pushFork_steps _) fun _ => .bind (addInstruction_steps i) fun _ =>
      .bind (newBlock_steps none) fun _ => openBranch_steps _
  · exact .pure _

theorem enterElse_steps (i : Option Instruction) : Within Step (enterElse i) :=
  .bind (newBlock_steps i) fun _ => openBranch_steps _

theorem leaveIf_steps : Within Step leaveIf := by
  refine .bind popFork?_steps fun f? => ?_
  split
  · exact joinFork_steps _ _
  · exact .pure _

theorem enterEvaluate_steps (i : Instruction) : Within Step (enterEvaluate i) := by
  refine .bind current?_steps fun b? => ?_
  split
  · exact .bind (pushFork_steps _) fun _ => addInstruction_steps i
  · exact .pure _

theorem pushLevel_steps : Within Step pushLevel := by
  refine .bind current?_steps fun b? => ?_
  split
  · refine .bind .get fun s => .bind (pushFork_steps _) fun _ =>
      .bind (takePhrases_steps 1) fun phrases => .bind (.forIn fun i _ => ?_) fun _ =>
      .bind (newBlock_steps none) fun _ => openBranch_steps _
    exact .bind (addInstruction_steps i) fun _ => .pure _
  · exact .pure _

theorem openPhraseBranch_steps {m : BlockFlags}
    (hm : m.finish = false ∧ m.declaratives = false ∧ m.grafted = false ∧ m.start = false) :
    Within Step (openPhraseBranch m) := by
  refine .bind (takePhrases_steps 0) fun phrases => .bind (newBlock_steps none) fun b =>
    .bind (editGraph_steps (Graph.markBlock_steps b hm)) fun _ =>
    .bind (.forIn fun i _ => ?_) fun _ => openBranch_steps b
  exact .bind (editGraph_steps (Graph.appendInstruction_steps b i)) fun _ => .pure _

theorem startWhen_steps (o : Options) : Within Step (startWhen o) := by
  refine .bind .get fun s => ?_
  split
  · exact violate_steps _
  · split
    · split
      · exact pushLevel_steps
      · exact .bind (enterElse_steps none) fun _ => pushLevel_steps
    · exact openPhraseBranch_steps ⟨rfl, rfl, rfl, rfl⟩

theorem startWhenOther_steps : Within Step startWhenOther := by
  refine .bind .get fun s => ?_
  split
  · exact violate_steps _
  · refine .bind (takePhrases_steps 0) fun phrases => .bind (newBlock_steps none) fun b =>
      .bind (editGraph_steps (Graph.markBlock_steps b ⟨rfl, rfl, rfl, rfl⟩)) fun _ =>
      .bind (.forIn fun i _ => ?_) fun _ => openBranch_steps b
    exact .bind (editGraph_steps (Graph.setBlockFor_steps _ b)) fun _ => .pure _

theorem joinLevels_steps (levels : List Fork) : Within Step (forIn levels PUnit.unit
    fun level _ => do
      joinFork level (level.branches.length == 1)
      pure (ForInStep.yield PUnit.unit) : Build PUnit) :=
  .forIn fun f _ => .bind (joinFork_steps f _) fun _ => .pure _

theorem leaveEvaluate_steps (o : Options) : Within Step (leaveEvaluate o) := by
  unfold leaveEvaluate
  split
  · refine .bind popCascade_steps fun r => .bind (joinLevels_steps _) fun _ => ?_
    split
    · split
      · exact .pure _
      · exact .bind (isDefault_steps _) fun _ => joinFork_steps _ _
    · exact .pure _
  · refine .bind popFork?_steps fun f? => ?_
    split
    · exact .bind (isDefault_steps _) fun _ => joinFork_steps _ _
    · exact .pure _

theorem enterSearch_steps (o : Options) (i : Instruction) : Within Step (enterSearch o i) := by
  refine .bind current?_steps fun b? => ?_
  split
  · next here =>
    split
    · have hbody : ∀ (root : BlockId) (rootSlot : Option SlotId), Within Step (do
          let body ← newBlock none
          let _ ← editGraph (Graph.addEdge root body)
          pushFork { Fork.openedBy i body with root := some root, rootSlot }
          setCurrent body) := fun root rootSlot =>
        .bind (newBlock_steps none) fun _ => .bind (editGraph_steps (Graph.addEdge_steps _ _))
          fun _ => .bind (pushFork_steps _) fun _ => setCurrent_steps _
      refine .bind .get fun s => .bind (.lift _) fun block => ?_
      simp only [pure_bind]
      split
      · exact .bind (addInstruction_steps i) fun _ => hbody here none
      · exact .bind (newBlock_steps _) fun b => .bind (editGraph_steps (Graph.addEdge_steps _ _))
          fun k => hbody b (some k)
    · exact .bind (pushFork_steps _) fun _ => addInstruction_steps i
  · exact .pure _

theorem startSearchWhen_steps (o : Options) (atEnd : Bool) :
    Within Step (startSearchWhen o atEnd) := by
  refine .bind .get fun s => ?_
  split
  · exact violate_steps _
  · split
    · exact openPhraseBranch_steps ⟨rfl, rfl, rfl, rfl⟩
    · split
      · split
        · split
          · exact .bind (setCurrent_steps _) fun _ => pushLevel_steps
          · exact pushLevel_steps
        · exact pushLevel_steps
      · exact .bind (enterElse_steps none) fun _ => pushLevel_steps

theorem closeSearchLevels_steps (levels : List Fork) : Within Step (closeSearchLevels levels) := by
  unfold closeSearchLevels
  split
  · exact .pure _
  · next last outer =>
    refine .bind (newBlock_steps none) fun next =>
      .bind (editGraph_steps (last.close_steps _ _ _)) fun _ => ?_
    have hrest : Within Step (do
        setCurrent next
        for level in outer do
          joinFork level (level.branches.length == 1)
        return (← get).currentBlock) :=
      .bind (setCurrent_steps next) fun _ => .bind (joinLevels_steps outer) fun _ =>
        .bind .get fun _ => .pure _
    split
    · next origin root _ =>
      have hlink : ∀ k : SlotId, Within Step (do
          let _ ← editGraph (Graph.link origin k)
          setCurrent next
          for level in outer do
            joinFork level (level.branches.length == 1)
          return (← get).currentBlock) :=
        fun k => .bind (editGraph_steps (Graph.link_steps _ k)) fun _ => hrest
      split
      · exact hlink _
      · exact .bind (editGraph_steps (Graph.newSlot_steps _)) hlink
    · exact hrest

theorem leaveSearch_steps (o : Options) : Within Step (leaveSearch o) := by
  unfold leaveSearch
  split
  · refine .bind popCascade_steps fun ⟨levels, statement?⟩ =>
      .bind (closeSearchLevels_steps _) fun continuation => ?_
    split
    · next f =>
      have hclose : ∀ (stop : Option BlockId) (next : BlockId),
          Within Step (editGraph (f.close f.branches.isEmpty stop next)) :=
        fun _ _ => editGraph_steps (f.close_steps _ _ _)
      simp only [pure_bind]
      cases continuation with
      | some b =>
        dsimp only
        split <;> exact hclose _ b
      | none =>
        refine .bind breakBlock_steps fun next => ?_
        split <;> exact hclose _ next
    · exact .pure _
  · refine .bind popFork?_steps fun f? => ?_
    split
    · exact .bind (isDefault_steps _) fun _ => joinFork_steps _ _
    · exact .pure _

theorem enterLoop_steps (i : Instruction) (testAfter : Bool) :
    Within Step (enterLoop i testAfter) := by
  refine .bind current?_steps fun b? => ?_
  split
  · next origin =>
    refine .bind (newBlock_steps _) fun test => .bind (newBlock_steps none) fun body => ?_
    have hopen : ∀ testSlot bodySlot : SlotId, Within Step (do
        let _ ← editGraph (Graph.link test bodySlot)
        pushFork (((Fork.openedBy i origin).trackBranch test testSlot).trackBranch body bodySlot)
        setCurrent body) := fun _ _ =>
      .bind (editGraph_steps (Graph.link_steps _ _)) fun _ => .bind (pushFork_steps _) fun _ =>
        setCurrent_steps body
    simp only [pure_bind]
    split
    · exact .bind (editGraph_steps (Graph.addEdge_steps _ _)) fun bodySlot =>
        .bind (editGraph_steps (Graph.newSlot_steps _)) fun testSlot => hopen testSlot bodySlot
    · exact .bind (editGraph_steps (Graph.addEdge_steps _ _)) fun testSlot =>
        .bind (editGraph_steps (Graph.newSlot_steps _)) fun bodySlot => hopen testSlot bodySlot
  · exact .pure _

theorem leaveLoop_steps (repetition : Repetition) : Within Step (leaveLoop repetition) := by
  refine .bind popFork?_steps fun f? => ?_
  split
  · split
    · refine .bind .get fun s => .bind (.lift _) fun unjoined => .bind (newBlock_steps none)
        fun next => .bind (editGraph_steps (Graph.newSlot_steps next)) fun nextSlot => ?_
      have hback : ∀ back : SlotId, Within Step (do
          for b in unjoined do
            unless (← (← get).graph.block b).flags.ending do
              let _ ← editGraph (Graph.link b back)
          setCurrent next) := fun back => by
        refine .bind (.forIn fun b _ => .bind .get fun s => .bind (.lift _) fun block => ?_)
          fun _ => setCurrent_steps next
        split
        · exact .pure _
        · exact .bind (editGraph_steps (Graph.link_steps _ _)) fun _ => .pure _
      dsimp only
      split
      · exact .bind (editGraph_steps (Graph.link_steps _ _)) fun _ => hback _
      · exact hback _
    · exact violate_steps _
  · exact .pure _

theorem isSearchAtEnd_steps (phrase : ExceptionPhrase) : Within Step (isSearchAtEnd phrase) :=
  .bind .get fun _ => .pure _

theorem enterException_steps (o : Options) (i : Instruction) (phrase : ExceptionPhrase) :
    Within Step (enterException o i phrase) := by
  refine .bind (isSearchAtEnd_steps phrase) fun r => ?_
  split
  · exact .bind (deferPhrase_steps i) fun _ => startSearchWhen_steps o true
  · refine .bind current?_steps fun b? => ?_
    split
    · exact .bind (pushFork_steps _) fun _ => .bind (newBlock_steps _) fun _ => openBranch_steps _
    · exact .pure _

theorem leaveException_steps (phrase : ExceptionPhrase) : Within Step (leaveException phrase) := by
  refine .bind (isSearchAtEnd_steps phrase) fun r => ?_
  split
  · exact .pure _
  · refine .bind popFork?_steps fun f? => ?_
    split
    · exact joinFork_steps _ _
    · exact .pure _

end CobolFlow.Build
