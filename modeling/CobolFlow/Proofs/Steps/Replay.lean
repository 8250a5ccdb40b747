import CobolFlow.Proofs.Faultless.Replay
import CobolFlow.Proofs.Steps.Decision
import CobolFlow.Proofs.Steps.Resolution
import CobolFlow.Proofs.Trace.Advance

/-!
# Whole replays, step by step

Every notification is taken in moves, whatever it is and whenever it comes. So what is true of a
scope in which nothing has happened and is kept by every move is true of every program that a
replay describes.

## Main results

* `Build.take_within` — one notification
* `Builder.exists_run_of_move` — whole replays
-/

namespace CobolFlow

namespace Build

open Scope (Step Stride Move)

theorem resolvePending_within (o : Options) : Within Move (resolvePending o) := by
  refine .bind .get fun s => .bind (within_of_steps (modify_steps (fun _ => rfl)
    (fun _ => rfl) (fun _ => rfl) fun _ => .inl rfl)) fun _ => ?_
  refine .bind (within_of_steps (resolveNextSentences_steps _)) fun _ => ?_
  refine .bind (within_of_steps (resolveAlters_steps _)) fun a => ?_
  refine .bind (within_of_steps (resolveJumps_steps a _)) fun _ => ?_
  refine .bind (resolvePerforms_within _) fun _ => ?_
  split
  · intro s _ s' hrun
    obtain ⟨g, hg, rfl⟩ := exists_of_editGraph_eq_ok hrun
    exact .single (.graft hg)
  · exact .pure _

theorem endDivision_within (o : Options) : Within Move (endDivision o) :=
  .bind (within_of_steps finishBlocks_steps) fun _ => .bind (resolvePending_within o)
    fun _ => within_of_steps (modify_steps (fun _ => rfl) (fun _ => rfl) (fun _ => rfl)
      fun _ => .inl rfl)

/-- Nothing large is done where DECLARATIVES are left. -/
theorem leaveDeclaratives_strides : Within Stride leaveDeclaratives := by
  refine .bind ((editProcedures_steps rootSection_sentences).mono fun _ _ => .step) fun root =>
    .bind .get fun s => .bind (R := Stride) (x := modify _) (fun s => .modify ?_) fun _ => ?_
  · exact .tail (.single .leaveDeclaratives) (.step (.aside rfl rfl rfl (.inl rfl)))
  · split
    · refine Within.mono (R := Step) ?_ fun _ _ => .step
      exact .bind (newBlock_steps none) fun next =>
        .bind (editGraph_steps (.bind (Graph.addEdge_steps _ next) fun _ => .pure _)) fun _ =>
          setCurrent_steps next
    · exact .pure _

theorem leaveDeclaratives_within : Within Move leaveDeclaratives :=
  leaveDeclaratives_strides.mono fun _ _ => Stride.move

theorem enterKind_steps (o : Options) (n : Node) : Within Step (enterKind o n) := by
  unfold enterKind
  split
  · exact .pure _
  · exact .pure _
  · exact .pure _
  · exact enterDeclaratives_steps
  · exact enterSection_steps _ _
  · exact enterParagraph_steps _ _
  · exact enterIf_steps _
  · exact enterElse_steps _
  · exact enterEvaluate_steps _
  · exact deferPhrase_steps _
  · exact deferPhrase_steps _
  · exact deferPhrase_steps _
  · exact enterSearch_steps o _
  · exact enterAlter_steps _ _ _
  · exact enterJump_steps _ _ _
  · exact enterNextSentence_steps _
  · next hkind => exact enterPerform_steps (by simp [Node.tag, hkind, NodeKind.tag]) _ _
  · exact enterLoop_steps _ _
  · exact enterEnding_steps _
  · exact enterException_steps o _ _
  · exact addInstruction_steps _
  · exact addInstruction_steps _
  · exact addInstruction_steps _

/-- The first block of a division is marked besides. -/
theorem startDivision_within (n : Node) : Within Move (startDivision n) := by
  have hmark (b : BlockId) : Within Move (editGraph (Graph.markBlock b { start := true })) := by
    intro s _ s' hrun
    obtain ⟨g, hg, rfl⟩ := exists_of_editGraph_eq_ok hrun
    exact .single (.start hg)
  refine .bind (within_of_steps (modify_steps (fun _ => rfl) (fun _ => rfl) (fun _ => rfl)
    fun _ => .inl rfl)) fun _ => ?_
  refine .bind (within_of_steps (editGraph_steps (Graph.openDivision_steps _))) fun _ => ?_
  refine .bind (within_of_steps (editGraph_steps (Graph.recordNode_steps n))) fun _ => ?_
  refine .bind (within_of_steps (editProcedures_steps rootSection_sentences)) fun root => ?_
  refine .bind (within_of_steps (modify_steps (fun _ => rfl) (fun _ => rfl) (fun _ => rfl)
    fun _ => .inl rfl)) fun _ => ?_
  refine .bind (within_of_steps startSentence_steps) fun _ => .bind .get fun s => ?_
  split
  · exact .bind (hmark _) fun _ => within_of_steps <|
      .bind (editGraph_steps (Graph.addRoot_steps _))
      fun _ => editGraph_steps (Graph.setBlockFor_steps _ _)
  · exact .pure _

theorem pushEnclosing_steps (tag : NodeTag) : Within Step (modify fun s : Scope =>
    { s with enclosing := tag :: s.enclosing } : Build Unit) :=
  modify_steps (fun _ => rfl) (fun _ => rfl) (fun _ => rfl) fun _ => .inl rfl

/-- A node is entered in small steps if it is not a division. -/
theorem enterNode_steps (o : Options) {n : Node} (hn : n.tag ≠ .procedureDivision) :
    Within Step (enterNode o n) := by
  unfold enterNode
  rw [if_neg hn]
  refine .bind .get fun s => ?_
  split
  · refine .bind ?_ fun _ => pushEnclosing_steps n.tag
    refine .bind (editGraph_steps (Graph.recordNode_steps n)) fun _ => ?_
    dsimp only
    split
    · exact .bind ensureSentence_steps fun _ => enterKind_steps o n
    · exact enterKind_steps o n
  · exact pushEnclosing_steps n.tag

theorem enterNode_within (o : Options) (n : Node) : Within Move (enterNode o n) := by
  by_cases hn : n.tag = .procedureDivision
  · unfold enterNode
    rw [if_pos hn]
    exact .bind (startDivision_within n) fun _ => within_of_steps (pushEnclosing_steps n.tag)
  · exact within_of_steps (enterNode_steps o hn)

theorem leaveNode_within (o : Options) (n : Node) : Within Move (leaveNode o n) := by
  refine .bind (within_of_steps (modify_steps (fun _ => rfl) (fun _ => rfl) (fun _ => rfl)
    fun _ => .inl rfl)) fun _ => .bind .get fun s => ?_
  split
  · unfold leaveInside
    split
    · exact endDivision_within o
    · exact leaveDeclaratives_within
    · exact within_of_steps leaveIf_steps
    · exact within_of_steps (leaveEvaluate_steps o)
    · exact within_of_steps (leaveSearch_steps o)
    · exact within_of_steps (leaveLoop_steps _)
    · exact within_of_steps (leaveException_steps _)
    · exact .pure _
  · exact .pure _

/-- **Every notification is taken in moves**, in the protocol or out of it. -/
theorem take_within (o : Options) (e : Notification) : Within Move (take o e) := by
  cases e with
  | enter n => exact enterNode_within o n
  | leave n => exact leaveNode_within o n
  | sentenceEnd => exact within_of_steps endSentence_steps
  | whenClause => exact within_of_steps (startWhen_steps o)
  | whenOtherClause => exact within_of_steps startWhenOther_steps
  | searchClause atEnd => exact within_of_steps (startSearchWhen_steps o atEnd)

end Build

/-! ### All programs -/

namespace Builder

variable {I : Scope → Prop} {b b' : Builder}

/-- Every program has come so far that `I` is true of it. -/
structure Keeps (I : Scope → Prop) (b : Builder) : Prop where
  scope : ∀ p ∈ b.scopes, I p.scope
  finished : ∀ {k : ℕ} {flow : ProgramFlow}, b.finished[k]? = some (some flow) →
    ∃ s, I s ∧ flow.graph = s.graph ∧ flow.procedures = s.procedures

theorem Keeps.openProgram (hempty : ∀ program, I { procedures := { program } }) (hb : b.Keeps I)
    (name : String) (kind : ProgramKind) : (b.openProgram name kind).Keeps I where
  scope p hp := by
    obtain rfl | hp := List.mem_cons.1 hp
    · exact hempty _
    · exact hb.scope p hp
  finished {k flow} h := by
    simp only [Builder.openProgram, Array.getElem?_push] at h
    split at h
    · simp at h
    · exact hb.finished h

theorem Keeps.closeProgram (hb : b.Keeps I) (h : b.closeProgram = .ok b') : b'.Keeps I := by
  unfold Builder.closeProgram at h
  split at h
  · cases h
    exact { hb with }
  · next p outer hscopes =>
    split at h
    · cases h
      refine ⟨fun q hq => hb.scope q (by simp [hscopes, hq]), fun {k flow} hk => ?_⟩
      rw [Array.getElem?_setIfInBounds] at hk
      split at hk
      · obtain rfl := Option.some.inj (Option.some.inj hk)
        exact ⟨p.scope, hb.scope p (by simp [hscopes]), rfl, rfl⟩
      · exact hb.finished hk
    · exact nomatch h

theorem Keeps.inScope (hb : b.Keeps I) {step : Build Unit}
    (hstep : ∀ s, I s → Ensures step s fun _ => I) (h : b.inScope step = .ok b') : b'.Keeps I := by
  unfold Builder.inScope at h
  split at h
  · cases h
    exact hb
  · next p outer hscopes =>
    cases hrun : step.run p.scope with
    | error fault =>
      rw [hrun] at h
      exact nomatch h
    | ok r =>
      rw [hrun] at h
      cases h
      refine { hb with scope := fun q hq => ?_ }
      obtain rfl | hq := List.mem_cons.1 hq
      · exact hstep p.scope (hb.scope p (by simp [hscopes])) _ _ hrun
      · exact hb.scope q (by simp [hscopes, hq])

section Moves

variable (hempty : ∀ program, I { procedures := { program } })
  (hmove : ∀ {s s' : Scope}, I s → s.Move s' → I s')

include hmove

/-- What every move keeps is kept by whatever is made of moves. -/
theorem ensures_of_within {x : Build Unit} (hx : Within Scope.Move x) (s : Scope) (hs : I s) :
    Ensures x s fun _ => I :=
  (hx s).mono fun _ _ h => by
    induction h with
    | refl => exact hs
    | tail _ h ih => exact hmove ih h

include hempty

theorem Keeps.step (hb : b.Keeps I) (e : Notification) (h : b.step e = .ok b') : b'.Keeps I := by
  have htake := fun e => ensures_of_within hmove (Build.take_within b.options e)
  cases e with
  | enter n =>
    unfold Builder.step at h
    dsimp only at h
    split at h
    · cases h
      exact hb.openProgram hempty _ _
    · cases h
      exact hb.openProgram hempty _ _
    · split at h
      · exact (hb.openProgram hempty _ _).inScope (htake (.enter n)) h
      · exact hb.inScope (htake (.enter n)) h
    · exact hb.inScope (htake (.enter n)) h
  | leave n =>
    unfold Builder.step at h
    dsimp only at h
    split at h
    · exact hb.closeProgram h
    · exact hb.closeProgram h
    · exact hb.inScope (htake (.leave n)) h
  | sentenceEnd => exact hb.inScope (htake .sentenceEnd) h
  | whenClause => exact hb.inScope (htake .whenClause) h
  | whenOtherClause => exact hb.inScope (htake .whenOtherClause) h
  | searchClause atEnd => exact hb.inScope (htake (.searchClause atEnd)) h

theorem Keeps.replay {events : List Notification} (hb : b.Keeps I)
    (h : events.foldlM Builder.step b = .ok b') : b'.Keeps I := by
  induction events generalizing b with
  | nil =>
    cases h
    exact hb
  | cons e rest ih =>
    rw [List.foldlM_cons] at h
    cases hstep : b.step e with
    | error fault =>
      rw [hstep] at h
      exact nomatch h
    | ok b₁ =>
      rw [hstep] at h
      exact ih (hb.step hempty hmove e hstep) h

/-- **Whatever is replayed, what a fresh scope has and every move keeps is true of every program in
the end.** -/
theorem exists_run_of_move (o : Options) (events : List Notification) :
    ∃ flows, run o events = .ok flows ∧ ∀ flow ∈ flows,
      ∃ s, I s ∧ flow.graph = s.graph ∧ flow.procedures = s.procedures := by
  obtain ⟨b, hreplay, hb⟩ := exists_replay_eq_ok o events
  obtain ⟨b', hclose, -⟩ := exists_closeAll_eq_ok b.scopes.length hb
  have hkeeps : b.Keeps I := Keeps.replay hempty hmove ⟨by simp, by simp⟩ hreplay
  have hkeeps' : ∀ (n : ℕ) {b : Builder}, b.Keeps I → closeAll n b = .ok b' → b'.Keeps I := by
    intro n
    induction n with
    | zero =>
      intro b hb h
      cases h
      exact hb
    | succ n ih =>
      intro b hb h
      rw [closeAll] at h
      cases hstep : b.closeProgram with
      | error fault =>
        rw [hstep] at h
        cases h
      | ok b₁ =>
        rw [hstep] at h
        exact ih (hb.closeProgram hstep) h
  refine ⟨b'.finished.toList.filterMap id, ?_, fun flow hflow => ?_⟩
  · rw [run, hreplay, ok_bind, finish, hclose]
    rfl
  · have hmem : some flow ∈ b'.finished.toList := by simpa using hflow
    obtain ⟨k, hk⟩ := List.mem_iff_getElem?.1 hmem
    exact (hkeeps' _ hkeeps hclose).finished (k := k) (by simpa using hk)

end Moves

end Builder

end CobolFlow
