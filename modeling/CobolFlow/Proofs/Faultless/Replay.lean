import CobolFlow.Build.Replay
import CobolFlow.Proofs.Faultless.Decision
import CobolFlow.Proofs.Faultless.Resolution

/-!
# A replay finds every index it uses

Whatever is entered and left, in whatever order, no step asks for a block, slot, group, procedure,
sentence or program that is not there. A replay that has come to its end has therefore answered,
and what it answers with has no dangling reference.

## Main results

* `Build.enterNode_faultless`, `Build.leaveNode_faultless` — one notification, inside a program
* `Builder.exists_step_eq_ok` — one notification
* `Builder.exists_sound_run` — a whole replay
-/

namespace CobolFlow

namespace Build

variable {s : Scope}

theorem resolvePending_faultless (o : Options) :
    Faultless (resolvePending o) s fun _ _ => True := by
  refine .get_bind fun hs => ?_
  refine .modify_bind (fun hs => { hs with
    jumps := by simp, nextSentences := by simp, performs := by simp })
    (Scope.le_of_extent_eq rfl) ?_
  refine .bind (resolveNextSentences_faultless hs.nextSentences) fun _ s₁ _ h₁ _ => ?_
  refine .bind (resolveAlters_faultless _) fun alterations s₂ _ h₂ _ => ?_
  refine .bind (resolveJumps_faultless alterations fun w hw =>
    (hs.jumps w hw).trans_le (h₁.1.1.trans h₂.1.1)) fun _ s₃ _ h₃ _ => ?_
  refine .bind (resolvePerforms_faultless fun w hw =>
    (hs.performs w hw).trans_le (h₁.1.2.2.trans (h₂.1.2.2.trans h₃.1.2.2))) fun _ s₄ _ _ _ => ?_
  split
  · exact (editGraph_faultless (graftGroups_faultless o)).runs
  · exact .pure fun _ => trivial

theorem endDivision_faultless (o : Options) : Faultless (endDivision o) s fun _ _ => True := by
  refine .bind finishBlocks_faultless fun _ s₁ _ _ _ => ?_
  refine .bind (resolvePending_faultless o) fun _ s₂ _ _ _ => ?_
  exact .modify (fun hs => { hs with }) (Scope.le_of_extent_eq rfl) trivial

theorem enterKind_faultless (o : Options) (n : Node) :
    Faultless (enterKind o n) s fun _ _ => True := by
  unfold enterKind
  split
  · exact .pure fun _ => trivial
  · exact .pure fun _ => trivial
  · exact .pure fun _ => trivial
  · exact enterDeclaratives_faultless
  · exact enterSection_faultless _ _
  · exact enterParagraph_faultless _ _
  · exact enterIf_faultless _
  · exact enterElse_faultless _
  · exact enterEvaluate_faultless _
  · exact deferPhrase_faultless _
  · exact deferPhrase_faultless _
  · exact deferPhrase_faultless _
  · exact enterSearch_faultless o _
  · exact enterAlter_faultless _ _ _
  · exact enterJump_faultless _ _ _
  · exact enterNextSentence_faultless _
  · exact enterPerform_faultless _ _ _
  · exact enterLoop_faultless _ _
  · exact enterEnding_faultless _
  · exact enterException_faultless o _ _
  · exact addInstruction_faultless _
  · exact addInstruction_faultless _
  · exact addInstruction_faultless _

theorem enterInside_faultless (o : Options) (n : Node) :
    Faultless (enterInside o n) s fun _ _ => True := by
  refine .bind (editGraph_faultless (Graph.recordNode_faultless n)) fun _ s₁ _ _ _ => ?_
  dsimp only
  split
  · exact .bind ensureSentence_faultless fun _ s₂ _ _ _ => enterKind_faultless o n
  · exact enterKind_faultless o n

/-- Entering a node finds what it needs, inside a division or out of it. -/
theorem enterNode_faultless (o : Options) (n : Node) :
    Faultless (enterNode o n) s fun _ _ => True := by
  have hpush : ∀ s₁ : Scope, Faultless (modify fun s : Scope =>
      { s with enclosing := n.tag :: s.enclosing }) s₁ fun _ _ => True := fun _ =>
    .modify (fun hs => { hs with }) (Scope.le_of_extent_eq rfl) trivial
  unfold enterNode
  dsimp only
  split
  · exact .bind (startDivision_faultless n) fun _ s₁ _ _ _ => hpush s₁
  · refine .get_bind fun _ => ?_
    split
    · exact .bind (enterInside_faultless o n) fun _ s₁ _ _ _ => hpush s₁
    · exact hpush s

theorem leaveInside_faultless (o : Options) (n : Node) :
    Faultless (leaveInside o n) s fun _ _ => True := by
  unfold leaveInside
  split
  · exact endDivision_faultless o
  · exact leaveDeclaratives_faultless
  · exact leaveIf_faultless
  · exact leaveEvaluate_faultless o
  · exact leaveSearch_faultless o
  · exact leaveLoop_faultless _
  · exact leaveException_faultless _
  · exact .pure fun _ => trivial

/-- Leaving a node finds what it needs, whether or not it was entered. -/
theorem leaveNode_faultless (o : Options) (n : Node) :
    Faultless (leaveNode o n) s fun _ _ => True := by
  refine .modify_bind (fun hs => { hs with }) (Scope.le_of_extent_eq rfl) ?_
  refine .get_bind fun _ => ?_
  split
  · exact leaveInside_faultless o n
  · exact .pure fun _ => trivial

end Build

/-! ### All programs -/

namespace Builder

variable {b : Builder}

/-- Every program that is open is sound and has its place among the results, and so is the graph of
every program that is finished. -/
structure WellFormed (b : Builder) : Prop where
  scope : ∀ p ∈ b.scopes, Sound p.scope
  slot_lt : ∀ p ∈ b.scopes, p.slot < b.finished.size
  finished : ∀ {k : ℕ} {flow : ProgramFlow}, b.finished[k]? = some (some flow) →
    Sound flow.graph

/-- A scope in which nothing has happened is sound. -/
theorem sound_scope_empty (program : Option String) :
    Sound ({ procedures := { program } } : Scope) := by
  have hgraph : Sound ({} : Graph) := by constructor <;> simp
  have hprocedures : Sound ({ program } : Procedures) := by
    constructor <;> simp [NameIndex.find]
  exact ⟨hgraph, hprocedures, by simp, by simp, by simp, by simp, by simp, by simp, by simp,
    by simp, by simp, by simp⟩

theorem WellFormed.openProgram (hb : b.WellFormed) (name : String) (kind : ProgramKind) :
    (b.openProgram name kind).WellFormed where
  scope p hp := by
    obtain rfl | hp := List.mem_cons.1 hp
    · exact sound_scope_empty _
    · exact hb.scope p hp
  slot_lt p hp := by
    simp only [Builder.openProgram, Array.size_push]
    obtain rfl | hp := List.mem_cons.1 hp
    · exact Nat.lt_succ_self _
    · exact Nat.lt_succ_of_lt (hb.slot_lt p hp)
  finished {k flow} h := by
    simp only [Builder.openProgram, Array.getElem?_push] at h
    split at h
    · simp at h
    · exact hb.finished h

theorem exists_closeProgram_eq_ok (hb : b.WellFormed) :
    ∃ b', b.closeProgram = .ok b' ∧ b'.WellFormed := by
  unfold closeProgram
  split
  · exact ⟨_, rfl, { hb with }⟩
  · next p outer hscopes =>
    have hp : p ∈ b.scopes := by simp [hscopes]
    have houter : ∀ q ∈ outer, q ∈ b.scopes := fun q hq => by simp [hscopes, hq]
    rw [if_pos (hb.slot_lt p hp)]
    refine ⟨_, rfl, fun q hq => hb.scope q (houter q hq), fun q hq => ?_, fun {k flow} h => ?_⟩
    · simpa using hb.slot_lt q (houter q hq)
    · rw [Array.getElem?_setIfInBounds] at h
      split at h
      · split at h
        · obtain rfl := Option.some.inj (Option.some.inj h)
          exact (hb.scope p hp).graph
        · simp at h
      · exact hb.finished h

theorem exists_inScope_eq_ok (hb : b.WellFormed) {step : Build Unit}
    (hstep : ∀ s : Scope, Faultless step s fun _ _ => True) :
    ∃ b', b.inScope step = .ok b' ∧ b'.WellFormed := by
  unfold inScope
  split
  · exact ⟨b, rfl, hb⟩
  · next p outer hscopes =>
    have hp : p ∈ b.scopes := by simp [hscopes]
    have houter : ∀ q ∈ outer, q ∈ b.scopes := fun q hq => by simp [hscopes, hq]
    obtain ⟨_, scope, hrun, hscope, -⟩ := hstep p.scope (hb.scope p hp)
    refine ⟨{ b with scopes := { p with scope } :: outer }, ?_, ?_⟩
    · rw [StateT.run, hrun]
      rfl
    · refine { hb with scope := fun q hq => ?_, slot_lt := fun q hq => ?_ }
      · obtain rfl | hq := List.mem_cons.1 hq
        · exact hscope
        · exact hb.scope q (houter q hq)
      · obtain rfl | hq := List.mem_cons.1 hq
        · exact hb.slot_lt p hp
        · exact hb.slot_lt q (houter q hq)

/-- **One notification finds every index it uses**, whatever came before it. -/
theorem exists_step_eq_ok (hb : b.WellFormed) (e : Notification) :
    ∃ b', b.step e = .ok b' ∧ b'.WellFormed := by
  cases e with
  | enter n =>
    unfold step
    dsimp only
    split
    · exact ⟨_, rfl, hb.openProgram _ _⟩
    · exact ⟨_, rfl, hb.openProgram _ _⟩
    · refine exists_inScope_eq_ok ?_ fun _ => Build.enterNode_faultless _ n
      split
      · exact hb.openProgram _ _
      · exact hb
    · exact exists_inScope_eq_ok hb fun _ => Build.enterNode_faultless _ n
  | leave n =>
    unfold step
    dsimp only
    split
    · exact exists_closeProgram_eq_ok hb
    · exact exists_closeProgram_eq_ok hb
    · exact exists_inScope_eq_ok hb fun _ => Build.leaveNode_faultless _ n
  | sentenceEnd => exact exists_inScope_eq_ok hb fun _ => Build.endSentence_faultless
  | whenClause => exact exists_inScope_eq_ok hb fun _ => Build.startWhen_faultless _
  | whenOtherClause => exact exists_inScope_eq_ok hb fun _ => Build.startWhenOther_faultless
  | searchClause atEnd =>
    exact exists_inScope_eq_ok hb fun _ => Build.startSearchWhen_faultless _ atEnd

theorem exists_foldlM_step_eq_ok (events : List Notification) (hb : b.WellFormed) :
    ∃ b', events.foldlM step b = .ok b' ∧ b'.WellFormed := by
  induction events generalizing b with
  | nil => exact ⟨b, rfl, hb⟩
  | cons e rest ih =>
    obtain ⟨b₁, hstep, hb₁⟩ := exists_step_eq_ok hb e
    rw [List.foldlM_cons, hstep]
    exact ih hb₁

theorem exists_replay_eq_ok (o : Options) (events : List Notification) :
    ∃ b, replay o events = .ok b ∧ b.WellFormed :=
  exists_foldlM_step_eq_ok events ⟨by simp, by simp, by simp⟩

theorem exists_closeAll_eq_ok (n : ℕ) (hb : b.WellFormed) :
    ∃ b', closeAll n b = .ok b' ∧ b'.WellFormed := by
  induction n generalizing b with
  | zero => exact ⟨b, rfl, hb⟩
  | succ n ih =>
    obtain ⟨b₁, hclose, hb₁⟩ := exists_closeProgram_eq_ok hb
    rw [closeAll, hclose]
    exact ih hb₁

theorem exists_run_eq_ok (o : Options) (events : List Notification) :
    ∃ flows, run o events = .ok flows ∧ ∀ flow ∈ flows, Sound flow.graph := by
  obtain ⟨b, hreplay, hb⟩ := exists_replay_eq_ok o events
  obtain ⟨b', hclose, hb'⟩ := exists_closeAll_eq_ok b.scopes.length hb
  refine ⟨b'.finished.toList.filterMap id, ?_, fun flow hflow => ?_⟩
  · rw [run, hreplay, ok_bind, finish, hclose]
    rfl
  · have hmem : some flow ∈ b'.finished.toList := by simpa using hflow
    obtain ⟨k, hk⟩ := List.mem_iff_getElem?.1 hmem
    exact hb'.finished (k := k) (by simpa using hk)

/-- **A replay finds every index it uses, and leaves no dangling reference.** Nothing is asked of
the notifications: they may be unbalanced, repeat node numbers and enter a division twice. -/
theorem exists_sound_run (o : Options) (events : List Notification) :
    ∃ flows, run o events = .ok flows ∧ ∀ flow ∈ flows,
      flow.graph.check = .ok () ∧
      ∀ (i : GroupId) (group : Group), flow.graph.groups[i]? = some group →
        group.id = i ∧ ∃ block, flow.graph.blocks[group.callSite]? = some block ∧
          block.group = some i := by
  obtain ⟨flows, hrun, hsound⟩ := exists_run_eq_ok o events
  refine ⟨flows, hrun, fun flow hflow => ?_⟩
  have hg := hsound flow hflow
  exact ⟨hg.check, fun i group hi => ⟨hg.group_id hi, hg.callSite hi⟩⟩

end Builder

end CobolFlow
