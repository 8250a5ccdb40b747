import CobolFlow.Proofs.Steps.Inside
import CobolFlow.Proofs.Steps.Lengthening

/-!
# How a sentence begins

The first statement of a sentence is entered in an empty block. It is written there, or it is
written into a block of its own, to which the empty one leads from then on. Which of the two it is
can be said of the statement alone, and later notifications change nothing about it, since blocks
only get longer. So what ALTER looks for, a GO TO at the head of the first block of a procedure, is
found exactly if the procedure begins with one.

## Main definitions

* `Spot.Begins` — a block with which a sentence begins

## Main results

* `Scope.Ready.begins_statements` — the block in which the statements of a sentence begin
-/

namespace CobolFlow

/-- The block begins with the node, or it leads to where the node is, which is no simple GO TO
then. -/
def Spot.Begins (s : Spot) (n : Node) : Prop :=
  s.nodes.head? = some n.instruction ∨ s.next ≠ [] ∧ n.tag ≠ .goToSimple

/-- What a block begins with does not change while it gets longer. -/
theorem Spot.Begins.mono {g g' : Graph} {b : BlockId} {n : Node} (hg : g.Lengthens g')
    (h : (g.chart b).Begins n) : (g'.chart b).Begins n := by
  refine h.imp (fun hhead => ?_) (.imp_left fun hnext hnil => ?_)
  · obtain ⟨more, hmore⟩ := hg.nodes b
    rw [← hmore, List.head?_append, hhead, Option.some_or]
  · exact hnext (List.subset_nil.1 (hnil ▸ hg.next b))

namespace Script

/-- The first thing to be replayed of a statement is that it is entered. -/
theorem exists_enter (st : Statement) (id : NodeId) :
    ∃ n events, ((statement st).run id).1 = .enter n :: events ∧
      n.tag.isStatement = true ∧ n.tag ≠ .procedureDivision ∧ n.tag ≠ .elsePart := by
  obtain ⟨form, text, span⟩ := st
  have hnode : ∀ (kind : NodeKind) (inside : Script),
      ((node kind span text inside).run id).1 = .enter ⟨id, kind, span, text⟩ ::
        ((inside.run (id + 1)).1 ++ [.leave ⟨id, kind, span, text⟩]) := fun _ _ => rfl
  have hgoTo : ∀ jump : Jump, (NodeKind.goTo jump).tag.isStatement = true ∧
      (NodeKind.goTo jump).tag ≠ .procedureDivision ∧
      (NodeKind.goTo jump).tag ≠ .elsePart := fun jump => by
    cases jump <;> exact ⟨rfl, nofun, nofun⟩
  cases form with
  | goTo targets depending =>
    rw [statement]
    exact ⟨_, _, hnode _ _, hgoTo _⟩
  | _ =>
    rw [statement]
    exact ⟨_, _, hnode _ _, rfl, nofun, nofun⟩

/-- The first thing to be replayed of a sentence is that its first statement is entered. -/
theorem exists_enter_statements (st : Statement) (rest : List Statement) (id : NodeId) :
    ∃ n events, ((statements (st :: rest)).run id).1 = .enter n :: events ∧
      n.tag.isStatement = true ∧ n.tag ≠ .procedureDivision ∧ n.tag ≠ .elsePart := by
  obtain ⟨n, events, hst, hn⟩ := exists_enter st id
  rw [statements]
  refine ⟨n, events ++ ((statements rest).run ((statement st).run id).2).1, ?_, hn⟩
  change ((statement st).run id).1 ++ _ = _
  rw [hst]
  rfl

end Script

namespace Scope

variable {o : Options} {s s' : Scope} {n : Node}

section Entering

variable {s₁ : Scope} {Γ : Sketch} {fs : List Fork} {l : Ledger}

/-- A statement is written into the block that was empty. -/
theorem Since.begins_of_nodes (h : Since s s' Γ fs l)
    (hsilent : (s.sketch.chart s.sketch.here).nodes = [])
    (hΓ : (Γ.chart s.sketch.here).nodes = (s.sketch.chart s.sketch.here).nodes ++ [n.instruction]) :
    (s'.graph.chart s.sketch.here).Begins n :=
  .inl (by rw [h.chart, hΓ, hsilent]; rfl)

/-- A statement is written into another block, to which the empty one leads. -/
theorem Since.begins_of_next (h : Since s s' Γ fs l) (htag : n.tag ≠ .goToSimple)
    (hΓ : (Γ.chart s.sketch.here).next ≠ []) : (s'.graph.chart s.sketch.here).Begins n :=
  .inr ⟨h.chart ▸ hΓ, htag⟩

/-- A decision is opened and then written. -/
theorem Since.begins_openFork (h : Since s s₁ s.sketch s.forks s.ledger)
    (hsilent : (s.sketch.chart s.sketch.here).nodes = []) :
    ∃ s₂, (do
      Build.pushFork (.openedBy n.instruction s.sketch.here)
      Build.addInstruction n.instruction : Build Unit) s₁ = .ok ((), s₂) ∧
      (s₂.graph.chart s.sketch.here).Begins n := by
  obtain ⟨s₂, hpush, h₂⟩ := h.exists_pushFork (f := .openedBy n.instruction s.sketch.here)
    (Build.inside_openedBy _ (h.sound.currentBlock _ h.here))
  obtain ⟨s₃, hrun, h₃⟩ := h₂.exists_addInstruction n.instruction
  exact ⟨s₃, (run_bind hpush _).trans hrun,
    h₃.begins_of_nodes hsilent (by simp [Sketch.say, Sketch.sayAt])⟩

/-- A search is written into the empty block, which becomes its root, or into a new root. -/
theorem Since.begins_enterSearch (h : Since s s₁ s.sketch s.forks s.ledger) (hopen : s.sketch.Open)
    (hsilent : (s.sketch.chart s.sketch.here).nodes = []) (ho : o.searchCascade = true)
    (htag : n.tag ≠ .goToSimple) :
    ∃ s₂, Build.enterSearch o n.instruction s₁ = .ok ((), s₂) ∧
      (s₂.graph.chart s.sketch.here).Begins n := by
  obtain ⟨Γᵣ, rootSlot, s₂, hrun, hfragment, hnodes, h₂, -⟩ :=
    h.exists_enterSearch ho hopen n.instruction
  have hlt := hopen.here_lt
  have hroot := hfragment.opened.here_lt
  have hfalls : (Behaviour.skip.saying [n.instruction]).falls ≠ 0 := by
    have hmem : [n.instruction] ∈ (Behaviour.skip.saying [n.instruction]).falls := by
      simp [Behaviour.saying, Behaviour.after, Behaviour.skip, mem_just]
    exact fun hzero => absurd (hzero ▸ hmem) (Language.notMem_zero _)
  obtain heq | ⟨c, hc, -⟩ := (hfragment.reaches hfalls).cases_head
  · refine ⟨s₂, hrun, h₂.begins_of_nodes hsilent ?_⟩
    rw [heq, Sketch.chart_branch hroot.ne]
    simp [hroot.ne, hnodes, heq ▸ hsilent]
  · refine ⟨s₂, hrun, h₂.begins_of_next htag ?_⟩
    have hsize := hfragment.size_le
    rw [Sketch.chart_branch hroot.ne, if_neg (by omega)]
    split <;> simp [List.ne_nil_of_mem hc]

end Entering

/-- The first statement of a sentence is entered in an empty block. -/
theorem Ready.exists_begins (h : Ready s) (hsilent : (s.sketch.chart s.sketch.here).nodes = [])
    (hn : n.tag.isStatement = true) (helse : n.tag ≠ .elsePart) (o : Options) :
    ∃ s', Build.take o (.enter n) s = .ok ((), s') ∧
      (s'.graph.chart s.sketch.here).Begins n := by
  have hlt := h.opened.here_lt
  have hkind : ∀ s₁, Since s s₁ s.sketch s.forks s.ledger → ∃ s₂,
      Build.enterKind o n s₁ = .ok ((), s₂) ∧ (s₂.graph.chart s.sketch.here).Begins n := by
    intro s₁ h₁
    obtain ⟨s₂, hsay, h₂⟩ := h₁.exists_addInstruction n.instruction
    simp only [Build.enterKind]
    have htag : n.tag = n.kind.tag := rfl
    cases hkind : n.kind with
    | program | function | procedureDivision | declaratives | sectionHeader | paragraphHeader
    | elsePart | whenPhrase | whenOther | searchWhen | exception =>
      rw [htag, hkind] at hn helse
      first
        | exact absurd rfl helse
        | simp [NodeKind.tag, NodeTag.isStatement, NodeTag.role] at hn
    | exit | call | ordinary =>
      exact ⟨s₂, hsay, h₂.begins_of_nodes hsilent (by simp [Sketch.say, Sketch.sayAt])⟩
    | alter clauses =>
      obtain ⟨s₂, hrun, h₂⟩ := h₁.exists_enterAlter n.instruction n.span clauses 0
      exact ⟨s₂, hrun, h₂.begins_of_nodes hsilent (by simp [Sketch.say, Sketch.sayAt])⟩
    | terminate =>
      obtain ⟨s₂, hrun, h₂⟩ := h₁.exists_enterEnding n.instruction
      exact ⟨s₂, hrun, h₂.begins_of_nodes hsilent (by simp [Sketch.depart, Sketch.fresh,
        Sketch.goTo, Sketch.flag, Sketch.say, Sketch.sayAt, hlt.ne])⟩
    | nextSentence =>
      obtain ⟨s₂, hrun, h₂⟩ := h₁.exists_enterNextSentence h n.instruction
      exact ⟨s₂, hrun, h₂.begins_of_nodes hsilent (by simp [Sketch.depart, Sketch.fresh,
        Sketch.goTo, Sketch.flag, Sketch.say, Sketch.sayAt, hlt.ne])⟩
    | goTo jump =>
      cases hjump : jump.isSimple with
      | true =>
        obtain ⟨s₂, hrun, h₂⟩ := h₁.exists_enterJump_simple n.instruction n.span hjump
        exact ⟨s₂, hrun, h₂.begins_of_nodes hsilent (by simp [Sketch.depart, Sketch.fresh,
          Sketch.goTo, Sketch.flag, Sketch.say, Sketch.sayAt, hlt.ne])⟩
      | false =>
        obtain ⟨s₂, hrun, h₂⟩ := h₁.exists_enterJump_conditional n.instruction n.span hjump
        exact ⟨s₂, hrun, h₂.begins_of_nodes hsilent (by simp [Sketch.depend, Sketch.fresh,
          Sketch.goTo, Sketch.edge, Sketch.say, Sketch.sayAt, hlt.ne])⟩
    | ifThen =>
      obtain ⟨k, s₂, hrun, h₂⟩ := h₁.exists_enterIf n.instruction
      exact ⟨s₂, hrun, h₂.begins_of_nodes hsilent (by simp [Sketch.chart_branch, Sketch.say,
        Sketch.sayAt, hlt.ne])⟩
    | evaluate =>
      obtain ⟨s₂, hrun, hbegins⟩ := h₁.begins_openFork (n := n) hsilent
      exact ⟨s₂, (run_bind h₁.current? _).trans hrun, hbegins⟩
    | search =>
      cases ho : o.searchCascade with
      | false =>
        obtain ⟨s₂, hrun, hbegins⟩ := h₁.begins_openFork (n := n) hsilent
        refine ⟨s₂, (run_bind h₁.current? _).trans ?_, hbegins⟩
        simp only [ho]
        exact hrun
      | true =>
        exact h₁.begins_enterSearch h.opened hsilent ho (by simp [htag, hkind, NodeKind.tag])
    | perform range =>
      obtain ⟨s₂, hrun, h₂⟩ := h₁.exists_enterPerform n.instruction n.span range
      exact ⟨s₂, hrun, h₂.begins_of_next (by simp [htag, hkind, NodeKind.tag])
        (by simp [Sketch.call,
        Sketch.fresh, Sketch.goTo, Sketch.edge, hlt.ne, (Nat.lt_succ_of_lt hlt).ne])⟩
    | loop repetition testAfter =>
      obtain ⟨k₁, k₂, s₂, hrun, h₂, -⟩ := h₁.exists_enterLoop n.instruction testAfter
      refine ⟨s₂, hrun, h₂.begins_of_next (by simp [htag, hkind, NodeKind.tag]) ?_⟩
      rw [Sketch.chart_openLoop hlt rfl]
      simp [hlt.ne, (Nat.lt_succ_of_lt hlt).ne]
  obtain ⟨s₁, hrun, hbegins⟩ := h.since.exists_enter (o := o) (n := n) h (fun htag => by
    rw [htag] at hn
    cases hn) hkind
  exact ⟨_, hrun, hbegins⟩

/-- The statements of a sentence begin in the block that is current before them. -/
theorem Ready.begins_statements (h : Ready s)
    (hsilent : (s.sketch.chart s.sketch.here).nodes = []) {text : SentenceText} {id : NodeId}
    (hplay : Build.play o ((Script.statements text).run id).1 s = .ok ((), s'))
    (hn : ((Script.statements text).run id).1.head? = some (.enter n)) :
    (s'.graph.chart s.sketch.here).Begins n := by
  have hinside := (Script.replay_statements text id).isInside
  cases text with
  | nil =>
    rw [Script.statements] at hn
    exact nomatch hn
  | cons st rest =>
    obtain ⟨m, events, hevents, hstatement, -, helse⟩ :=
      Script.exists_enter_statements st rest id
    rw [hevents] at hplay hn hinside
    obtain rfl : m = n := Notification.enter.inj (Option.some.inj hn)
    obtain ⟨s₁, hrun, hbegins⟩ := h.exists_begins hsilent hstatement helse o
    rw [Build.play_cons hrun] at hplay
    refine hbegins.mono ?_
    exact Build.lengthens_of_steps (Build.play_steps o fun e he => hinside e (by simp [he])) s₁ ()
      s' hplay

end Scope

end CobolFlow
