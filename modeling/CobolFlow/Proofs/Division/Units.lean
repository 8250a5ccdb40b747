import CobolFlow.Proofs.Division.Body
import CobolFlow.Proofs.Division.Numbering

/-!
# The programs of a tree

A tree is replayed in one go, and the programs contained in a program are replayed inside it, after
its own division. What the replay answers for each of them is still what its own division comes to.

## Main definitions

* `ProgramUnit`, `StatementTree.units` — the programs and functions of a tree, in source order
* `ProgramUnit.Yields` — the result of a program by itself

## Main results

* `StatementTree.exists_build` — a tree yields the results of its programs, one by one
-/

namespace CobolFlow

/-- A program or function without those contained in it. -/
structure ProgramUnit where
  name : String
  kind : ProgramKind
  /-- The number of the node after its header. -/
  id : NodeId
  division : Option DivisionText

namespace ProgramUnit

/-- The name that can qualify procedures. -/
def program (u : ProgramUnit) : Option String := if u.name.isEmpty then none else some u.name

/-- What is replayed of its division. -/
def events (u : ProgramUnit) : List Notification :=
  match u.division with
  | some d => ((Script.division d).run u.id).1
  | none => []

/-- The result is what the division comes to by itself. -/
structure Yields (o : Options) (u : ProgramUnit) (flow : ProgramFlow) : Prop where
  name : flow.name = u.name
  kind : flow.kind = u.kind
  built : ∃ s, Build.play o u.events { procedures := { program := u.program } } = .ok ((), s) ∧
    flow.graph = s.graph ∧ flow.procedures = s.procedures ∧ flow.problems = s.problems

end ProgramUnit

mutual

/-- A program and the programs contained in it. -/
def ProgramText.units : ProgramText → Numbered (List ProgramUnit)
  | .mk name kind body nested => do
    let id ← modifyGet fun id => (id + 1, id + 1)
    let _ ← (body.map Script.division).getD (pure [])
    return { name, kind, id, division := body } :: (← ProgramText.allUnits nested)

def ProgramText.allUnits : List ProgramText → Numbered (List ProgramUnit)
  | [] => pure []
  | p :: rest => do return (← ProgramText.units p) ++ (← ProgramText.allUnits rest)

end

theorem ProgramText.run_allUnits (p : ProgramText) (rest : List ProgramText) (id : NodeId) :
    (allUnits (p :: rest)).run id =
      ((p.units.run id).1 ++ ((allUnits rest).run (p.units.run id).2).1,
        ((allUnits rest).run (p.units.run id).2).2) := by
  rw [allUnits]
  rfl

/-- All programs and functions in source order. -/
def StatementTree.units (t : StatementTree) : List ProgramUnit :=
  ((ProgramText.allUnits t.programs).run 0).1

namespace Builder

variable {b : Builder} {p : OpenProgram} {outer : List OpenProgram} {s : Scope}
  {events : List Notification}

theorem step_eq_inScope {e : Notification} (he : e.IsInner) (hb : b.scopes = p :: outer) :
    b.step e = b.inScope (Build.take b.options e) := by
  cases e with
  | enter n =>
    obtain ⟨id, kind, span, text⟩ := n
    cases kind <;>
      first | rfl | exact absurd rfl he.1 | exact absurd rfl he.2 | simp [step, hb, Build.take]
  | leave n =>
    obtain ⟨id, kind, span, text⟩ := n
    cases kind <;> first | rfl | exact absurd rfl he.1 | exact absurd rfl he.2
  | sentenceEnd => rfl
  | whenClause => rfl
  | whenOtherClause => rfl
  | searchClause atEnd => rfl

theorem step_inner {e : Notification} (he : e.IsInner) (hb : b.scopes = p :: outer)
    (htake : Build.take b.options e p.scope = .ok ((), s)) :
    b.step e = .ok { b with scopes := { p with scope := s } :: outer } := by
  rw [step_eq_inScope he hb, inScope, hb]
  change (Build.take b.options e p.scope >>= _) = _
  rw [htake]
  rfl

/-- What lies inside a program is played in its scope. -/
theorem foldlM_step_inner (hinner : ∀ e ∈ events, e.IsInner) (hb : b.scopes = p :: outer)
    (hplay : Build.play b.options events p.scope = .ok ((), s)) :
    events.foldlM step b = .ok { b with scopes := { p with scope := s } :: outer } := by
  induction events generalizing b p with
  | nil =>
    obtain ⟨-, rfl⟩ := Prod.mk.inj (Except.ok.inj hplay)
    rw [← hb]
    rfl
  | cons e rest ih =>
    obtain ⟨⟨⟩, t, htake, hrest⟩ := exists_of_run_bind_eq_ok hplay
    rw [List.foldlM_cons, step_inner (hinner e (by simp)) hb htake, ok_bind,
      ih (b := { b with scopes := { p with scope := t } :: outer })
        (fun e he => hinner e (by simp [he])) rfl hrest]

theorem closeProgram_eq_ok (hb : b.scopes = p :: outer) (hp : p.slot < b.finished.size) :
    b.closeProgram = .ok { b with
      scopes := outer
      finished := b.finished.setIfInBounds p.slot (some p.flow)
      violations := b.violations ++ p.scope.violations } := by
  rw [closeProgram, hb]
  exact if_pos hp

/-- The place that was kept for a program is filled when its contained programs are finished. -/
theorem fill_finished {α : Type} (done : Array α) (kept flow : α) (flows : List α) :
    (done.push kept ++ flows.toArray).setIfInBounds done.size flow =
      done ++ (flow :: flows).toArray := by
  apply Array.ext'
  simp

/-- The replay of a program. -/
theorem run_program (name : String) (kind : ProgramKind) (body : Option DivisionText)
    (nested : List ProgramText) (id : NodeId) : ∃ n : Node,
      ¬ (Notification.enter n).IsInner ∧
      (∀ b : Builder, b.step (.enter n) = .ok (b.openProgram name kind) ∧
        b.step (.leave n) = b.closeProgram) ∧
      let u : ProgramUnit := { name, kind, id := id + 1, division := body }
      let next := (((body.map Script.division).getD (pure [])).run (id + 1)).2
      (Script.program (.mk name kind body nested)).run id =
        (.enter n :: (u.events ++ ((Script.programs nested).run next).1) ++ [.leave n],
          ((Script.programs nested).run next).2) ∧
      (ProgramText.units (.mk name kind body nested)).run id =
        (u :: ((ProgramText.allUnits nested).run next).1,
          ((ProgramText.allUnits nested).run next).2) := by
  have hevents : (((body.map Script.division).getD (pure [])).run (id + 1)).1 =
      ({ name, kind, id := id + 1, division := body } : ProgramUnit).events := by
    cases body <;> rfl
  refine ⟨{ id, kind := match kind with
    | .program => NodeKind.program name
    | .function => NodeKind.function name }, ?_,
    fun b => by cases kind <;> exact ⟨rfl, rfl⟩, ?_, ?_⟩
  · cases kind <;> simp [Notification.IsInner, Node.tag, NodeKind.tag]
  · rw [← hevents]
    cases kind <;> (rw [Script.program]; rfl)
  · rw [ProgramText.units]
    rfl

mutual

/-- What is replayed inside programs is replayed of their divisions. -/
theorem covers_of_program : ∀ (p : ProgramText) (id : NodeId),
    ((Script.program p).run id).2 = (p.units.run id).2 ∧
      ∀ e ∈ ((Script.program p).run id).1, e.IsInner → ∃ u ∈ (p.units.run id).1, e ∈ u.events
  | .mk name kind body nested, id => by
    obtain ⟨n, houter, -, hscript, hunits⟩ := run_program name kind body nested id
    rw [hscript, hunits]
    obtain ⟨hnext, hcovers⟩ := covers_of_programs nested
      (((body.map Script.division).getD (pure [])).run (id + 1)).2
    refine ⟨hnext, fun e he hinner => ?_⟩
    simp only [List.cons_append, List.append_assoc, List.mem_cons, List.mem_append,
      List.not_mem_nil, or_false] at he
    obtain rfl | he | he | rfl := he
    · exact absurd hinner houter
    · exact ⟨_, List.mem_cons_self, he⟩
    · obtain ⟨u, hu, he⟩ := hcovers e he hinner
      exact ⟨u, List.mem_cons_of_mem _ hu, he⟩
    · exact absurd hinner houter

theorem covers_of_programs : ∀ (l : List ProgramText) (id : NodeId),
    ((Script.programs l).run id).2 = ((ProgramText.allUnits l).run id).2 ∧
      ∀ e ∈ ((Script.programs l).run id).1, e.IsInner →
        ∃ u ∈ ((ProgramText.allUnits l).run id).1, e ∈ u.events
  | [], id => by
    rw [Script.programs, ProgramText.allUnits]
    exact ⟨rfl, fun e he => absurd he List.not_mem_nil⟩
  | p :: rest, id => by
    obtain ⟨hnext, hcovers⟩ := covers_of_program p id
    obtain ⟨hnext', hcovers'⟩ := covers_of_programs rest ((Script.program p).run id).2
    rw [Script.programs, ProgramText.run_allUnits]
    rw [hnext] at hnext' hcovers'
    refine ⟨?_, fun e he hinner => ?_⟩
    · exact (congrArg (fun id => ((Script.programs rest).run id).2) hnext).trans hnext'
    · obtain he | he := List.mem_append.1 (show e ∈ ((Script.program p).run id).1 ++
        ((Script.programs rest).run ((Script.program p).run id).2).1 from he)
      · obtain ⟨u, hu, he⟩ := hcovers e he hinner
        exact ⟨u, List.mem_append_left _ hu, he⟩
      · obtain ⟨u, hu, he⟩ := hcovers' e (hnext ▸ he) hinner
        exact ⟨u, List.mem_append_right _ hu, he⟩

end

/-- Whatever a builder has done before, it yields the results of some units. -/
def Adds (b : Builder) (events : List Notification) (units : List ProgramUnit) : Prop :=
  ∃ flows violations, events.foldlM step b =
      .ok { b with finished := b.finished ++ (flows.map some).toArray, violations } ∧
    List.Forall₂ (ProgramUnit.Yields b.options) units flows

/-- The events of a unit are played in a scope of its own. -/
theorem exists_play_events (u : ProgramUnit) (o : Options) : (∀ e ∈ u.events, e.IsInner) ∧
    ∃ s, Build.play o u.events { procedures := { program := u.program } } = .ok ((), s) := by
  obtain ⟨name, kind, id, _ | d⟩ := u
  · exact ⟨fun e he => absurd he (by simp [ProgramUnit.events]), _, rfl⟩
  · obtain ⟨-, -, s, -, -, hplay⟩ := d.exists_play_division o
      (if name.isEmpty then none else some name) id
    exact ⟨(Script.orderly_division d).inner id, _, hplay⟩

theorem adds_program (b : Builder) (name : String) (kind : ProgramKind)
    (body : Option DivisionText) (nested : List ProgramText) (id : NodeId)
    (hnested : ∀ (b : Builder) (id : NodeId), b.Adds ((Script.programs nested).run id).1
      ((ProgramText.allUnits nested).run id).1) :
    b.Adds ((Script.program (.mk name kind body nested)).run id).1
      ((ProgramText.units (.mk name kind body nested)).run id).1 := by
  obtain ⟨n, -, hn, hscript, hunits⟩ := run_program name kind body nested id
  rw [hscript, hunits]
  set u : ProgramUnit := { name, kind, id := id + 1, division := body }
  set next := (((body.map Script.division).getD (pure [])).run (id + 1)).2
  obtain ⟨hinner, s, hplay⟩ := exists_play_events u b.options
  set opened : OpenProgram :=
    { name, kind, slot := b.finished.size, parent := b.scopes.head?.map (·.slot)
      scope := { procedures := { program := u.program } } }
  set b₁ : Builder := { b with
    scopes := { opened with scope := s } :: b.scopes, finished := b.finished.push none }
  have hbody : u.events.foldlM step (b.openProgram name kind) = .ok b₁ :=
    @foldlM_step_inner (b.openProgram name kind) opened b.scopes _ _ hinner rfl
      hplay
  obtain ⟨flows, vs, hrun, hflows⟩ := hnested b₁ next
  have hclose := @closeProgram_eq_ok
    { b₁ with finished := b₁.finished ++ (flows.map some).toArray, violations := vs }
    { opened with scope := s } b.scopes rfl (by simp [b₁, opened])
  refine ⟨({ opened with scope := s } : OpenProgram).flow :: flows, vs ++ s.violations, ?_,
    .cons ⟨rfl, rfl, s, hplay, rfl, rfl, rfl⟩ hflows⟩
  rw [List.cons_append, List.foldlM_cons, (hn b).1, ok_bind, List.foldlM_append,
    List.foldlM_append, hbody, ok_bind, hrun, ok_bind, List.foldlM_cons,
    (hn _).2, hclose, ok_bind, List.foldlM_nil]
  have hfill := fill_finished b.finished none
    (some ({ opened with scope := s } : OpenProgram).flow) (flows.map some)
  exact congrArg (fun finished => Except.ok ({ b with
    finished, violations := vs ++ s.violations } : Builder)) hfill

mutual

theorem adds_of_program : ∀ (p : ProgramText) (b : Builder) (id : NodeId),
    b.Adds ((Script.program p).run id).1 (p.units.run id).1
  | .mk name kind body nested, b, id =>
    adds_program b name kind body nested id (adds_of_programs nested)

theorem adds_of_programs : ∀ (l : List ProgramText) (b : Builder) (id : NodeId),
    b.Adds ((Script.programs l).run id).1 ((ProgramText.allUnits l).run id).1
  | [], b, id => by
    rw [Script.programs, ProgramText.allUnits]
    refine ⟨[], b.violations, ?_, .nil⟩
    simp
    rfl
  | p :: rest, b, id => by
    obtain ⟨flows, vs, hrun, hflows⟩ := adds_of_program p b id
    obtain ⟨flows', vs', hrun', hflows'⟩ := adds_of_programs rest
      { b with finished := b.finished ++ (flows.map some).toArray, violations := vs }
      ((Script.program p).run id).2
    rw [Script.programs, ProgramText.run_allUnits, ← (covers_of_program p id).1]
    refine ⟨flows ++ flows', vs', ?_, List.rel_append hflows hflows'⟩
    change (((Script.program p).run id).1 ++
      ((Script.programs rest).run ((Script.program p).run id).2).1).foldlM step b = _
    rw [List.foldlM_append, hrun, ok_bind, hrun']
    simp

end

end Builder

/-- Whatever is replayed inside a program is replayed of some unit. -/
theorem StatementTree.exists_unit (t : StatementTree) {e : Notification} (he : e ∈ t.notifications)
    (hinner : e.IsInner) : ∃ u ∈ t.units, e ∈ u.events :=
  (Builder.covers_of_programs t.programs 0).2 e he hinner

/-- **A tree** yields the results of its programs, one by one. -/
theorem StatementTree.exists_build (t : StatementTree) (o : Options) :
    ∃ flows, t.build o = .ok flows ∧ List.Forall₂ (ProgramUnit.Yields o) t.units flows := by
  obtain ⟨flows, vs, hrun, hflows⟩ :=
    Builder.adds_of_programs t.programs { options := o } 0
  refine ⟨flows, ?_, hflows⟩
  have hreplay : Builder.replay o t.notifications =
      .ok { options := o, finished := (flows.map some).toArray, violations := vs } := by
    refine hrun.trans ?_
    simp
  rw [StatementTree.build, Builder.run, hreplay, ok_bind, Builder.finish]
  change Except.ok ((flows.map some).toArray.toList.filterMap id) = _
  simp

end CobolFlow
