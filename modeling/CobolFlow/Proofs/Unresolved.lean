import CobolFlow.Proofs.Lowerings
import CobolFlow.Proofs.Targets
import CobolFlow.Proofs.Unaware.Resolution

/-!
# References that stand for nothing

A target of a GO TO that stands for no procedure or for several is reported, and so is a clause of
an ALTER that names such a procedure or one that begins otherwise. What is reported changes nothing
else: if all that is reported is taken out of the tree, every program comes to the same graph and
the same procedures, and the same is reported but for what was taken out.

While the division is read the two builds are in lockstep, only less waits in one of them. When it
has been read, the reported clauses add nothing to what ALTERs add, and a reported target does
nothing but report. So the jumps are drawn alike, with the same slots in the same order, and what
comes afterwards does not look at what has been reported.

A simple GO TO has to name its target, so it keeps it.

## Main definitions

* `ProgramFlow.complaintsOf`, `ProgramFlow.keeps` — what is reported of a reference, and whether it
  may stay
* `ProgramUnit.references` — the references of a program, in the order in which they are looked up
* `ProgramFlow.Prunes` — how the two results are related

## Main results

* `StatementTree.build_prunes` — they are so related for every tree and all options
-/

namespace CobolFlow

open Scope

/-! ### References -/

/-- What is reported of a reference. -/
def ProgramFlow.complaintsOf (flow : ProgramFlow) : Reference → List Problem
  | .target n span | .choice n span => flow.procedures.complaints n span
  | .clause c span =>
    flow.procedures.complaints c.altered span ++
      match flow.procedures.find? c.altered with
      | none => []
      | some p =>
        flow.procedures.complaints c.target span ++
          if (flow.procedures.find? c.target).isSome ∧ flow.leadingJump? c.altered = none then
            (flow.procedures.procedures[p]?.map fun procedure =>
              { kind := .malformedAlter procedure.name, span }).toList
          else []

/-- A reference is taken out if it is reported, unless it is the target of a simple GO TO. -/
def ProgramFlow.keeps (flow : ProgramFlow) : Reference → Bool
  | .target .. => true
  | r => (flow.complaintsOf r).isEmpty

/-- The clauses of an ALTER. -/
def Landmark.clauses : Landmark → List Reference
  | .alter span clauses => clauses.map (.clause · span)
  | _ => []

/-- The targets that a GO TO names. -/
def Landmark.targets : Landmark → List Reference
  | .jump _ span (.simple target) => [.target target span]
  | .jump _ span (.conditional targets) => targets.map (.choice · span)
  | _ => []

/-- The references of a program in the order in which they are looked up: all clauses of ALTERs come
before the targets of GO TOs. -/
def ProgramUnit.references (u : ProgramUnit) : List Reference :=
  u.landmarks.flatMap Landmark.clauses ++ u.landmarks.flatMap Landmark.targets

/-- The second result is that of the program without the references that are reported in the first.
Nothing but the reports on these is missing. -/
structure ProgramFlow.Prunes (u : ProgramUnit) (flow flow' : ProgramFlow) : Prop where
  name : flow'.name = flow.name
  kind : flow'.kind = flow.kind
  graph : flow'.graph = flow.graph
  procedures : flow'.procedures = flow.procedures
  /-- What is reported of references comes first. -/
  problems : ∃ rest, flow.problems = u.references.flatMap flow.complaintsOf ++ rest ∧
    flow'.problems = (u.references.filter flow.keeps).flatMap flow.complaintsOf ++ rest

/-! ### Names that stand for nothing -/

namespace Procedures

variable {c : Procedures} {n : QualifiedName} {span : Span}

/-- A name is reported unless it stands for one procedure. -/
theorem complaints_eq_nil_iff (hc : Sound c) : c.complaints n span = [] ↔ (c.find? n).isSome := by
  obtain ⟨r, hok, -⟩ := exists_resolve_eq_ok hc n
  rw [complaints, find?, hok]
  cases r <;> simp

end Procedures

/-! ### What is reported in the draft -/

namespace Scope

variable {s : Scope} {keep : Reference → Bool}

/-- What an ALTER adds stands for a procedure. -/
theorem complaints_of_mem_alterations (hs : Sound s.procedures) {node : NodeId} {n : QualifiedName}
    (hn : n ∈ Build.Alterations.of s.alterations node) (span : Span) :
    s.procedures.complaints n span = [] := by
  obtain ⟨⟨m, n'⟩, hmem, rfl⟩ := List.mem_map.1 hn
  obtain ⟨w, -, hmem⟩ := List.mem_flatMap.1 (List.mem_of_mem_filter hmem)
  obtain ⟨c, -, hc⟩ := List.mem_filterMap.1 hmem
  obtain ⟨p, -, hc⟩ := Option.bind_eq_some_iff.1 hc
  obtain ⟨q, hq, hc⟩ := Option.bind_eq_some_iff.1 hc
  obtain ⟨m', -, heq⟩ := Option.map_eq_some_iff.1 hc
  rw [← (Prod.mk.inj heq).2, Procedures.complaints_eq_nil_iff hs, hq]
  rfl

/-- A clause that adds something is not reported. -/
theorem alterComplaints_eq_nil (hs : Sound s) {c : AlterClause} (hc : Build.alteration? s c ≠ none)
    (span : Span) : Build.alterComplaints s span c = [] := by
  obtain ⟨added, hadded⟩ := Option.ne_none_iff_exists'.1 hc
  obtain ⟨p, hp, hadded⟩ := Option.bind_eq_some_iff.1 hadded
  obtain ⟨q, hq, hadded⟩ := Option.bind_eq_some_iff.1 hadded
  obtain ⟨m, hm, -⟩ := Option.map_eq_some_iff.1 hadded
  have hfound : ∀ {n : QualifiedName} {r : ProcedureId}, s.procedures.find? n = some r →
      s.procedures.complaints n span = [] := fun hn =>
    (Procedures.complaints_eq_nil_iff hs.procedures).2 (by rw [hn]; rfl)
  rw [Build.alterComplaints, hfound hp, hp, hfound hq]
  simp [hm]

end Scope

/-- A division that is drawn, finished and resolved has been replayed. -/
theorem DivisionText.play_division (d : DivisionText) {o : Options} {program : Option String}
    {id : NodeId} {t s s' : Scope}
    (hplay : Build.play o ((d.items.run (id + 1)).1.flatMap Item.events)
      (Scope.started program id) = .ok ((), t)) (hopen : t.inDivision = true)
    (hfinish : Build.finishBlocks { t with enclosing := t.enclosing.tail } = .ok ((), s))
    (hresolve : Build.resolvePending o s = .ok ((), s')) :
    Build.play o ((Script.division d).run id).1 { procedures := { program } } =
      .ok ((), { s' with inDivision := false }) := by
  have hleave : Build.take o (.leave { id, kind := .procedureDivision }) t =
      .ok ((), { s' with inDivision := false }) := by
    refine (run_bind (a := ⟨⟩) (t := { t with enclosing := t.enclosing.tail }) rfl _).trans ?_
    refine (run_bind (a := { t with enclosing := t.enclosing.tail }) rfl _).trans ?_
    rw [if_pos hopen]
    refine (run_bind hfinish _).trans ?_
    exact (run_bind hresolve _).trans rfl
  rw [d.run_division, List.cons_append, Build.play_cons (Build.take_division o program id),
    Build.play_append hplay, Build.play_singleton, hleave]

namespace ProgramUnit

variable {o : Options} {u : ProgramUnit} {d : DivisionText} {flow flow' : ProgramFlow}
  {s s₁ s₂ : Scope} {chs : List Chapter} {keep : Reference → Bool}

namespace Arises

variable (h : u.Arises o d flow s chs s₁ s₂)
include h

/-- What is reported of a reference is what is reported of it in the draft. -/
theorem complaintsOf_eq (r : Reference) : flow.complaintsOf r =
    match r with
    | .clause c span => Build.alterComplaints s span c
    | .target n span | .choice n span => s.procedures.complaints n span := by
  have hnames := Procedures.SameNames.of_bare h.bare
  have hprocedures : flow.procedures.procedures = s.procedures.procedures :=
    congrArg (·.procedures) hnames
  cases r with
  | clause c span =>
    rw [ProgramFlow.complaintsOf, leadingJump?_eq h.stemsFrom h.draft.sound, hnames.complaints_eq,
      hnames.find?_eq, hprocedures]
    dsimp only
    rw [Build.alterComplaints]
    cases s.procedures.find? c.altered <;> rfl
  | target n span | choice n span => rw [ProgramFlow.complaintsOf, hnames.complaints_eq]

/-- What is reported of clauses that are kept. -/
theorem alterComplaints_pruned : ((s.pending.alters.map (·.pruned keep)).flatMap fun w =>
    w.clauses.flatMap (Build.alterComplaints s w.span)) =
      ((u.landmarks.flatMap Landmark.clauses).filter keep).flatMap flow.complaintsOf := by
  rw [h.draft.alters, h.landmarks, List.flatMap_map, List.filterMap_eq_flatMap_toList,
    List.filter_flatMap, List.flatMap_assoc, List.flatMap_assoc]
  refine List.flatMap_congr fun m _ => ?_
  cases m with
  | alter span clauses =>
    simp only [Landmark.alter?, Landmark.clauses, PendingAlter.pruned, Option.toList_some,
      List.flatMap_singleton, List.filter_map, List.flatMap_map, h.complaintsOf_eq]
    rfl
  | _ => rfl

/-- What is reported of targets that are kept, whatever is added by ALTERs, as long as it is
found. -/
theorem targetComplaints_pruned (hkeep : ∀ n span, keep (.target n span) = true)
    {a : Build.Alterations} (ha : ∀ node, ∀ n ∈ a.of node, ∀ span,
      s.procedures.complaints n span = []) :
    ((s.pending.jumps.map (·.pruned keep)).flatMap fun w =>
      (Build.jumpTargets a w).flatMap (s.procedures.complaints · w.span)) =
        ((u.landmarks.flatMap Landmark.targets).filter keep).flatMap flow.complaintsOf := by
  set F : PendingJump → List Problem := fun w =>
    (Build.jumpTargets a (w.pruned keep)).flatMap (s.procedures.complaints · w.span)
  -- the blocks of GO TOs do not matter
  have hmap := congrArg (List.flatMap F) (h.draft.map_jumps)
  rw [List.flatMap_map] at hmap
  rw [List.flatMap_map]
  refine Eq.trans hmap ?_
  rw [h.landmarks, List.filterMap_eq_flatMap_toList, List.filter_flatMap, List.flatMap_assoc,
    List.flatMap_assoc]
  refine List.flatMap_congr fun m _ => ?_
  cases m with
  | jump node span j =>
    cases j with
    | simple target =>
      have hnil : (a.of node).flatMap (s.procedures.complaints · span) = [] :=
        List.flatMap_eq_nil_iff.2 fun n hn => ha node n hn span
      simp [Landmark.jump?, Landmark.targets, F, PendingJump.pruned, Jump.pruned,
        Build.jumpTargets, hkeep, h.complaintsOf_eq, hnil]
    | conditional targets =>
      simp only [Landmark.jump?, Landmark.targets, F, PendingJump.pruned, Jump.pruned,
        Build.jumpTargets, Option.toList_some, List.flatMap_singleton, List.filter_map,
        List.flatMap_map, h.complaintsOf_eq]
      rfl
  | _ => rfl

/-- What is reported of the references that are kept. -/
theorem jumpComplaints_pruned (keep : Reference → Bool)
    (hkeep : ∀ n span, keep (.target n span) = true) :
    (s.revised (Pending.pruned keep) []).jumpComplaints =
      (u.references.filter keep).flatMap flow.complaintsOf := by
  rw [references, List.filter_append, List.flatMap_append, ← h.alterComplaints_pruned,
    ← h.targetComplaints_pruned hkeep fun node n hn span =>
      complaints_of_mem_alterations (s := s.revised (Pending.pruned keep) [])
        h.draft.sound.procedures hn span]
  rfl

/-- What is reported of all references. -/
theorem jumpComplaints_eq_references :
    s.jumpComplaints = u.references.flatMap flow.complaintsOf := by
  have hall := h.jumpComplaints_pruned (fun _ => true) fun _ _ => rfl
  rw [List.filter_eq_self.2 fun _ _ => rfl, revised, Pending.pruned_true] at hall
  exact hall

end Arises

/-! ### The results -/

/-- A reference that is taken out stands for nothing. -/
theorem Arises.find?_of_keeps (h : u.Arises o d flow s chs s₁ s₂) {n : QualifiedName} {span : Span}
    (hn : flow.keeps (.choice n span) = false) : s.procedures.find? n = none := by
  by_contra hfound
  have hnil : flow.complaintsOf (.choice n span) = [] := (h.complaintsOf_eq _).trans
    ((Procedures.complaints_eq_nil_iff h.draft.sound.procedures).2
      (Option.isSome_iff_ne_none.2 hfound))
  simp [ProgramFlow.keeps, hnil] at hn

/-- A clause that is taken out adds nothing. -/
theorem Arises.alteration?_of_keeps (h : u.Arises o d flow s chs s₁ s₂) {c : AlterClause}
    {span : Span} (hc : flow.keeps (.clause c span) = false) : Build.alteration? s c = none := by
  by_contra hadded
  have hnil : flow.complaintsOf (.clause c span) = [] := (h.complaintsOf_eq _).trans
    (alterComplaints_eq_nil h.draft.sound hadded span)
  simp [ProgramFlow.keeps, hnil] at hc

/-- A program without the references that are reported comes to the same. -/
theorem Yields.prunes (h : u.Yields o flow) (h' : (u.pruned flow.keeps).Yields o flow') :
    flow.Prunes u flow' := by
  have hname : flow'.name = flow.name := h'.name.trans h.name.symm
  have hkind : flow'.kind = flow.kind := h'.kind.trans h.kind.symm
  cases hd : u.division with
  | none =>
    obtain ⟨hgraph, hprocedures, hproblems⟩ := h.of_none hd
    obtain ⟨hgraph', hprocedures', hproblems'⟩ := h'.of_none (by rw [ProgramUnit.pruned, hd]; rfl)
    have hnil : u.references = [] := by rw [references, landmarks, events, hd]; rfl
    exact ⟨hname, hkind, hgraph'.trans hgraph.symm, hprocedures'.trans hprocedures.symm, [],
      by rw [hproblems, hnil]; rfl, by rw [hproblems', hnil]; rfl⟩
  | some d =>
    -- the division as it is drawn, and what it comes to
    obtain ⟨t, chs, hplay, houtline, -⟩ := (Outline.start o u.program u.id).exists_play
      (d.items.run (u.id + 1)).1 (d.allowsAll_items u.program (u.id + 1))
    obtain ⟨s, s₁, s₂, hfinish, harises⟩ := h.arises_of_outline hd houtline hplay
    obtain ⟨s₀, s', hfinish', -, hresolve, hdivision⟩ := houtline.exists_resolved hplay
    obtain rfl : s = s₀ := congrArg Prod.snd (Except.ok.inj (hfinish.symm.trans hfinish'))
    obtain ⟨t', hbuilt, hgraph, hprocedures, hproblems⟩ := h.built
    rw [show u.events = ((Script.division d).run u.id).1 by rw [events, hd], hdivision] at hbuilt
    obtain ⟨-, rfl⟩ := Prod.mk.inj (Except.ok.inj hbuilt)
    -- the pruned division is drawn in lockstep
    have hlockstep : Lockstep (Pending.pruned flow.keeps) [] _ _ :=
      Build.play_lockstep o (d.isWithin_items (u.id + 1))
    have hunaware : Unaware (Pending.pruned flow.keeps) [] Build.finishBlocks :=
      Build.finishBlocks_unaware
    have hplay' := hlockstep.run hplay
    rw [← d.events_items_pruned] at hplay'
    have hfinish' := hunaware.run hfinish
    obtain ⟨s'', rest, hresolve', hgraph', hprocedures', hproblems', hproblems''⟩ :=
      harises.draft.exists_resolved_pruned (fun _ _ => harises.find?_of_keeps)
        (fun _ _ => harises.alteration?_of_keeps) hresolve
    obtain ⟨t'', hbuilt', hgraph'', hprocedures'', hreported⟩ := h'.built
    have hevents : (u.pruned flow.keeps).events =
        ((Script.division (d.pruned flow.keeps)).run u.id).1 := by
      rw [events, ProgramUnit.pruned, hd]
      rfl
    have hdivision' := (d.pruned flow.keeps).play_division hplay' houtline.inDivision hfinish'
      hresolve'
    rw [hevents] at hbuilt'
    obtain ⟨-, rfl⟩ := Prod.mk.inj (Except.ok.inj (hdivision'.symm.trans hbuilt'))
    exact ⟨hname, hkind, hgraph''.trans (hgraph'.trans hgraph.symm),
      hprocedures''.trans (hprocedures'.trans hprocedures.symm), rest,
      by rw [hproblems, ← harises.jumpComplaints_eq_references]; exact hproblems',
      by rw [hreported, ← harises.jumpComplaints_pruned _ fun _ _ => rfl]; exact hproblems''⟩

end ProgramUnit

/-- **References that stand for nothing change nothing but what is reported**, for every tree and
all options. If they are taken out, each program with its own, the results are the same but for the
reports on these references. -/
theorem StatementTree.build_prunes (t : StatementTree) (o : Options) : ∃ flows flows',
    t.build o = .ok flows ∧ flows.length = t.units.length ∧
    (t.pruned fun i r => flows[i]?.all (·.keeps r)).build o = .ok flows' ∧
    List.Forall₂ (fun (u, flow) flow' => flow.Prunes u flow') (t.units.zip flows) flows' := by
  obtain ⟨flows, hbuild, hflows⟩ := t.exists_build o
  set keep : ℕ → Reference → Bool := fun i r => flows[i]?.all (·.keeps r)
  obtain ⟨flows', hbuild', hflows'⟩ := (t.pruned keep).exists_build o
  rw [units_pruned] at hflows'
  have hlength := hflows.length_eq
  have hlength' := hflows'.length_eq
  rw [List.length_mapIdx] at hlength'
  refine ⟨flows, flows', hbuild, hlength.symm, hbuild', List.forall₂_iff_get.2 ⟨?_, ?_⟩⟩
  · rw [List.length_zip, ← hlength, Nat.min_self, hlength']
  · intro i hi hi'
    have hunits : i < t.units.length := hlength'.symm ▸ hi'
    have hresults : i < flows.length := hlength ▸ hunits
    have hyields := (List.forall₂_iff_get.1 hflows).2 i hunits hresults
    have hyields' := (List.forall₂_iff_get.1 hflows').2 i (by rwa [List.length_mapIdx]) hi'
    have hkeep : keep i = flows[i].keeps := by
      funext r
      simp [keep, List.getElem?_eq_getElem hresults]
    simp only [List.get_eq_getElem, List.getElem_mapIdx, hkeep] at hyields hyields' ⊢
    rw [List.getElem_zip]
    exact hyields.prunes hyields'

/-- There is no paragraph Q in `jumpBack`, and nothing else is reported of it. -/
example : (do
    let flows ← jumpBack.build {}
    let flows' ← (jumpBack.pruned fun i r => flows[i]?.all (·.keeps r)).build {}
    return (flows.map (·.problems.map Problem.code), flows'.map (·.problems)) :
      Except Fault (List (List String) × List (List Problem))).toOption =
    some ([["CFG001"]], [[]]) := by
  cbv

end CobolFlow
