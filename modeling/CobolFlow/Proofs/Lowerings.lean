import CobolFlow.Proofs.Errands
import CobolFlow.Proofs.Modes

/-!
# The two lowerings of EVALUATE

A division comes to the same in both lowerings of EVALUATE, in so far as it can be heard: from each
root the same instructions are read along the paths of the graph, but for the WHEN phrases, and the
same problems are reported, but for the numbers of blocks. For both can be said of the plan of the
division, and the plan does not depend on the lowering.

## Main definitions

* `ProgramFlow.SoundsAlike` — how the two results are related

## Main results

* `StatementTree.build_soundsAlike` — they are so related for every tree
-/

namespace CobolFlow

open Scope

/-- Two results that differ in WHEN phrases and in the numbers of blocks. -/
structure ProgramFlow.SoundsAlike (flow flow' : ProgramFlow) : Prop where
  name : flow.name = flow'.name
  kind : flow.kind = flow'.kind
  /-- From each root the same is heard along the paths to blocks that lead nowhere. -/
  readings : List.Forall₂ (fun r r' =>
    erase (flow.graph.chart.reading r) = erase (flow'.graph.chart.reading r'))
      flow.graph.roots flow'.graph.roots
  problems : flow.problems.map Problem.unplaced = flow'.problems.map Problem.unplaced

namespace Draft

variable {o : Options} {s : Scope} {p : Plan} {chs : List Chapter}

/-- Where the GO TOs stand does not matter. -/
theorem map_jumps (h : Draft o s p chs) : s.pending.jumps.map ({ · with block := 0 }) =
    p.landmarks.filterMap fun m => Landmark.jump? (0, m) := by
  have hjumps : s.pending.jumps = (Chapter.allMarks chs).filterMap Landmark.jump? := h.holds.jumps
  rw [hjumps, ← h.landmarks, List.filterMap_map, List.map_filterMap]
  refine List.filterMap_congr fun ⟨b, m⟩ _ => ?_
  cases m <;> rfl

/-- The errands are those of the plan if each is. -/
theorem map_performs {β : Type} (h : Draft o s p chs) {f : PendingPerform → β} {g : Call → β}
    (hfg : ∀ call k, f (call.pending k) = g call) :
    s.pending.performs.map f = (p.landmarks.filterMap Landmark.call?).map g := by
  rw [h.performs, ← h.calls, List.map_map]
  refine List.ext_getElem? fun k => ?_
  rw [List.getElem?_map, List.getElem?_map, List.getElem?_mapIdx, Option.map_map]
  exact congrArg (Option.map · _) (funext fun e => hfg e.2 k)

end Draft

namespace ProgramUnit

variable {o o' : Options} {u : ProgramUnit} {d : DivisionText} {flow flow' : ProgramFlow}
  {s s₁ s₂ s' s₁' s₂' : Scope} {chs chs' : List Chapter} {l l' : Log} {n n' : ℕ}

namespace Arises

variable (h : u.Arises o d flow s chs s₁ s₂) (hl : u.Lists flow (Chapter.extent chs) l)
  (h' : u.Arises o' d flow' s' chs' s₁' s₂') (hl' : u.Lists flow' (Chapter.extent chs') l')
include h hl h' hl'

/-- The same is reported of jumps. -/
theorem jumpComplaints_eq : s'.jumpComplaints = s.jumpComplaints := by
  have hnames : Procedures.SameNames s.procedures s'.procedures :=
    .of_erase (h'.draft.catalog.trans h.draft.catalog.symm)
  have hjumps : ∀ F : PendingJump → List Problem, (∀ w, F w = F { w with block := 0 }) →
      s'.pending.jumps.flatMap F = s.pending.jumps.flatMap F := fun F hF => by
    have hmap := congrArg (List.flatMap F) (h'.draft.map_jumps.trans h.draft.map_jumps.symm)
    rw [List.flatMap_map, List.flatMap_map] at hmap
    rw [funext hF]
    exact hmap
  rw [jumpComplaints, jumpComplaints, h'.draft.alters, h.draft.alters,
    Build.alterComplaints_congr hnames (h.leading?_eq hl h' hl'), h.alterations_eq hl h' hl',
    hnames.complaints_eq, hjumps _ fun _ => rfl]

/-- What is reported depends on the lowering in the numbers of blocks only. -/
theorem map_unplaced_problems (ho : o.isExtended = false) (ho' : o'.isExtended = false)
    (hsides : Chapter.Sides flow.procedures chs n)
    (hsides' : Chapter.Sides flow'.procedures chs' n') :
    flow.problems.map Problem.unplaced = flow'.problems.map Problem.unplaced := by
  have hsteady : ∀ {s : Scope} {W : List PendingPerform}, ∀ e ∈ W.map s.errand, e.IsSteady := by
    intro s W e he
    obtain ⟨w, -, rfl⟩ := List.mem_map.1 he
    exact fun _ => rfl
  have herrands := h.draft.map_performs (f := fun w => (s₁.errand w).unplaced)
    fun call k => h.unplaced_errand hl ho hsides call k
  have herrands' := h'.draft.map_performs (f := fun w => (s₁'.errand w).unplaced)
    fun call k => h'.unplaced_errand hl' ho' hsides' call k
  rw [h.alterations_eq hl h' hl', ← herrands] at herrands'
  rw [h.problems_eq, h'.problems_eq, h.jumpComplaints_eq hl h' hl', List.map_append,
    List.map_append]
  congr 1
  refine Tour.unplaced_problems_all hsteady hsteady ?_
  rw [List.map_map, List.map_map]
  exact herrands'.symm

/-- What is heard from a passage on depends on its place only. -/
theorem forall₂_erase_reading (ho : o.isExtended = false) (ho' : o'.isExtended = false)
    (hsearch : o.searchCascade = o'.searchCascade) :
    List.Forall₂ (fun c c' : Chapter => c.toPassage = c'.toPassage ∧
      CobolFlow.erase (flow.graph.chart.reading c.start) =
        CobolFlow.erase (flow'.graph.chart.reading c'.start)) chs chs' := by
  have hlength : chs.length = chs'.length := by
    have hmap := congrArg List.length (h.draft.passages.trans h'.draft.passages.symm)
    simpa using hmap
  refine List.forall₂_iff_get.2 ⟨hlength, fun i hi hi' => ⟨?_, ?_⟩⟩
  · have hpassage := h.draft.getElem?_passages (List.getElem?_eq_getElem hi)
    have hpassage' := h'.draft.getElem?_passages (List.getElem?_eq_getElem hi')
    exact Option.some.inj (hpassage.symm.trans hpassage')
  · have heq := h.erase_reading_eq hl h' hl' ho ho' hsearch hi
    rwa [Chapter.reading, Chapter.reading, List.getElem?_eq_getElem hi,
      List.getElem?_eq_getElem hi'] at heq

/-- From each root the same is heard. -/
theorem forall₂_roots (ho : o.isExtended = false) (ho' : o'.isExtended = false)
    (hsearch : o.searchCascade = o'.searchCascade) :
    List.Forall₂ (fun r r' => CobolFlow.erase (flow.graph.chart.reading r) =
      CobolFlow.erase (flow'.graph.chart.reading r')) flow.graph.roots flow'.graph.roots := by
  have hchapters := h.forall₂_erase_reading hl h' hl' ho ho' hsearch
  have hentered := List.rel_filter (p := (·.entered)) (q := (·.entered))
    (fun {c c'} hcc => iff_of_eq (congrArg (fun q : Passage => q.entered = true) hcc.1)) hchapters
  rw [h.roots, h'.roots, h.draft.roots, h'.draft.roots]
  refine .cons ?_ (List.forall₂_map_left_iff.2 (List.forall₂_map_right_iff.2
    (hentered.imp fun _ _ hcc => hcc.2)))
  obtain ⟨c, rest, rfl, hstart⟩ := h.draft.exists_first
  obtain ⟨c', rest', rfl, hstart'⟩ := h'.draft.exists_first
  obtain ⟨⟨-, hcc⟩, -⟩ := List.forall₂_cons.1 hchapters
  rwa [hstart, hstart'] at hcc

end Arises

/-- The two results of one program. -/
theorem Yields.soundsAlike (h : u.Yields o flow) (h' : u.Yields o' flow')
    (ho : o.isExtended = false) (ho' : o'.isExtended = false)
    (hsearch : o.searchCascade = o'.searchCascade) : flow.SoundsAlike flow' := by
  have hname := h.name.trans h'.name.symm
  have hkind := h.kind.trans h'.kind.symm
  cases hd : u.division with
  | none =>
    obtain ⟨hgraph, -, hproblems⟩ := h.of_none hd
    obtain ⟨hgraph', -, hproblems'⟩ := h'.of_none hd
    exact ⟨hname, hkind, by rw [hgraph, hgraph']; exact .nil, by rw [hproblems, hproblems']⟩
  | some d =>
    obtain ⟨s, chs, s₁, s₂, n, ha, hsides, -⟩ := h.exists_sides hd
    obtain ⟨s', chs', s₁', s₂', n', ha', hsides', -⟩ := h'.exists_sides hd
    obtain ⟨last, log, hlog, hlast⟩ := h.exists_lists hd
    obtain ⟨last', log', hlog', hlast'⟩ := h'.exists_lists hd
    obtain rfl := Option.some.inj (hlast.symm.trans ha.findFlagged_finish)
    obtain rfl := Option.some.inj (hlast'.symm.trans ha'.findFlagged_finish)
    exact ⟨hname, hkind, ha.forall₂_roots hlog ha' hlog' ho ho' hsearch,
      ha.map_unplaced_problems hlog ha' hlog' ho ho' hsides hsides'⟩

end ProgramUnit

/-- **The two lowerings of EVALUATE sound alike**, for every tree. -/
theorem StatementTree.build_soundsAlike (t : StatementTree) (evaluate evaluate' search : Lowering)
    (depth : ℕ) : ∃ flows flows',
      t.build { mode := .normal, evaluate := evaluate, search, maxGraftDepth := depth } =
        .ok flows ∧
      t.build { mode := .normal, evaluate := evaluate', search, maxGraftDepth := depth } =
        .ok flows' ∧ List.Forall₂ ProgramFlow.SoundsAlike flows flows' := by
  obtain ⟨flows, hbuild, hflows⟩ := t.exists_build
    { mode := .normal, evaluate := evaluate, search, maxGraftDepth := depth }
  obtain ⟨flows', hbuild', hflows'⟩ := t.exists_build
    { mode := .normal, evaluate := evaluate', search, maxGraftDepth := depth }
  exact ⟨flows, flows', hbuild, hbuild',
    forall₂_of_forall₂ hflows hflows' fun _ _ _ h h' => h.soundsAlike h' rfl rfl rfl⟩

end CobolFlow
