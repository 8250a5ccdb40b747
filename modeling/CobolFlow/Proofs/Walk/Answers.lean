import CobolFlow.Export.Calls
import CobolFlow.Proofs.Walk.Stack

/-!
# What is read off a checked graph

Every index that a walk, a table, a listing or a report uses comes from one of the places that the
check looks at: a block from its own number, a root, an edge or a member list; a slot from the
edges of a block. So all of them answer for a graph that the check accepts, wherever that graph
comes from.

A walk hands the blocks it meets to a visit, and what it makes of them is used afterwards. That the
blocks it has collected are blocks of the graph is therefore an invariant of its state, and the
lemma about each walk carries any invariant that the visits keep.

## Main results

* `Graph.Checked.exists_workStack_eq_ok`, `Graph.Checked.exists_dfs_eq_ok_of_keeps` — walks
* `Graph.Checked.exists_visitFrom_eq_ok` — the bound on the nesting of visits is never met
* `Graph.Checked.exists_sites_eq_ok` — the calls of a report
-/

namespace CobolFlow

/-- A loop whose body answers from every state of some kind, and leaves one of that kind. -/
theorem exists_foldlM_eq_ok {ε α β : Type} {l : List α} {f : β → α → Except ε β} {I : β → Prop}
    {b : β} (hb : I b) (hf : ∀ a ∈ l, ∀ b, I b → ∃ b', f b a = .ok b' ∧ I b') :
    ∃ b', l.foldlM f b = .ok b' ∧ I b' := by
  induction l generalizing b with
  | nil => exact ⟨b, rfl, hb⟩
  | cons a l ih =>
    obtain ⟨b₁, h₁, hb₁⟩ := hf a (by simp) b hb
    obtain ⟨b', h', hb'⟩ := ih hb₁ fun c hc => hf c (by simp [hc])
    exact ⟨b', by rw [List.foldlM_cons, h₁, ok_bind, h'], hb'⟩

namespace Graph

variable {g : Graph} {σ : Type} {visit : Block → σ → ForInStep σ}

/-! ### Walks -/

/-- What holds of the state of a walk holds after a visit to any block of the graph. -/
def VisitKeeps (g : Graph) (visit : Block → σ → ForInStep σ) (P : σ → Prop) : Prop :=
  ∀ {b : BlockId} {block : Block}, g.blocks[b]? = some block → ∀ s, P s → P (visit block s).value

/-- A stack of blocks of a checked graph is worked off, whichever blocks may be entered. -/
theorem Checked.exists_workStack_eq_ok (hg : g.Checked) {P : σ → Prop}
    (hvisit : g.VisitKeeps visit P) (enter : BlockId → Bool) (stack : List BlockId) (seen : Seen)
    (s : σ) (hseen : seen.size = g.size) (hstack : ∀ b ∈ stack, b < g.size) (hs : P s) :
    ∃ w, g.workStack enter visit stack seen s = .ok w ∧ w.seen.size = g.size ∧
      P w.state.value := by
  fun_induction workStack g enter visit stack seen s with
  | case1 seen s => exact ⟨_, rfl, hseen, hs⟩
  | case2 seen s b rest hb hmet ih => exact ih hseen (fun c hc => hstack c (by simp [hc])) hs
  | case3 seen s b rest hb hunmet ih =>
    have hblock : g.blocks[b]? = some g.blocks[b] :=
      Array.getElem?_eq_getElem (hstack b (by simp))
    have hsize : (Array.set seen b true).size = g.size := (Array.size_set ..).trans hseen
    have hvisited := hvisit hblock s hs
    rw [(g.block_eq_ok_iff b _).2 hblock, ok_bind]
    cases hv : visit g.blocks[b] s with
    | done s' =>
      rw [hv] at hvisited
      exact ⟨_, rfl, hsize, hvisited⟩
    | yield s' =>
      rw [hv] at hvisited
      obtain ⟨targets, htargets, htmem⟩ := hg.exists_targets hblock
      have htlt := fun c hc => ((htmem c).1 hc).lt_size hg
      have hnext := unmetTargets_eq_ok enter htargets fun c hc => hsize.symm ▸ htlt c hc
      simp only [hnext, ok_bind]
      refine ih s' _ hsize (fun c hc => ?_) hvisited
      obtain hc | hc := List.mem_append.1 hc
      · exact htlt c (List.mem_filter.1 (List.mem_filter.1 hc).1).1
      · exact hstack c (by simp [hc])
  | case4 seen s b rest hb => exact absurd (hseen ▸ hstack b (by simp)) hb

/-- A visit from a block that is not yet met answers, and in the same way with any room for the
nesting of visits that is left of the number of blocks: the recursion ends by itself. -/
theorem Checked.exists_visitFrom_eq_ok (hg : g.Checked) (visit : Block → σ → ForInStep σ)
    {b : BlockId} (hb : b < g.size) (s : σ) :
    ∃ w, ∀ depth, g.size ≤ depth → g.visitFrom visit depth b (.fresh g.size) s = .ok w := by
  have hfresh : (Seen.fresh g.size)[b]? = some false := by simp [Seen.fresh, hb]
  have hsize : (Seen.fresh g.size).size = g.size := by simp [Seen.fresh]
  have hunmet : (Seen.fresh g.size).unmet ≤ g.size := by simp [Seen.unmet, Seen.fresh]
  -- whatever the depth, the visit does what the stack does, and the stack knows no depth
  obtain ⟨w, -, -, hstack⟩ := hg.visitAgrees visit g.size b _ s hsize hfresh hunmet
  refine ⟨w, fun depth hdepth => ?_⟩
  obtain ⟨w', hw', -, hstack'⟩ := hg.visitAgrees visit depth b _ s hsize hfresh
    (Nat.le_trans hunmet hdepth)
  have hww : w'.resume g visit [] = w.resume g visit [] := (hstack' []).symm.trans (hstack [])
  rw [Walk.resume_nil, Walk.resume_nil] at hww
  rw [hw', hww]

/-- A search from the roots answers, and what its visits keep holds of its outcome. -/
theorem Checked.exists_dfs_eq_ok_of_keeps (hg : g.Checked) {P : σ → Prop}
    (hvisit : g.VisitKeeps visit P) {s : σ} (hs : P s) : ∃ s', g.dfs visit s = .ok s' ∧ P s' := by
  obtain ⟨s', hdfs, hdfsStack⟩ := hg.exists_dfs_eq_ok visit s
  refine ⟨s', hdfs, ?_⟩
  let I : Walk σ → Prop := fun w => w.seen.size = g.size ∧ P w.state.value
  obtain ⟨w, hw, -, hP⟩ := exists_foldlM_eq_ok (I := I)
    (f := fun w root => w.resume g visit [root]) (l := g.roots) (b := ⟨.fresh g.size, .yield s⟩)
    ⟨by simp [Seen.fresh], hs⟩ fun root hroot w ⟨hsize, hw⟩ => by
      obtain ⟨seen, s | s⟩ := w
      · exact ⟨_, rfl, hsize, hw⟩
      · exact hg.exists_workStack_eq_ok hvisit _ [root] seen s hsize
          (by simpa using hg.root_lt root hroot) hw
  have hdfsStack' : g.dfsStack visit s = .ok w.state.value := by
    change (g.roots.foldlM (fun (w : Walk σ) root => w.resume g visit [root]) _ >>= _) = _
    rw [hw]
    rfl
  rw [hdfsStack] at hdfsStack'
  exact Except.ok.inj hdfsStack' ▸ hP

/-- Collecting the blocks that are visited collects blocks of the graph. -/
theorem Checked.visitKeeps_collect (hg : g.Checked) :
    g.VisitKeeps (fun block met => .yield (block :: met))
      fun met => ∀ block ∈ met, g.blocks[block.id]? = some block := by
  intro b block hb met hmet c hc
  obtain rfl | hc := List.mem_cons.1 hc
  · rw [hg.placed hb, hb]
  · exact hmet c hc

/-! ### Tables -/

/-- Where a block of a checked graph leads can be read. -/
theorem Checked.exists_successors_eq_ok (hg : g.Checked) {b : BlockId} (hb : b < g.size) :
    ∃ next, g.successors b = .ok next ∧ ∀ c ∈ next, c < g.size := by
  obtain ⟨block, hok, hblock⟩ := exists_block_eq_ok hb
  obtain ⟨next, hnext, hmem⟩ := hg.exists_targets hblock
  exact ⟨next, by rw [Graph.successors, hok, ok_bind, hnext],
    fun c hc => ((hmem c).1 hc).lt_size hg⟩

/-- The table of predecessors has a row for each block, and every edge finds its row. -/
theorem Checked.exists_predecessors_eq_ok (hg : g.Checked) :
    ∃ table, g.predecessors = .ok table ∧ table.size = g.size := by
  rw [predecessors, ← Array.foldlM_toList]
  refine exists_foldlM_eq_ok (by simp) fun block hmem table htable => ?_
  obtain ⟨b, hb⟩ := List.mem_iff_getElem?.1 hmem
  rw [Array.getElem?_toList] at hb
  obtain ⟨next, hnext, hlt⟩ := hg.exists_successors_eq_ok (lt_size_of_getElem? hb)
  rw [hg.placed hb, hnext, ok_bind]
  refine exists_foldlM_eq_ok htable fun c hc table htable => ?_
  rw [Array.getElem?_eq_getElem (htable.symm ▸ hlt c hc)]
  dsimp only
  split
  · exact ⟨_, rfl, htable⟩
  · exact ⟨_, rfl, (Array.size_setIfInBounds ..).trans htable⟩

end Graph

/-! ### Listings and reports -/

variable {g : Graph}

/-- What can be reached are blocks of the graph. -/
theorem Graph.Checked.exists_reachedBlocks_eq_ok (hg : g.Checked) :
    ∃ blocks, Listing.reachedBlocks g = .ok blocks ∧
      ∀ block ∈ blocks, g.blocks[block.id]? = some block := by
  obtain ⟨met, hmet, hblocks⟩ := hg.exists_dfs_eq_ok_of_keeps hg.visitKeeps_collect (s := [])
    (by simp)
  exact ⟨met.reverse, by rw [Listing.reachedBlocks, hmet]; rfl, by simpa using hblocks⟩

theorem Graph.Checked.exists_render_eq_ok (hg : g.Checked) :
    ∃ text, Listing.render g = .ok text := by
  obtain ⟨blocks, hreached, hblocks⟩ := hg.exists_reachedBlocks_eq_ok
  obtain ⟨entries, hentries, -⟩ := exists_mapM_eq_ok (P := fun _ => True) (l := blocks)
    (f := fun block => return ({ block := block.id, successors := ← g.successors block.id } :
      Listing.Entry)) fun block hmem => by
    obtain ⟨next, hnext, -⟩ := hg.exists_successors_eq_ok
      (Graph.lt_size_of_getElem? (hblocks block hmem))
    exact ⟨_, by rw [hnext]; rfl, trivial⟩
  exact ⟨_, by rw [Listing.render, Listing.entries, hreached, ok_bind, hentries]; rfl⟩

/-- The members of every group can be looked up for their calls. -/
theorem Graph.Checked.exists_sites_eq_ok (hg : g.Checked) :
    ∃ sites, CallReport.sites g = .ok sites := by
  obtain ⟨blocks, hreached, -⟩ := hg.exists_reachedBlocks_eq_ok
  rw [CallReport.sites, hreached, ok_bind]
  obtain ⟨sites, hsites, -⟩ := exists_foldlM_eq_ok (I := fun _ => True) (l := g.groups.toList)
    (f := fun sites group => group.members.foldlM (fun sites member =>
      return CallSite.noteAll g (some group.range) sites (← g.block member)) sites)
    (b := (blocks.filter fun block =>
        !(g.groups.toList.flatMap (·.members)).contains block.id).foldl
      (CallSite.noteAll g none) []) trivial fun group hgroup sites _ => by
    obtain ⟨i, hi⟩ := List.mem_iff_getElem?.1 hgroup
    refine exists_foldlM_eq_ok trivial fun member hmember sites _ => ?_
    obtain ⟨block, hok, -⟩ := Graph.exists_block_eq_ok
      (hg.member_lt (by simpa using hi) member hmember)
    exact ⟨_, by rw [hok]; rfl, trivial⟩
  exact ⟨sites, hsites⟩

theorem Graph.Checked.exists_programRows_eq_ok {p : ProgramFlow} (hp : p.graph.Checked) :
    ∃ rows, CallReport.programRows p = .ok rows := by
  obtain ⟨sites, hsites⟩ := hp.exists_sites_eq_ok
  exact ⟨_, by rw [CallReport.programRows, hsites]; rfl⟩

end CobolFlow
