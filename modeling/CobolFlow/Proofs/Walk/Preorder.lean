import CobolFlow.Proofs.Walk.Coverage

/-!
# Depth-first order

What it means that blocks are in depth-first order, said without marks, depths or states: of the
blocks that wait, the first one comes next unless it has come before, and what it leads to waits
ahead of all others. Only one list of blocks is in this order, so to say that the blocks a search
meets are in it is to say which list they are.

The search with a stack is the one that waits in this way, up to one difference: it leaves out what
has been met when it would have to wait, where the order passes it over when its turn comes. As
nothing is ever unmet again, a block that has come before may stand anywhere among those that wait.

## Main definitions

* `Graph.DepthFirst` — the order

## Main results

* `Graph.DepthFirst.unique` — there is one such list
* `Graph.Checked.exists_reachedBlocks_depthFirst` — the blocks that a search meets are in this order
-/

namespace CobolFlow

namespace Graph

variable {g : Graph}

/-- When some blocks have come before and some are waiting, these blocks come in depth-first order.
The lists are what has come before, what waits, and what comes. -/
inductive DepthFirst (g : Graph) : List BlockId → List BlockId → List BlockId → Prop
  | done {before : List BlockId} : DepthFirst g before [] []
  | pass {before waiting order : List BlockId} {b : BlockId} (hb : b ∈ before)
      (h : DepthFirst g before waiting order) : DepthFirst g before (b :: waiting) order
  | meet {before waiting order next : List BlockId} {b : BlockId} (hb : b ∉ before)
      (hnext : g.successors b = .ok next) (h : DepthFirst g (b :: before) (next ++ waiting) order) :
      DepthFirst g before (b :: waiting) (b :: order)

namespace DepthFirst

variable {before waiting waiting' ahead order order' next : List BlockId} {b : BlockId}

/-- Only one list of blocks is in depth-first order. -/
theorem unique (h : g.DepthFirst before waiting order) (h' : g.DepthFirst before waiting order') :
    order = order' := by
  induction h generalizing order' with
  | done =>
    cases h'
    rfl
  | pass hb _ ih =>
    cases h' with
    | pass _ h' => exact ih h'
    | meet hb' => exact absurd hb hb'
  | meet hb hnext _ ih =>
    cases h' with
    | pass hb' => exact absurd hb' hb
    | meet _ hnext' h' =>
      obtain rfl := Except.ok.inj (hnext.symm.trans hnext')
      rw [ih h']

/-- What waits behind others waits until they and all they lead to have come. -/
theorem append (h : g.DepthFirst before waiting order)
    (h' : g.DepthFirst (order.reverse ++ before) waiting' order') :
    g.DepthFirst before (waiting ++ waiting') (order ++ order') := by
  induction h with
  | done => exact h'
  | pass hb _ ih => exact .pass hb (ih h')
  | meet hb hnext _ ih =>
    refine .meet hb hnext ?_
    have hrest := ih (by simpa using h')
    rwa [List.append_assoc] at hrest

/-- A block that has come before may wait anywhere. -/
theorem insert (h : g.DepthFirst before (ahead ++ waiting) order) (hb : b ∈ before) :
    g.DepthFirst before (ahead ++ b :: waiting) order := by
  generalize hall : ahead ++ waiting = all at h
  induction h generalizing ahead with
  | done =>
    obtain ⟨rfl, rfl⟩ := List.append_eq_nil_iff.1 hall
    exact .pass hb .done
  | @pass before waiting' order c hc h ih =>
    cases ahead with
    | nil =>
      obtain rfl : waiting = c :: waiting' := hall
      exact .pass hb (.pass hc h)
    | cons a ahead =>
      obtain ⟨rfl, hrest⟩ := List.cons.inj hall
      exact .pass hc (ih hb hrest)
  | @meet before waiting' order next c hc hnext h ih =>
    cases ahead with
    | nil =>
      obtain rfl : waiting = c :: waiting' := hall
      exact .pass hb (.meet hc hnext h)
    | cons a ahead =>
      obtain ⟨rfl, rfl⟩ := List.cons.inj hall
      refine .meet hc hnext ?_
      have hrest : g.DepthFirst (a :: before) (next ++ ahead ++ b :: waiting) order :=
        ih (List.mem_cons_of_mem _ hb) (List.append_assoc ..)
      rwa [List.append_assoc] at hrest

/-- What has come before need not be left out of what waits. -/
theorem of_filter {p : BlockId → Bool} (hp : ∀ c ∈ next, p c = false → c ∈ before)
    (h : g.DepthFirst before (ahead ++ (next.filter p ++ waiting)) order) :
    g.DepthFirst before (ahead ++ (next ++ waiting)) order := by
  induction next generalizing ahead with
  | nil => exact h
  | cons c next ih =>
    have hrest : ∀ d ∈ next, p d = false → d ∈ before := fun d hd => hp d (by simp [hd])
    cases hc : p c with
    | true =>
      rw [List.filter_cons_of_pos hc, List.cons_append, List.append_cons] at h
      rw [List.cons_append, List.append_cons]
      exact ih hrest h
    | false =>
      rw [List.filter_cons_of_neg (by simp [hc])] at h
      exact (ih hrest h).insert (hp c (by simp) hc)

end DepthFirst

/-! ### What the searches meet -/

/-- The marked blocks are the given ones. -/
def Marks (seen : Seen) (before : List BlockId) : Prop := ∀ b, seen[b]? = some true ↔ b ∈ before

/-- A stack of blocks is worked off in depth-first order. -/
theorem Checked.exists_workStack_depthFirst (hg : g.Checked) (enter : BlockId → Bool)
    (henter : ∀ b, enter b = true) {visit : Block → List Block → ForInStep (List Block)}
    (hvisit : ∀ block met, visit block met = .yield (block :: met)) (stack : List BlockId)
    (seen : Seen) (met : List Block) {before : List BlockId} (hsize : seen.size = g.size)
    (hlt : ∀ b ∈ stack, b < g.size) (hmarks : Marks seen before) :
    ∃ (order : List Block) (later : Seen), g.workStack enter visit stack seen met =
        .ok ⟨later, .yield (order.reverse ++ met)⟩ ∧
      later.size = g.size ∧ Marks later ((order.map Block.id).reverse ++ before) ∧
      g.DepthFirst before stack (order.map Block.id) := by
  fun_induction workStack g enter visit stack seen met generalizing before with
  | case1 seen met => exact ⟨[], seen, rfl, hsize, hmarks, .done⟩
  | case2 seen met b rest hb hmet ih =>
    obtain ⟨order, later, hwork, hsize', hmarks', horder⟩ :=
      ih hsize (fun c hc => hlt c (by simp [hc])) hmarks
    have hmem : b ∈ before := (hmarks b).1 (by rw [Array.getElem?_eq_getElem hb, hmet])
    exact ⟨order, later, hwork, hsize', hmarks', .pass hmem horder⟩
  | case3 seen met b rest hb hunmet ih =>
    have hfalse : seen[b] = false := by simpa using hunmet
    obtain ⟨block, hok, hblock⟩ := exists_block_eq_ok (hlt b (by simp))
    have hid : block.id = b := hg.placed hblock
    obtain ⟨targets, htargets, htmem⟩ := hg.exists_targets hblock
    have htlt : ∀ c ∈ targets, c < g.size := fun c hc => ((htmem c).1 hc).lt_size hg
    have hsize' : (Array.set seen b true).size = g.size := (Array.size_set ..).trans hsize
    have hmarks' : Marks (Array.set seen b true) (b :: before) := fun c => by
      by_cases hbc : b = c
      · simp [← hbc, hb]
      · rw [Array.getElem?_set_ne hb hbc, hmarks, List.mem_cons, or_iff_right (Ne.symm hbc)]
    have hnext := unmetTargets_eq_ok enter htargets fun c hc => hsize'.symm ▸ htlt c hc
    rw [List.filter_eq_self.2 fun c _ => henter c] at hnext
    obtain ⟨order, later, hwork, hsize'', hmarks'', horder⟩ := ih (block :: met)
      (targets.filter fun c => (Array.set seen b true)[c]? == some false) hsize'
      (fun c hc => by
        obtain hc | hc := List.mem_append.1 hc
        · exact htlt c (List.mem_filter.1 hc).1
        · exact hlt c (by simp [hc]))
      hmarks'
    have hb' : b ∉ before := fun hmem => by
      have := (hmarks b).2 hmem
      rw [Array.getElem?_eq_getElem hb, hfalse] at this
      cases this
    have hsuccessors : g.successors b = .ok targets := by
      rw [successors, hok, ok_bind, htargets]
    refine ⟨block :: order, later, ?_, hsize'', ?_, ?_⟩
    · simp only [hok, ok_bind, hvisit, hnext, hwork]
      simp
    · simpa [hid] using hmarks''
    · rw [List.map_cons, hid]
      refine .meet hb' hsuccessors ?_
      rw [← List.nil_append (targets ++ _)]
      refine .of_filter (fun c hc hmet => ?_) horder
      have hc' : c < (Array.set seen b true).size := hsize'.symm ▸ htlt c hc
      refine (hmarks' c).1 ?_
      rw [Array.getElem?_eq_getElem hc'] at hmet ⊢
      simpa using hmet
  | case4 seen met b rest hb => exact absurd (hsize ▸ hlt b (by simp)) hb

/-- The blocks that are collected from the roots, one root after the other. -/
theorem Checked.exists_foldlM_roots_depthFirst (hg : g.Checked) {roots : List BlockId}
    (hroots : ∀ b ∈ roots, b < g.size) {seen : Seen} (met : List Block) {before : List BlockId}
    (hsize : seen.size = g.size) (hmarks : Marks seen before) :
    ∃ (order : List Block) (later : Seen),
      roots.foldlM (fun w root => Walk.resume g (fun b met => .yield (b :: met)) w [root])
          ⟨seen, .yield met⟩ = .ok ⟨later, .yield (order.reverse ++ met)⟩ ∧
      g.DepthFirst before roots (order.map Block.id) := by
  induction roots generalizing seen met before with
  | nil => exact ⟨[], seen, rfl, .done⟩
  | cons root roots ih =>
    obtain ⟨order, mid, hwork, hsize', hmarks', horder⟩ :=
      hg.exists_workStack_depthFirst (fun _ => true) (fun _ => rfl) (fun _ _ => rfl)
        [root] seen met hsize (by simpa using hroots root (by simp)) hmarks
    obtain ⟨order', later, hrest, horder'⟩ :=
      ih (fun b hb => hroots b (by simp [hb])) (order.reverse ++ met) hsize' hmarks'
    refine ⟨order ++ order', later, ?_, ?_⟩
    · rw [List.foldlM_cons]
      change (g.workStack (fun _ => true) _ [root] seen met >>= _) = _
      rw [hwork, ok_bind, hrest]
      simp
    · rw [List.map_append]
      exact horder.append horder'

/-- **The blocks that a search meets are those that can be reached, in depth-first order.** -/
theorem Checked.exists_reachedBlocks_depthFirst (hg : g.Checked) : ∃ order,
    Listing.reachedBlocks g = .ok order ∧ g.Covers g.roots order ∧
      g.DepthFirst [] g.roots (order.map Block.id) := by
  obtain ⟨order, hreached, hcovers, -⟩ := hg.exists_reachedBlocks
  obtain ⟨met, hdfs, hdfsStack⟩ := hg.exists_dfs_eq_ok (fun b met => .yield (b :: met)) []
  have hfresh : Marks (.fresh g.size) [] := fun b => by
    simp [Seen.fresh, Array.getElem?_replicate]
  obtain ⟨order', later, hroots, horder⟩ := hg.exists_foldlM_roots_depthFirst hg.root_lt
    [] (by simp [Seen.fresh]) hfresh
  have hstack : g.dfsStack (fun b met => .yield (b :: met)) [] = .ok (order'.reverse ++ []) := by
    change (g.roots.foldlM (fun w root => Walk.resume g _ w [root]) _ >>= _) = _
    rw [hroots]
    rfl
  obtain rfl : order = order' := by
    rw [Listing.reachedBlocks, hdfs] at hreached
    have hmet : met = order'.reverse ++ [] := Except.ok.inj (hdfsStack.symm.trans hstack)
    rw [ok_bind, hmet] at hreached
    simpa using (Except.ok.inj hreached).symm
  exact ⟨order, hreached, hcovers, horder⟩

end Graph

end CobolFlow
