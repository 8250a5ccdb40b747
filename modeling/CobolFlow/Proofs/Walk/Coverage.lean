import CobolFlow.Export.Listing
import CobolFlow.Proofs.Walk.Stack
import Mathlib.Logic.Relation

/-!
# What a search meets

A depth-first search calls its callback at every block that its starting blocks lead to, and at no
other, once each. The callback cannot change the order of the calls; all it can do is to end them.

The recursion leaves marks behind, and what is known of it is said of the marks it starts from and
those it leaves: it has met blocks that were not marked, and has marked them and no others; each can
be reached from where it started; and whatever they lead to is marked by now. The last clause is the
one that makes a search complete. It says nothing of the blocks that were marked before, which may
be waiting for their other edges further up in the recursion, and it need not: when the search
began, no block was marked.

## Main definitions

* `Graph.visitAll` — the calls that are made at some blocks in turn
* `Graph.Explores` — what a part of a search has met and marked
* `Graph.Reached` — what the roots lead to
* `Graph.Covers`, `Graph.Follows` — the blocks of a search, and the calls it makes at them

## Main results

* `Graph.Checked.visitExplores` — a visit, by recursion
* `Graph.Checked.exists_reachedBlocks` — the blocks that can be reached, in order
* `Graph.searches_cover` — whole searches
-/

namespace CobolFlow

namespace Graph

variable {g : Graph} {σ : Type} {visit : Block → σ → ForInStep σ}

/-! ### Calls in turn -/

/-- A callback at some blocks in turn, until it ends the walk. -/
def visitAll (visit : Block → σ → ForInStep σ) : List Block → σ → ForInStep σ
  | [], s => .yield s
  | block :: rest, s =>
    match visit block s with
    | .done s => .done s
    | .yield s => visitAll visit rest s

theorem visitAll_append_of_done {met : List Block} {s s' : σ}
    (h : visitAll visit met s = .done s') (rest : List Block) :
    visitAll visit (met ++ rest) s = .done s' := by
  induction met generalizing s with
  | nil => exact nomatch h
  | cons block met ih =>
    simp only [List.cons_append, visitAll] at h ⊢
    cases hv : visit block s with
    | done t => rwa [hv] at h
    | yield t =>
      rw [hv] at h
      exact ih h

theorem visitAll_append_of_yield {met : List Block} {s s' : σ}
    (h : visitAll visit met s = .yield s') (rest : List Block) :
    visitAll visit (met ++ rest) s = visitAll visit rest s' := by
  induction met generalizing s with
  | nil =>
    obtain rfl : s = s' := by simpa [visitAll] using h
    rfl
  | cons block met ih =>
    simp only [List.cons_append, visitAll] at h ⊢
    cases hv : visit block s with
    | done t => simp [hv] at h
    | yield t =>
      rw [hv] at h
      exact ih h

/-! ### What is met and marked -/

/-- A part of a search that begins at `starts` with some blocks marked: the blocks it meets, in
order, and the marks it leaves. -/
structure Explores (g : Graph) (starts : List BlockId) (seen : Seen) (met : List Block)
    (later : Seen) : Prop where
  before : seen.Before later
  stored : ∀ block ∈ met, g.blocks[block.id]? = some block
  nodup : (met.map Block.id).Nodup
  fresh : ∀ block ∈ met, seen[block.id]? = some false
  marked : ∀ b, later[b]? = some true ↔ seen[b]? = some true ∨ b ∈ met.map Block.id
  reached : ∀ block ∈ met, ∃ a ∈ starts, Relation.ReflTransGen g.Leads a block.id
  started : ∀ a ∈ starts, later[a]? = some true
  closed : ∀ block ∈ met, ∀ c, g.Leads block.id c → later[c]? = some true

namespace Explores

variable {starts starts' : List BlockId} {seen mid later : Seen} {met met' : List Block}
  {b : BlockId}

theorem nil (g : Graph) (seen : Seen) : g.Explores [] seen [] seen where
  before := .refl seen
  stored := by simp
  nodup := by simp
  fresh := by simp
  marked := by simp
  reached := by simp
  started := by simp
  closed := by simp

/-- A block that is marked already is not looked at again. -/
theorem skip (h : g.Explores starts seen met later) (hb : seen[b]? = some true) :
    g.Explores (b :: starts) seen met later :=
  { h with
    reached := fun block hblock => by
      obtain ⟨a, ha, hreach⟩ := h.reached block hblock
      exact ⟨a, by simp [ha], hreach⟩
    started := fun a ha => by
      obtain rfl | ha := List.mem_cons.1 ha
      · exact h.before.met hb
      · exact h.started a ha }

theorem append (h : g.Explores starts seen met mid) (h' : g.Explores starts' mid met' later) :
    g.Explores (starts ++ starts') seen (met ++ met') later where
  before := h.before.trans h'.before
  stored := by simpa [or_imp, forall_and] using ⟨h.stored, h'.stored⟩
  nodup := by
    rw [List.map_append]
    refine List.nodup_append.2 ⟨h.nodup, h'.nodup, fun c hc d hd heq => ?_⟩
    obtain ⟨block, hblock, rfl⟩ := List.mem_map.1 hd
    subst heq
    have hmid := (h.marked block.id).2 (.inr hc)
    simp [h'.fresh block hblock] at hmid
  fresh block hblock := by
    obtain hblock | hblock := List.mem_append.1 hblock
    · exact h.fresh block hblock
    · have hmid := h'.fresh block hblock
      have hlt : block.id < seen.size := h.before.size_eq ▸ (Array.getElem?_eq_some_iff.1 hmid).1
      cases hseen : seen[block.id] with
      | false => rw [Array.getElem?_eq_getElem hlt, hseen]
      | true =>
        have := h.before.met (by rw [Array.getElem?_eq_getElem hlt, hseen])
        simp [hmid] at this
  marked b := by rw [h'.marked, h.marked, List.map_append, List.mem_append, or_assoc]
  reached block hblock := by
    obtain hblock | hblock := List.mem_append.1 hblock
    · obtain ⟨a, ha, hreach⟩ := h.reached block hblock
      exact ⟨a, by simp [ha], hreach⟩
    · obtain ⟨a, ha, hreach⟩ := h'.reached block hblock
      exact ⟨a, by simp [ha], hreach⟩
  started a ha := by
    obtain ha | ha := List.mem_append.1 ha
    · exact h'.before.met (h.started a ha)
    · exact h'.started a ha
  closed block hblock c hc := by
    obtain hblock | hblock := List.mem_append.1 hblock
    · exact h'.before.met (h.closed block hblock c hc)
    · exact h'.closed block hblock c hc

/-- A block is met, and then what it leads to. -/
theorem enter {block : Block} {targets : List BlockId} (hb : b < seen.size)
    (hfalse : seen[b] = false) (hblock : g.blocks[b]? = some block) (hid : block.id = b)
    (htargets : ∀ c, c ∈ targets ↔ g.Leads b c)
    (h : g.Explores targets (seen.set b true) met later) :
    g.Explores [b] seen (block :: met) later where
  before := (Seen.Before.set hb hfalse).trans h.before
  stored := by simpa [hid, hblock] using h.stored
  nodup := by
    rw [List.map_cons, List.nodup_cons]
    refine ⟨fun hmem => ?_, h.nodup⟩
    obtain ⟨again, hagain, heq⟩ := List.mem_map.1 hmem
    simpa [heq, hid, hb] using h.fresh again hagain
  fresh := by
    refine List.forall_mem_cons.2 ⟨?_, fun next hnext => ?_⟩
    · rw [hid, Array.getElem?_eq_getElem hb, hfalse]
    · have hset := h.fresh next hnext
      by_cases heq : b = next.id
      · simp [← heq, hb] at hset
      · rwa [Array.getElem?_set_ne hb heq] at hset
  marked c := by
    rw [h.marked, List.map_cons, List.mem_cons, hid]
    by_cases hcb : b = c
    · simp [hcb ▸ hb, hcb]
    · simp [hcb, Ne.symm hcb]
  reached := by
    refine List.forall_mem_cons.2 ⟨⟨b, by simp, by rw [hid]⟩, fun next hnext => ?_⟩
    obtain ⟨c, hc, hreach⟩ := h.reached next hnext
    exact ⟨b, by simp, .head ((htargets c).1 hc) hreach⟩
  started := by
    simpa using h.before.met (b := b) (by simp [hb])
  closed := by
    refine List.forall_mem_cons.2 ⟨fun c hc => ?_, h.closed⟩
    exact h.started c ((htargets c).2 (hid ▸ hc))

end Explores

/-! ### The recursion -/

/-- A walk has called its callback at some blocks in turn; if it was not ended, it has left the
marks that go with them. -/
def Walk.Made (visit : Block → σ → ForInStep σ) (met : List Block) (later : Seen) (s : σ)
    (w : Walk σ) : Prop :=
  w.state = visitAll visit met s ∧ ∀ s', w.state = .yield s' → w.seen = later

/-- What a visit meets, with visits nested so deep, is the same for every callback. -/
def VisitExplores (g : Graph) (depth : Nat) : Prop :=
  ∀ (b : BlockId) (seen : Seen), seen.size = g.size → seen[b]? = some false →
    seen.unmet ≤ depth → ∃ met later, g.Explores [b] seen met later ∧
      ∀ {σ : Type} (visit : Block → σ → ForInStep σ) (s : σ),
        ∃ w, g.visitFrom visit depth b seen s = .ok w ∧ w.Made visit met later s

/-- Blocks that are entered one after the other. -/
theorem VisitExplores.exists_foldlM_enter_eq_ok {depth : Nat} (hvisit : g.VisitExplores depth)
    {starts : List BlockId} {seen : Seen} (hsize : seen.size = g.size)
    (hlt : ∀ b ∈ starts, b < g.size) (hdepth : seen.unmet ≤ depth) :
    ∃ met later, g.Explores starts seen met later ∧
      ∀ {σ : Type} (visit : Block → σ → ForInStep σ) (s : σ),
        ∃ w, starts.foldlM (Walk.enter g visit depth) ⟨seen, .yield s⟩ = .ok w ∧
          w.Made visit met later s := by
  induction starts generalizing seen with
  | nil => exact ⟨[], seen, .nil g seen, fun visit s => ⟨_, rfl, rfl, fun _ _ => rfl⟩⟩
  | cons b starts ih =>
    have hb : b < seen.size := hsize ▸ hlt b (by simp)
    have hrest : ∀ c ∈ starts, c < g.size := fun c hc => hlt c (by simp [hc])
    cases hmet : seen[b] with
    | true =>
      have hmet? : seen[b]? = some true := by rw [Array.getElem?_eq_getElem hb, hmet]
      obtain ⟨met, later, hexplores, hwalk⟩ := ih hsize hrest hdepth
      refine ⟨met, later, hexplores.skip hmet?, fun visit s => ?_⟩
      obtain ⟨w, hw, hmade⟩ := hwalk visit s
      have henter : Walk.enter g visit depth ⟨seen, .yield s⟩ b = .ok ⟨seen, .yield s⟩ := by
        simp only [Walk.enter, Seen.met_eq_ok_iff.2 hmet?, ok_bind]
        rfl
      exact ⟨w, by rw [List.foldlM_cons, henter, ok_bind, hw], hmade⟩
    | false =>
      have hmet? : seen[b]? = some false := by rw [Array.getElem?_eq_getElem hb, hmet]
      obtain ⟨met, mid, hexplores, hwalk⟩ := hvisit b seen hsize hmet? hdepth
      have hbefore := hexplores.before
      obtain ⟨met', later, hexplores', hwalk'⟩ := ih (hbefore.size_eq.trans hsize) hrest
        (Nat.le_trans hbefore.unmet_le hdepth)
      refine ⟨met ++ met', later, hexplores.append hexplores', fun visit s => ?_⟩
      obtain ⟨⟨seen₁, state⟩, hw, hstate, hseen⟩ := hwalk visit s
      have henter : Walk.enter g visit depth ⟨seen, .yield s⟩ b = .ok ⟨seen₁, state⟩ := by
        simp only [Walk.enter, Seen.met_eq_ok_iff.2 hmet?, ok_bind]
        exact hw
      rw [List.foldlM_cons, henter, ok_bind]
      cases state with
      | done s₁ =>
        refine ⟨_, foldlM_enter_done starts, ?_, by simp⟩
        rw [visitAll_append_of_done hstate.symm]
      | yield s₁ =>
        obtain rfl : seen₁ = mid := hseen s₁ rfl
        obtain ⟨w, hw', hstate', hseen'⟩ := hwalk' visit s₁
        exact ⟨w, hw', by rw [visitAll_append_of_yield hstate.symm, hstate'], hseen'⟩

/-- **A visit meets what can be reached from it and was not met before.** -/
theorem Checked.visitExplores (hg : g.Checked) (depth : Nat) : g.VisitExplores depth := by
  induction depth with
  | zero =>
    intro b seen _ hb hdepth
    obtain ⟨hlt, hb⟩ := Array.getElem?_eq_some_iff.1 hb
    have := Seen.unmet_set_lt seen b hlt hb
    omega
  | succ depth ih =>
    intro b seen hsize hb hdepth
    obtain ⟨hlt, hfalse⟩ := Array.getElem?_eq_some_iff.1 hb
    obtain ⟨block, hok, hblock⟩ := exists_block_eq_ok (hsize ▸ hlt : b < g.size)
    have hset : seen.setIfInBounds b true = seen.set b true := dif_pos hlt
    obtain ⟨targets, htargets, htmem⟩ := hg.exists_targets hblock
    have hless : Seen.unmet (seen.set b true) ≤ depth := by
      have := Seen.unmet_set_lt seen b hlt hfalse
      omega
    have hsize' : Array.size (seen.set b true) = g.size := (Array.size_set ..).trans hsize
    have htlt : ∀ c ∈ targets, c < g.size := fun c hc => ((htmem c).1 hc).lt_size hg
    obtain ⟨met, later, hexplores, hwalk⟩ := ih.exists_foldlM_enter_eq_ok hsize' htlt hless
    refine ⟨block :: met, later,
      hexplores.enter hlt hfalse hblock (hg.placed hblock) htmem, fun visit s => ?_⟩
    simp only [visitFrom, hok, hset, bind, Except.bind]
    cases hv : visit block s with
    | done s' => exact ⟨_, rfl, by simp only [visitAll, hv], by simp⟩
    | yield s' =>
      obtain ⟨w, hw, hstate, hseen⟩ := hwalk visit s'
      refine ⟨w, ?_, by simpa only [visitAll, hv] using hstate, hseen⟩
      rw [← hw, ← foldlM_slots htargets]
      rfl

/-! ### Whole searches -/

/-- These are the blocks that the given ones lead to, each listed once. -/
structure Covers (g : Graph) (starts : List BlockId) (order : List Block) : Prop where
  stored : ∀ block ∈ order, g.blocks[block.id]? = some block
  nodup : (order.map Block.id).Nodup
  mem_iff : ∀ b, b ∈ order.map Block.id ↔ ∃ a ∈ starts, Relation.ReflTransGen g.Leads a b

/-- Some root leads to the block. -/
def Reached (g : Graph) (b : BlockId) : Prop := ∃ a ∈ g.roots, Relation.ReflTransGen g.Leads a b

theorem Reached.step {b c : BlockId} (h : g.Reached b) (hbc : g.Leads b c) : g.Reached c := by
  obtain ⟨a, ha, hreach⟩ := h
  exact ⟨a, ha, hreach.tail hbc⟩

/-- A search that begins without marks meets all there is to meet. -/
theorem Explores.covers {starts : List BlockId} {met : List Block} {later : Seen}
    (h : g.Explores starts (.fresh g.size) met later) : g.Covers starts met where
  stored := h.stored
  nodup := h.nodup
  mem_iff b := by
    have hmarked : ∀ c, later[c]? = some true ↔ c ∈ met.map Block.id := fun c => by
      have hfresh : (Seen.fresh g.size)[c]? ≠ some true := by
        simp [Seen.fresh, Array.getElem?_replicate]
      rw [h.marked, or_iff_right hfresh]
    constructor
    · intro hb
      obtain ⟨block, hblock, rfl⟩ := List.mem_map.1 hb
      exact h.reached block hblock
    · rintro ⟨a, ha, hreach⟩
      induction hreach with
      | refl => exact (hmarked a).1 (h.started a ha)
      | tail _ hlead ih =>
        obtain ⟨block, hblock, rfl⟩ := List.mem_map.1 ih
        exact (hmarked _).1 (h.closed block hblock _ hlead)

/-- Whatever its callback is, a search calls it at the given blocks in turn: at all of them if no
call ends the search, and otherwise at as many as there are up to the call that does. -/
structure Follows (search : ∀ σ : Type, (Block → σ → ForInStep σ) → σ → Except Fault σ)
    (order : List Block) : Prop where
  exists_calls : ∀ {σ : Type} (visit : Block → σ → ForInStep σ) (s : σ), ∃ s' calls,
    search σ visit s = .ok s' ∧ search _ (logged visit) (s, []) = .ok (s', calls) ∧
      ((∀ c ∈ calls, ∀ t, visit c.1 c.2 ≠ .done t) → calls.map Prod.fst = order) ∧
      ∀ (k : ℕ) (c : Block × σ) (t : σ), calls[k]? = some c → visit c.1 c.2 = .done t →
        calls.map Prod.fst = order.take (k + 1)

/-- The calls that are noted when a callback is called at some blocks in turn. -/
theorem exists_visitAll_logged (visit : Block → σ → ForInStep σ) (met : List Block) (s : σ)
    (before : List (Block × σ)) : ∃ calls,
      visitAll (logged visit) met (s, before) =
        answerMap (·, before ++ calls) (visitAll visit met s) ∧
      ((∀ c ∈ calls, ∀ t, visit c.1 c.2 ≠ .done t) → calls.map Prod.fst = met) ∧
      ∀ (k : ℕ) (c : Block × σ) (t : σ), calls[k]? = some c → visit c.1 c.2 = .done t →
        calls.map Prod.fst = met.take (k + 1) := by
  induction met generalizing s before with
  | nil => exact ⟨[], by simp [visitAll, answerMap], by simp, by simp⟩
  | cons block met ih =>
    cases hv : visit block s with
    | done t =>
      refine ⟨[(block, s)], by simp [visitAll, logged, hv, answerMap], fun h => ?_, ?_⟩
      · exact absurd hv (h (block, s) (by simp) t)
      · intro k c t hc _
        obtain ⟨rfl, -⟩ : k = 0 ∧ _ := by simpa [List.getElem?_singleton] using hc
        simp
    | yield s' =>
      obtain ⟨calls, hcalls, hall, hstop⟩ := ih s' (before ++ [(block, s)])
      refine ⟨(block, s) :: calls, ?_, fun h => ?_, fun k c t hc ht => ?_⟩
      · simpa [visitAll, logged, hv, answerMap] using hcalls
      · rw [List.map_cons, hall fun c hc => h c (by simp [hc])]
      · cases k with
        | zero =>
          obtain rfl : (block, s) = c := by simpa using hc
          simp [hv] at ht
        | succ k => rw [List.map_cons, hstop k c t (by simpa using hc) ht, List.take_succ_cons]

/-- A search whose outcome is that of the calls in turn makes those calls. -/
theorem Follows.of_visitAll
    {search : ∀ σ : Type, (Block → σ → ForInStep σ) → σ → Except Fault σ} {order : List Block}
    (h : ∀ {σ : Type} (visit : Block → σ → ForInStep σ) (s : σ),
      search σ visit s = .ok (visitAll visit order s).value) : Follows search order := by
  constructor
  intro σ visit s
  obtain ⟨calls, hcalls, hall, hstop⟩ := exists_visitAll_logged visit order s []
  refine ⟨(visitAll visit order s).value, calls, h visit s, ?_, hall, hstop⟩
  refine (h (logged visit) (s, [])).trans ?_
  rw [hcalls]
  cases visitAll visit order s <;> rfl

/-- The calls of a search from the roots are those at the blocks that the roots lead to. -/
theorem Checked.exists_order (hg : g.Checked) : ∃ order, g.Covers g.roots order ∧
    ∀ {σ : Type} (visit : Block → σ → ForInStep σ) (s : σ),
      g.dfs visit s = .ok (visitAll visit order s).value := by
  have hsize : (Seen.fresh g.size).size = g.size := by simp [Seen.fresh]
  have hunmet : (Seen.fresh g.size).unmet ≤ g.size := by simp [Seen.unmet, Seen.fresh]
  obtain ⟨order, later, hexplores, hwalk⟩ :=
    (hg.visitExplores g.size).exists_foldlM_enter_eq_ok hsize hg.root_lt hunmet
  refine ⟨order, hexplores.covers, fun visit s => ?_⟩
  obtain ⟨w, hw, hstate, -⟩ := hwalk visit s
  change (g.roots.foldlM (Walk.enter g visit g.size) _ >>= _) = _
  rw [hw, ← hstate]
  rfl

theorem visitAll_collect (order before : List Block) :
    visitAll (fun block met => .yield (block :: met)) order before =
      .yield (order.reverse ++ before) := by
  induction order generalizing before with
  | nil => rfl
  | cons block order ih => simp [visitAll, ih]

/-- The blocks that can be reached are listed in the order of the calls that a search makes. -/
theorem Checked.exists_reachedBlocks (hg : g.Checked) : ∃ order,
    Listing.reachedBlocks g = .ok order ∧ g.Covers g.roots order ∧
      Follows (fun _ => g.dfs) order := by
  obtain ⟨order, hcovers, hdfs⟩ := hg.exists_order
  refine ⟨order, ?_, hcovers, .of_visitAll hdfs⟩
  rw [Listing.reachedBlocks, hdfs, visitAll_collect, ok_bind]
  exact congrArg Except.ok (by simp [ForInStep.value])

/-- **A search covers what can be reached, and a callback cannot change its course.** In a graph
without defects the search from the roots and the search from any block call their callback at the
blocks that can be reached from there, at each once; and a callback that ends the search is called
at the first of these blocks only, up to the call at which it does. -/
theorem searches_cover (hg : g.check = .ok ()) :
    (∃ order, g.Covers g.roots order ∧ Follows (fun _ => g.dfs) order) ∧
      ∀ b < g.size, ∃ order, g.Covers [b] order ∧
        Follows (fun _ visit s => g.dfsFrom visit b s) order := by
  have hg := check_eq_ok_iff.1 hg
  have hsize : (Seen.fresh g.size).size = g.size := by simp [Seen.fresh]
  have hunmet : (Seen.fresh g.size).unmet ≤ g.size := by simp [Seen.unmet, Seen.fresh]
  refine ⟨?_, fun b hb => ?_⟩
  · obtain ⟨order, later, hexplores, hwalk⟩ :=
      (hg.visitExplores g.size).exists_foldlM_enter_eq_ok hsize hg.root_lt hunmet
    refine ⟨order, hexplores.covers, .of_visitAll fun visit s => ?_⟩
    obtain ⟨w, hw, hstate, -⟩ := hwalk visit s
    change (g.roots.foldlM (Walk.enter g visit g.size) _ >>= _) = _
    rw [hw, ← hstate]
    rfl
  · obtain ⟨order, later, hexplores, hwalk⟩ :=
      hg.visitExplores g.size b (.fresh g.size) hsize (by simp [Seen.fresh, hb]) hunmet
    refine ⟨order, hexplores.covers, .of_visitAll fun visit s => ?_⟩
    obtain ⟨w, hw, hstate, -⟩ := hwalk visit s
    rw [dfsFrom, hw, ← hstate]
    rfl

theorem searches_cover_twoRoots : twoRoots.check = .ok () ∧
    (∃ order, twoRoots.Covers twoRoots.roots order ∧ Follows (fun _ => twoRoots.dfs) order) ∧
      3 < twoRoots.size ∧ ∃ order, twoRoots.Covers [3] order ∧
        Follows (fun _ visit s => twoRoots.dfsFrom visit 3 s) order :=
  have h := searches_cover (g := twoRoots) (by rfl)
  ⟨by rfl, h.1, by decide, h.2 3 (by decide)⟩

end Graph

end CobolFlow
