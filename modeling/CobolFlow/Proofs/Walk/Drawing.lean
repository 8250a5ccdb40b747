import CobolFlow.Export.Dot
import CobolFlow.Proofs.Walk.Answers
import Mathlib.Data.Finset.Card

/-!
# Drawings end

A cluster is drawn inside the cluster of another group, so drawing is a recursion over groups. Its
bound counts nestings, and nothing is reported when it is used up; the drawing would only be cut
short. It never is: a cluster is drawn for a group that was not drawn before, which is noted before
its members are, and a nesting of `n` clusters notes `n` groups. Any bound above the number of
groups that are not drawn yet therefore gives the same part of the drawing.

## Main definitions

* `Dot.undrawn` — the number of groups that are not drawn yet
* `Dot.drawWithin` — a drawing under another bound
* `Graph.Answers` — everything that is read off a graph can be

## Main results

* `Dot.exists_drawBlock_eq_ok` — a block, with any bound that leaves room
* `Graph.check_exact_and_answers` — what the check accepts, and what it is good for
-/

namespace CobolFlow

namespace Dot

variable {g : Graph}

/-- The number of groups that are not drawn yet. -/
def undrawn (g : Graph) (drawn : List GroupId) : Nat :=
  (Finset.range g.groups.size \ drawn.toFinset).card

theorem undrawn_le_size (g : Graph) (drawn : List GroupId) :
    undrawn g drawn ≤ g.groups.size :=
  (Finset.card_le_card Finset.sdiff_subset).trans_eq (Finset.card_range _)

theorem undrawn_mono {drawn later : List GroupId} (h : drawn ⊆ later) :
    undrawn g later ≤ undrawn g drawn :=
  Finset.card_le_card (Finset.sdiff_subset_sdiff subset_rfl fun i => by simpa using @h i)

/-- Noting a group that was not drawn leaves fewer to draw. -/
theorem undrawn_cons_lt {drawn : List GroupId} {i : GroupId} (hi : i < g.groups.size)
    (hnew : i ∉ drawn) : undrawn g (i :: drawn) < undrawn g drawn := by
  refine Finset.card_lt_card (Finset.ssubset_iff_subset_ne.2 ⟨?_, fun h => ?_⟩)
  · exact Finset.sdiff_subset_sdiff subset_rfl fun j => by simp +contextual
  · have hmem : i ∈ Finset.range g.groups.size \ drawn.toFinset := by simp [hi, hnew]
    rw [← h] at hmem
    simp at hmem

/-! ### Parts of a drawing -/

/-- Some blocks are drawn one after the other, under any bound that leaves room, if each of them
is, whatever groups were drawn before. -/
theorem exists_drawBlocks_eq_ok (full : Bool) (drawn : List GroupId) (blocks : List Block)
    (h : ∀ block ∈ blocks, ∀ later, drawn ⊆ later → ∃ part : Part, later ⊆ part.drawn ∧
      ∀ depth, undrawn g later < depth → drawBlock g full depth later block = .ok part) :
    ∃ part : Part, drawn ⊆ part.drawn ∧ ∀ depth, undrawn g drawn < depth →
      drawBlocks (drawBlock g full depth) drawn blocks = .ok part := by
  suffices haux : ∀ (blocks : List Block) (before : Part), drawn ⊆ before.drawn →
      (∀ block ∈ blocks, ∀ later, drawn ⊆ later → ∃ part : Part, later ⊆ part.drawn ∧
        ∀ depth, undrawn g later < depth → drawBlock g full depth later block = .ok part) →
      ∃ part : Part, drawn ⊆ part.drawn ∧ ∀ depth, undrawn g drawn < depth →
        blocks.foldlM (fun part block => do
          return part.append (← drawBlock g full depth part.drawn block)) before = .ok part from
    haux blocks { drawn } (List.Subset.refl _) h
  intro blocks
  induction blocks with
  | nil => exact fun before hbefore _ => ⟨before, hbefore, fun _ _ => rfl⟩
  | cons block blocks ih =>
    intro before hbefore h
    obtain ⟨part, hpart, hdraw⟩ := h block (by simp) before.drawn hbefore
    obtain ⟨whole, hwhole, hrest⟩ := ih (before.append part) (List.Subset.trans hbefore hpart)
      fun b hb => h b (by simp [hb])
    refine ⟨whole, hwhole, fun depth hdepth => ?_⟩
    rw [List.foldlM_cons, hdraw depth (Nat.lt_of_le_of_lt (undrawn_mono hbefore) hdepth), ok_bind]
    exact hrest depth hdepth

/-- The members that are drawn in a cluster are blocks of the graph. -/
theorem exists_connectedMembers_eq_ok (hg : g.Checked) (members : List BlockId) {first : BlockId}
    (hfirst : first < g.size) : ∃ blocks, connectedMembers g members first = .ok blocks ∧
      ∀ block ∈ blocks, g.blocks[block.id]? = some block := by
  obtain ⟨w, hw, -, hblocks⟩ := hg.exists_workStack_eq_ok hg.visitKeeps_collect members.contains
    [first] (.fresh g.size) [] (by simp [Seen.fresh]) (by simpa using hfirst) (by simp)
  exact ⟨w.state.value.reverse, by rw [connectedMembers, hw]; rfl, by simpa using hblocks⟩

/-- **A block is drawn, and the bound plays no part**: any bound above the number of groups that
are not drawn yet gives the same part. -/
theorem exists_drawBlock_eq_ok (hg : g.Checked) (full : Bool) {drawn : List GroupId}
    {block : Block} (hblock : g.blocks[block.id]? = some block) :
    ∃ part : Part, drawn ⊆ part.drawn ∧ ∀ depth, undrawn g drawn < depth →
      drawBlock g full depth drawn block = .ok part := by
  induction hn : undrawn g drawn using Nat.strong_induction_on generalizing drawn block with
  | _ n ih =>
    obtain ⟨next, hnext, -⟩ := hg.exists_successors_eq_ok (Graph.lt_size_of_getElem? hblock)
    -- it is enough to look at bounds that are not used up
    suffices h : ∃ part : Part, drawn ⊆ part.drawn ∧ ∀ depth, n ≤ depth →
        drawBlock g full (depth + 1) drawn block = .ok part by
      obtain ⟨part, hpart, hdraw⟩ := h
      refine ⟨part, hpart, fun depth hdepth => ?_⟩
      obtain ⟨depth, rfl⟩ := Nat.exists_eq_succ_of_ne_zero (Nat.ne_of_gt (Nat.zero_lt_of_lt hdepth))
      exact hdraw depth (Nat.le_of_lt_succ hdepth)
    simp only [drawBlock, hnext, ok_bind]
    cases hgroup : block.group with
    | none => exact ⟨_, List.Subset.refl drawn, fun _ _ => rfl⟩
    | some i =>
      have hi := hg.group_lt hblock hgroup
      obtain ⟨group, hok, hstored⟩ := Graph.exists_group_eq_ok hi
      simp only [hok, ok_bind]
      by_cases hdrawn : drawn.contains i
      · simp only [if_pos hdrawn]
        exact ⟨_, List.Subset.refl drawn, fun _ _ => rfl⟩
      simp only [if_neg hdrawn]
      cases hfirst : group.first? with
      | none => exact ⟨_, List.subset_cons_self i drawn, fun _ _ => rfl⟩
      | some first =>
        have hfirst_lt := hg.member_lt hstored first (List.mem_of_head? hfirst)
        obtain ⟨firstBlock, hfirstBlock, -⟩ := Graph.exists_block_eq_ok hfirst_lt
        obtain ⟨blocks, hconnected, hblocks⟩ :=
          exists_connectedMembers_eq_ok hg group.members hfirst_lt
        have hfewer : undrawn g (i :: drawn) < n := hn ▸ undrawn_cons_lt hi (by simpa using hdrawn)
        obtain ⟨inner, hinner, hdraw⟩ := exists_drawBlocks_eq_ok full (i :: drawn) blocks
          fun b hb later hlater =>
            ih _ (Nat.lt_of_le_of_lt (undrawn_mono hlater) hfewer) (hblocks b hb) rfl
        let cluster := Statement.cluster i (some (escape (firstBlock.tag.getD "")))
          (inner.statements ++ inner.edges)
        refine ⟨{ statements := [.record block.id (label g full block), cluster,
                    .call block.id (some first)]
                  edges := next.map (.edge block.id)
                  drawn := inner.drawn },
          List.Subset.trans (List.subset_cons_self i drawn) hinner, fun depth hdepth => ?_⟩
        simp only [hfirstBlock, hconnected, ok_bind,
          hdraw depth (Nat.lt_of_lt_of_le hfewer hdepth)]
        rfl

/-! ### Whole drawings -/

/-- The statements of a graph's drawing, with another bound on the nesting of clusters. -/
def drawWithin (g : Graph) (full : Bool) (depth : Nat) : Except Fault (List Statement) := do
  let members := g.groups.toList.flatMap (·.members)
  let blocks := (← Listing.reachedBlocks g).filter (!members.contains ·.id)
  let part ← drawBlocks (drawBlock g full depth) [] blocks
  return part.statements ++ part.edges

theorem draw_eq_drawWithin (g : Graph) (full : Bool) :
    draw g full = drawWithin g full (g.groups.size + 1) := rfl

/-- A drawing is the same under every bound that leaves room for each group. -/
theorem exists_drawWithin_eq_ok (hg : g.Checked) (full : Bool) : ∃ statements, ∀ depth,
    g.groups.size < depth → drawWithin g full depth = .ok statements := by
  obtain ⟨blocks, hreached, hblocks⟩ := hg.exists_reachedBlocks_eq_ok
  obtain ⟨part, -, hdraw⟩ := exists_drawBlocks_eq_ok full []
    (blocks.filter (!(g.groups.toList.flatMap (·.members)).contains ·.id))
    fun b hb later _ => exists_drawBlock_eq_ok hg full (hblocks b (List.mem_filter.1 hb).1)
  refine ⟨part.statements ++ part.edges, fun depth hdepth => ?_⟩
  simp only [drawWithin, hreached, ok_bind,
    hdraw depth (Nat.lt_of_le_of_lt (undrawn_le_size g []) hdepth)]
  rfl

end Dot

/-! ### What the check is good for -/

namespace Graph

variable {g : Graph}

/-- Whatever is read off the graph can be: no index is out of range, and no recursion needs the
bound that it is given. -/
structure Answers (g : Graph) : Prop where
  /-- Both searches from the roots, with one outcome; the one with a stack has no bound. -/
  dfs : ∀ {σ : Type} (visit : Block → σ → ForInStep σ) (s : σ),
    ∃ s', g.dfs visit s = .ok s' ∧ g.dfsStack visit s = .ok s'
  /-- The search from one block, the same with any larger bound. -/
  dfsFrom : ∀ {σ : Type} (visit : Block → σ → ForInStep σ) (s : σ) {b : BlockId}, b < g.size →
    ∃ w : Walk σ, g.dfsFrom visit b s = .ok w.state.value ∧
      ∀ depth, g.size ≤ depth → g.visitFrom visit depth b (.fresh g.size) s = .ok w
  terminals : ∀ (stop : Option BlockId) {b : BlockId}, b < g.size →
    ∃ ends, g.terminals b stop = .ok ends
  terminalsWithin : ∀ members : List BlockId, (∀ b ∈ members, b < g.size) →
    ∃ ends, g.terminalsWithin members = .ok ends
  predecessors : ∃ table, g.predecessors = .ok table
  listing : ∃ text, Listing.render g = .ok text
  /-- The drawing, short or in full, the same with any larger bound. -/
  drawing : ∀ full : Bool, ∃ statements text, Dot.draw g full = .ok statements ∧
    Dot.render g full = .ok text ∧
    ∀ depth, g.groups.size < depth → Dot.drawWithin g full depth = .ok statements
  report : ∀ p : ProgramFlow, p.graph = g → ∃ rows, CallReport.programRows p = .ok rows

theorem Checked.answers (hg : g.Checked) : g.Answers where
  dfs := hg.exists_dfs_eq_ok
  dfsFrom visit s b hb := by
    obtain ⟨w, hw⟩ := hg.exists_visitFrom_eq_ok visit hb s
    exact ⟨w, by rw [Graph.dfsFrom, hw g.size (Nat.le_refl _)]; rfl, hw⟩
  terminals stop b hb := (exists_terminals_eq_ok hg hb stop).imp fun _ h => h.1
  terminalsWithin members h := (exists_terminalsWithin_eq_ok hg h).imp fun _ h => h.1
  predecessors := hg.exists_predecessors_eq_ok.imp fun _ h => h.1
  listing := hg.exists_render_eq_ok
  drawing full := by
    obtain ⟨statements, h⟩ := Dot.exists_drawWithin_eq_ok hg full
    have hdraw := h (g.groups.size + 1) (Nat.lt_succ_self _)
    rw [← Dot.draw_eq_drawWithin] at hdraw
    exact ⟨statements, _, hdraw, by rw [Dot.render, hdraw]; rfl, h⟩
  report p hp := by
    subst hp
    exact hg.exists_programRows_eq_ok

/-- **The check is exact, and enough.** It accepts the graphs in which every block stands where its
number says and every slot, target, group, root and member is in range, whatever has been done to
the graph; and all that is read off a graph that it accepts can be. -/
theorem check_exact_and_answers (g : Graph) :
    (g.check = .ok () ↔ g.Checked) ∧ (g.check = .ok () → g.Answers) :=
  ⟨check_eq_ok_iff, fun h => (check_eq_ok_iff.1 h).answers⟩

/-- A graph that no program has: the members of a group call that group, one of them is listed
twice, and the group does not know its own number. -/
def callsItself : Graph where
  blocks := #[{ id := 0, group := some 0, successors := [0, 1] },
    { id := 1, group := some 0, successors := [0, 0] }]
  slots := #[1, 0]
  roots := [1, 0, 1]
  groups := #[{ id := 7, callSite := 1, node := 0, range := "P", members := [1, 0, 1] }]

theorem check_exact_and_answers_callsItself :
    callsItself.check = .ok () ∧ callsItself.Answers :=
  ⟨by rfl, (check_exact_and_answers callsItself).2 (by rfl)⟩

end Graph

end CobolFlow
