import CobolFlow.Proofs.Drawing.Course

/-!
# Nothing is drawn twice

Groups may contain call sites of each other and of themselves, and several call sites may share a
group. A drawing ends all the same, and has at most one cluster for each group: a group is noted
before its members are drawn, and no group that is noted is opened. If no block is a member of two
groups, no block is declared twice either. The invariant is about the groups that are not drawn yet:
none of the blocks still to be drawn is a member of such a group. It holds of the members inside of
a cluster, because their group is noted by then and they belong to no other.

## Main results

* `Dot.Draws.nodup_drawn` — no group has two clusters
* `Dot.Draws.nodup_declared` — no block is declared twice, if no block belongs to two groups
* `Dot.exists_drawing_once` — whole drawings
-/

namespace CobolFlow.Dot

open Graph

variable {g : Graph} {full : Bool} {drawn : List GroupId} {opened : Option GroupId} {block : Block}
  {blocks inside : List Block} {wrap : List Statement → List Statement} {part : Part}

theorem Step.nodup_drawn (h : Step g drawn block opened inside wrap) (hdrawn : drawn.Nodup) :
    (opened.toList ++ drawn).Nodup := by
  cases opened with
  | none => exact hdrawn
  | some i => exact List.nodup_cons.2 ⟨(h.fresh i rfl).1, hdrawn⟩

namespace Draws

/-- **No group is drawn twice.** -/
theorem nodup_drawn (h : Draws g full drawn blocks part) (hdrawn : drawn.Nodup) :
    part.drawn.Nodup := by
  induction h with
  | nil => exact hdrawn
  | cons _ hstep _ _ ihInner ih => exact ih (ihInner (hstep.nodup_drawn hdrawn))

/-- What is declared besides the blocks themselves are members of groups that were not drawn
before. -/
theorem cases_of_mem_declared (h : Draws g full drawn blocks part) (hg : g.Checked)
    (hdrawn : drawn.Nodup) {b : BlockId} (hb : b ∈ declaredIn part.statements) :
    b ∈ blocks.map Block.id ∨ ∃ i ∈ part.drawn, i ∉ drawn ∧ b ∈ g.membersOf i := by
  refine ((h.mem_declared_iff hg b).1 hb).imp_right ?_
  rintro ⟨i, hi, hshows⟩
  have hnodup := h.nodup_drawn hdrawn
  rw [h.drawn_eq hg] at hnodup ⊢
  have hi' : i ∈ (clusters part.statements).reverse := List.mem_reverse.2 hi
  exact ⟨i, List.mem_append_left _ hi',
    fun hmem => (List.nodup_append.1 hnodup).2.2 i hi' i hmem rfl, hshows.mem_membersOf⟩

/-- What a step declares inside are members of groups that are opened in it. -/
theorem exists_of_mem_inside (h : Draws g full (opened.toList ++ drawn) inside part)
    (hg : g.Checked) (hstep : Step g drawn block opened inside wrap) (hdrawn : drawn.Nodup)
    {b : BlockId} (hb : b ∈ declaredIn part.statements) :
    ∃ i ∈ part.drawn, i ∉ drawn ∧ b ∈ g.membersOf i := by
  obtain hb | ⟨i, hi, hnew, hmem⟩ := h.cases_of_mem_declared hg (hstep.nodup_drawn hdrawn) hb
  · obtain ⟨i, hi, hshows⟩ := ((hstep.inside_exact hg).2 b).1 hb
    exact ⟨i, h.subset_drawn hg (List.mem_append_left _ (Option.mem_toList.2 hi)),
      (hstep.fresh i hi).1, hshows.mem_membersOf⟩
  · exact ⟨i, hi, fun hmem => hnew (List.mem_append_right _ hmem), hmem⟩

/-- **No block is declared twice** when no block is a member of two groups, and none of those to be
drawn is a member of a group that is still to be drawn. -/
theorem nodup_declared (h : Draws g full drawn blocks part) (hg : g.Checked)
    (hdisjoint : ∀ i j, i ≠ j → (g.membersOf i).Disjoint (g.membersOf j)) (hdrawn : drawn.Nodup)
    (hblocks : (blocks.map Block.id).Nodup)
    (houtside : ∀ b ∈ blocks.map Block.id, ∀ i, i ∉ drawn → b ∉ g.membersOf i) :
    (declaredIn part.statements).Nodup := by
  induction h with
  | nil => exact .nil
  | @cons drawn opened block rest inside wrap next inner part _ hstep hinner hrest ihInner ih =>
    obtain ⟨hblock, hrestNodup⟩ := List.nodup_cons.1 hblocks
    obtain ⟨houtBlock, houtRest⟩ := List.forall_mem_cons.1 houtside
    obtain ⟨hinside, hshown⟩ := hstep.inside_exact hg
    have hopened := hstep.nodup_drawn hdrawn
    have hlater : inner.drawn.Nodup := hinner.nodup_drawn hopened
    have hsubset : drawn ⊆ inner.drawn :=
      List.Subset.trans (List.subset_append_right _ _) (hinner.subset_drawn hg)
    have hbefore : (declaredIn inner.statements).Nodup := by
      refine ihInner hopened hinside fun b hb i hi hmem => ?_
      obtain ⟨j, hj, hshows⟩ := (hshown b).1 hb
      have hne : j ≠ i := fun heq => hi (heq ▸ List.mem_append_left _ (Option.mem_toList.2 hj))
      exact hdisjoint j i hne hshows.mem_membersOf hmem
    have hafter : (declaredIn part.statements).Nodup :=
      ih hlater hrestNodup fun b hb i hi => houtRest b hb i fun hmem => hi (hsubset hmem)
    rw [declaredIn_cons_record, declaredIn_append, hstep.declaredIn_wrap, declaredIn_append,
      hinner.declaredIn_edges hg, List.append_nil, List.nodup_cons, List.mem_append, not_or,
      List.nodup_append]
    refine ⟨⟨fun hb => ?_, fun hb => ?_⟩, hbefore, hafter, fun b hb b' hb' heq => ?_⟩
    · obtain ⟨i, -, hnew, hmem⟩ := hinner.exists_of_mem_inside hg hstep hdrawn hb
      exact houtBlock i hnew hmem
    · obtain hb | ⟨i, -, hnew, hmem⟩ := hrest.cases_of_mem_declared hg hlater hb
      · exact hblock hb
      · exact houtBlock i (fun hmem => hnew (hsubset hmem)) hmem
    · subst heq
      obtain ⟨i, hi, hnew, hmem⟩ := hinner.exists_of_mem_inside hg hstep hdrawn hb
      obtain hb' | ⟨j, -, hnew', hmem'⟩ := hrest.cases_of_mem_declared hg hlater hb'
      · exact houtRest b hb' i hnew hmem
      · exact hdisjoint i j (fun heq => hnew' (heq ▸ hi)) hmem hmem'

end Draws

/-! ### Whole drawings -/

/-- Member lists that have nothing in common, two by two. -/
theorem disjoint_membersOf
    (h : (g.groups.toList.map (·.members)).Pairwise List.Disjoint) {i j : GroupId} (hij : i ≠ j) :
    (g.membersOf i).Disjoint (g.membersOf j) := by
  rw [List.pairwise_map] at h
  intro b hi hj
  cases hgi : g.groups[i]? with
  | none => simp [membersOf, hgi] at hi
  | some group =>
    cases hgj : g.groups[j]? with
    | none => simp [membersOf, hgj] at hj
    | some group' =>
      rw [membersOf_of_getElem? hgi] at hi
      rw [membersOf_of_getElem? hgj] at hj
      rw [← Array.getElem?_toList] at hgi hgj
      obtain ⟨hlt, rfl⟩ := List.getElem?_eq_some_iff.1 hgi
      obtain ⟨hlt', rfl⟩ := List.getElem?_eq_some_iff.1 hgj
      obtain hlt'' | hlt'' := Nat.lt_or_gt_of_ne hij
      · exact List.pairwise_iff_getElem.1 h i j hlt hlt' hlt'' hi hj
      · exact List.pairwise_iff_getElem.1 h j i hlt' hlt hlt'' hj hi

/-- **Drawing ends, and draws nothing twice.** In a graph that the check accepts, with groups that
share no member, no block is declared twice and no group has two clusters, however the groups call
each other. What is drawn depends on no bound on the nesting of clusters. -/
theorem exists_drawing_once (hg : g.check = .ok ())
    (hdisjoint : (g.groups.toList.map (·.members)).Pairwise List.Disjoint) (full : Bool) :
    ∃ statements text, Drawing g full statements ∧ draw g full = .ok statements ∧
      render g full = .ok text ∧
      (∀ depth, g.groups.size < depth → drawWithin g full depth = .ok statements) ∧
      (declaredIn statements).Nodup ∧ (clusters statements).Nodup := by
  have hg := check_eq_ok_iff.1 hg
  obtain ⟨statements, hdrawing, hdraw, hwithin⟩ := exists_drawing hg full
  obtain ⟨blocks, part, hdraws, hnodup, hmem, -, hdeclared, hclusters⟩ := hdrawing.exists_draws hg
  refine ⟨statements, _, hdrawing, hdraw, by rw [render, hdraw]; rfl, hwithin, ?_, ?_⟩
  · rw [hdeclared]
    exact hdraws.nodup_declared hg (fun i j => disjoint_membersOf hdisjoint) .nil hnodup
      fun b hb i _ hi => ((hmem b).1 hb).2 ⟨i, hi⟩
  · have hdrawn := hdraws.nodup_drawn .nil
    rw [hdraws.drawn_eq hg, List.append_nil] at hdrawn
    rw [hclusters]
    exact List.pairwise_reverse.1 hdrawn |>.imp Ne.symm

/-- Two call sites that share a group, which calls itself and a second one, which calls the first
one again. -/
def sharedCycle : Graph where
  blocks := #[{ id := 0, group := some 0, successors := [0] }, { id := 1, group := some 0 },
    { id := 2, group := some 1, successors := [1] }, { id := 3, group := some 0 },
    { id := 4, group := some 0, successors := [2] }]
  slots := #[1, 3, 4]
  roots := [0]
  groups := #[{ id := 0, callSite := 0, node := 0, range := "P", members := [2, 3] },
    { id := 1, callSite := 2, node := 1, range := "Q", members := [4] }]

theorem exists_drawing_once_sharedCycle : sharedCycle.check = .ok () ∧
    (sharedCycle.groups.toList.map (·.members)).Pairwise List.Disjoint ∧
    ∃ statements text, Drawing sharedCycle true statements ∧
      draw sharedCycle true = .ok statements ∧ render sharedCycle true = .ok text ∧
      (∀ depth, sharedCycle.groups.size < depth →
        drawWithin sharedCycle true depth = .ok statements) ∧
      (declaredIn statements).Nodup ∧ (clusters statements).Nodup :=
  have hdisjoint : (sharedCycle.groups.toList.map (·.members)).Pairwise List.Disjoint := by
    simp [sharedCycle, List.disjoint_left]
  ⟨by rfl, hdisjoint, exists_drawing_once (by rfl) hdisjoint true⟩

/-- The cluster of the second group stands inside that of the first. -/
example : (draw sharedCycle true).map (fun statements => (declaredIn statements,
    clusters statements)) = .ok ([0, 2, 4, 3, 1], [0, 1]) := by cbv

end CobolFlow.Dot
