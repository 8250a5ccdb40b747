import CobolFlow.Proofs.Calls.Capturing
import CobolFlow.Proofs.Depth

/-!
# What the group of a PERFORM holds

The group of a PERFORM holds copies of the blocks of its range, one for each and in their order. A
copy has the instructions, the marks and the procedure of its original and makes the same call. Its
edges are those of the original, edge by edge: one that stays within the range leads to the copy of
what it led to, and one that leaves the range still leads out of it, unless the block ends the
range. There control returns from the PERFORM, and the edge is dropped.

Edges share slots, and a slot is moved only once, whichever block is the first to use it. The last
block of a range may share a slot with another block: if the slot stays within the range both get
the same new one, and if it leaves the range it is kept for the other block and dropped for the
last.

Nothing of this changes once a group is filled. Other ranges may contain the same call site, or the
same blocks, but their copies are other blocks.

## Main definitions

* `ProgramFlow.HoldsCopies` — the members of a group are copies of some blocks
* `ProgramUnit.FillsGroups` — this is so of each group of a PERFORM and its range

## Main results

* `StatementTree.build_fillsGroups` — it holds of every program of every tree
-/

namespace CobolFlow

open Scope

/-- The members of the `i`-th group are copies of the given blocks. -/
structure ProgramFlow.HoldsCopies (flow : ProgramFlow) (i : GroupId) (group : Group)
    (blocks : List BlockId) : Prop where
  length : group.members.length = blocks.length
  distinct : blocks.Nodup
  nodup : group.members.Nodup
  /-- No member belongs to the text, and none to another group. -/
  new : ∀ m ∈ group.members, ¬ flow.graph.IsOriginal m
  own : ∀ {j : GroupId} {other : Group}, flow.graph.groups[j]? = some other → i ≠ j →
    group.members.Disjoint other.members
  copy : ∀ {k : ℕ} {b m : BlockId}, blocks[k]? = some b → group.members[k]? = some m →
    flow.graph.chart m = { flow.graph.chart b with
      next := (flow.graph.chart b).next.filterMap fun x =>
        ((blocks.zip group.members).lookup x).or (if k + 1 = blocks.length then none else some x) }
  /-- The terminals are the members that lead to no member. -/
  terminals : group.terminals = group.members.filter fun m =>
    (flow.graph.chart m).next.all fun x => !group.members.contains x

/-- Before the first range is captured no group has members. -/
theorem Scope.Awaits.apart {s : Scope} {W : List PendingPerform} (h : s.Awaits W) :
    s.graph.Apart := by
  have hempty : ∀ i, s.graph.membersOf i = [] := fun i => by
    cases hi : s.graph.groups[i]? with
    | none => simp [Graph.membersOf, hi]
    | some group =>
      have hlt : i < W.length := h.size ▸ (Array.getElem?_eq_some_iff.1 hi).1
      obtain ⟨-, callSite, node, hi'⟩ := h.group (List.getElem?_eq_getElem hlt)
      rw [Graph.membersOf_of_getElem? hi']
  exact ⟨by simp [hempty], by simp [hempty], by simp [hempty]⟩

namespace Build

/-- The capture of a range leaves no member to two groups. -/
theorem captures_apart : Captures fun s => s.graph.Apart where
  report _ h := h
  mark {s i g} h hrun := by
    obtain ⟨-, rfl⟩ := Graph.eq_of_modifyGroup_eq_ok hrun
    have hrenews : s.graph.Renews { s.graph with
        groups := s.graph.groups.modify i fun group => { group with recursive := true } }
        fun _ => False :=
      .modified (f := fun group => { group with recursive := true }) (fun _ => rfl) le_rfl rfl
    exact hrenews.apart h
  relocate h _ _ _ := (relocate_renews _ _ _ _).mono fun _ _ h' => h'.1.apart h

variable {χ : Chart} {g : Graph} {blocks members terminals : List BlockId}

/-- The last of some different blocks is the one that stands in the last place. -/
theorem beq_getLast?_iff (hblocks : blocks.Nodup) {k : ℕ} {b : BlockId} (hb : blocks[k]? = some b) :
    (some b == blocks.getLast?) = decide (k + 1 = blocks.length) := by
  have hlt := (List.getElem?_eq_some_iff.1 hb).1
  rw [Bool.eq_iff_iff, beq_iff_eq, decide_eq_true_iff, List.getLast?_eq_getElem?, ← hb]
  constructor
  · intro h
    have := (List.getElem?_inj hlt hblocks).1 h
    omega
  · intro h
    rw [show blocks.length - 1 = k by omega]

/-- The copies of different blocks, place by place. -/
theorem Transcribes.chart_eq (h : Transcribes χ g blocks members terminals)
    (hblocks : blocks.Nodup) {k : ℕ} {b m : BlockId} (hb : blocks[k]? = some b)
    (hm : members[k]? = some m) : g.chart m = { χ b with
      next := Copies.carry (blocks.zip members) (decide (k + 1 = blocks.length)) (χ b).next } := by
  have hp : (b, m) ∈ blocks.zip members :=
    List.mem_of_getElem? (List.getElem?_zip_eq_some.2 ⟨hb, hm⟩)
  rw [h.chart _ hp, beq_getLast?_iff hblocks hb]

end Build

namespace ProgramUnit

/-- The group of each PERFORM whose range is known holds copies of the range. -/
def FillsGroups (u : ProgramUnit) (flow : ProgramFlow) : Prop :=
  ∀ {i : ℕ} {call : Call} {blocks : List BlockId}, u.calls[i]? = some call →
    flow.procedures.captured? call.range = some blocks → ∃ group,
      flow.graph.groups[i]? = some group ∧ group.node = call.node ∧ flow.HoldsCopies i group blocks

variable {o : Options} {u : ProgramUnit} {d : DivisionText} {flow : ProgramFlow}
  {s s₁ s₂ : Scope} {chs : List Chapter}

theorem Arises.fillsGroups (h : u.Arises o d flow s chs s₁ s₂) (ho : o.isExtended = false) :
    u.FillsGroups flow := by
  intro i call blocks hcall hblocks
  obtain ⟨c, hfollows⟩ := h.follows
  obtain ⟨callSite, hw, hold⟩ := exists_awaiting h.draft h.landmarks h.links hcall
  obtain ⟨members, terminals, hget, hfills⟩ := hfollows.group hold
  rw [h.procedures_eq] at hblocks
  have hcaptured : (Tour.all (s.pending.performs.map s₁.errand)).progress[i]? = some .captured := by
    rw [Tour.progress_all h.awaits.fair (k := i) (e := s₁.errand (call.pending i))
      (by rw [List.getElem?_map, hw]; rfl), Errand.verdict, errand, Option.isSome_map]
    have hrange : (call.pending i).range = call.range := rfl
    exact congrArg some (if_pos (by rw [hrange, hblocks]; rfl))
  obtain ⟨w, blocks', hw', hblocks', hcopies, htranscribes⟩ := hfills.captured hcaptured
  obtain rfl := Option.some.inj (hw.symm.trans hw')
  obtain rfl := Option.some.inj (hblocks.symm.trans hblocks')
  obtain ⟨first, last, hperformed, hrange⟩ := Procedures.captured?_eq_some_iff.1 hblocks
  have hnodup := h.awaits.nodup hrange
  obtain ⟨_, hrange', hlt⟩ :=
    Build.exists_capturedBlocks_eq_ok h.awaits.sound (Build.performed?_lt h.awaits.sound hperformed)
  obtain rfl := Except.ok.inj (hrange.symm.trans hrange')
  have hchart : ∀ b ∈ blocks, s₂.graph.chart b = s₁.graph.chart b :=
    fun b hb => hfollows.keeps.chart b (hlt b hb)
  have hapart := Build.captures_apart.resolvePerforms h.awaits.apart s.pending.performs _ _
    h.captured
  rw [← h.unspliced ho] at hget htranscribes hchart hapart
  refine ⟨_, hget, rfl, ?_⟩
  exact
    { length := htranscribes.length
      distinct := hnodup
      nodup := htranscribes.nodup
      new := fun m hm horiginal => by
        obtain ⟨_, -, hcopy⟩ := hcopies.exists_original hm
        exact (h.links.size ▸ hcopy.new).not_gt (h.isOriginal_iff.1 horiginal)
      own := fun hother hij => by
        have hdisjoint := hapart.disjoint _ _ hij
        rwa [Graph.membersOf_of_getElem? hget, Graph.membersOf_of_getElem? hother] at hdisjoint
      copy := fun {k b m} hb hm => by
        rw [htranscribes.chart_eq hnodup hb hm, hchart b (List.mem_of_getElem? hb),
          Build.Copies.carry]
        simp only [decide_eq_true_iff]
      terminals := htranscribes.terminals }

/-- **The group of a PERFORM holds copies of its range**: without extended mode this is how every
result is. -/
theorem Yields.fillsGroups (h : u.Yields o flow) (ho : o.isExtended = false) :
    u.FillsGroups flow := by
  cases hd : u.division with
  | none =>
    intro i call blocks hcall
    simp [calls, landmarks, events, hd] at hcall
  | some d =>
    obtain ⟨s, chs, s₁, s₂, harises⟩ := h.exists_arises hd
    exact harises.fillsGroups ho

end ProgramUnit

/-- **The group of each PERFORM holds copies of its range**, in every program of every tree: fresh
blocks in the order of the range, whose edges lead to copies where they stay within the range. -/
theorem StatementTree.build_fillsGroups (t : StatementTree) (o : Options)
    (ho : o.isExtended = false) : ∃ flows, t.build o = .ok flows ∧
      List.Forall₂ (fun u flow => u.FillsGroups flow) t.units flows := by
  obtain ⟨flows, hbuild, hflows⟩ := t.exists_build o
  exact ⟨flows, hbuild, hflows.imp fun _ _ h => h.fillsGroups ho⟩

/-- A range that is left from its middle, entered again and performed from within. -/
def loopingRange : StatementTree where
  programs := [.mk "A" .program (some { paragraphs := [
    { name := "P", sentences := [[.mk (.perform
      { first := { name := "Q" }, through := some { name := "R" } }) none .unknown]] },
    { name := "Q", sentences := [[.mk (.goTo [{ name := "P" }, { name := "R" }] true) none
      .unknown]] },
    { name := "R", sentences := [[.mk (.perform { first := { name := "Q" } }) none .unknown]] }]
    }) []]

theorem fillsGroups_loopingRange : ({} : Options).isExtended = false ∧
    ∃ flows, loopingRange.build {} = .ok flows ∧
      List.Forall₂ (fun u flow => u.FillsGroups flow) loopingRange.units flows :=
  ⟨rfl, loopingRange.build_fillsGroups {} rfl⟩

end CobolFlow
