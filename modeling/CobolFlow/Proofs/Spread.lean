import CobolFlow.Proofs.Ensures
import CobolFlow.Proofs.Faultless.Graph

/-!
# What is done at a copy

When the members of a group have been copied, the copies are gone through one by one. A copy that
makes no call is left alone. At one that makes a call a group is opened, which stands for the group
that the original calls. It is spliced in at once if there is a level left for it, if the other
group does not call itself and if that has members at all; otherwise it has no members, and what it
says of itself depends on what was in the way.

So the step needs to be taken apart only once: in the graph in which the group has been opened, it
splices in or does nothing.

## Main definitions

* `Build.spread` — what is done at a copy
* `Build.IsGrafted` — a group that is spliced in
* `Build.nested`, `Build.openedAt` — the group that is opened at a copy, and the graph that has it

## Main results

* `Build.spread_of_callFree`, `Build.spread_of_call` — all that is done at a copy
-/

namespace CobolFlow

namespace Build

open Graph

variable {g : Graph} {b copy : BlockId} {levels : ℕ}

theorem modify_push_size {α : Type} (a : Array α) (x : α) (f : α → α) :
    (a.push x).modify a.size f = a.push (f x) := by
  refine Array.ext_getElem? fun i => ?_
  rw [Array.getElem?_modify, Array.getElem?_push, Array.getElem?_push]
  by_cases hi : i = a.size
  · simp [hi]
  · simp [hi, Ne.symm hi]

/-! ### Opening a group -/

/-- A graph in which a group has been opened at a block. -/
def openedAt (g : Graph) (b : BlockId) (group : Group) : Graph :=
  { g with
    groups := g.groups.push group
    blocks := g.blocks.modify b ({ · with group := some g.groups.size }) }

@[simp] theorem size_openedAt (g : Graph) (b : BlockId) (group : Group) :
    (openedAt g b group).size = g.size := by
  simp [openedAt, size]

theorem addGroup_eq_ok (hb : b < g.size) (node : NodeId) (range : String) :
    addGroup b node range g = .ok (g.groups.size,
      openedAt g b { id := g.groups.size, callSite := b, node, range }) := by
  set g₁ : Graph :=
    { g with groups := g.groups.push { id := g.groups.size, callSite := b, node, range } }
  refine (run_bind (a := g.groups.size) (t := g₁) rfl _).trans ?_
  rw [run_bind ((modifyBlock_eq_ok_iff b _ g₁ _).2 ⟨hb, rfl⟩)]
  rfl

theorem addGroup_opens (b : BlockId) (node : NodeId) (range : String) :
    Ensures (addGroup b node range) g fun i g' => i = g.groups.size ∧
      g' = openedAt g b { id := g.groups.size, callSite := b, node, range } := by
  refine .bind (P := fun i g₁ => i = g.groups.size ∧ g₁ = { g with
    groups := g.groups.push { id := g.groups.size, callSite := b, node, range } })
    (.modifyGet ⟨rfl, rfl⟩) ?_
  rintro _ _ ⟨rfl, rfl⟩
  refine .bind (fun _ _ h => (modifyBlock_eq_ok_iff _ _ _ _).1 h) ?_
  rintro _ _ ⟨-, rfl⟩
  exact .pure ⟨rfl, rfl⟩

/-- The group that has just been opened is changed. -/
theorem modifyGroup_openedAt (b : BlockId) (group : Group) (f : Group → Group) :
    modifyGroup g.groups.size f (openedAt g b group) = .ok ((), openedAt g b (f group)) := by
  rw [modifyGroup, if_pos (by simp [openedAt]), openedAt, openedAt, modify_push_size]

/-! ### One copy -/

/-- What is done at the copy of a member: where it is a call site, a group is opened. -/
def spread (levels : ℕ) (copy : BlockId) : Graph.Edit (ForInStep PUnit) := do
  match (← (← get).block copy).group with
  | some nested =>
    let source ← (← get).group nested
    let j ← Graph.addGroup copy source.node source.range
    if source.recursive then
      Graph.modifyGroup j fun g => { g with recursive := true }
      return .yield ⟨⟩
    else if source.isEmpty then
      return .yield ⟨⟩
    else if levels = 0 then
      Graph.modifyGroup j fun g => { g with truncated := true }
      return .yield ⟨⟩
    else
      Graph.modifyGroup j fun g =>
        { g with members := source.members, terminals := source.terminals }
      graft levels j
      return .yield ⟨⟩
  | _ => return .yield ⟨⟩

/-- A group is spliced in if there is a level left for it, it does not call itself and it is not
empty. -/
def IsGrafted (levels : ℕ) (group : Group) : Prop :=
  levels ≠ 0 ∧ group.recursive = false ∧ group.members ≠ []

instance (levels : ℕ) (group : Group) : Decidable (IsGrafted levels group) :=
  inferInstanceAs (Decidable (_ ∧ _))

/-- The group that is opened at the copy of a call site of `source`. It has the members of that
group only if it is spliced in at once, which gives it others. -/
def nested (levels : ℕ) (source : Group) (i : GroupId) (copy : BlockId) : Group where
  id := i
  callSite := copy
  node := source.node
  range := source.range
  members := if IsGrafted levels source then source.members else []
  terminals := if IsGrafted levels source then source.terminals else []
  recursive := source.recursive
  truncated := !source.recursive && !source.isEmpty && levels == 0

variable {block : Block} {i : GroupId} {source : Group}

theorem mem_of_mem_nested (h : b ∈ (nested levels source i copy).members) : b ∈ source.members := by
  change b ∈ ite _ _ _ at h
  split at h
  · exact h
  · exact absurd h List.not_mem_nil

/-- A copy at which something is done is there, and so is the group that it calls. -/
theorem spread_finds (levels : ℕ) (copy : BlockId) : Ensures (spread levels copy) g fun _ _ =>
    ∃ block, g.blocks[copy]? = some block ∧
      ∀ i, block.group = some i → ∃ source, g.groups[i]? = some source := by
  refine .get_bind (.lift_bind fun block hblock => ?_)
  have hblock := (block_eq_ok_iff _ _ _).1 hblock
  split
  · next i hi =>
    refine .get_bind (.lift_bind fun source hsource _ _ _ => ⟨block, hblock, fun j hj => ?_⟩)
    obtain rfl := Option.some.inj (hi.symm.trans hj)
    exact ⟨source, (group_eq_ok_iff _ _ _).1 hsource⟩
  · next hnone => exact .pure ⟨block, hblock, fun i hi => absurd hi (hnone i)⟩

theorem spread_of_callFree (hblock : g.blocks[copy]? = some block) (hfree : block.group = none) :
    spread levels copy g = .ok (.yield ⟨⟩, g) := by
  rw [spread, run_bind (a := g) (t := g) rfl,
    run_bind (run_lift ((block_eq_ok_iff _ _ _).2 hblock) g), hfree]
  rfl

/-- The call that a copy makes is spliced in where the group has been opened for it, or it is not
spliced in at all. -/
theorem spread_of_call (hblock : g.blocks[copy]? = some block) (hcall : block.group = some i)
    (hsource : g.groups[i]? = some source) : spread levels copy g =
      ((if IsGrafted levels source then graft levels g.groups.size else pure ()) >>=
        fun _ => (pure (.yield ⟨⟩) : Edit (ForInStep PUnit)))
        (openedAt g copy (nested levels source g.groups.size copy)) := by
  rw [spread, run_bind (a := g) (t := g) rfl,
    run_bind (run_lift ((block_eq_ok_iff _ _ _).2 hblock) g), hcall]
  dsimp only
  rw [run_bind (a := g) (t := g) rfl,
    run_bind (run_lift ((group_eq_ok_iff _ _ _).2 hsource) g),
    run_bind (addGroup_eq_ok (lt_size_of_getElem? hblock) source.node source.range)]
  by_cases hrecursive : source.recursive
  · have hnot : ¬ IsGrafted levels source := fun h => nomatch hrecursive.symm.trans h.2.1
    rw [if_pos hrecursive, run_bind (modifyGroup_openedAt copy _ _), if_neg hnot]
    simp [nested, hnot, hrecursive]
  rw [if_neg hrecursive]
  by_cases hempty : source.isEmpty
  · have hnot : ¬ IsGrafted levels source := fun h => h.2.2 (List.isEmpty_iff.1 hempty)
    rw [if_pos hempty, if_neg hnot]
    simp [nested, hnot, hrecursive, hempty]
  rw [if_neg hempty]
  by_cases hlevels : levels = 0
  · subst hlevels
    have hnot : ¬ IsGrafted 0 source := fun h => h.1 rfl
    rw [if_pos rfl, run_bind (modifyGroup_openedAt copy _ _), if_neg hnot]
    simp [nested, hnot, hrecursive, hempty]
  · have hgrafted : IsGrafted levels source :=
      ⟨hlevels, by simpa using hrecursive, fun h => hempty (List.isEmpty_iff.2 h)⟩
    rw [if_neg hlevels, run_bind (modifyGroup_openedAt copy _ _), if_pos hgrafted]
    simp [nested, hgrafted, hrecursive, hempty, beq_false_of_ne hlevels]

end Build

end CobolFlow
