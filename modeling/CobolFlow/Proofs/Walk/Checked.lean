import CobolFlow.Graph.Defect

/-!
# What a check finds out

The check of a graph goes through it in the order in which it is read, and stops at the first
defect. A graph that it accepts has none: whatever index a walk uses is in range.

## Main definitions

* `Graph.Checked` — every index is in range, and every block stands where its number says

## Main results

* `Graph.check_eq_ok_iff` — these are the graphs that the check accepts
-/

namespace CobolFlow

namespace Graph

/-- Every index is in range, and every block stands where its number says. -/
structure Checked (g : Graph) : Prop where
  placed : ∀ {b : BlockId} {block : Block}, g.blocks[b]? = some block → block.id = b
  target : ∀ {b : BlockId} {block : Block}, g.blocks[b]? = some block →
    ∀ s ∈ block.successors, ∃ c, g.slots[s]? = some c ∧ c < g.size
  group_lt : ∀ {b : BlockId} {i : GroupId} {block : Block}, g.blocks[b]? = some block →
    block.group = some i → i < g.groups.size
  root_lt : ∀ b ∈ g.roots, b < g.size
  member_lt : ∀ {i : GroupId} {group : Group}, g.groups[i]? = some group →
    ∀ b ∈ group.members, b < g.size

variable {g : Graph}

theorem slotDefect?_eq_none_iff {block : Block} {s : SlotId} :
    g.slotDefect? block s = none ↔ ∃ c, g.slots[s]? = some c ∧ c < g.size := by
  cases h : g.slots[s]? with
  | none => simp [slotDefect?, h]
  | some c => simp [slotDefect?, h]

theorem blockDefect?_eq_none_iff {block : Block} {b : BlockId} :
    g.blockDefect? block b = none ↔ block.id = b ∧
      (∀ s ∈ block.successors, ∃ c, g.slots[s]? = some c ∧ c < g.size) ∧
      ∀ i, block.group = some i → i < g.groups.size := by
  by_cases hid : block.id = b
  · cases hgroup : block.group with
    | none => simp [blockDefect?, hid, hgroup, slotDefect?_eq_none_iff]
    | some i => simp [blockDefect?, hid, hgroup, slotDefect?_eq_none_iff]
  · simp [blockDefect?, hid]

/-- The graphs that the check accepts. -/
theorem check_eq_ok_iff : g.check = .ok () ↔ g.Checked := by
  have hcheck : g.check = .ok () ↔ g.defect? = none := by
    unfold Graph.check
    split <;> simp_all
  have hblocks : (g.blocks.toList.zipIdx.findSome? fun p => g.blockDefect? p.1 p.2) = none ↔
      ∀ b block, g.blocks[b]? = some block → g.blockDefect? block b = none := by
    simp only [List.findSome?_eq_none_iff, Prod.forall, List.mem_zipIdx_iff_getElem?,
      Array.getElem?_toList]
    exact forall_comm
  have hgroups : g.groups.toList.findSome? g.groupDefect? = none ↔
      ∀ (i : GroupId) (group : Group), g.groups[i]? = some group →
        ∀ b ∈ group.members, b < g.size := by
    simp only [List.findSome?_eq_none_iff, groupDefect?, Array.mem_toList_iff,
      Array.mem_iff_getElem?]
    constructor
    · intro h i group hi b hb
      simpa using h group ⟨i, hi⟩ b hb
    · rintro h group ⟨i, hi⟩ b hb
      simp [h i group hi b hb]
  rw [hcheck, defect?, Option.or_eq_none_iff, Option.or_eq_none_iff, hblocks, hgroups]
  simp only [blockDefect?_eq_none_iff, List.findSome?_eq_none_iff, rootDefect?]
  constructor
  · rintro ⟨hb, hr, hm⟩
    exact
      { placed := fun h => (hb _ _ h).1
        target := fun h => (hb _ _ h).2.1
        group_lt := fun h hi => (hb _ _ h).2.2 _ hi
        root_lt := fun b h => by simpa using hr b h
        member_lt := fun h => hm _ _ h }
  · intro h
    refine ⟨fun b block hb => ⟨h.placed hb, h.target hb, fun i => h.group_lt hb⟩, fun b hb => ?_,
      fun i group => h.member_lt⟩
    simp [h.root_lt b hb]

end Graph

end CobolFlow
