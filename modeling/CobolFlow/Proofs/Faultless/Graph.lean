import CobolFlow.Build.Graft
import CobolFlow.Proofs.Faultless
import CobolFlow.Proofs.Walk.Checked
import Mathlib.Order.Nat

/-!
# Edits of a graph

A graph is sound if each block stands where its number says, every slot, block and group that it
mentions is in range, and every group has its call site to itself. The last clause is the only one
that an edit can break without leaving the range: opening a group at a block that is the call site
of another one would take that block away from it. So `addGroup` is asked for a block that is no
call site yet, and every other edit says that it opens no group.

## Main definitions

* `Graph.WellFormed` — the invariant

## Main results

* `Graph.WellFormed.check` — a sound graph has no defect
-/

namespace CobolFlow

namespace Graph

/-- How many blocks, slots and groups there are. -/
def extent (g : Graph) : ℕ × ℕ × ℕ := (g.size, g.slots.size, g.groups.size)

/-- Every handle of the graph is in range. -/
structure WellFormed (g : Graph) : Prop where
  placed : ∀ {b : BlockId} {block : Block}, g.blocks[b]? = some block → block.id = b
  slot_lt : ∀ {b : BlockId} {block : Block}, g.blocks[b]? = some block →
    ∀ s ∈ block.successors, s < g.slots.size
  target_lt : ∀ {s : SlotId} {b : BlockId}, g.slots[s]? = some b → b < g.size
  group_lt : ∀ {b : BlockId} {i : GroupId} {block : Block}, g.blocks[b]? = some block →
    block.group = some i → i < g.groups.size
  root_lt : ∀ b ∈ g.roots, b < g.size
  member_lt : ∀ {i : GroupId} {group : Group}, g.groups[i]? = some group →
    ∀ b ∈ group.members, b < g.size
  group_id : ∀ {i : GroupId} {group : Group}, g.groups[i]? = some group → group.id = i
  callSite : ∀ {i : GroupId} {group : Group}, g.groups[i]? = some group →
    ∃ block, g.blocks[group.callSite]? = some block ∧ block.group = some i

instance : Growing Graph where
  __ := Preorder.lift extent
  Sound := WellFormed

theorem le_def {g g' : Graph} :
    g ≤ g' ↔ g.size ≤ g'.size ∧ g.slots.size ≤ g'.slots.size ∧ g.groups.size ≤ g'.groups.size :=
  Iff.rfl

variable {g g' : Graph} {b : BlockId}

theorem le_of_extent_eq (h : g.extent = g'.extent) : g ≤ g' := le_of_eq (α := ℕ × ℕ × ℕ) h

theorem getElem?_eq_some_of_lt (h : b < g.size) : ∃ block, g.blocks[b]? = some block :=
  ⟨_, Array.getElem?_eq_getElem h⟩

theorem lt_size_of_getElem? {block : Block} (h : g.blocks[b]? = some block) : b < g.size :=
  (Array.getElem?_eq_some_iff.1 h).1

/-! ### Look-ups -/

theorem exists_block_eq_ok (h : b < g.size) :
    ∃ block, g.block b = .ok block ∧ g.blocks[b]? = some block := by
  obtain ⟨block, hb⟩ := getElem?_eq_some_of_lt h
  exact ⟨block, (g.block_eq_ok_iff b block).2 hb, hb⟩

theorem exists_target_eq_ok (hg : Sound g) {s : SlotId} (h : s < g.slots.size) :
    ∃ b, g.target s = .ok b ∧ b < g.size := by
  have hs : g.slots[s]? = some g.slots[s] := Array.getElem?_eq_getElem h
  exact ⟨_, (g.target_eq_ok_iff s _).2 hs, hg.target_lt hs⟩

theorem exists_group_eq_ok {i : GroupId} (h : i < g.groups.size) :
    ∃ group, g.group i = .ok group ∧ g.groups[i]? = some group := by
  have hi : g.groups[i]? = some g.groups[i] := Array.getElem?_eq_getElem h
  exact ⟨_, (g.group_eq_ok_iff i _).2 hi, hi⟩

/-! ### Defects -/

/-- In a sound graph every slot is in range, those that no block mentions included. -/
theorem WellFormed.checked (hg : Sound g) : g.Checked where
  placed := hg.placed
  target h s hs := by
    obtain ⟨c, hc, hlt⟩ := exists_target_eq_ok hg (hg.slot_lt h s hs)
    exact ⟨c, (g.target_eq_ok_iff s c).1 hc, hlt⟩
  group_lt := hg.group_lt
  root_lt := hg.root_lt
  member_lt := hg.member_lt

/-- A sound graph has no defect. -/
theorem WellFormed.check (hg : Sound g) : g.check = .ok () := check_eq_ok_iff.2 hg.checked

/-! ### Edits of one block

Except for its group, all that a block says of others is its edges. -/

/-- A block may be rewritten if it keeps its number and its group, and its edges stay in range. -/
theorem WellFormed.modifyBlock (hg : Sound g) {f : Block → Block}
    (hid : ∀ block, (f block).id = block.id) (hgroup : ∀ block, (f block).group = block.group)
    (hslots : ∀ block, g.blocks[b]? = some block → ∀ s ∈ (f block).successors, s < g.slots.size) :
    Sound { g with blocks := g.blocks.modify b f } where
  placed {c block} h := by
    rw [Array.getElem?_modify] at h
    split at h
    · obtain ⟨old, hold, rfl⟩ := Option.map_eq_some_iff.1 h
      rw [hid, hg.placed hold]
    · exact hg.placed h
  slot_lt {c block} h := by
    rw [Array.getElem?_modify] at h
    split at h
    · next hbc =>
      subst hbc
      obtain ⟨old, hold, rfl⟩ := Option.map_eq_some_iff.1 h
      exact hslots old hold
    · exact hg.slot_lt h
  target_lt h := by simpa [size] using hg.target_lt h
  group_lt {c i block} h := by
    rw [Array.getElem?_modify] at h
    split at h
    · obtain ⟨old, hold, rfl⟩ := Option.map_eq_some_iff.1 h
      rw [hgroup]
      exact hg.group_lt hold
    · exact hg.group_lt h
  root_lt c hc := by simpa [size] using hg.root_lt c hc
  member_lt h c hc := by simpa [size] using hg.member_lt h c hc
  group_id := hg.group_id
  callSite {i group} h := by
    obtain ⟨block, hblock, hi⟩ := hg.callSite h
    by_cases hb : b = group.callSite
    · exact ⟨f block, by simp [Array.getElem?_modify, hb, hblock], by rw [hgroup, hi]⟩
    · exact ⟨block, by simp [Array.getElem?_modify, hb, hblock], hi⟩

theorem modifyBlock_faultless (h : b < g.size) {f : Block → Block}
    (hid : ∀ block, (f block).id = block.id) (hgroup : ∀ block, (f block).group = block.group)
    (hslots : Sound g → ∀ block, g.blocks[b]? = some block →
      ∀ s ∈ (f block).successors, s < g.slots.size) :
    Faultless (modifyBlock b f) g fun _ g' => g'.groups = g.groups := by
  intro hg
  refine ⟨(), _, (modifyBlock_eq_ok_iff b f g _).2 ⟨h, rfl⟩,
    WellFormed.modifyBlock hg hid hgroup (hslots hg), ?_, rfl⟩
  simp [le_def, size]

/-- Rewriting a block without touching its number, its group or its edges. -/
theorem relabel_faultless (h : b < g.size) {f : Block → Block}
    (hid : ∀ block, (f block).id = block.id) (hgroup : ∀ block, (f block).group = block.group)
    (hslots : ∀ block, (f block).successors = block.successors) :
    Faultless (modifyBlock b f) g fun _ g' => g'.groups = g.groups :=
  modifyBlock_faultless h hid hgroup fun hg block hblock => hslots block ▸ hg.slot_lt hblock

theorem addSuccessor_faultless (h : b < g.size) {s : SlotId} (hs : s < g.slots.size) :
    Faultless (modifyBlock b (·.addSuccessor s)) g fun _ g' => g'.groups = g.groups := by
  refine modifyBlock_faultless h (fun _ => rfl) (fun _ => rfl) fun hg block hblock t ht => ?_
  rcases List.mem_append.1 ht with ht | ht
  · exact hg.slot_lt hblock t ht
  · rwa [List.mem_singleton.1 ht]

theorem markBlock_faultless (h : b < g.size) (f : BlockFlags) :
    Faultless (markBlock b f) g fun _ g' => g'.groups = g.groups :=
  relabel_faultless h (fun _ => rfl) (fun _ => rfl) fun _ => rfl

theorem setSuccessors_faultless (h : b < g.size) {slots : List SlotId}
    (hs : ∀ s ∈ slots, s < g.slots.size) :
    Faultless (setSuccessors b slots) g fun _ g' => g'.groups = g.groups :=
  modifyBlock_faultless h (fun _ => rfl) (fun _ => rfl) fun _ _ _ => hs

theorem setBlockFor_faultless (n : NodeId) :
    Faultless (setBlockFor n b) g fun _ g' => g'.groups = g.groups :=
  .modify (fun hg => { hg with }) (le_of_extent_eq rfl) rfl

theorem appendInstruction_faultless (h : b < g.size) (i : Instruction) :
    Faultless (appendInstruction b i) g fun _ g' => g'.groups = g.groups :=
  .bind (relabel_faultless h (fun _ => rfl) (fun _ => rfl) fun _ => rfl) fun _ _ _ _ h₁ =>
    (setBlockFor_faultless i.node).mono fun _ _ _ _ h₂ => h₂.trans h₁

/-! ### Edits that append -/

theorem WellFormed.push (hg : Sound g) {block : Block} (hid : block.id = g.size)
    (hslots : ∀ s ∈ block.successors, s < g.slots.size)
    (hgroup : ∀ i, block.group = some i → i < g.groups.size) :
    Sound { g with blocks := g.blocks.push block } where
  placed {c old} h := by
    rw [Array.getElem?_push] at h
    split at h
    · next hc => rw [← Option.some.inj h, hid, hc, size]
    · exact hg.placed h
  slot_lt {c old} h := by
    rw [Array.getElem?_push] at h
    split at h
    · rwa [← Option.some.inj h]
    · exact hg.slot_lt h
  target_lt h := by simpa [size] using Nat.lt_succ_of_lt (hg.target_lt h)
  group_lt {c i old} h := by
    rw [Array.getElem?_push] at h
    split at h
    · rw [← Option.some.inj h]
      exact hgroup i
    · exact hg.group_lt h
  root_lt c hc := by simpa [size] using Nat.lt_succ_of_lt (hg.root_lt c hc)
  member_lt h c hc := by simpa [size] using Nat.lt_succ_of_lt (hg.member_lt h c hc)
  group_id := hg.group_id
  callSite {i group} h := by
    obtain ⟨old, hold, hi⟩ := hg.callSite h
    refine ⟨old, ?_, hi⟩
    have hne : group.callSite ≠ g.blocks.size := (lt_size_of_getElem? hold).ne
    rw [Array.getElem?_push, if_neg hne, hold]

/-- What a step says that answers with a block it has appended. -/
def Fresh (g : Graph) (b : BlockId) (g' : Graph) : Prop :=
  b = g.size ∧ b < g'.size ∧ g'.groups = g.groups

theorem addBlock_faultless : Faultless addBlock g (Fresh g) := by
  refine .modifyGet (fun hg => WellFormed.push hg rfl (by simp) (by simp)) ?_ ?_
  · simp [le_def, size]
  · simp [Fresh, size]

theorem cloneBlock_faultless (h : b < g.size) : Faultless (cloneBlock b) g (Fresh g) := by
  refine .get_bind fun hg => ?_
  obtain ⟨block, hok, hblock⟩ := exists_block_eq_ok h
  refine .lift_bind hok ?_
  refine .modifyGet (fun _ => ?_) ?_ ?_
  · exact WellFormed.push hg rfl (by simp [Block.detachedCopy]) fun i hi => hg.group_lt hblock hi
  · simp [le_def, size]
  · simp [Fresh, size]

theorem newSlot_faultless (h : b < g.size) :
    Faultless (newSlot b) g fun s g' => s < g'.slots.size ∧ g'.groups = g.groups := by
  refine .modifyGet (fun hg => ?_) (by simp [le_def, size]) (by simp)
  refine { hg with slot_lt := fun hb s hs => ?_, target_lt := fun {s c} hs => ?_ }
  · simpa using Nat.lt_succ_of_lt (hg.slot_lt hb s hs)
  · rw [Array.getElem?_push] at hs
    split at hs
    · rwa [← Option.some.inj hs]
    · exact hg.target_lt hs

theorem addEdge_faultless {c : BlockId} (hb : b < g.size) (hc : c < g.size) :
    Faultless (addEdge b c) g fun s g' => s < g'.slots.size ∧ g'.groups = g.groups := by
  refine .bind (newSlot_faultless hc) fun s g₁ _ h₁ ⟨hs, hgroups₁⟩ => ?_
  refine .bind (addSuccessor_faultless (hb.trans_le h₁.1) hs) fun _ g₂ _ h₂ hgroups₂ => ?_
  exact .pure fun _ => ⟨hs.trans_le h₂.2.1, hgroups₂.trans hgroups₁⟩

theorem link_faultless {s : SlotId} (hb : b < g.size) (hs : s < g.slots.size) :
    Faultless (link b s) g fun _ g' => g'.groups = g.groups := by
  refine .get_bind fun _ => ?_
  obtain ⟨block, hok, -⟩ := exists_block_eq_ok hb
  refine .lift_bind hok ?_
  split
  · exact .pure fun _ => rfl
  · exact .bind (addSuccessor_faultless hb hs) fun _ _ _ _ h => .pure fun _ => h

theorem addRoot_faultless (hb : b < g.size) :
    Faultless (addRoot b) g fun _ _ => True := by
  refine .modify (fun hg => ?_) ?_ trivial
  · split
    · exact hg
    · refine { hg with root_lt := fun c hc => ?_ }
      rcases List.mem_append.1 hc with hc | hc
      · exact hg.root_lt c hc
      · rwa [List.mem_singleton.1 hc]
  · exact le_of_extent_eq (by split <;> rfl)

theorem openDivision_faultless (n : NodeId) :
    Faultless (openDivision n) g fun _ _ => True :=
  .modify (fun hg => { hg with }) (le_of_extent_eq rfl) trivial

theorem recordNode_faultless (n : Node) :
    Faultless (recordNode n) g fun _ _ => True :=
  .modify (fun hg => { hg with }) (le_of_extent_eq rfl) trivial

theorem markCompound_faultless : Faultless markCompound g fun _ _ => True :=
  .modify (fun hg => { hg with }) (le_of_extent_eq rfl) trivial

end Graph

end CobolFlow
