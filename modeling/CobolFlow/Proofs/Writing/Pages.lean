import CobolFlow.Proofs.Ensures
import CobolFlow.Proofs.Trace.Drawing

/-!
# What is written into blocks

Apart from its edges a graph is written like a book: instructions are put at the end of the block
that is current or into a new one, marks are added, and for each instruction its block is noted.
Most edits write nothing at all (`Graph.Same`), and what is written is always written into one block
(`Graph.Inks`).

A `Log` is the whole writing in the order of time. It determines what stands in each block and in
which block a node is found, and it is the source program in source order. The only nodes that are
logged and stand in no block are the division and the WHEN OTHER phrases, for which a block is
noted and nothing is put into it.

## Main definitions

* `NodeTag.closes`, `NodeTag.leaves` — the statements that end their block, and those that also
  leave
* `Spot.Shaped`, `Spot.Writable` — where these statements stand, and where more can be written
* `Graph.Same`, `Graph.Inks` — edits that write nothing, and edits that write into one block
* `Log`, `Graph.Logs` — a graph with the log of its writing

## Main results

* `Graph.Logs.ink` — writing adds to the log
-/

namespace CobolFlow

/-! ### The statements that end a block -/

/-- After the statement nothing is put into its block. -/
def NodeTag.closes : NodeTag → Bool
  | .goToSimple | .goToConditional | .nextSentence | .terminate _ | .ifThen | .perform => true
  | _ => false

/-- The statement never goes on to what follows. -/
def NodeTag.leaves : NodeTag → Bool
  | .goToSimple | .nextSentence | .terminate _ => true
  | _ => false

/-- The node is put into a block. -/
def NodeTag.isListed : NodeTag → Bool
  | .procedureDivision | .whenOther => false
  | _ => true

theorem NodeTag.leaves_eq_false {t : NodeTag} (h : t.closes = false) : t.leaves = false := by
  cases t <;> simp_all [closes, leaves]

namespace Spot

/-- A statement that ends its block comes last, and the block is marked if the statement leaves. -/
structure Shaped (s : Spot) : Prop where
  closes : ∀ i ∈ s.nodes.dropLast, i.tag.closes = false
  ending : s.flags.ending = true ↔ ∃ i ∈ s.nodes.getLast?, i.tag.leaves = true

/-- The block has not been ended. -/
def Writable (s : Spot) : Prop := ∀ i ∈ s.nodes, i.tag.closes = false

theorem shaped_empty : Shaped {} := ⟨by simp, by simp⟩

/-- What ends its block and comes first comes last. -/
theorem Shaped.getLast?_of_head? {s : Spot} (h : s.Shaped) {i : Instruction}
    (hi : s.nodes.head? = some i) (hcloses : i.tag.closes = true) : s.nodes.getLast? = some i := by
  have hclosed := h.closes
  cases hnodes : s.nodes with
  | nil => rw [hnodes] at hi; exact nomatch hi
  | cons j rest =>
    rw [hnodes] at hi hclosed
    obtain rfl := Option.some.inj hi
    cases rest with
    | nil => rfl
    | cons k rest => exact nomatch hcloses.symm.trans (hclosed j (by simp))

theorem Shaped.ending_eq_false {s : Spot} (h : s.Shaped) (hs : s.Writable) :
    s.flags.ending = false := by
  rw [← Bool.not_eq_true, h.ending]
  rintro ⟨i, hi, hleaves⟩
  rw [NodeTag.leaves_eq_false (hs i (List.mem_of_getLast? hi))] at hleaves
  exact nomatch hleaves

/-- What may be written into a block at once, together with marks. -/
structure Neat (is : List Instruction) (f : BlockFlags) : Prop where
  closes : ∀ i ∈ is.dropLast, i.tag.closes = false
  ending : f.ending = true ↔ ∃ i ∈ is.getLast?, i.tag.leaves = true
  listed : ∀ i ∈ is, i.tag.isListed = true

variable {is : List Instruction} {f : BlockFlags}

theorem Neat.nil (hf : f.ending = false) : Neat [] f := ⟨by simp, by simp [hf], by simp⟩

theorem Neat.single {i : Instruction} (hi : i.tag.isListed = true)
    (hf : f.ending = i.tag.leaves) : Neat [i] f :=
  ⟨by simp, by simp [hf], by simpa using hi⟩

/-- A block into which something is written that it has room for. -/
theorem Shaped.write {s s' : Spot} (h : s.Shaped) (hs : s.Writable) (hi : Neat is f)
    (hnodes : s'.nodes = s.nodes ++ is) (hflags : s'.flags = s.flags.union f) : s'.Shaped where
  closes i hmem := by
    rw [hnodes] at hmem
    obtain rfl | hne := eq_or_ne is []
    · exact hs i (List.mem_of_mem_dropLast (by simpa using hmem))
    · rw [List.dropLast_append_of_ne_nil hne] at hmem
      exact (List.mem_append.1 hmem).elim (hs i) (hi.closes i)
  ending := by
    have hfalse := h.ending_eq_false hs
    rw [hflags, hnodes]
    simp only [BlockFlags.union, hfalse, Bool.false_or]
    rw [hi.ending]
    obtain rfl | hne := eq_or_ne is []
    · have hnone := h.ending
      simp only [hfalse, Bool.false_eq_true, false_iff] at hnone
      simpa using hnone
    · rw [List.getLast?_append_of_ne_nil _ hne]

end Spot

/-! ### Edits -/

namespace Graph

variable {g g' g₁ g₂ : Graph} {b c t : BlockId} {is js : List Instruction} {f f' : BlockFlags}

theorem chart_nodes (g : Graph) (b : BlockId) :
    (g.chart b).nodes = (g.blocks[b]?.map (·.instructions)).getD [] := by
  cases h : g.blocks[b]? <;> simp [chart, h, Block.spot]

theorem chart_flags (g : Graph) (b : BlockId) :
    (g.chart b).flags = (g.blocks[b]?.map (·.flags)).getD {} := by
  cases h : g.blocks[b]? <;> simp [chart, h, Block.spot]

/-- Nothing is written. -/
structure Same (g g' : Graph) : Prop where
  size_le : g.size ≤ g'.size
  nodes : ∀ b, (g'.chart b).nodes = (g.chart b).nodes
  flags : ∀ b, (g'.chart b).flags = (g.chart b).flags
  owners : g'.owners = g.owners
  groups : g'.groups = g.groups

/-- Something is written into a block, and the block is marked. -/
structure Inks (g g' : Graph) (b : BlockId) (is : List Instruction) (f : BlockFlags) : Prop where
  size_le : g.size ≤ g'.size
  nodes : ∀ c, (g'.chart c).nodes = if c = b then (g.chart c).nodes ++ is else (g.chart c).nodes
  flags : ∀ c, (g'.chart c).flags = if c = b then (g.chart c).flags.union f else (g.chart c).flags
  owners : g'.owners = (is.map fun i => (i.node, b)).reverse ++ g.owners
  groups : g'.groups = g.groups

namespace Same

theorem refl (g : Graph) : g.Same g := ⟨le_rfl, fun _ => rfl, fun _ => rfl, rfl, rfl⟩

theorem trans (h : g.Same g₁) (h' : g₁.Same g₂) : g.Same g₂ where
  size_le := h.size_le.trans h'.size_le
  nodes b := (h'.nodes b).trans (h.nodes b)
  flags b := (h'.flags b).trans (h.flags b)
  owners := h'.owners.trans h.owners
  groups := h'.groups.trans h.groups

theorem of_blocks (hblocks : g'.blocks = g.blocks) (howners : g'.owners = g.owners)
    (hgroups : g'.groups = g.groups) : g.Same g' where
  size_le := by simp [size, hblocks]
  nodes b := by simp only [chart_nodes, hblocks]
  flags b := by simp only [chart_flags, hblocks]
  owners := howners
  groups := hgroups

end Same

namespace Inks

theorem of_same (h : g.Same g') (b : BlockId) : g.Inks g' b [] .none where
  size_le := h.size_le
  nodes c := by rw [h.nodes]; split <;> simp
  flags c := by rw [h.flags]; split <;> simp
  owners := h.owners
  groups := h.groups

theorem trans (h : g.Inks g₁ b is f) (h' : g₁.Inks g₂ b js f') :
    g.Inks g₂ b (is ++ js) (f.union f') where
  size_le := h.size_le.trans h'.size_le
  nodes c := by rw [h'.nodes, h.nodes]; split <;> simp
  flags c := by rw [h'.flags, h.flags]; split <;> simp [BlockFlags.union_assoc]
  owners := by rw [h'.owners, h.owners]; simp
  groups := h'.groups.trans h.groups

end Inks

/-! ### What each edit writes -/

section Ensures

variable {α : Type}

theorem modifyBlock_ensures {f : Block → Block} (b : BlockId)
    (hf : ∀ block, (f block).instructions = block.instructions ∧ (f block).flags = block.flags) :
    Ensures (modifyBlock b f) g fun _ g' => g.Same g' := by
  rintro ⟨⟩ g' h
  obtain ⟨-, rfl⟩ := (modifyBlock_eq_ok_iff b f g g').1 h
  refine ⟨by simp [size], fun c => ?_, fun c => ?_, rfl, rfl⟩
  · simp only [chart_nodes, Array.getElem?_modify]
    split <;> cases g.blocks[c]? <;> simp [hf]
  · simp only [chart_flags, Array.getElem?_modify]
    split <;> cases g.blocks[c]? <;> simp [hf]

theorem newSlot_ensures (d : BlockId) : Ensures (newSlot d) g fun _ g' => g.Same g' :=
  .modifyGet (.of_blocks rfl rfl rfl)

theorem addSuccessor_ensures (b : BlockId) (k : SlotId) :
    Ensures (modifyBlock b (·.addSuccessor k)) g fun _ g' => g.Same g' :=
  modifyBlock_ensures b fun _ => ⟨rfl, rfl⟩

theorem addEdge_ensures (b d : BlockId) : Ensures (addEdge b d) g fun _ g' => g.Same g' :=
  .bind (newSlot_ensures d) fun _ _ h => .bind (addSuccessor_ensures b _) fun _ _ h' =>
    .pure (h.trans h')

theorem link_ensures (b : BlockId) (k : SlotId) : Ensures (link b k) g fun _ g' => g.Same g' := by
  refine .get_bind (.lift_bind fun block _ => ?_)
  split
  · exact .pure (.refl g)
  · exact .bind (addSuccessor_ensures b k) fun _ _ h => .pure h

theorem addRoot_ensures (b : BlockId) : Ensures (addRoot b) g fun _ g' => g.Same g' :=
  .modify (by split <;> exact .of_blocks rfl rfl rfl)

theorem recordNode_ensures (n : Node) : Ensures (recordNode n) g fun _ g' => g.Same g' :=
  .modify (.of_blocks rfl rfl rfl)

theorem markCompound_ensures : Ensures markCompound g fun _ g' => g.Same g' :=
  .modify (.of_blocks rfl rfl rfl)

/-- An edit of each of some blocks. -/
theorem forIn_ensures {l : List α} {e : α → PUnit → Edit (ForInStep PUnit)}
    (h : ∀ a g, Ensures (e a ⟨⟩) g fun _ g' => g.Same g') :
    Ensures (ForIn.forIn l ⟨⟩ e) g fun _ g' => g.Same g' :=
  .forIn (.refl g) fun a _ _ g₁ h₁ => (h a g₁).mono fun _ _ h₂ => h₁.trans h₂

/-- A new block has neither instructions nor marks. -/
theorem addBlock_ensures : Ensures addBlock g fun b g' =>
    b = g.size ∧ g'.size = g.size + 1 ∧ g.Same g' := by
  refine .modifyGet ⟨rfl, by simp [size], by simp [size], fun c => ?_, fun c => ?_, rfl, rfl⟩
  · simp only [chart_nodes, Array.getElem?_push]
    split
    · next h => simp [h]
    · rfl
  · simp only [chart_flags, Array.getElem?_push]
    split
    · next h => simp [h]
    · rfl

theorem markBlock_ensures (b : BlockId) (f : BlockFlags) :
    Ensures (markBlock b f) g fun _ g' => b < g.size ∧ g.Inks g' b [] f := by
  rintro ⟨⟩ g' h
  obtain ⟨hb, rfl⟩ := (modifyBlock_eq_ok_iff b _ g g').1 h
  refine ⟨hb, by simp [size], fun c => ?_, fun c => ?_, rfl, rfl⟩
  · simp only [chart_nodes, Array.getElem?_modify]
    by_cases hc : c = b
    · cases g.blocks[c]? <;> simp [hc, Block.mark]
    · simp [hc, Ne.symm hc]
  · have hb' : g.blocks[b]? = some g.blocks[b] := Array.getElem?_eq_getElem hb
    simp only [chart_flags, Array.getElem?_modify]
    by_cases hc : c = b
    · subst hc
      simp [hb', Block.mark]
    · simp [hc, Ne.symm hc]

theorem setBlockFor_ensures (n : NodeId) (b : BlockId) : Ensures (setBlockFor n b) g fun _ g' =>
    g' = { g with owners := (n, b) :: g.owners } :=
  .modify rfl

theorem appendInstruction_ensures (b : BlockId) (i : Instruction) :
    Ensures (appendInstruction b i) g fun _ g' => b < g.size ∧ g.Inks g' b [i] .none := by
  refine .bind (P := fun _ g₁ =>
    b < g.size ∧ g₁ = { g with blocks := g.blocks.modify b (·.append i) })
    (fun _ g' h => (modifyBlock_eq_ok_iff b _ g g').1 h) ?_
  rintro _ _ ⟨hb, rfl⟩
  refine (setBlockFor_ensures i.node b).mono ?_
  rintro _ _ rfl
  have hb' : g.blocks[b]? = some g.blocks[b] := Array.getElem?_eq_getElem hb
  refine ⟨hb, by simp [size], fun c => ?_, fun c => ?_, rfl, rfl⟩
  · simp only [chart_nodes, Array.getElem?_modify]
    by_cases hc : c = b
    · subst hc
      simp [hb', Block.append]
    · simp [hc, Ne.symm hc]
  · simp only [chart_flags, Array.getElem?_modify]
    by_cases hc : c = b
    · cases g.blocks[c]? <;> simp [hc, Block.append]
    · simp [hc, Ne.symm hc]

end Ensures

end Graph

/-! ### Logs -/

/-- What has been written, with the blocks. -/
abbrev Log := List (BlockId × Instruction)

namespace Log

/-- What stands in a block. -/
def on (l : Log) (b : BlockId) : List Instruction :=
  (l.filter fun e => e.1 == b && e.2.tag.isListed).map (·.2)

/-- Where each node is, the latest first. -/
def owners (l : Log) : List (NodeId × BlockId) := (l.map fun e => (e.2.node, e.1)).reverse

@[simp] theorem on_append (l l' : Log) (b : BlockId) : (l ++ l').on b = l.on b ++ l'.on b := by
  simp [on]

@[simp] theorem owners_append (l l' : Log) : (l ++ l').owners = l'.owners ++ l.owners := by
  simp [owners]

/-- Several instructions in one block. -/
def entries (b : BlockId) (is : List Instruction) : Log := is.map (b, ·)

@[simp] theorem map_entries (b : BlockId) (is : List Instruction) :
    (entries b is).map (·.2) = is := by
  simp [entries]

theorem owners_entries (b : BlockId) (is : List Instruction) :
    (entries b is).owners = (is.map fun i => (i.node, b)).reverse := by
  simp [entries, owners]

theorem on_entries {is : List Instruction} (his : ∀ i ∈ is, i.tag.isListed = true)
    (b c : BlockId) : (entries b is).on c = if c = b then is else [] := by
  induction is with
  | nil => simp [entries, on]
  | cons i rest ih =>
    have ih := ih fun j hj => his j (by simp [hj])
    have hi := his i (by simp)
    simp only [entries, on] at ih ⊢
    by_cases hc : c = b
    · subst hc
      simpa [hi] using ih
    · simp [hc, Ne.symm hc]

/-- Nothing that is not listed stands anywhere. -/
theorem on_entries_of_not_listed {is : List Instruction}
    (his : ∀ i ∈ is, i.tag.isListed = false) (b c : BlockId) : (entries b is).on c = [] := by
  simp only [entries, on, List.map_eq_nil_iff, List.filter_eq_nil_iff, List.mem_map]
  rintro _ ⟨i, hi, rfl⟩
  simp [his i hi]

end Log

/-- What has been written into a graph is as the log says, and each block has its shape. -/
structure Graph.Logs (g : Graph) (l : Log) : Prop where
  nodes : ∀ b, (g.chart b).nodes = l.on b
  owners : g.owners = l.owners
  inside : ∀ e ∈ l, e.1 < g.size
  defaults : ∀ e ∈ l, e.2.tag = .whenOther → (g.chart e.1).flags.default = true
  shaped : ∀ b, (g.chart b).Shaped

namespace Graph.Logs

variable {g g' : Graph} {l : Log} {b : BlockId} {is : List Instruction} {f : BlockFlags}

theorem same (h : g.Logs l) (hg : g.Same g') : g'.Logs l where
  nodes b := (hg.nodes b).trans (h.nodes b)
  owners := hg.owners.trans h.owners
  inside e he := (h.inside e he).trans_le hg.size_le
  defaults e he ht := by rw [hg.flags, h.defaults e he ht]
  shaped b := by
    obtain ⟨hcloses, hending⟩ := h.shaped b
    exact ⟨by rwa [hg.nodes], by rwa [hg.nodes, hg.flags]⟩

/-- **Writing** adds to the log. -/
theorem ink (h : g.Logs l) (hg : g.Inks g' b is f) (hb : b < g'.size) (hw : (g.chart b).Writable)
    (hi : Spot.Neat is f) : g'.Logs (l ++ Log.entries b is) where
  nodes c := by
    rw [hg.nodes, h.nodes, Log.on_append, Log.on_entries hi.listed]
    split <;> simp
  owners := by rw [hg.owners, h.owners, Log.owners_append, Log.owners_entries]
  inside e he := by
    obtain he | he := List.mem_append.1 he
    · exact (h.inside e he).trans_le hg.size_le
    · obtain ⟨i, -, rfl⟩ := List.mem_map.1 he
      exact hb
  defaults e he ht := by
    obtain he | he := List.mem_append.1 he
    · rw [hg.flags]
      split <;> simp [BlockFlags.union, h.defaults e he ht]
    · obtain ⟨i, hmem, rfl⟩ := List.mem_map.1 he
      have hlisted := hi.listed i hmem
      rw [show i.tag = .whenOther from ht] at hlisted
      cases hlisted
  shaped c := by
    by_cases hc : c = b
    · subst hc
      exact (h.shaped c).write hw hi (by simp [hg.nodes]) (by simp [hg.flags])
    · obtain ⟨hcloses, hending⟩ := h.shaped c
      exact ⟨by simpa [hg.nodes, hc] using hcloses, by simpa [hg.nodes, hg.flags, hc] using hending⟩

/-- A block is noted for nodes that are put into none. -/
theorem note (h : g.Logs l) (hb : b < g.size) (hdefault : (g.chart b).flags.default = true)
    (his : ∀ i ∈ is, i.tag.isListed = false) (hg : g' = { g with
      owners := (is.map fun i => (i.node, b)).reverse ++ g.owners }) :
    g'.Logs (l ++ Log.entries b is) where
  nodes c := by
    subst hg
    rw [Log.on_append, Log.on_entries_of_not_listed his, List.append_nil]
    exact h.nodes c
  owners := by
    subst hg
    rw [Log.owners_append, Log.owners_entries, ← h.owners]
  inside e he := by
    subst hg
    obtain he | he := List.mem_append.1 he
    · exact h.inside e he
    · obtain ⟨i, -, rfl⟩ := List.mem_map.1 he
      exact hb
  defaults e he ht := by
    subst hg
    obtain he | he := List.mem_append.1 he
    · exact h.defaults e he ht
    · obtain ⟨i, -, rfl⟩ := List.mem_map.1 he
      exact hdefault
  shaped c := by
    subst hg
    exact h.shaped c

end Graph.Logs

end CobolFlow
