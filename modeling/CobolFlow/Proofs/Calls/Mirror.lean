import CobolFlow.Proofs.Calls.Growth

/-!
# Copies and the edges among them

Blocks are copied when a range is captured, and again when it is spliced in. Either way an edge of
a copy comes from an edge of its original: it leads to the copy of what that edge leads to, or, if
there is none, to where that edge leads itself. A copy may have fewer edges than its original, so
nothing is said here of blocks that lead nowhere.

## Main definitions

* `Graph.Tight` — every edge has a slot, and every slot leads to a block
* `Build.Mirrors` — blocks have been added that are copies of others

## Main results

* `Build.relocate_mirrors` — what capturing adds
-/

namespace CobolFlow

namespace Graph

variable {g g' : Graph} {B : BlockId → Prop} {G : GroupId → Prop} {b c : BlockId} {k : SlotId}

/-- Every edge has a slot, and every slot leads to a block. -/
structure Tight (g : Graph) : Prop where
  slot_lt : ∀ {b : BlockId} {block : Block}, g.blocks[b]? = some block →
    ∀ k ∈ block.successors, k < g.slots.size
  target_lt : ∀ {k : SlotId} {b : BlockId}, g.slots[k]? = some b → b < g.size

namespace Tight

theorem of_sound (h : Sound g) : g.Tight := ⟨fun hb => h.slot_lt hb, fun hk => h.target_lt hk⟩

/-- A block is given other edges, or other marks. -/
theorem modify (h : g.Tight) {f : Block → Block} (hblocks : g'.blocks = g.blocks.modify b f)
    (hslots : g'.slots = g.slots)
    (hf : ∀ block, g.blocks[b]? = some block → ∀ k ∈ (f block).successors, k < g.slots.size) :
    g'.Tight where
  slot_lt {c block} hc := by
    rw [hslots]
    rw [hblocks, Array.getElem?_modify] at hc
    split at hc
    · next heq =>
      obtain ⟨old, hold, rfl⟩ := Option.map_eq_some_iff.1 hc
      exact hf old (heq ▸ hold)
    · exact h.slot_lt hc
  target_lt hk := by
    rw [size, hblocks, Array.size_modify]
    exact h.target_lt (hslots ▸ hk)

theorem openedAt (h : g.Tight) (b : BlockId) (group : Group) : (Build.openedAt g b group).Tight :=
  h.modify (f := ({ · with group := some g.groups.size })) rfl rfl fun _ hblock k hk =>
    h.slot_lt hblock k hk

theorem next_lt (h : g.Tight) {x : BlockId} (hx : x ∈ (g.chart b).next) : x < g.size := by
  rw [chart] at hx
  split at hx
  · obtain ⟨k, -, hk⟩ := List.mem_filterMap.1 hx
    exact h.target_lt hk
  · exact absurd hx List.not_mem_nil

/-- A block that leads nowhere has no slots. -/
theorem successors_eq_nil (h : g.Tight) {block : Block} (hb : g.blocks[b]? = some block)
    (hnext : (g.chart b).next = []) : block.successors = [] := by
  rw [chart_of_getElem? hb] at hnext
  refine List.eq_nil_iff_forall_not_mem.2 fun k hk => ?_
  have hnone := List.filterMap_eq_nil_iff.1 hnext k hk
  rw [Array.getElem?_eq_getElem (h.slot_lt hb k hk)] at hnone
  exact nomatch hnone

/-- What a block looks like does not change by slots that are added. -/
theorem spot_eq (h : g.Tight) (hretains : Retains B G g g') {block : Block}
    (hb : g.blocks[b]? = some block) : block.spot g'.slots = block.spot g.slots := by
  simp only [Block.spot]
  congr 1
  refine List.filterMap_congr fun k hk => ?_
  have hlt := h.slot_lt hb k hk
  rw [Array.getElem?_eq_getElem hlt, hretains.slot (Array.getElem?_eq_getElem hlt)]

theorem chart_eq (h : g.Tight) (hretains : Retains B G g g') (hb : b < g.size) (hB : ¬ B b) :
    g'.chart b = g.chart b := by
  obtain ⟨block, hblock⟩ := getElem?_eq_some_of_lt hb
  rw [chart_of_getElem? hblock, chart_of_getElem? ((hretains.block b hb hB).trans hblock),
    h.spot_eq hretains hblock]

end Tight

end Graph

namespace Build

open Graph (Retains)

variable {g g₁ g₂ g' : Graph} {copies : Copies} {moves : Moves} {slots : List SlotId}
  {nexts blocks : List BlockId} {b m x y : BlockId} {k : SlotId}

/-- Where an edge of a copy may lead if its original leads to `nexts`. -/
def Copies.Way (copies : Copies) (nexts : List BlockId) (y : BlockId) : Prop :=
  (∃ x ∈ nexts, (x, y) ∈ copies) ∨ y ∈ nexts ∧ ∀ c, (y, c) ∉ copies

/-- Blocks have been added, and all of them are copies. -/
structure Clones (g : Graph) (copies : Copies) (g' : Graph) : Prop where
  retains : Augments g g'
  groups : g'.groups = g.groups
  tight : g'.Tight
  new : ∀ c, g.size ≤ c → c < g'.size → ∃ m, (m, c) ∈ copies
  unique : ∀ {m m' c : BlockId}, (m, c) ∈ copies → (m', c) ∈ copies → m = m'
  copy : ∀ {m c : BlockId}, (m, c) ∈ copies → m < g.size ∧ g.size ≤ c ∧ c < g'.size ∧
    (g'.chart c).flags = (g.chart m).flags ∧ (g'.chart c).group = (g.chart m).group

/-- Blocks have been added that are copies of others, and so are their edges. -/
structure Mirrors (g : Graph) (copies : Copies) (g' : Graph) : Prop extends Clones g copies g' where
  next : ∀ {m c : BlockId}, (m, c) ∈ copies → ∀ y ∈ (g'.chart c).next,
    copies.Way (g.chart m).next y

section Zip

variable {blocks copied : List BlockId} {m c c' : BlockId}

/-- A block that is listed once has one copy. -/
theorem copy_unique (hblocks : blocks.Nodup) (hc : (m, c) ∈ blocks.zip copied)
    (hc' : (m, c') ∈ blocks.zip copied) : c = c' := by
  obtain ⟨i, hi⟩ := List.getElem?_of_mem hc
  obtain ⟨j, hj⟩ := List.getElem?_of_mem hc'
  rw [List.getElem?_zip_eq_some] at hi hj
  obtain rfl := (List.getElem?_inj (List.getElem?_eq_some_iff.1 hi.1).1 hblocks).1
    (hi.1.trans hj.1.symm)
  exact Option.some.inj (hi.2.symm.trans hj.2)

variable (hlength : copied.length = blocks.length)
include hlength

theorem exists_original (hc : c ∈ copied) : ∃ m, (m, c) ∈ blocks.zip copied := by
  obtain ⟨i, hi⟩ := List.getElem?_of_mem hc
  have hlt : i < blocks.length := hlength ▸ (List.getElem?_eq_some_iff.1 hi).1
  exact ⟨_, List.mem_of_getElem? (List.getElem?_zip_eq_some.2 ⟨List.getElem?_eq_getElem hlt, hi⟩)⟩

theorem exists_copy (hm : m ∈ blocks) : ∃ c, (m, c) ∈ blocks.zip copied := by
  obtain ⟨i, hi⟩ := List.getElem?_of_mem hm
  have hlt : i < copied.length := hlength ▸ (List.getElem?_eq_some_iff.1 hi).1
  exact ⟨_, List.mem_of_getElem? (List.getElem?_zip_eq_some.2 ⟨hi, List.getElem?_eq_getElem hlt⟩)⟩

/-- The first copy is that of the first block. -/
theorem exists_head (hc : c ∈ copied.head?) : ∃ m ∈ blocks.head?, (m, c) ∈ blocks.zip copied := by
  cases copied with
  | nil => exact nomatch hc
  | cons c' rest =>
    obtain rfl := Option.some.inj hc
    obtain ⟨m, rest', rfl⟩ := List.exists_cons_of_length_eq_add_one hlength.symm
    exact ⟨m, rfl, List.mem_cons_self⟩

end Zip

/-! ### Slots -/

/-- Only slots have been added. -/
structure Slots (g g' : Graph) : Prop where
  blocks : g'.blocks = g.blocks
  groups : g'.groups = g.groups
  retains : Augments g g'
  tight : g'.Tight

namespace Slots

theorem refl (hg : g.Tight) : Slots g g := ⟨rfl, rfl, .refl g, hg⟩

theorem trans (h : Slots g g₁) (h' : Slots g₁ g₂) : Slots g g₂ :=
  ⟨h'.blocks.trans h.blocks, h'.groups.trans h.groups, h.retains.trans h'.retains, h'.tight⟩

theorem size_eq (h : Slots g g') : g'.size = g.size := congrArg Array.size h.blocks

theorem chart_eq (hg : g.Tight) (h : Slots g g') : g'.chart = g.chart := by
  funext b
  obtain hb | hb := Nat.lt_or_ge b g.size
  · exact hg.chart_eq h.retains hb id
  · rw [Graph.chart_of_size_le hb, Graph.chart_of_size_le (h.size_eq ▸ hb)]

end Slots

theorem newSlot_slots (hg : g.Tight) (hy : y < g.size) : Ensures (Graph.newSlot y) g fun k g' =>
    Slots g g' ∧ g'.slots[k]? = some y := by
  intro k g' hrun
  have hretains : Augments g g' := .of_reflTransGen (Graph.newSlot_retains y g _ _ hrun)
  obtain ⟨rfl, rfl⟩ := Prod.mk.inj (Except.ok.inj hrun)
  refine ⟨⟨rfl, rfl, hretains, ⟨fun hb k hk => ?_, fun {k b} hk => ?_⟩⟩, Array.getElem?_push_size⟩
  · exact (hg.slot_lt hb k hk).trans_le (by simp)
  · rw [Array.getElem?_push] at hk
    split at hk
    · exact Option.some.inj hk ▸ hy
    · exact hg.target_lt hk

/-- Each slot already met leads to what the slot in its place leads to a copy of. -/
def Moves.Lead (moves : Moves) (copies : Copies) (g : Graph) : Prop :=
  ∀ p ∈ moves, ∃ x y, g.slots[p.1]? = some x ∧ g.slots[p.2]? = some y ∧ (x, y) ∈ copies

theorem Moves.Lead.mono (h : moves.Lead copies g)
    (hslots : ∀ {k : SlotId} {b : BlockId}, g.slots[k]? = some b → g'.slots[k]? = some b) :
    moves.Lead copies g' := fun p hp => by
  obtain ⟨x, y, hx, hy, hmem⟩ := h p hp
  exact ⟨x, y, hslots hx, hslots hy, hmem⟩

/-- A slot moves if there is a copy of what it leads to. -/
theorem moveSlot_slots (hg : g.Tight) (hcopies : ∀ p ∈ copies, p.2 < g.size)
    (hmoves : moves.Lead copies g) (k : SlotId) :
    Ensures (moveSlot copies moves k) g fun r g' => Slots g g' ∧ r.2.Lead copies g' ∧
      ∃ x, g.slots[k]? = some x ∧
        ((∃ t y, r.1 = some t ∧ g'.slots[t]? = some y ∧ (x, y) ∈ copies) ∨
          r.1 = none ∧ ∀ c, (x, c) ∉ copies) := by
  unfold moveSlot
  split
  · next t hlookup =>
    obtain ⟨x, y, hx, hy, hmem⟩ := hmoves _ (mem_of_lookup_eq_some hlookup)
    exact .pure ⟨.refl hg, hmoves, x, hx, .inl ⟨t, y, rfl, hy, hmem⟩⟩
  · refine .get_bind (.lift_bind fun x hx => ?_)
    have hx := (Graph.target_eq_ok_iff g k x).1 hx
    split
    · next y hlookup =>
      have hmem := mem_of_lookup_eq_some hlookup
      refine .bind (newSlot_slots hg (hcopies _ hmem)) fun t g' ⟨hslots, hy⟩ => .pure ?_
      refine ⟨hslots, fun p hp => ?_, x, hx, .inl ⟨t, y, rfl, hy, hmem⟩⟩
      obtain rfl | hp := List.mem_cons.1 hp
      · exact ⟨x, y, hslots.retains.slot hx, hy, hmem⟩
      · exact hmoves.mono hslots.retains.slot p hp
    · next hlookup =>
      refine .pure ⟨.refl hg, hmoves, x, hx, .inr ⟨rfl, fun c hc => ?_⟩⟩
      exact (bne_iff_ne.1 (List.lookup_eq_none_iff.1 hlookup _ hc)) rfl

/-- Each of some slots leads where an edge of a copy may lead. -/
def Kept (g : Graph) (copies : Copies) (nexts : List BlockId) (kept : List SlotId) : Prop :=
  ∀ t ∈ kept, ∃ y, g.slots[t]? = some y ∧ copies.Way nexts y

namespace Kept

variable {kept : List SlotId}

theorem nil : Kept g copies nexts [] := fun _ h => nomatch h

theorem append {t : SlotId} (h : Kept g copies nexts kept) (hretains : Augments g g')
    (ht : ∃ y, g'.slots[t]? = some y ∧ copies.Way nexts y) :
    Kept g' copies nexts (kept ++ [t]) := fun u hu => by
  obtain hu | hu := List.mem_append.1 hu
  · obtain ⟨y, hy, hway⟩ := h u hu
    exact ⟨y, hretains.slot hy, hway⟩
  · exact List.mem_singleton.1 hu ▸ ht

theorem mono (h : Kept g copies nexts kept) (hretains : Augments g g') :
    Kept g' copies nexts kept := fun t ht => by
  obtain ⟨y, hy, hway⟩ := h t ht
  exact ⟨y, hretains.slot hy, hway⟩

end Kept

/-- How far the slots of a block have been dealt with that leads to `nexts`. -/
structure Sorted (g : Graph) (copies : Copies) (nexts : List BlockId)
    (r : List SlotId × Moves) (g' : Graph) : Prop where
  slots : Slots g g'
  lead : r.2.Lead copies g'
  kept : Kept g' copies nexts r.1

/-- One more slot is dealt with. What does not move may be kept or not. -/
theorem Sorted.moveSlot {r : List SlotId × Moves} (h : Sorted g copies nexts r g₁)
    (hcopies : ∀ p ∈ copies, p.2 < g.size) (hk : ∃ x ∈ nexts, g.slots[k]? = some x) :
    Ensures (Build.moveSlot copies r.2 k) g₁ fun r' g' =>
      Sorted g copies nexts (r.1 ++ r'.1.toList, r'.2) g' ∧
      (r'.1 = none → Sorted g copies nexts (r.1 ++ [k], r'.2) g') := by
  obtain ⟨x, hmem, hx⟩ := hk
  refine (moveSlot_slots h.slots.tight (fun p hp => h.slots.size_eq ▸ hcopies p hp)
    h.lead k).mono ?_
  rintro ⟨moved?, moves⟩ g' ⟨hslots, hlead, x', hx', hcase⟩
  obtain rfl : x = x' := Option.some.inj ((h.slots.retains.slot hx).symm.trans hx')
  have hslots' := h.slots.trans hslots
  obtain ⟨t, y, rfl, hy, hcopy⟩ | ⟨rfl, hnone⟩ := hcase
  · refine ⟨⟨hslots', hlead, ?_⟩, nofun⟩
    exact h.kept.append hslots.retains ⟨y, hy, .inl ⟨x, hmem, hcopy⟩⟩
  · refine ⟨⟨hslots', hlead, ?_⟩, fun _ => ⟨hslots', hlead, ?_⟩⟩
    · rw [Option.toList_none, List.append_nil]
      exact h.kept.mono hslots.retains
    · exact h.kept.append hslots.retains ⟨x, hslots'.retains.slot hx, .inr ⟨hmem, hnone⟩⟩

section Slots

variable (hg : g.Tight) (hcopies : ∀ p ∈ copies, p.2 < g.size) (hmoves : moves.Lead copies g)
  (hnexts : ∀ k ∈ slots, ∃ x ∈ nexts, g.slots[k]? = some x)

include hg hcopies hmoves hnexts

/-- What the edges of a member's copy are. -/
theorem graftSlots_sorted :
    Ensures (graftSlots copies slots moves) g fun r g' => Sorted g copies nexts r g' := by
  refine .foldlM ⟨.refl hg, hmoves, .nil⟩ fun k hk r g₁ h₁ => ?_
  refine .bind (h₁.moveSlot hcopies (hnexts k hk)) fun r' g₂ ⟨hmoved, hnone⟩ => .pure ?_
  obtain ⟨moved?, moves'⟩ := r'
  cases moved? with
  | none => exact hnone rfl
  | some t => exact hmoved

/-- What the edges of a captured block's copy are. -/
theorem relocateSlots_sorted (w : PendingPerform) (range : String) {s : Scope} (hs : s.graph = g)
    {block : Block} (hblock : block.successors = slots) (b : BlockId) (isLast : Bool) :
    Ensures (relocateSlots w range copies block b isLast moves) s fun r s' =>
      Sorted g copies nexts r s'.graph ∧ s'.procedures = s.procedures := by
  refine .foldlM ⟨hs ▸ ⟨.refl (hs ▸ hg), hs ▸ hmoves, .nil⟩, rfl⟩
    fun k hk r s₁ ⟨h₁, hprocedures⟩ => ?_
  refine .bind (P := fun r' s₂ => (Sorted g copies nexts (r.1 ++ r'.1.toList, r'.2) s₂.graph ∧
    (r'.1 = none → Sorted g copies nexts (r.1 ++ [k], r'.2) s₂.graph)) ∧
    s₂.procedures = s.procedures) ?_ ?_
  · intro r' s₂ hrun
    obtain ⟨g₂, hg₂, rfl⟩ := exists_of_editGraph_eq_ok hrun
    exact ⟨h₁.moveSlot hcopies (hnexts k (hblock ▸ hk)) r' g₂ hg₂, hprocedures⟩
  rintro ⟨moved?, moves'⟩ s₂ ⟨⟨hmoved, hnone⟩, hprocedures₂⟩
  cases moved? with
  | some t => exact .pure ⟨hmoved, hprocedures₂⟩
  | none =>
    dsimp only
    split
    · rw [Option.toList_none, List.append_nil] at hmoved
      exact .pure ⟨hmoved, hprocedures₂⟩
    · exact .modify_bind (.pure ⟨hnone rfl, hprocedures₂⟩)

end Slots

/-! ### Blocks -/

theorem cloneBlock_clones (hg : g.Tight) (h : Clones g copies g₁)
    (hnext : ∀ {m c : BlockId}, (m, c) ∈ copies → (g₁.chart c).next = []) (hm : m < g.size) :
    Ensures (Graph.cloneBlock m) g₁ fun c g' => Clones g (copies ++ [(m, c)]) g' ∧
      ∀ {m' c' : BlockId}, (m', c') ∈ copies ++ [(m, c)] → (g'.chart c').next = [] := by
  have hclone : Ensures (Graph.cloneBlock m) g₁ fun c g' => ∃ block, g₁.blocks[m]? = some block ∧
      c = g₁.size ∧ g' = { g₁ with blocks := g₁.blocks.push (block.detachedCopy g₁.size) } :=
    .get_bind (.lift_bind fun block hblock => .modifyGet
      ⟨block, (Graph.block_eq_ok_iff g₁ m block).1 hblock, rfl, rfl⟩)
  intro c g' hrun
  have hretains : Augments g₁ g' := .of_reflTransGen (Graph.cloneBlock_retains m g₁ c g' hrun)
  obtain ⟨block, hblock, rfl, hg'⟩ := hclone c g' hrun
  have hchart : g'.chart = fun c => if c = g₁.size then
      (block.detachedCopy g₁.size).spot g₁.slots else g₁.chart c :=
    Graph.chart_push (by rw [hg']) (by rw [hg'])
  have hnew : g'.chart g₁.size = (block.detachedCopy g₁.size).spot g₁.slots := by
    rw [hchart]
    exact if_pos rfl
  have hold : ∀ {c : BlockId}, c < g₁.size → g'.chart c = g₁.chart c := fun hc => by
    rw [hchart]
    exact if_neg hc.ne
  have hsize : g'.size = g₁.size + 1 := by rw [hg', Graph.size, Array.size_push]; rfl
  have hsource : g.chart m = block.spot g₁.slots := by
    rw [← Graph.chart_of_getElem? hblock, hg.chart_eq h.retains hm id]
  have hmem : ∀ {m' c' : BlockId}, (m', c') ∈ copies ++ [(m, g₁.size)] →
      (m', c') ∈ copies ∨ m' = m ∧ c' = g₁.size := fun hp =>
    (List.mem_append.1 hp).imp_right fun hp => Prod.mk.inj (List.mem_singleton.1 hp)
  refine ⟨⟨h.retains.trans hretains, by rw [hg', h.groups], ⟨fun {b block'} hb k hk => ?_,
    fun {k b} hk => ?_⟩, fun c hge hlt => ?_, fun {m₁ m₂ c} h₁ h₂ => ?_, fun {m' c'} hp => ?_⟩,
    fun {m' c'} hp => ?_⟩
  · rw [hg'] at hb ⊢
    rw [Array.getElem?_push] at hb
    split at hb
    · rw [← Option.some.inj hb] at hk
      cases hk
    · exact h.tight.slot_lt hb k hk
  · rw [hg'] at hk
    exact hsize ▸ Nat.lt_succ_of_lt (h.tight.target_lt hk)
  · obtain hlt | rfl := Nat.lt_succ_iff_lt_or_eq.1 (hsize ▸ hlt)
    · obtain ⟨m', hm'⟩ := h.new c hge hlt
      exact ⟨m', List.mem_append_left _ hm'⟩
    · exact ⟨m, List.mem_append_right _ (List.mem_singleton_self _)⟩
  · obtain h₁ | ⟨h₁, hc⟩ := hmem h₁
    · obtain h₂ | ⟨-, hc⟩ := hmem h₂
      · exact h.unique h₁ h₂
      · exact absurd (h.copy h₁).2.2.1 hc.not_lt
    · obtain h₂ | ⟨h₂, -⟩ := hmem h₂
      · exact absurd (h.copy h₂).2.2.1 hc.not_lt
      · exact h₁.trans h₂.symm
  · obtain hp | ⟨rfl, rfl⟩ := hmem hp
    · obtain ⟨hm', hge, hlt, hflags, hgroup⟩ := h.copy hp
      rw [hold hlt, hsize]
      exact ⟨hm', hge, Nat.lt_succ_of_lt hlt, hflags, hgroup⟩
    · rw [hnew, hsource, hsize]
      exact ⟨hm, h.retains.size_le, Nat.lt_succ_self _, rfl, rfl⟩
  · obtain hp | ⟨rfl, rfl⟩ := hmem hp
    · rw [hold (h.copy hp).2.2.1]
      exact hnext hp
    · rw [hnew]
      rfl

/-- The copies of some blocks do not lead anywhere yet. -/
theorem copyBlocks_clones (hg : g.Tight) (hblocks : ∀ b ∈ blocks, b < g.size) :
    Ensures (copyBlocks blocks) g fun copied g' => copied.length = blocks.length ∧
      Mirrors g (blocks.zip copied) g' := by
  suffices hrest : ∀ (blocks : List BlockId) (copies : Copies) (g₁ : Graph),
      (∀ b ∈ blocks, b < g.size) → Clones g copies g₁ →
      (∀ {m c : BlockId}, (m, c) ∈ copies → (g₁.chart c).next = []) →
      Ensures (copyBlocks blocks) g₁ fun copied g' => copied.length = blocks.length ∧
        Mirrors g (copies ++ blocks.zip copied) g' by
    refine hrest blocks [] g hblocks ?_ (by simp)
    exact ⟨.refl g, rfl, hg, fun c hge hlt => absurd hge hlt.not_ge, by simp, by simp⟩
  intro blocks
  induction blocks with
  | nil =>
    intro copies g₁ _ h hnext
    refine .pure ⟨rfl, ?_⟩
    rw [List.zip_nil_left, List.append_nil]
    exact ⟨h, fun hp y hy => absurd (hnext hp ▸ hy) List.not_mem_nil⟩
  | cons b rest ih =>
    intro copies g₁ hblocks h hnext
    obtain ⟨hb, hrest⟩ := List.forall_mem_cons.1 hblocks
    rw [copyBlocks, List.mapM_cons]
    refine .bind (cloneBlock_clones hg h hnext hb) ?_
    rintro c g₂ ⟨h₂, hnext₂⟩
    refine .bind (ih _ g₂ hrest h₂ hnext₂) ?_
    rintro copied g₃ ⟨hlength, h₃⟩
    refine .pure ⟨by rw [List.length_cons, List.length_cons, hlength], ?_⟩
    rwa [List.zip_cons_cons, ← List.singleton_append, ← List.append_assoc]

/-- A copy is given its edges. -/
theorem Mirrors.setSuccessors (h : Mirrors g copies g₁) {c : BlockId} {r : List SlotId × Moves}
    (hsorted : Sorted g₁ copies (g.chart m).next r g₂) (hp : (m, c) ∈ copies) :
    Ensures (Graph.setSuccessors c r.1) g₂ fun _ g' => Mirrors g copies g' ∧
      r.2.Lead copies g' := by
  intro _ g' hrun
  have hc := h.copy hp
  have hretains : Augments g g' := by
    have hnew : Retains (g.size ≤ ·) (fun _ => False) g₂ g' :=
      .of_reflTransGen (Graph.modifyBlock_retains hc.2.1 _ _ _ _ hrun)
    refine (((h.retains.trans hsorted.slots.retains).mono (fun _ _ h => h.elim)
      fun _ _ h => h.elim).trans hnew).mono (fun b hb hle => hle.not_gt hb) fun _ _ h => h
  obtain ⟨hlt, hg'⟩ := (Graph.modifyBlock_eq_ok_iff _ _ _ _).1 hrun
  obtain ⟨block, hblock⟩ := Graph.getElem?_eq_some_of_lt hlt
  have hsize : g'.size = g₁.size := by
    rw [hg', ← hsorted.slots.size_eq, Graph.size, Array.size_modify]
    rfl
  have hold : ∀ {d : BlockId}, d < g₁.size → g₂.chart d = g₁.chart d := fun hd =>
    h.tight.chart_eq hsorted.slots.retains hd id
  have hchart : g'.chart = fun d => if d = c then
      ({ block with successors := r.1 } : Block).spot g₂.slots else g₂.chart d :=
    Graph.chart_modify (f := ({ · with successors := r.1 })) hblock (by rw [hg']) (by rw [hg'])
  have hat : g'.chart c = { g₂.chart c with next := r.1.filterMap (g₂.slots[·]?) } := by
    rw [hchart, Graph.chart_of_getElem? hblock]
    exact if_pos rfl
  have hne : ∀ {d : BlockId}, d < g₁.size → d ≠ c → g'.chart d = g₁.chart d := fun hd hdc => by
    rw [hchart, ← hold hd]
    exact if_neg hdc
  refine ⟨⟨⟨hretains, ?_, ⟨fun {b block'} hb k hk => ?_, fun {k b} hk => ?_⟩, fun d hge hd => ?_,
    h.unique, fun {m' d} hp' => ?_⟩, fun {m' d} hp' y hy => ?_⟩, hsorted.lead.mono ?_⟩
  · rw [hg', ← h.groups, ← hsorted.slots.groups]
  · rw [hg'] at hb ⊢
    rw [Array.getElem?_modify] at hb
    split at hb
    · obtain ⟨old, -, rfl⟩ := Option.map_eq_some_iff.1 hb
      obtain ⟨y, hy, -⟩ := hsorted.kept k hk
      exact (Array.getElem?_eq_some_iff.1 hy).1
    · exact hsorted.slots.tight.slot_lt hb k hk
  · rw [hg'] at hk
    rw [hsize, ← hsorted.slots.size_eq]
    exact hsorted.slots.tight.target_lt hk
  · exact h.new d hge (hsize ▸ hd)
  · obtain ⟨hm', hge, hd, hflags, hgroup⟩ := h.copy hp'
    refine ⟨hm', hge, hsize ▸ hd, ?_⟩
    by_cases hdc : d = c
    · subst hdc
      rw [hat, hold hd]
      exact ⟨hflags, hgroup⟩
    · rw [hne hd hdc]
      exact ⟨hflags, hgroup⟩
  · by_cases hdc : d = c
    · subst hdc
      obtain rfl := h.unique hp' hp
      rw [hat] at hy
      obtain ⟨t, ht, hy⟩ := List.mem_filterMap.1 hy
      obtain ⟨y', hy', hway⟩ := hsorted.kept t ht
      exact Option.some.inj (hy'.symm.trans hy) ▸ hway
    · rw [hne (h.copy hp').2.2.1 hdc] at hy
      exact h.next hp' y hy
  · exact fun hk => (congrArg Graph.slots hg').symm ▸ hk

/-- What is read of an original while copies are given their edges. -/
theorem Mirrors.original (hg : g.Tight) (h : Mirrors g copies g₁) {c : BlockId}
    (hp : (m, c) ∈ copies) {block : Block} (hblock : g₁.block m = .ok block) :
    ∀ k ∈ block.successors, ∃ x ∈ (g.chart m).next, g₁.slots[k]? = some x := by
  intro k hk
  have hm := (h.copy hp).1
  have hblock : g.blocks[m]? = some block :=
    (h.retains.block m hm id).symm.trans ((Graph.block_eq_ok_iff g₁ m block).1 hblock)
  have hslot := Array.getElem?_eq_getElem (hg.slot_lt hblock k hk)
  refine ⟨_, ?_, h.retains.slot hslot⟩
  rw [Graph.chart_of_getElem? hblock]
  exact List.mem_filterMap.2 ⟨k, hk, hslot⟩

/-- **What capturing adds** are copies of the blocks of the range, which become the members. -/
theorem relocate_mirrors {s : Scope} (hs : s.graph.Tight) (w : PendingPerform) (range : String)
    {captured : List BlockId} (hcaptured : ∀ b ∈ captured, b < s.graph.size) :
    Ensures (relocate w range captured) s fun _ s' => s'.procedures = s.procedures ∧
      ∃ members terminals g, members.length = captured.length ∧
        Mirrors s.graph (captured.zip members) g ∧ w.group < g.groups.size ∧
        s'.graph = { g with groups := g.groups.modify w.group fun group =>
          { group with members, terminals } } := by
  refine .bind (P := fun members s₁ => s₁.procedures = s.procedures ∧
    members.length = captured.length ∧ Mirrors s.graph (captured.zip members) s₁.graph) ?_ ?_
  · intro members s₁ hrun
    obtain ⟨g, hg, rfl⟩ := exists_of_editGraph_eq_ok hrun
    exact ⟨rfl, copyBlocks_clones hs hcaptured members g hg⟩
  rintro members s₁ ⟨hprocedures₁, hlength, h₁⟩
  refine .bind (P := fun moves s₂ => (Mirrors s.graph (captured.zip members) s₂.graph ∧
    moves.Lead (captured.zip members) s₂.graph) ∧ s₂.procedures = s.procedures)
    (.foldlM ⟨⟨h₁, fun _ h => nomatch h⟩, hprocedures₁⟩ ?_) ?_
  · rintro ⟨m, c⟩ hp moves s₂ ⟨⟨h₂, hmoves⟩, hprocedures₂⟩
    refine .get_bind (.lift_bind fun block hblock => ?_)
    refine .bind (relocateSlots_sorted h₂.tight (fun p hp => (h₂.copy hp).2.2.1) hmoves
      (h₂.original hs hp hblock) w range rfl rfl m _) fun r s₃ ⟨hsorted, hprocedures₃⟩ => ?_
    refine .bind (P := fun _ s₄ => (Mirrors s.graph (captured.zip members) s₄.graph ∧
      r.2.Lead (captured.zip members) s₄.graph) ∧ s₄.procedures = s.procedures) ?_
      fun _ s₄ h₄ => .pure h₄
    intro _ s₄ hrun
    obtain ⟨g, hg, rfl⟩ := exists_of_editGraph_eq_ok hrun
    exact ⟨h₂.setSuccessors hsorted hp _ g hg, hprocedures₃.trans hprocedures₂⟩
  rintro _ s₂ ⟨⟨h₂, -⟩, hprocedures₂⟩
  refine .get_bind (.lift_bind fun terminals _ => ?_)
  intro _ s' hrun
  obtain ⟨g, hg, rfl⟩ := exists_of_editGraph_eq_ok hrun
  obtain ⟨hlt, rfl⟩ := Graph.eq_of_modifyGroup_eq_ok hg
  exact ⟨hprocedures₂, members, terminals, s₂.graph, hlength, h₂, hlt, rfl⟩

end Build

end CobolFlow
