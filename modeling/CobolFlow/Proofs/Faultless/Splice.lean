import CobolFlow.Proofs.Spread
import CobolFlow.Proofs.Terminals

/-!
# Groups, copies and splicing

Opening a group is safe at a block that is no call site yet. The copies that splicing makes of call
sites are such blocks: a copy carries the group of its original, but that group keeps its call site
at the original. While the copies of one group are given groups of their own, one after another,
the splicing of each only makes call sites of blocks that are newer still, so the copies that have
not had their turn remain free.

## Main definitions

* `Graph.IsCallSite` — some group has its call site there

## Main results

* `graft_faultless`, `graftGroups_faultless` — splicing in finds all it asks for
-/

namespace CobolFlow

namespace Graph

variable {g g' : Graph} {b : BlockId}

/-- Some group has its call site at `b`. -/
def IsCallSite (g : Graph) (b : BlockId) : Prop :=
  ∃ (i : GroupId) (group : Group), g.groups[i]? = some group ∧ group.callSite = b

theorem IsCallSite.lt_size (hg : Sound g) (h : g.IsCallSite b) : b < g.size := by
  obtain ⟨_, _, hi, rfl⟩ := h
  obtain ⟨_, hblock, -⟩ := hg.callSite hi
  exact lt_size_of_getElem? hblock

theorem isCallSite_congr (h : g'.groups = g.groups) : g'.IsCallSite b ↔ g.IsCallSite b := by
  rw [IsCallSite, h, IsCallSite]

/-! ### Edits of groups -/

/-- A group may be opened at a block that is no call site yet. -/
theorem WellFormed.openedAt (hg : Sound g) (hb : b < g.size) (hfree : ¬ g.IsCallSite b)
    {new : Group} (hid : new.id = g.groups.size) (hsite : new.callSite = b)
    (hmembers : ∀ m ∈ new.members, m < g.size) : Sound (Build.openedAt g b new) := by
  have hsize : (Build.openedAt g b new).size = g.size := Build.size_openedAt g b new
  have hgroups : (Build.openedAt g b new).groups.size = g.groups.size + 1 := Array.size_push ..
  have hpush : ∀ {i : GroupId} {old : Group}, (Build.openedAt g b new).groups[i]? = some old →
      g.groups[i]? = some old ∨ i = g.groups.size ∧ old = new := fun {i old} hi => by
    rw [Build.openedAt, Array.getElem?_push] at hi
    split at hi
    · exact .inr ⟨‹_›, (Option.some.inj hi).symm⟩
    · exact .inl hi
  have hold : ∀ {c : BlockId} {block : Block}, (Build.openedAt g b new).blocks[c]? = some block →
      ∃ old, g.blocks[c]? = some old ∧ block.id = old.id ∧ block.successors = old.successors ∧
        (block.group = old.group ∨ block.group = some g.groups.size) := fun {c block} hc => by
    rw [Build.openedAt, Array.getElem?_modify] at hc
    split at hc
    · obtain ⟨old, hold, rfl⟩ := Option.map_eq_some_iff.1 hc
      exact ⟨old, hold, rfl, rfl, .inr rfl⟩
    · exact ⟨block, hc, rfl, rfl, .inl rfl⟩
  constructor
  · intro c block hc
    obtain ⟨old, hc', hid, -⟩ := hold hc
    rw [hid, hg.placed hc']
  · intro c block hc
    obtain ⟨old, hc', -, hsucc, -⟩ := hold hc
    rw [hsucc]
    exact hg.slot_lt hc'
  · intro s c hs
    exact hsize ▸ hg.target_lt hs
  · intro c i block hc hi
    obtain ⟨old, hc', -, -, hsame | hnew⟩ := hold hc
    · exact (hg.group_lt hc' (hsame ▸ hi)).trans_le (hgroups ▸ Nat.le_succ _)
    · obtain rfl : g.groups.size = i := Option.some.inj (hnew.symm.trans hi)
      exact hgroups ▸ Nat.lt_succ_self _
  · intro c hc
    exact hsize ▸ hg.root_lt c hc
  · intro i old hi c hc
    obtain hi | ⟨-, rfl⟩ := hpush hi
    · exact hsize ▸ hg.member_lt hi c hc
    · exact hsize ▸ hmembers c hc
  · intro i old hi
    obtain hi | ⟨rfl, rfl⟩ := hpush hi
    · exact hg.group_id hi
    · exact hid
  · intro i old hi
    obtain hi | ⟨rfl, rfl⟩ := hpush hi
    · obtain ⟨block, hblock, hblockGroup⟩ := hg.callSite hi
      have hne : b ≠ old.callSite := fun heq => hfree ⟨i, old, hi, heq.symm⟩
      exact ⟨block, by simp [Build.openedAt, Array.getElem?_modify, hne, hblock], hblockGroup⟩
    · obtain ⟨block, hblock⟩ := getElem?_eq_some_of_lt hb
      exact ⟨{ block with group := some g.groups.size },
        by simp [Build.openedAt, hsite, Array.getElem?_modify, hblock], rfl⟩

theorem le_openedAt (g : Graph) (b : BlockId) (new : Group) : g ≤ Build.openedAt g b new :=
  ⟨(Build.size_openedAt g b new).ge, le_rfl, (Nat.le_succ _).trans (Array.size_push ..).ge⟩

theorem IsCallSite.of_openedAt {new : Group} (hsite : new.callSite = b) {c : BlockId}
    (h : (Build.openedAt g b new).IsCallSite c) : g.IsCallSite c ∨ c = b := by
  obtain ⟨i, old, hi, rfl⟩ := h
  rw [Build.openedAt, Array.getElem?_push] at hi
  split at hi
  · exact .inr (Option.some.inj hi ▸ hsite)
  · exact .inl ⟨i, old, hi, rfl⟩

theorem addGroup_faultless (h : b < g.size) (hfree : ¬ g.IsCallSite b) (node : NodeId)
    (range : String) : Faultless (addGroup b node range) g fun i g' =>
      i < g'.groups.size ∧ ∀ c, g'.IsCallSite c → g.IsCallSite c ∨ c = b := fun hg =>
  ⟨_, _, Build.addGroup_eq_ok h node range,
    WellFormed.openedAt hg h hfree rfl rfl (fun _ hm => absurd hm List.not_mem_nil),
    le_openedAt g b _, (Nat.lt_succ_self _).trans_eq (Array.size_push ..).symm,
    fun _ => IsCallSite.of_openedAt rfl⟩

/-- A group may be rewritten if it keeps its number and its call site, and its members stay in
range. -/
theorem modifyGroup_faultless {i : GroupId} (h : i < g.groups.size) {f : Group → Group}
    (hid : ∀ group, (f group).id = group.id)
    (hsite : ∀ group, (f group).callSite = group.callSite)
    (hmem : Sound g → ∀ group, g.groups[i]? = some group → ∀ b ∈ (f group).members, b < g.size) :
    Faultless (modifyGroup i f) g fun _ g' =>
      g'.blocks = g.blocks ∧ ∀ c, g'.IsCallSite c → g.IsCallSite c := by
  intro hg
  have hold : ∀ (j : GroupId) (group : Group), (g.groups.modify i f)[j]? = some group →
      ∃ old, g.groups[j]? = some old ∧ group.id = old.id ∧ group.callSite = old.callSite ∧
        ∀ b ∈ group.members, b < g.size := fun j group hj => by
    rw [Array.getElem?_modify] at hj
    split at hj
    · next hij =>
      subst hij
      obtain ⟨old, hold, rfl⟩ := Option.map_eq_some_iff.1 hj
      exact ⟨old, hold, hid old, hsite old, hmem hg old hold⟩
    · exact ⟨group, hj, rfl, rfl, hg.member_lt hj⟩
  refine ⟨(), { g with groups := g.groups.modify i f }, by rw [modifyGroup, if_pos h], ?_, ?_,
    rfl, ?_⟩
  · refine { hg with group_lt := ?_, member_lt := ?_, group_id := ?_, callSite := ?_ }
    · intro b j block hb hj
      simpa using hg.group_lt hb hj
    · intro j group hj
      obtain ⟨_, _, _, _, h⟩ := hold j group hj
      exact h
    · intro j group hj
      obtain ⟨old, hold, hid, _, _⟩ := hold j group hj
      rw [hid, hg.group_id hold]
    · intro j group hj
      obtain ⟨old, hold, _, hsite, _⟩ := hold j group hj
      rw [hsite]
      exact hg.callSite hold
  · simp [le_def, size]
  · rintro c ⟨j, group, hj, rfl⟩
    obtain ⟨old, hold, _, hsite, _⟩ := hold j group hj
    exact ⟨j, old, hold, hsite.symm⟩

end Graph

namespace Build

open Graph

variable {g : Graph} {copies : Copies} {moves : Moves}

theorem mem_of_lookup_eq_some {α β : Type} [BEq α] [LawfulBEq α] {l : List (α × β)} {a : α} {b : β}
    (h : l.lookup a = some b) : (a, b) ∈ l := by
  obtain ⟨l₁, l₂, rfl, -⟩ := List.lookup_eq_some_iff.1 h
  simp

/-! ### Copies -/

/-- Copies are new blocks, each a different one. -/
theorem copyBlocks_faultless {blocks : List BlockId} (h : ∀ b ∈ blocks, b < g.size) :
    Faultless (copyBlocks blocks) g fun copied g' => g'.groups = g.groups ∧ copied.Nodup ∧
      ∀ c ∈ copied, g.size ≤ c ∧ c < g'.size := by
  induction blocks generalizing g with
  | nil => exact .pure fun _ => ⟨rfl, by simp, by simp⟩
  | cons b rest ih =>
    rw [copyBlocks, List.mapM_cons]
    refine .bind (cloneBlock_faultless (h b (by simp))) ?_
    rintro c g₁ - h₁ ⟨rfl, hlt, hgroups₁⟩
    refine .bind (ih fun d hd => (h d (by simp [hd])).trans_le h₁.1) ?_
    rintro copied g₂ - h₂ ⟨hgroups₂, hnodup, hmem⟩
    refine .pure fun _ => ⟨hgroups₂.trans hgroups₁, ?_, ?_⟩
    · exact List.nodup_cons.2 ⟨fun hc => (hmem _ hc).1.not_gt hlt, hnodup⟩
    · intro c hc
      obtain rfl | hc := List.mem_cons.1 hc
      · exact ⟨le_rfl, hlt.trans_le h₂.1⟩
      · exact ⟨h₁.1.trans (hmem c hc).1, (hmem c hc).2⟩

/-- All slots among the copies are in range. -/
def Moved (moves : Moves) (g : Graph) : Prop := ∀ p ∈ moves, p.2 < g.slots.size

theorem Moved.mono {g' : Graph} (h : Moved moves g) (hle : g ≤ g') : Moved moves g' :=
  fun p hp => (h p hp).trans_le hle.2.1

theorem moveSlot_faultless {slot : SlotId} (hcopies : ∀ p ∈ copies, p.2 < g.size)
    (hmoves : Moved moves g) (hslot : slot < g.slots.size) :
    Faultless (moveSlot copies moves slot) g fun r g' =>
      (∀ t ∈ r.1, t < g'.slots.size) ∧ Moved r.2 g' ∧ g'.groups = g.groups := by
  unfold moveSlot
  split
  · next moved hmoved =>
    refine .pure fun _ => ⟨fun t ht => ?_, hmoves, rfl⟩
    obtain rfl : moved = t := by simpa using ht
    exact hmoves _ (mem_of_lookup_eq_some hmoved)
  · refine .get_bind fun hg => ?_
    obtain ⟨b, hb, -⟩ := exists_target_eq_ok hg hslot
    refine .lift_bind hb ?_
    split
    · next copy hcopy =>
      refine .bind (newSlot_faultless (hcopies _ (mem_of_lookup_eq_some hcopy))) ?_
      rintro moved g₁ - h₁ ⟨hmoved, hgroups⟩
      refine .pure fun _ => ⟨by simpa using hmoved, fun p hp => ?_, hgroups⟩
      obtain rfl | hp := List.mem_cons.1 hp
      · exact hmoved
      · exact hmoves.mono h₁ p hp
    · exact .pure fun _ => ⟨by simp, hmoves, rfl⟩

theorem graftSlots_faultless {slots : List SlotId} (hcopies : ∀ p ∈ copies, p.2 < g.size)
    (hmoves : Moved moves g) (hslots : ∀ s ∈ slots, s < g.slots.size) :
    Faultless (graftSlots copies slots moves) g fun r g' =>
      (∀ s ∈ r.1, s < g'.slots.size) ∧ Moved r.2 g' ∧ g'.groups = g.groups := by
  refine .foldlM (fun _ => ⟨by simp, hmoves, rfl⟩) ?_
  rintro slot hslot ⟨kept, moves⟩ g₁ - h₁ ⟨hkept, hmoves₁, hgroups₁⟩
  have hslot₁ := (hslots slot hslot).trans_le h₁.2.1
  refine .bind (moveSlot_faultless (fun p hp => (hcopies p hp).trans_le h₁.1) hmoves₁ hslot₁) ?_
  rintro ⟨moved?, moves⟩ g₂ - h₂ ⟨hmoved, hmoves₂, hgroups₂⟩
  refine .pure fun _ => ⟨fun s hs => ?_, hmoves₂, hgroups₂.trans hgroups₁⟩
  obtain hs | hs := List.mem_append.1 hs
  · exact (hkept s hs).trans_le h₂.2.1
  · obtain rfl := List.mem_singleton.1 hs
    cases moved? with
    | none => exact hslot₁.trans_le h₂.2.1
    | some moved => exact hmoved moved rfl

theorem copyMembers_faultless {members : List BlockId} (h : ∀ b ∈ members, b < g.size) :
    Faultless (copyMembers members) g fun copied g' => g'.groups = g.groups ∧ copied.Nodup ∧
      ∀ c ∈ copied, g.size ≤ c ∧ c < g'.size := by
  refine .bind (copyBlocks_faultless h) ?_
  rintro copied g₁ - h₁ ⟨hgroups₁, hnodup, hcopied⟩
  have hcopies : ∀ p ∈ members.zip copied, p.2 < g₁.size := fun p hp =>
    (hcopied _ (List.of_mem_zip hp).2).2
  refine .bind (P := fun moves g' => Moved moves g' ∧ g'.groups = g.groups) (.foldlM ?_ ?_) ?_
  · exact fun _ => ⟨by simp [Moved], hgroups₁⟩
  · rintro ⟨member, copy⟩ hp moves g₂ - h₂ ⟨hmoves, hgroups₂⟩
    refine .get_bind fun hg => ?_
    have hmember := ((h member (List.of_mem_zip hp).1).trans_le h₁.1).trans_le h₂.1
    obtain ⟨block, hok, hblock⟩ := exists_block_eq_ok hmember
    refine .lift_bind hok ?_
    refine .bind (graftSlots_faultless (fun p hp => (hcopies p hp).trans_le h₂.1) hmoves
      (hg.slot_lt hblock)) ?_
    rintro ⟨slots, moves⟩ g₃ - h₃ ⟨hslots, hmoves₃, hgroups₃⟩
    have hcopy := ((hcopies _ hp).trans_le h₂.1).trans_le h₃.1
    refine .bind (setSuccessors_faultless hcopy hslots) ?_
    intro _ g₄ _ h₄ hgroups₄
    exact .pure fun _ => ⟨hmoves₃.mono h₄, hgroups₄.trans (hgroups₃.trans hgroups₂)⟩
  · rintro moves g₂ - h₂ ⟨-, hgroups₂⟩
    exact .pure fun _ => ⟨hgroups₂, hnodup, fun c hc =>
      ⟨(hcopied c hc).1, (hcopied c hc).2.trans_le h₂.1⟩⟩

/-! ### Splicing -/

theorem splice_faultless {callSite first : BlockId} {copied : List BlockId}
    (hsite : callSite < g.size) (hcopied : ∀ c ∈ copied, c < g.size) (hfirst : first ∈ copied) :
    Faultless (splice callSite first copied) g fun _ g' => g'.groups = g.groups := by
  refine .get_bind fun hg => ?_
  obtain ⟨terminals, hterminals, hends⟩ := exists_terminalsWithin_eq_ok hg.checked hcopied
  refine .lift_bind hterminals ?_
  refine .get_bind fun _ => ?_
  obtain ⟨block, hok, hblock⟩ := exists_block_eq_ok hsite
  refine .lift_bind hok ?_
  refine .bind (newSlot_faultless (hcopied first hfirst)) ?_
  rintro entry g₁ - h₁ ⟨hentry, hgroups₁⟩
  refine .bind (setSuccessors_faultless (hsite.trans_le h₁.1) (by simpa using hentry)) ?_
  intro _ g₂ _ h₂ hgroups₂
  have hclose : ∀ g₃ : Graph, g₂ ≤ g₃ → g₃.groups = g.groups →
      Faultless (do markBlock callSite { grafted := true }; return terminals) g₃
        fun _ g' => g'.groups = g.groups := fun g₃ h₃ hgroups₃ => by
    have hsite₃ := hsite.trans_le (h₁.1.trans (h₂.1.trans h₃.1))
    exact .bind (markBlock_faultless hsite₃ _) fun _ _ _ _ h => .pure fun _ => h.trans hgroups₃
  dsimp only
  split
  · next slot hslot =>
    have hslot₂ : slot < g₂.slots.size :=
      (hg.slot_lt hblock slot (List.mem_of_head? hslot)).trans_le (h₁.2.1.trans h₂.2.1)
    refine .bind (P := fun _ g' => g'.groups = g.groups) (.forIn ?_ ?_) ?_
    · exact fun _ => hgroups₂.trans hgroups₁
    · intro terminal hterminal _ g₃ _ h₃ hgroups₃
      have hlt := (hcopied _ (hends terminal hterminal)).trans_le (h₁.1.trans (h₂.1.trans h₃.1))
      refine .get_bind fun _ => ?_
      obtain ⟨block, hok, -⟩ := exists_block_eq_ok hlt
      refine .lift_bind hok ?_
      split
      · exact .pure fun _ => hgroups₃
      · refine .bind (link_faultless hlt (hslot₂.trans_le h₃.2.1)) fun _ _ _ _ h => ?_
        exact .pure fun _ => h.trans hgroups₃
    · exact fun _ g₃ _ h₃ hgroups₃ => hclose g₃ h₃ hgroups₃
  · exact hclose g₂ le_rfl (hgroups₂.trans hgroups₁)

/-- No block that stood there before has become a call site. -/
def KeepsCallSites (g g' : Graph) : Prop := ∀ b < g.size, g'.IsCallSite b → g.IsCallSite b

/-- While the copies in `rest` wait for groups of their own: only blocks newer than those of `g`
have become call sites, and none of `rest` has. -/
structure Waiting (g : Graph) (rest : List BlockId) (g' : Graph) : Prop where
  callSite : ∀ b, g'.IsCallSite b → g.IsCallSite b ∨ g.size ≤ b ∧ b ∉ rest
  nodup : rest.Nodup
  new : ∀ c ∈ rest, g.size ≤ c ∧ c < g'.size

theorem Waiting.keep {g₁ g₂ : Graph} {rest : List BlockId} (h : Waiting g rest g₁)
    (hkeep : KeepsCallSites g₁ g₂) (hle₁ : g ≤ g₁) (hle₂ : g₁ ≤ g₂) : Waiting g rest g₂ where
  callSite b hb := by
    by_cases hlt : b < g₁.size
    · exact h.callSite b (hkeep b hlt hb)
    · refine .inr ⟨hle₁.1.trans (not_lt.1 hlt), fun hmem => hlt (h.new b hmem).2⟩
  nodup := h.nodup
  new c hc := ⟨(h.new c hc).1, (h.new c hc).2.trans_le hle₂.1⟩

theorem Waiting.tail {g₁ : Graph} {c : BlockId} {rest : List BlockId}
    (h : Waiting g (c :: rest) g₁) : Waiting g rest g₁ where
  callSite b hb := (h.callSite b hb).imp_right fun hnew =>
    ⟨hnew.1, fun hmem => hnew.2 (List.mem_cons_of_mem c hmem)⟩
  nodup := h.nodup.of_cons
  new d hd := h.new d (List.mem_cons_of_mem c hd)

/-- A copy that waits is no call site yet. -/
theorem Waiting.free {g₁ : Graph} {c : BlockId} {rest : List BlockId}
    (h : Waiting g (c :: rest) g₁) (hg : Sound g) : ¬ g₁.IsCallSite c := fun hcall =>
  (h.callSite c hcall).elim (fun hold => (hold.lt_size hg).not_ge (h.new c List.mem_cons_self).1)
    fun hnew => hnew.2 List.mem_cons_self

/-- The first copy that waits is given its group. -/
theorem Waiting.openedAt {g₁ : Graph} {c : BlockId} {rest : List BlockId}
    (h : Waiting g (c :: rest) g₁) {new : Group} (hsite : new.callSite = c) :
    Waiting g rest (openedAt g₁ c new) where
  callSite b hb := by
    obtain hb | rfl := IsCallSite.of_openedAt hsite hb
    · exact h.tail.callSite b hb
    · exact .inr ⟨(h.new b (by simp)).1, (List.nodup_cons.1 h.nodup).1⟩
  nodup := h.tail.nodup
  new d hd := ⟨(h.tail.new d hd).1, (h.tail.new d hd).2.trans_le (le_openedAt g₁ c new).1⟩

/-- One copy is dealt with. -/
theorem spread_waiting {levels : ℕ} (hgraft : ∀ {g : Graph} {i : GroupId}, i < g.groups.size →
      Faultless (graft levels i) g fun _ g' => KeepsCallSites g g')
    (hg : Sound g) {g₁ : Graph} (hle : g ≤ g₁) {copy : BlockId} {rest : List BlockId}
    (h : Waiting g (copy :: rest) g₁) :
    Faultless (spread levels copy) g₁ fun r g' => r = .yield ⟨⟩ ∧ Waiting g rest g' := by
  intro hg₁
  have hlt : copy < g₁.size := (h.new copy List.mem_cons_self).2
  obtain ⟨block, hblock⟩ := getElem?_eq_some_of_lt hlt
  cases hcall : block.group with
  | none => exact ⟨_, g₁, spread_of_callFree hblock hcall, hg₁, le_rfl, rfl, h.tail⟩
  | some i =>
    obtain ⟨source, -, hsource⟩ := exists_group_eq_ok (hg₁.group_lt hblock hcall)
    set g₂ := openedAt g₁ copy (nested levels source g₁.groups.size copy)
    have hsound : Sound g₂ := WellFormed.openedAt hg₁ hlt (h.free hg) rfl rfl fun m hm =>
      hg₁.member_lt hsource m (mem_of_mem_nested hm)
    have hopened : Waiting g rest g₂ := h.openedAt rfl
    have hle₂ : g₁ ≤ g₂ := le_openedAt g₁ copy _
    refine Faultless.of_run_eq (spread_of_call hblock hcall hsource) (fun _ => hsound) hle₂ ?_ hg₁
    split
    · refine .bind (hgraft ?_) fun _ g₃ _ hle₃ hkeep => ?_
      · exact (Nat.lt_succ_self _).trans_eq (Array.size_push ..).symm
      · exact .pure fun _ => ⟨rfl, hopened.keep hkeep (hle.trans hle₂) hle₃⟩
    · exact .bind (P := fun _ g' => Waiting g rest g') (.pure fun _ => hopened)
        fun _ _ _ _ hwait => .pure fun _ => ⟨rfl, hwait⟩

/-- Splicing a group in only makes call sites of the blocks that it appends. -/
theorem graft_faultless (levels : ℕ) {i : GroupId} (h : i < g.groups.size) :
    Faultless (graft levels i) g fun _ g' => KeepsCallSites g g' := by
  induction levels generalizing i g with
  | zero => exact .pure fun _ _ _ hb => hb
  | succ levels ih =>
    refine .get_bind fun hg => ?_
    obtain ⟨group, hok, hgroup⟩ := exists_group_eq_ok h
    refine .lift_bind hok ?_
    split
    · exact .pure fun _ _ _ hb => hb
    refine .bind (copyMembers_faultless (hg.member_lt hgroup)) ?_
    rintro copied g₁ - h₁ ⟨hgroups₁, hnodup, hcopied⟩
    split
    swap
    · exact .pure fun _ _ _ hb => (isCallSite_congr hgroups₁).1 hb
    next first rest =>
    obtain ⟨site, hsite, -⟩ := hg.callSite hgroup
    have hsite₁ := (lt_size_of_getElem? hsite).trans_le h₁.1
    refine .bind (splice_faultless hsite₁ (fun c hc => (hcopied c hc).2) (by simp)) ?_
    intro terminals g₂ _ h₂ hgroups₂
    have hinit : Waiting g (first :: rest) g₂ :=
      { callSite := fun b hb => .inl ((isCallSite_congr (hgroups₂.trans hgroups₁)).1 hb)
        nodup := hnodup
        new := fun c hc => ⟨(hcopied c hc).1, (hcopied c hc).2.trans_le h₂.1⟩ }
    refine .bind (P := fun _ g' => Waiting g [] g') (.forIn_rest (fun _ => hinit)
      fun copy left g₃ _ h₃ hwait => spread_waiting ih hg (h₁.trans (h₂.trans h₃)) hwait) ?_
    intro _ g₃ _ h₃ hwait
    have hle₃ : g ≤ g₃ := h₁.trans (h₂.trans h₃)
    refine (modifyGroup_faultless (f := fun old => { old with members := _, terminals })
      (h.trans_le hle₃.2.2) (fun _ => rfl) (fun _ => rfl) ?_).mono ?_
    · exact fun _ _ _ b hb => (hcopied b hb).2.trans_le (h₂.1.trans h₃.1)
    · intro _ g₄ _ _ hkeep b hb hcall
      exact (hwait.callSite b (hkeep.2 b hcall)).resolve_right fun hnew => hnew.1.not_gt hb

/-- Splicing in finds all it asks for, in whatever order the groups stand. -/
theorem graftGroups_faultless (o : Options) :
    Faultless (graftGroups o) g fun _ _ => True := by
  refine .get_bind fun _ => .bind (P := fun _ _ => True) (.forIn (fun _ => trivial) ?_)
    fun _ _ _ _ _ => .pure fun _ => trivial
  intro i hi _ g₁ _ h₁ _
  have hlt : i < g.groups.size := List.mem_range.1 hi
  refine .bind (graft_faultless o.maxGraftDepth (hlt.trans_le h₁.2.2)) fun _ _ _ _ _ => ?_
  exact .pure fun _ => trivial

end Build

end CobolFlow
