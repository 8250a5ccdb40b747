import CobolFlow.Proofs.Members

/-!
# What splicing in leaves alone

Splicing a group in adds blocks, slots and groups. Of the blocks there were it changes the call site
alone, which is marked and led into the first of the new members; and of the groups there were the
group alone, which gets new members. What happens at the copies of call sites does not touch the
blocks there were, because these copies are new.

## Main definitions

* `Graph.Retains` — what was there before is still there, but for some blocks and groups
* `Graph.Grafts` — what becomes of a group that is spliced in

## Main results

* `Build.graft_retains`, `Build.graftGroups_retains` — one group, and all groups
-/

namespace CobolFlow

section Traversals

variable {α ε : Type} {l : List α}

/-- A selection that answers has asked of everything. -/
theorem exists_filter_of_filterM_eq_ok {f : α → Except ε Bool} {kept : List α}
    (h : l.filterM f = .ok kept) :
    ∃ p : α → Bool, (∀ a ∈ l, f a = .ok (p a)) ∧ kept = l.filter p := by
  have aux : ∀ (l acc kept : List α), l.filterAuxM f acc = .ok kept →
      (∀ a ∈ l, ∃ r, f a = .ok r) ∧
        kept = (l.filter fun a => (f a).toOption.getD false).reverse ++ acc := by
    intro l
    induction l with
    | nil =>
      rintro acc _ ⟨⟩
      simp
    | cons a rest ih =>
      intro acc kept h
      rw [List.filterAuxM] at h
      cases hr : f a with
      | error e =>
        rw [hr] at h
        cases h
      | ok r =>
        rw [hr] at h
        obtain ⟨hall, rfl⟩ := ih _ _ h
        refine ⟨by simpa [hr] using hall, ?_⟩
        cases r <;> simp [hr, Except.toOption]
  rw [List.filterM] at h
  cases haux : l.filterAuxM f [] with
  | error e =>
    rw [haux] at h
    cases h
  | ok found =>
    rw [haux] at h
    obtain ⟨hall, rfl⟩ := aux l [] found haux
    refine ⟨fun a => (f a).toOption.getD false, fun a ha => ?_, ?_⟩
    · obtain ⟨r, hr⟩ := hall a ha
      simp [hr, Except.toOption]
    · obtain rfl : _ = kept := Except.ok.inj h
      simp

/-- A search that answers has found something, or has asked of everything. -/
theorem anyM_eq_ok {f : α → Except ε Bool} {found : Bool} (h : l.anyM f = .ok found) :
    if found then ∃ a ∈ l, f a = .ok true else ∀ a ∈ l, f a = .ok false := by
  induction l with
  | nil =>
    cases h
    simp
  | cons a rest ih =>
    rw [List.anyM] at h
    cases hr : f a with
    | error e =>
      rw [hr] at h
      cases h
    | ok r =>
      rw [hr, ok_bind] at h
      cases r with
      | true =>
        cases h
        exact ⟨a, by simp, hr⟩
      | false =>
        have := ih h
        cases found with
        | true =>
          obtain ⟨b, hb, hf⟩ := this
          exact ⟨b, by simp [hb], hf⟩
        | false => simpa [hr] using this

end Traversals

namespace Graph

variable {α : Type} {g g' g'' : Graph} {B D : BlockId → Prop} {G H : GroupId → Prop}
  {b : BlockId} {i : GroupId}

/-- Of what was there before, only the blocks in `B` and the groups in `G` may have changed. -/
structure Retains (B : BlockId → Prop) (G : GroupId → Prop) (g g' : Graph) : Prop where
  roots : g'.roots = g.roots
  owners : g'.owners = g.owners
  nodes : g'.nodes = g.nodes
  division : g'.division = g.division
  compound : g'.compound = g.compound
  slots : ∃ added, g'.slots = g.slots ++ added
  size_le : g.size ≤ g'.size
  groups_le : g.groups.size ≤ g'.groups.size
  block : ∀ b < g.size, ¬ B b → g'.blocks[b]? = g.blocks[b]?
  group : ∀ i < g.groups.size, ¬ G i → g'.groups[i]? = g.groups[i]?

namespace Retains

theorem refl (g : Graph) : Retains B G g g :=
  ⟨rfl, rfl, rfl, rfl, rfl, ⟨#[], by simp⟩, le_rfl, le_rfl, fun _ _ _ => rfl, fun _ _ _ => rfl⟩

theorem trans (h : Retains B G g g') (h' : Retains B G g' g'') : Retains B G g g'' where
  roots := h'.roots.trans h.roots
  owners := h'.owners.trans h.owners
  nodes := h'.nodes.trans h.nodes
  division := h'.division.trans h.division
  compound := h'.compound.trans h.compound
  slots := by
    obtain ⟨added, hadded⟩ := h.slots
    obtain ⟨added', hadded'⟩ := h'.slots
    exact ⟨added ++ added', by rw [hadded', hadded, Array.append_assoc]⟩
  size_le := h.size_le.trans h'.size_le
  groups_le := h.groups_le.trans h'.groups_le
  block b hb hB := (h'.block b (hb.trans_le h.size_le) hB).trans (h.block b hb hB)
  group i hi hG := (h'.group i (hi.trans_le h.groups_le) hG).trans (h.group i hi hG)

theorem of_reflTransGen (h : Relation.ReflTransGen (Retains B G) g g') : Retains B G g g' := by
  induction h with
  | refl => exact .refl _
  | tail _ h ih => exact ih.trans h

/-- What is new does not count. -/
theorem mono (h : Retains B G g g') (hB : ∀ b < g.size, B b → D b)
    (hG : ∀ i < g.groups.size, G i → H i) : Retains D H g g' :=
  { h with
    block := fun b hb hD => h.block b hb fun h => hD (hB b hb h)
    group := fun i hi hH => h.group i hi fun h => hH (hG i hi h) }

theorem slot (h : Retains B G g g') {k : SlotId} (hk : g.slots[k]? = some b) :
    g'.slots[k]? = some b := by
  obtain ⟨added, hadded⟩ := h.slots
  rw [hadded, Array.getElem?_append_left (Array.getElem?_eq_some_iff.1 hk).1, hk]

theorem slots_le (h : Retains B G g g') : g.slots.size ≤ g'.slots.size := by
  obtain ⟨added, hadded⟩ := h.slots
  simp [hadded]

end Retains

/-- Among some blocks, the terminals are those from which no edge leads to any of them. -/
theorem mem_of_terminalsWithin_eq_ok {members ends : List BlockId}
    (h : g.terminalsWithin members = .ok ends) {b : BlockId} :
    b ∈ ends ↔ b ∈ members ∧ ∀ x ∈ (g.chart b).next, x ∉ members := by
  obtain ⟨p, hp, rfl⟩ := exists_filter_of_filterM_eq_ok h
  rw [List.mem_filter]
  refine and_congr_right fun hb => ?_
  have hrun := hp b hb
  cases hblock : g.block b with
  | error e =>
    rw [hblock] at hrun
    cases hrun
  | ok block =>
    rw [hblock, ok_bind] at hrun
    rw [chart_of_getElem? ((block_eq_ok_iff g b block).1 hblock), Block.spot]
    have htarget : ∀ {k : SlotId} {r : Bool},
        (return members.contains (← g.target k) : Except Fault Bool) = .ok r →
          ∃ c, g.slots[k]? = some c ∧ members.contains c = r := fun {k r} hk => by
      cases hc : g.target k with
      | error e =>
        rw [hc] at hk
        cases hk
      | ok c =>
        rw [hc] at hk
        exact ⟨c, (target_eq_ok_iff g k c).1 hc, Except.ok.inj hk⟩
    cases hleads : block.successors.anyM fun slot =>
        (return members.contains (← g.target slot) : Except Fault Bool) with
    | error e =>
      rw [hleads] at hrun
      cases hrun
    | ok leads =>
      rw [hleads] at hrun
      rw [← show (!leads) = p b from Except.ok.inj hrun]
      have hany := anyM_eq_ok hleads
      cases leads with
      | true =>
        obtain ⟨k, hk, hrun⟩ := hany
        obtain ⟨c, hc, hmem⟩ := htarget hrun
        refine iff_of_false Bool.false_ne_true fun hnone => ?_
        exact hnone c (List.mem_filterMap.2 ⟨k, hk, hc⟩) (List.contains_iff_mem.1 hmem)
      | false =>
        refine iff_of_true rfl fun x hx hmem => ?_
        obtain ⟨k, hk, hx⟩ := List.mem_filterMap.1 hx
        obtain ⟨c, hc, hnot⟩ := htarget (hany k hk)
        obtain rfl : c = x := Option.some.inj (hc.symm.trans hx)
        cases hnot.symm.trans (List.contains_iff_mem.2 hmem)

/-! ### Edits of which it is known what they touch -/

theorem newSlot_retains (c : BlockId) : Within (Retains B G) (newSlot c) := by
  rintro g _ _ ⟨⟩
  exact .single ⟨rfl, rfl, rfl, rfl, rfl, ⟨#[c], by simp⟩, le_rfl, le_rfl, fun _ _ _ => rfl,
    fun _ _ _ => rfl⟩

theorem modifyBlock_at {block : Block} (h : g.blocks[b]? = some block) (f : Block → Block) :
    Ensures (modifyBlock b f) g fun _ g' => g'.blocks[b]? = some (f block) := by
  rintro ⟨⟩ g' hrun
  obtain ⟨-, rfl⟩ := (modifyBlock_eq_ok_iff b f g g').1 hrun
  rw [Array.getElem?_modify, if_pos rfl, h]
  rfl

theorem modifyBlock_retains (hb : B b) (f : Block → Block) :
    Within (Retains B G) (modifyBlock b f) := by
  rintro g ⟨⟩ g' h
  obtain ⟨-, rfl⟩ := (modifyBlock_eq_ok_iff b f g g').1 h
  refine .single ⟨rfl, rfl, rfl, rfl, rfl, ⟨#[], by simp⟩, by simp [size], le_rfl,
    fun c _ hc => ?_, fun _ _ _ => rfl⟩
  rw [Array.getElem?_modify, if_neg]
  rintro rfl
  exact hc hb

theorem modifyGroup_retains (hi : G i) (f : Group → Group) :
    Within (Retains B G) (modifyGroup i f) := by
  rintro g ⟨⟩ g' h
  obtain ⟨-, rfl⟩ := eq_of_modifyGroup_eq_ok h
  refine .single ⟨rfl, rfl, rfl, rfl, rfl, ⟨#[], by simp⟩, le_rfl, by simp, fun _ _ _ => rfl,
    fun j _ hj => ?_⟩
  rw [Array.getElem?_modify, if_neg]
  rintro rfl
  exact hj hi

theorem link_retains (hb : B b) (k : SlotId) : Within (Retains B G) (link b k) := by
  refine .bind .get fun _ => .bind (.lift _) fun block => ?_
  split
  · exact .pure _
  · exact .bind (modifyBlock_retains hb _) fun _ => .pure _

theorem cloneBlock_retains (b : BlockId) : Within (Retains B G) (cloneBlock b) := by
  refine .bind .get fun _ => .bind (.lift _) fun block => ?_
  rintro g _ _ ⟨⟩
  refine .single ⟨rfl, rfl, rfl, rfl, rfl, ⟨#[], by simp⟩, by simp [size], le_rfl,
    fun c hc _ => ?_, fun _ _ _ => rfl⟩
  rw [Array.getElem?_push, if_neg]
  rintro rfl
  exact hc.false

end Graph

namespace Build

open Graph (Retains)

variable {g g₁ g' : Graph} {B : BlockId → Prop} {G : GroupId → Prop} {b callSite first : BlockId}
  {i : GroupId} {copied : List BlockId} {levels : ℕ}

/-- Nothing has been changed that was there before. -/
abbrev Augments (g g' : Graph) : Prop := Retains (fun _ => False) (fun _ => False) g g'

theorem retains_of_within {α : Type} {x : Graph.Edit α} (h : Within (Retains B G) x) (g : Graph) :
    Ensures x g fun _ g' => Retains B G g g' :=
  (h g).mono fun _ _ h => .of_reflTransGen h

/-! ### Copies -/

theorem moveSlot_retains (copies : Copies) (moves : Moves) (k : SlotId) :
    Within (Retains B G) (moveSlot copies moves k) := by
  unfold moveSlot
  split
  · exact .pure _
  · refine .bind .get fun _ => .bind (.lift _) fun b => ?_
    split
    · exact .bind (Graph.newSlot_retains _) fun _ => .pure _
    · exact .pure _

theorem graftSlots_retains (copies : Copies) (slots : List SlotId) (moves : Moves) :
    Within (Retains B G) (graftSlots copies slots moves) :=
  .foldlM fun _ _ => .bind (moveSlot_retains _ _ _) fun _ => .pure _

theorem copyMembers_retains (members : List BlockId) (g : Graph) :
    Ensures (copyMembers members) g fun _ g' => Augments g g' := by
  have hold : ∀ {g'}, Retains (g.size ≤ ·) (fun _ => False) g g' → Augments g g' := fun h =>
    h.mono (fun b hb hle => hle.not_gt hb) fun _ _ h => h
  refine .bind ((copyBlocks_ensures members).and (retains_of_within
    (B := (g.size ≤ ·)) (G := fun _ => False)
    (.mapM fun b => Graph.cloneBlock_retains b) g)) ?_
  rintro _ g₁ ⟨⟨rfl, -, -⟩, h₁⟩
  refine .bind (P := fun _ g' => Retains (g.size ≤ ·) (fun _ => False) g g') (.foldlM h₁ ?_)
    fun _ _ h => .pure (hold h)
  rintro ⟨member, copy⟩ hp moves g₂ h₂
  have hcopy : g.size ≤ copy := (List.mem_range'_1.1 (List.of_mem_zip hp).2).1
  exact (retains_of_within (.bind .get fun _ => .bind (.lift _) fun _ =>
    .bind (graftSlots_retains _ _ _) fun _ => .bind (Graph.modifyBlock_retains hcopy _) fun _ =>
      .pure _) g₂).mono fun _ _ h => h₂.trans h

/-! ### Splicing -/

/-- The call site is marked and led into the first of the copies. -/
theorem splice_retains (hsite : callSite ∉ copied) {block : Block}
    (hblock : g.blocks[callSite]? = some block) :
    Ensures (splice callSite first copied) g fun _ g' =>
      Retains (fun b => b = callSite ∨ b ∈ copied) (fun _ => False) g g' ∧
      ∃ k, g.slots.size ≤ k ∧ g'.slots[k]? = some first ∧ g'.blocks[callSite]? = some
        { block with successors := [k], flags := block.flags.union { grafted := true } } := by
  refine .get_bind (.lift_bind fun terminals hterminals =>
    .get_bind (.lift_bind fun block' _ => ?_))
  have hends : ∀ b ∈ terminals, b ∈ copied := fun b hb =>
    ((Graph.mem_of_terminalsWithin_eq_ok hterminals).1 hb).1
  refine .bind (P := fun k g₁ => k = g.slots.size ∧ g₁ = { g with slots := g.slots.push first })
    (.modifyGet ⟨rfl, rfl⟩) ?_
  rintro _ g₁ ⟨rfl, hg₁⟩
  have h₁ : Retains (fun b => b = callSite ∨ b ∈ copied) (fun _ => False) g g₁ :=
    .of_reflTransGen (Graph.newSlot_retains first g _ _ (by rw [hg₁]; rfl))
  have hslot₁ : g₁.slots[g.slots.size]? = some first := by simp [hg₁]
  have hblock₁ : g₁.blocks[callSite]? = some block := by rw [hg₁, hblock]
  set P : Graph → Prop := fun g₂ =>
    Retains (fun b => b = callSite ∨ b ∈ copied) (fun _ => False) g g₂ ∧
    g₂.slots[g.slots.size]? = some first ∧
    g₂.blocks[callSite]? = some { block with successors := [g.slots.size] } with hP
  refine .bind (P := fun _ => P) ?_ fun _ g₂ h₂ => ?_
  · refine ((retains_of_within (Graph.modifyBlock_retains (.inl rfl) _) g₁).and ?_).mono
      fun _ g₂ h => ⟨h₁.trans h.1, h.1.slot hslot₁, h.2⟩
    exact Graph.modifyBlock_at hblock₁ _
  -- the terminals are linked, and then the call site is marked
  have hmark : ∀ g₃, P g₃ → Ensures (do
      Graph.markBlock callSite { grafted := true }
      return terminals) g₃ fun _ g' =>
        Retains (fun b => b = callSite ∨ b ∈ copied) (fun _ => False) g g' ∧
        ∃ k, g.slots.size ≤ k ∧ g'.slots[k]? = some first ∧ g'.blocks[callSite]? = some
          { block with successors := [k], flags := block.flags.union { grafted := true } } := by
    rintro g₃ ⟨h₃, hslot₃, hblock₃⟩
    refine .bind ((retains_of_within (Graph.modifyBlock_retains
      (B := fun b => b = callSite ∨ b ∈ copied) (G := fun _ => False) (.inl rfl) _) g₃).and
        (Graph.modifyBlock_at hblock₃ _)) fun _ g' ⟨h', hblock'⟩ => .pure ?_
    exact ⟨h₃.trans h', _, le_rfl, h'.slot hslot₃, hblock'⟩
  dsimp only
  split
  · refine .bind (P := fun _ => P) (.forIn h₂ ?_) fun _ => hmark
    rintro terminal hterminal - g₃ ⟨h₃, hslot₃, hblock₃⟩
    have hmem := hends terminal hterminal
    refine .get_bind (.lift_bind fun block' _ => ?_)
    split
    · exact .pure ⟨h₃, hslot₃, hblock₃⟩
    · refine .bind (retains_of_within (Graph.link_retains (B := (· = terminal))
        (G := fun _ => False) rfl _) g₃) fun _ g₄ h₄ => .pure ?_
      refine ⟨h₃.trans (h₄.mono (fun b _ hb => .inr (hb ▸ hmem)) fun _ _ h => h),
        h₄.slot hslot₃, ?_⟩
      rw [h₄.block callSite (Graph.lt_size_of_getElem? hblock₃) fun heq => hsite (heq ▸ hmem),
        hblock₃]
  · exact hmark g₂ h₂

/-! ### One group -/

/-- What becomes of a group that is spliced in. -/
structure Grafts (i : GroupId) (group : Group) (g g' : Graph) : Prop where
  retains : Retains (· = group.callSite) (· = i) g g'
  refilled : ∃ first rest terminals, g'.groups[i]? =
    some { group with members := first :: rest, terminals } ∧
    ∃ block k, g.blocks[group.callSite]? = some block ∧ g.slots.size ≤ k ∧
      g'.slots[k]? = some first ∧ g'.blocks[group.callSite]? = some
        { block with successors := [k], flags := block.flags.union { grafted := true } }

/-- What becomes of a group, whether it is spliced in or not. -/
def Regrafts (levels : ℕ) (i : GroupId) (group : Group) (g g' : Graph) : Prop :=
  (IsGrafted levels group → Grafts i group g g') ∧ (¬ IsGrafted levels group → Augments g g')

theorem Regrafts.retains {group : Group} (h : Regrafts levels i group g g') :
    Retains (· = group.callSite) (· = i) g g' := by
  by_cases hgraft : IsGrafted levels group
  · exact (h.1 hgraft).retains
  · exact (h.2 hgraft).mono (fun _ _ h => h.elim) fun _ _ h => h.elim

theorem openedAt_retains (g : Graph) (b : BlockId) (group : Group) :
    Retains (· = b) (fun _ => False) g (openedAt g b group) :=
  ⟨rfl, rfl, rfl, rfl, rfl, ⟨#[], by simp [openedAt]⟩, (size_openedAt _ _ _).ge, by simp [openedAt],
    fun c _ hne => by simp [openedAt, Array.getElem?_modify, Ne.symm hne],
    fun j hj _ => by simp [openedAt, Array.getElem?_push, hj.ne]⟩

/-- What is done at a copy touches the copy alone. -/
theorem spread_retains (hgraft : ∀ (j : GroupId) (g : Graph) (group : Group),
      g.groups[j]? = some group → group.callSite < g.size →
        Ensures (graft levels j) g fun _ g' => Regrafts levels j group g g')
    (copy : BlockId) :
    Ensures (spread levels copy) g fun _ g' => Retains (· = copy) (fun _ => False) g g' := by
  intro r g' hrun
  obtain ⟨-, ⟨-, rfl⟩ | ⟨i, source, -, -, hlt, ⟨-, rfl⟩ | ⟨-, hrun'⟩⟩⟩ :=
    spread_cases levels copy r g' hrun
  · exact .refl g'
  · exact openedAt_retains ..
  · have hregrafts := hgraft _ _ _ Array.getElem?_push_size (by simpa [nested] using hlt) _ _ hrun'
    exact (((openedAt_retains ..).mono (fun _ _ h => h) fun _ _ h => h.elim).trans
      hregrafts.retains).mono
      (fun _ _ h => h) fun j hj heq => hj.ne heq

/-- **Splicing a group in** changes its call site, gives it new members, and leaves all else that
there was alone. -/
theorem graft_retains (levels : ℕ) (i : GroupId) (g : Graph) (group : Group)
    (hi : g.groups[i]? = some group) (hsite : group.callSite < g.size) :
    Ensures (graft levels i) g fun _ g' => Regrafts levels i group g g' := by
  induction levels generalizing i g group with
  | zero => exact .pure ⟨fun h => absurd rfl h.1, fun _ => .refl g⟩
  | succ levels ih =>
    refine .get_bind (.lift_bind fun group' hok => ?_)
    obtain rfl := Option.some.inj (hi.symm.trans ((Graph.group_eq_ok_iff g i group').1 hok))
    split
    · next hrecursive =>
      exact .pure ⟨fun h => absurd (h.2.1.symm.trans hrecursive) nofun, fun _ => .refl g⟩
    next hrecursive =>
    refine .bind ((copyMembers_ensures group.members).and (copyMembers_retains _ g)) ?_
    rintro _ g₁ ⟨⟨rfl, hsize₁, -⟩, h₁⟩
    split
    swap
    · next hempty =>
      refine .pure ⟨fun h => ?_, fun _ => h₁⟩
      cases hcase : group.members with
      | nil => exact absurd hcase h.2.2
      | cons b rest => exact (hempty _ _ (by rw [hcase, List.length_cons, List.range'_succ])).elim
    next first rest hcopied =>
    have hnew : ∀ c ∈ first :: rest, g.size ≤ c ∧ c < g₁.size := fun c hc => by
      rw [← hcopied, List.mem_range'_1] at hc
      exact ⟨hc.1, hc.2.trans_le hsize₁⟩
    have hgrafted : IsGrafted (levels + 1) group :=
      ⟨Nat.succ_ne_zero _, Bool.eq_false_of_not_eq_true hrecursive, fun hnil => by
        simp [hnil] at hcopied⟩
    obtain ⟨block, hblock⟩ := Graph.getElem?_eq_some_of_lt hsite
    have hfresh : group.callSite ∉ first :: rest := fun hc => hsite.not_ge (hnew _ hc).1
    have hblock₁ : g₁.blocks[group.callSite]? = some block := by
      rw [h₁.block _ hsite id, hblock]
    rw [hcopied]
    refine .bind (splice_retains hfresh hblock₁) fun terminals g₂ ⟨h₂, k, hk, hslot, hblock₂⟩ => ?_
    -- so far and from now on, what is touched is the call site or new
    have hnone : ∀ {g g' : Graph}, Augments g g' → ∀ {B : BlockId → Prop} {G : GroupId → Prop},
        Retains B G g g' := fun h => h.mono (fun _ _ h => h.elim) fun _ _ h => h.elim
    set B : BlockId → Prop := fun b => b = group.callSite ∨ g.size ≤ b with hB
    set I : Graph → Prop := fun g₃ => Retains B (fun _ => False) g g₃ ∧ g₃.slots[k]? = some first ∧
      g₃.blocks[group.callSite]? = some
        { block with successors := [k], flags := block.flags.union { grafted := true } } with hI
    have hbegun : I g₂ := by
      refine ⟨(hnone h₁).trans (h₂.mono (fun b _ hb => ?_) fun _ _ h => h), hslot, hblock₂⟩
      exact hb.imp_right fun hb => (hnew b hb).1
    refine .bind (P := fun _ => I) (.forIn hbegun ?_) ?_
    · rintro copy hcopy - g₃ ⟨h₃, hslot₃, hblock₃⟩
      refine (spread_retains ih copy).mono fun r g₄ h₄ => ⟨?_, h₄.slot hslot₃, ?_⟩
      · exact h₃.trans (h₄.mono (fun b _ hb => .inr (hb ▸ (hnew copy hcopy).1)) fun _ _ h => h)
      · rw [h₄.block _ (Graph.lt_size_of_getElem? hblock₃) fun heq => hfresh (heq ▸ hcopy), hblock₃]
    · rintro _ g₃ ⟨h₃, hslot₃, hblock₃⟩ _ g' hrun
      have h' : Retains B (· = i) g g' := (h₃.mono (fun _ _ h => h) fun _ _ h => h.elim).trans
        (retains_of_within (Graph.modifyGroup_retains (G := (· = i)) rfl _) _ _ _ hrun)
      obtain ⟨-, rfl⟩ := Graph.eq_of_modifyGroup_eq_ok hrun
      refine ⟨fun _ => ⟨h'.mono (fun b hb h => h.resolve_right hb.not_ge) fun _ _ h => h,
        first, rest, terminals, ?_, block, k, hblock, h₁.slots_le.trans hk, hslot₃, hblock₃⟩,
        fun h => absurd hgrafted h⟩
      have hgroup₃ : g₃.groups[i]? = some group := by
        rw [h₃.group i (Array.getElem?_eq_some_iff.1 hi).1 id, hi]
      rw [Array.getElem?_modify, if_pos rfl, hgroup₃]
      rfl

/-! ### All groups -/

/-- While the groups in `left` wait to be spliced in, the others are done with. -/
structure Regrafting (levels : ℕ) (g : Graph) (left : List GroupId) (g' : Graph) : Prop where
  nodup : left.Nodup
  lt : ∀ i ∈ left, i < g.groups.size
  retains : Retains (fun b => ∃ i group, i ∉ left ∧ g.groups[i]? = some group ∧
    IsGrafted levels group ∧ group.callSite = b) (fun i => i ∉ left ∧ ∃ group,
      g.groups[i]? = some group ∧ IsGrafted levels group) g g'
  refilled : ∀ i ∉ left, ∀ group, g.groups[i]? = some group → IsGrafted levels group →
    ∃ first rest terminals, g'.groups[i]? =
      some { group with members := first :: rest, terminals } ∧
      ∃ block k, g.blocks[group.callSite]? = some block ∧ g.slots.size ≤ k ∧
        g'.slots[k]? = some first ∧ g'.blocks[group.callSite]? = some
          { block with successors := [k], flags := block.flags.union { grafted := true } }

/-- Every group has a call site to itself. -/
theorem eq_of_callSite_eq (hg : Sound g) {j : GroupId} {group group' : Group}
    (hi : g.groups[i]? = some group) (hj : g.groups[j]? = some group')
    (h : group.callSite = group'.callSite) : i = j := by
  obtain ⟨block, hblock, hgroup⟩ := hg.callSite hi
  obtain ⟨block', hblock', hgroup'⟩ := hg.callSite hj
  obtain rfl : block = block' := Option.some.inj (hblock.symm.trans (h ▸ hblock'))
  exact Option.some.inj (hgroup.symm.trans hgroup')

/-- The next group has its turn. -/
theorem Regrafting.next (hg : Sound g) {left : List GroupId}
    (h : Regrafting levels g (i :: left) g₁) {group : Group} (hi : g.groups[i]? = some group)
    (h' : Regrafts levels i group g₁ g') : Regrafting levels g left g' := by
  obtain ⟨hleft, hnodup⟩ := List.nodup_cons.1 h.nodup
  have hlater : ∀ {j}, j ∉ i :: left → j ∉ left := fun hj hmem => hj (List.mem_cons_of_mem _ hmem)
  have hold := h.retains.mono (D := fun b => ∃ i group, i ∉ left ∧ g.groups[i]? = some group ∧
      IsGrafted levels group ∧ group.callSite = b)
    (H := fun i => i ∉ left ∧ ∃ group, g.groups[i]? = some group ∧ IsGrafted levels group)
    (fun b _ ⟨j, group, hj, hrest⟩ => ⟨j, group, hlater hj, hrest⟩)
    fun j _ ⟨hj, hrest⟩ => ⟨hlater hj, hrest⟩
  refine ⟨hnodup, fun j hj => h.lt j (List.mem_cons_of_mem _ hj), ?_,
    fun j hj group' hj' hgrafted => ?_⟩
  · by_cases hgrafted : IsGrafted levels group
    · refine hold.trans ((h'.1 hgrafted).retains.mono ?_ ?_)
      · rintro _ - rfl
        exact ⟨i, group, hleft, hi, hgrafted, rfl⟩
      · rintro _ - rfl
        exact ⟨hleft, group, hi, hgrafted⟩
    · exact hold.trans ((h'.2 hgrafted).mono (fun _ _ h => h.elim) fun _ _ h => h.elim)
  · by_cases hji : j = i
    · subst hji
      obtain rfl := Option.some.inj (hi.symm.trans hj')
      obtain ⟨first, rest, terminals, hgroup, block, k, hblock, hk, hslot, hblock'⟩ :=
        (h'.1 hgrafted).refilled
      refine ⟨first, rest, terminals, hgroup, block, k, ?_, h.retains.slots_le.trans hk, hslot,
        hblock'⟩
      -- no other group has the call site
      obtain ⟨site, hsite, -⟩ := hg.callSite hi
      rw [← hblock, h.retains.block _ (Graph.lt_size_of_getElem? hsite)]
      rintro ⟨m, other, hm, hother, -, heq⟩
      exact hm (eq_of_callSite_eq hg hother hi heq ▸ List.mem_cons_self)
    · have hj : j ∉ i :: left := fun hmem => (List.mem_cons.1 hmem).elim hji hj
      obtain ⟨first, rest, terminals, hgroup, block, k, hblock, hk, hslot, hblock'⟩ :=
        h.refilled j hj group' hj' hgrafted
      refine ⟨first, rest, terminals, ?_, block, k, hblock, hk, h'.retains.slot hslot, ?_⟩
      · rw [h'.retains.group j (Array.getElem?_eq_some_iff.1 hgroup).1 hji, hgroup]
      · rw [h'.retains.block _ (Graph.lt_size_of_getElem? hblock'), hblock']
        exact fun heq => hji (eq_of_callSite_eq hg hj' hi heq)

/-- At first every group waits. -/
theorem Regrafting.start (levels : ℕ) (g : Graph) :
    Regrafting levels g (List.range g.groups.size) g where
  nodup := List.nodup_range
  lt _ hi := List.mem_range.1 hi
  retains := .refl g
  refilled _ hi _ hgroup :=
    absurd (List.mem_range.2 (Array.getElem?_eq_some_iff.1 hgroup).1) hi

/-- A group that waits is as it was. -/
theorem Regrafting.exists_waiting (hg : Sound g) {left : List GroupId}
    (h : Regrafting levels g (i :: left) g₁) : ∃ group, g.groups[i]? = some group ∧
      g₁.groups[i]? = some group ∧ group.callSite < g.size := by
  have hlt := h.lt i (by simp)
  have hi : g.groups[i]? = some g.groups[i] := Array.getElem?_eq_getElem hlt
  obtain ⟨site, hsite, -⟩ := hg.callSite hi
  refine ⟨_, hi, ?_, Graph.lt_size_of_getElem? hsite⟩
  rw [h.retains.group i hlt fun hnot => hnot.1 List.mem_cons_self, hi]

/-- **Splicing all groups in.** -/
theorem graftGroups_retains (o : Options) (hg : Sound g) :
    Ensures (graftGroups o) g fun _ g' => Regrafting o.maxGraftDepth g [] g' := by
  refine .get_bind (.bind (.forIn_rest (I := Regrafting o.maxGraftDepth g) (.start _ g) ?_)
    fun _ _ h => .pure h)
  intro i rest g₁ h
  obtain ⟨group, hi, hi₁, hsite⟩ := h.exists_waiting hg
  exact .bind (graft_retains _ i g₁ group hi₁ (hsite.trans_le h.retains.size_le))
    fun _ _ h' => .pure ⟨rfl, h.next hg hi h'⟩

end Build

end CobolFlow
