import CobolFlow.Proofs.Calls.Mirror

/-!
# Copies that take the place of a call

When a group is spliced in, its members are copied with the edges among them: each edge of a copy
leads to the copy of what the same edge of its original leads to, or, if there is none, to where
that leads. Then the call site is led into the first copy, and those copies that lead to no copy are
led on to where the call site has led, but for those that end the program.

## Main definitions

* `Spot.Resumes` — where the copy of a block leads
* `Build.Duplicates` — members have been copied
* `Build.Splices` — the copies have taken the place of a call

## Main results

* `Build.copyMembers_duplicates`, `Build.Duplicates.splices` — the two steps of a splice
* `Spot.Resumes.mem_iff` — the edges of a copy, one by one
-/

namespace CobolFlow

namespace Graph

variable {g g' : Graph} {b x : BlockId} {k : SlotId}

/-- The first edge of a block leads where its slot does. -/
theorem Tight.head?_next (hg : g.Tight) {block : Block} (hb : g.blocks[b]? = some block) :
    (block.spot g.slots).next.head? = block.successors.head?.bind (g.slots[·]?) := by
  have hslots := hg.slot_lt hb
  rw [Block.spot]
  cases hcase : block.successors with
  | nil => rfl
  | cons k rest =>
    have hk := Array.getElem?_eq_getElem (hslots k (hcase ▸ List.mem_cons_self))
    rw [List.filterMap_cons_some hk, List.head?_cons, List.head?_cons, Option.bind_some, hk]

/-- A block is changed, and its edges have slots. -/
theorem modifyBlock_redraws (hg : g.Tight) {block : Block} (hb : g.blocks[b]? = some block)
    {f : Block → Block} (hf : ∀ k ∈ (f block).successors, k < g.slots.size) :
    Ensures (modifyBlock b f) g fun _ g' => g'.Tight ∧ g'.size = g.size ∧ g'.slots = g.slots ∧
      g'.groups = g.groups ∧
      g'.chart = fun c => if c = b then (f block).spot g.slots else g.chart c := by
  intro _ g' hrun
  obtain ⟨-, rfl⟩ := (modifyBlock_eq_ok_iff b f g g').1 hrun
  refine ⟨⟨fun {c block'} hc k hk => ?_, fun hk => ?_⟩, by simp [size], rfl, rfl,
    chart_modify hb rfl rfl⟩
  · rw [Array.getElem?_modify] at hc
    split at hc
    · next heq =>
      subst heq
      rw [hb] at hc
      obtain rfl := Option.some.inj hc
      exact hf k hk
    · exact hg.slot_lt hc k hk
  · simpa [size] using hg.target_lt hk

/-- Edges lead on to `back` as well, if there is such a block and none of them leads there. -/
def Joins (next : List BlockId) (back : Option BlockId) (next' : List BlockId) : Prop :=
  next' = next ++ back.toList ∨ next' = next ∧ ∀ x ∈ back, x ∈ next

theorem Joins.mem_iff {next next' : List BlockId} {back : Option BlockId}
    (h : Joins next back next') (x : BlockId) : x ∈ next' ↔ x ∈ next ∨ x ∈ back := by
  obtain rfl | ⟨rfl, hback⟩ := h
  · simp
  · exact ⟨.inl, fun hx => hx.elim id (hback x)⟩

/-- A slot becomes an edge of a block, unless it is one already. -/
theorem link_redraws (hg : g.Tight) (hk : g.slots[k]? = some x) :
    Ensures (link b k) g fun _ g' => g'.Tight ∧ g'.size = g.size ∧ g'.slots = g.slots ∧
      g'.groups = g.groups ∧ ∃ next, Joins (g.chart b).next (some x) next ∧
      g'.chart = fun c => if c = b then { g.chart b with next } else g.chart c := by
  refine .get_bind (.lift_bind fun block hblock => ?_)
  have hblock := (block_eq_ok_iff g b block).1 hblock
  have hchart := chart_of_getElem? hblock
  split
  · next hmem =>
    refine .pure ⟨hg, rfl, rfl, rfl, (g.chart b).next, .inr ⟨rfl, ?_⟩, ?_⟩
    · rintro _ ⟨⟩
      rw [hchart]
      exact List.mem_filterMap.2 ⟨k, List.contains_iff_mem.1 hmem, hk⟩
    · funext c
      split
      · next heq => rw [heq]
      · rfl
  · refine .bind (modifyBlock_redraws hg hblock fun t ht => ?_) fun _ g' h => .pure ?_
    · obtain ht | ht := List.mem_append.1 ht
      · exact hg.slot_lt hblock t ht
      · exact List.mem_singleton.1 ht ▸ (Array.getElem?_eq_some_iff.1 hk).1
    · obtain ⟨htight, hsize, hslots, hgroups, hchart'⟩ := h
      refine ⟨htight, hsize, hslots, hgroups, _, .inl rfl, ?_⟩
      rw [hchart', hchart]
      simp [Block.spot, Block.addSuccessor, hk]

end Graph

/-- Where an edge goes when blocks are copied: to the copy of what it led to, or, if there is none,
to where it led. -/
def Build.Copies.Goes (copies : Build.Copies) (x y : BlockId) : Prop :=
  (x, y) ∈ copies ∨ y = x ∧ ∀ c, (x, c) ∉ copies

/-- Where the copy of a block leads if its PERFORM goes on at `back`. The members of a range have
been copied: an edge leads to a copy if there is one, and if there is none for any edge the copy
goes on to `back`, unless it ends the program. -/
def Spot.Resumes (t : Spot) (members copied : List BlockId) (back : Option BlockId)
    (next : List BlockId) : Prop :=
  ∃ kept, List.Forall₂ (Build.Copies.Goes (members.zip copied)) t.next kept ∧
    if t.flags.ending = true ∨ ∃ x ∈ t.next, x ∈ members then next = kept
    else Graph.Joins kept back next

namespace Spot.Resumes

variable {t : Spot} {members copied next : List BlockId} {back : Option BlockId} {x y : BlockId}
  (h : t.Resumes members copied back next)
include h

/-- The copy of a block leads to the copies of those members that the block leads to, to what the
block leads to out of the range, and, from the end of the range, to where the PERFORM goes on. -/
theorem mem_iff (hmembers : members.Nodup) (hlength : copied.length = members.length) :
    y ∈ next ↔ (∃ x ∈ t.next, (x, y) ∈ members.zip copied) ∨ (y ∈ t.next ∧ y ∉ members) ∨
      (y ∈ back ∧ t.flags.ending = false ∧ ∀ x ∈ t.next, x ∉ members) := by
  obtain ⟨kept, hkept, hnext⟩ := h
  have hmem : y ∈ kept ↔
      (∃ x ∈ t.next, (x, y) ∈ members.zip copied) ∨ (y ∈ t.next ∧ y ∉ members) := by
    constructor
    · intro hy
      obtain ⟨x, hx, hcopy | ⟨rfl, hnone⟩⟩ := exists_of_forall₂_of_mem hkept hy
      · exact .inl ⟨x, hx, hcopy⟩
      · exact .inr ⟨hx, fun hmem => (Build.exists_copy hlength hmem).elim hnone⟩
    · rintro (⟨x, hx, hcopy⟩ | ⟨hx, hout⟩) <;>
        obtain ⟨z, hz, hcopy' | ⟨rfl, hnone⟩⟩ :=
          exists_of_forall₂_of_mem (R := flip _) hkept.flip hx
      · exact Build.copy_unique hmembers hcopy hcopy' ▸ hz
      · exact absurd hcopy (hnone y)
      · exact absurd (List.of_mem_zip hcopy').1 hout
      · exact hz
  split at hnext
  · next hstays =>
    have hnot : ¬ (y ∈ back ∧ t.flags.ending = false ∧ ∀ x ∈ t.next, x ∉ members) := by
      rintro ⟨-, hending, hout⟩
      exact hstays.elim (fun h => by simp [hending] at h) fun ⟨x, hx, hmem⟩ => hout x hx hmem
    rw [hnext, hmem, ← or_assoc, or_iff_left hnot]
  · next hleaves =>
    rw [not_or, Bool.not_eq_true] at hleaves
    have hends : t.flags.ending = false ∧ ∀ x ∈ t.next, x ∉ members :=
      ⟨hleaves.1, fun x hx hmem => hleaves.2 ⟨x, hx, hmem⟩⟩
    rw [hnext.mem_iff, hmem, or_assoc, and_iff_left (a := y ∈ back) hends]

/-- If the block leads on, its copy leads on first of all to where that goes. -/
theorem exists_head? (hx : t.next.head? = some x) : ∃ y, next.head? = some y ∧
    Build.Copies.Goes (members.zip copied) x y := by
  obtain ⟨kept, hkept, hnext⟩ := h
  obtain ⟨rest, hrest⟩ : ∃ rest, t.next = x :: rest := List.head?_eq_some_iff.1 hx
  rw [hrest] at hkept
  cases hkept with
  | @cons _ y _ kept hgoes _ =>
    refine ⟨y, ?_, hgoes⟩
    split at hnext
    · rw [hnext, List.head?_cons]
    · obtain rfl | ⟨rfl, -⟩ := hnext <;> rfl

/-- If it leads nowhere, and does not end the program, its copy leads on to where the PERFORM goes
on. -/
theorem head?_eq (hnil : t.next = []) (hending : t.flags.ending = false) : next.head? = back := by
  obtain ⟨kept, hkept, hnext⟩ := h
  rw [hnil, List.forall₂_nil_left_iff] at hkept
  rw [if_neg (by simp [hnil, hending]), hkept] at hnext
  obtain rfl | ⟨rfl, hback⟩ := hnext
  · cases back <;> rfl
  · cases back with
    | none => rfl
    | some x => exact absurd (hback x rfl) List.not_mem_nil

end Spot.Resumes

namespace Build

open Graph (Joins Retains)

variable {g g' : Graph} {copies : Copies} {moves : Moves} {slots : List SlotId}
  {nexts members copied : List BlockId} {callSite first m : BlockId}

/-- The edges of a member's copy go where they should, one by one. -/
theorem graftSlots_goes (hg : g.Tight) (hcopies : ∀ p ∈ copies, p.2 < g.size)
    (hmoves : moves.Lead copies g) (hslots : ∀ k ∈ slots, k < g.slots.size) :
    Ensures (graftSlots copies slots moves) g fun r g' => Slots g g' ∧ r.2.Lead copies g' ∧
      List.Forall₂ (fun k k' => ∃ x y, g.slots[k]? = some x ∧ g'.slots[k']? = some y ∧
        copies.Goes x y) slots r.1 := by
  refine .foldlM_progress (I := fun done (r : List SlotId × Moves) g' => Slots g g' ∧
    r.2.Lead copies g' ∧ List.Forall₂ (fun k k' => ∃ x y, g.slots[k]? = some x ∧
      g'.slots[k']? = some y ∧ copies.Goes x y) done r.1) ⟨.refl hg, hmoves, .nil⟩ ?_
  rintro done k rest hl r g₁ ⟨h₁, hmoves₁, hdone⟩
  refine .bind (moveSlot_slots h₁.tight (fun p hp => h₁.size_eq ▸ hcopies p hp) hmoves₁ k) ?_
  rintro ⟨moved?, moves'⟩ g₂ ⟨h₂, hmoves₂, x', hx', hcase⟩
  have hx := Array.getElem?_eq_getElem (hslots k (by simp [hl]))
  obtain rfl := Option.some.inj ((h₁.retains.slot hx).symm.trans hx')
  refine .pure ⟨h₁.trans h₂, hmoves₂, List.rel_append (hdone.imp ?_) (.cons ?_ .nil)⟩
  · rintro k k' ⟨x, y, hx, hy, hgoes⟩
    exact ⟨x, y, hx, h₂.retains.slot hy, hgoes⟩
  · obtain ⟨t, y, rfl, hy, hcopy⟩ | ⟨rfl, hnone⟩ := hcase
    · exact ⟨_, y, hx, hy, .inl hcopy⟩
    · exact ⟨_, _, hx, h₂.retains.slot hx', .inr ⟨rfl, hnone⟩⟩

/-- The copies of members are as these, but lead to copies where there are any. -/
structure Duplicates (g : Graph) (members copied : List BlockId) (g' : Graph) : Prop extends
    Mirrors g (members.zip copied) g' where
  length : copied.length = members.length
  nodup : copied.Nodup
  goes : ∀ p ∈ members.zip copied,
    List.Forall₂ (Copies.Goes (members.zip copied)) (g.chart p.1).next (g'.chart p.2).next

namespace Duplicates

variable (h : Duplicates g members copied g') {c : BlockId}
include h

theorem isNew (hc : c ∈ copied) : g.size ≤ c ∧ c < g'.size := by
  obtain ⟨m, hm⟩ := exists_original h.length hc
  exact ⟨(h.copy hm).2.1, (h.copy hm).2.2.1⟩

end Duplicates

/-- Where there is nothing to copy all edges are as before. -/
theorem Duplicates.next_eq (hg : g.Tight) (h : Duplicates g members [] g') (b : BlockId) :
    (g'.chart b).next = (g.chart b).next := by
  obtain hb | hb := lt_or_ge b g'.size
  · refine congrArg Spot.next (hg.chart_eq h.retains (lt_of_not_ge fun hge => ?_) id)
    obtain ⟨m, hm⟩ := h.new b hge hb
    simp at hm
  · rw [Graph.chart_of_size_le hb, Graph.chart_of_size_le (h.retains.size_le.trans hb)]

/-- The copies are so far as those of the pairs in `done` should be. -/
structure Retracing (g : Graph) (copies : Copies) (done : List (BlockId × BlockId)) (moves : Moves)
    (g' : Graph) : Prop where
  mirrors : Mirrors g copies g'
  lead : moves.Lead copies g'
  next : ∀ p ∈ done, List.Forall₂ copies.Goes (g.chart p.1).next (g'.chart p.2).next

/-- One copy more gets its edges. -/
theorem Retracing.step {done : List (BlockId × BlockId)} {c : BlockId} {g₁ : Graph} (hg : g.Tight)
    (h : Retracing g copies done moves g₁) (hdone : done ⊆ copies) (hp : (m, c) ∈ copies) :
    Ensures (do
      let (slots, moves) ← graftSlots copies (← (← get).block m).successors moves
      Graph.setSuccessors c slots
      return moves : Graph.Edit Moves) g₁ fun moves g' =>
        Retracing g copies (done ++ [(m, c)]) moves g' := by
  obtain ⟨h₁, hmoves, hnext⟩ := h
  have hcopies : ∀ p ∈ copies, p.2 < g₁.size := fun p hp => (h₁.copy hp).2.2.1
  have hm := (h₁.copy hp).1
  refine .get_bind (.lift_bind fun block hblock => ?_)
  have hchart : g.chart m = block.spot g₁.slots :=
    (hg.chart_eq h₁.retains hm id).symm.trans
      (Graph.chart_of_getElem? ((Graph.block_eq_ok_iff g₁ m block).1 hblock))
  refine .bind ((graftSlots_sorted h₁.tight hcopies hmoves (h₁.original hg hp hblock)).and
    (graftSlots_goes h₁.tight hcopies hmoves fun k => h₁.tight.slot_lt
      ((Graph.block_eq_ok_iff g₁ m block).1 hblock) k)) fun r g₂ ⟨hsorted, h₂, _, hgoes⟩ => ?_
  obtain ⟨old, hold⟩ := Graph.getElem?_eq_some_of_lt (h₂.size_eq ▸ hcopies _ hp)
  refine .bind ((h₁.setSuccessors hsorted hp).and (Graph.modifyBlock_redraws h₂.tight hold
    fun k hk => ?_)) fun _ g₃ h => .pure ⟨h.1.1, h.1.2, fun p hp' => ?_⟩
  · obtain ⟨y, hy, -⟩ := hsorted.kept k hk
    exact (Array.getElem?_eq_some_iff.1 hy).1
  obtain ⟨-, -, -, -, -, hchart'⟩ := h
  have hat : List.Forall₂ copies.Goes (g.chart m).next (g₃.chart c).next := by
    rw [hchart', hchart]
    simp only [if_true, Block.spot]
    refine List.rel_filterMap ?_ hgoes
    rintro k k' ⟨x, y, hx, hy, hgoes⟩
    simpa only [hx, hy] using .some hgoes
  obtain hp' | hp' := List.mem_append.1 hp'
  · by_cases heq : p.2 = c
    · -- a copy has only one original
      have hmem : p ∈ copies := hdone hp'
      obtain rfl : p.1 = m := h₁.unique (c := c) (heq ▸ hmem) hp
      rwa [heq]
    · rw [hchart']
      simp only [if_neg heq]
      rw [h₂.chart_eq h₁.tight]
      exact hnext p hp'
  · obtain rfl := List.mem_singleton.1 hp'
    exact hat

/-- **The members of a group are copied** with the edges among them. -/
theorem copyMembers_duplicates (hg : g.Tight) (hmembers : ∀ m ∈ members, m < g.size) :
    Ensures (copyMembers members) g fun copied g' => Duplicates g members copied g' := by
  have hgoes : Ensures (copyMembers members) g fun copied g' => copied.length = members.length ∧
      ∃ moves, Retracing g (members.zip copied) (members.zip copied) moves g' := by
    refine .bind (copyBlocks_clones hg hmembers) fun copied g₁ ⟨hlength, h₁⟩ => ?_
    refine .bind (.foldlM_progress
      (I := fun done moves g' => Retracing g (members.zip copied) done moves g')
      ⟨h₁, by simp [Moves.Lead], by simp⟩ ?_) fun moves g' h => .pure ⟨hlength, moves, h⟩
    rintro done ⟨m, c⟩ rest hl moves g₂ h₂
    exact h₂.step hg (hl ▸ List.subset_append_left ..) (by simp [hl])
  refine ((copyMembers_ensures members).and hgoes).mono ?_
  rintro copied g' ⟨⟨hcopied, -⟩, hlength, moves, h⟩
  exact ⟨h.mirrors, hlength, hcopied ▸ List.nodup_range', h.next⟩

/-- A copy goes on to `back` if it ends the range: if it leads to no copy and does not end the
program. -/
def Rejoins (copied : List BlockId) (t : Spot) (back : Option BlockId) (next : List BlockId) :
    Prop :=
  if t.flags.ending = true ∨ ∃ x ∈ t.next, x ∈ copied then next = t.next
  else Joins t.next back next

/-- While the terminals in `rest` wait to be led on: the copies as they were in `g`. -/
structure Rejoining (g : Graph) (copied terminals : List BlockId) (back : Option BlockId)
    (rest : List BlockId) (g' : Graph) : Prop where
  tight : g'.Tight
  size : g'.size = g.size
  groups : g'.groups = g.groups
  sub : rest ⊆ terminals
  nodup : rest.Nodup
  waits : ∀ c ∈ rest, g'.chart c = g.chart c
  copy : ∀ c ∈ copied, c ∉ rest → ∃ next, g'.chart c = { g.chart c with next } ∧
    if (g.chart c).flags.ending = false ∧ c ∈ terminals then Joins (g.chart c).next back next
    else next = (g.chart c).next

/-- A terminal is led on, unless it ends the program. -/
theorem Rejoining.link {terminals rest : List BlockId} {c x : BlockId} {slot : SlotId} {g₁ : Graph}
    (h : Rejoining g copied terminals (some x) (c :: rest) g₁) (hslot : g₁.slots[slot]? = some x) :
    Ensures (do
      unless (← (← get).block c).flags.ending do
        let _ ← Graph.link c slot
      return .yield ⟨⟩ : Graph.Edit (ForInStep PUnit)) g₁ fun r g' => r = .yield ⟨⟩ ∧
        Rejoining g copied terminals (some x) rest g' ∧ g'.slots = g₁.slots := by
  obtain ⟨hnot, hnodup⟩ := List.nodup_cons.1 h.nodup
  have hsame := h.waits c List.mem_cons_self
  have hdone : ∀ {g' : Graph} (next : List BlockId), g'.Tight → g'.size = g₁.size →
      g'.groups = g₁.groups → g'.chart c = { g.chart c with next } →
      (if (g.chart c).flags.ending = false ∧ c ∈ terminals then
        Joins (g.chart c).next (some x) next else next = (g.chart c).next) →
      (∀ b ≠ c, g'.chart b = g₁.chart b) → Rejoining g copied terminals (some x) rest g' := by
    intro g' next htight hsize hgroups hchart hjoins hother
    refine ⟨htight, hsize.trans h.size, hgroups.trans h.groups,
      fun d hd => h.sub (List.mem_cons_of_mem c hd), hnodup, fun d hd => ?_, fun d hd hrest => ?_⟩
    · rw [hother d fun heq => hnot (heq ▸ hd), h.waits d (List.mem_cons_of_mem c hd)]
    · by_cases heq : d = c
      · subst heq
        exact ⟨next, hchart, hjoins⟩
      · rw [hother d heq]
        exact h.copy d hd fun hmem => (List.mem_cons.1 hmem).elim heq hrest
  refine .get_bind (.lift_bind fun block hblock => ?_)
  have hchart := Graph.chart_of_getElem? ((Graph.block_eq_ok_iff _ _ _).1 hblock)
  have hflags : block.flags = (g.chart c).flags := by rw [← hsame, hchart]; rfl
  split
  · next hending =>
    refine .pure ⟨rfl, hdone (g.chart c).next h.tight rfl rfl hsame ?_ fun _ _ => rfl,
      rfl⟩
    rw [if_neg fun hnot => by simp [hflags, hnot.1] at hending]
  · next hending =>
    refine .bind (Graph.link_redraws h.tight hslot) ?_
    rintro _ g' ⟨htight, hsize, hslots, hgroups, next, hjoins, hchart'⟩
    refine .pure ⟨rfl, hdone next htight hsize hgroups ?_ ?_ fun b hb => ?_, hslots⟩
    · rw [hchart', ← hsame]
      exact if_pos rfl
    · rw [if_pos ⟨by simpa [hflags] using hending, h.sub List.mem_cons_self⟩, ← hsame]
      exact hjoins
    · rw [hchart']
      exact if_neg hb

section Ends

variable {terminals : List BlockId} {back : Option BlockId} {g₁ : Graph}
  (h : Rejoining g copied terminals back [] g₁)
  (hends : ∀ {c}, c ∈ terminals ↔ c ∈ copied ∧ ∀ x ∈ (g.chart c).next, x ∉ copied)
include h hends

/-- Once all terminals have been led on, every copy leads where it should. -/
theorem Rejoining.exists_rejoins {c : BlockId} (hc : c ∈ copied) : ∃ next,
    g₁.chart c = { g.chart c with next } ∧ Rejoins copied (g.chart c) back next := by
  obtain ⟨next, hnext, hjoins⟩ := h.copy c hc List.not_mem_nil
  refine ⟨next, hnext, ?_⟩
  rw [Rejoins]
  split
  · next hstays =>
    rwa [if_neg fun hleaves => hstays.elim (fun hending => by simp [hleaves.1] at hending)
      fun ⟨x, hx, hmem⟩ => (hends.1 hleaves.2).2 x hx hmem] at hjoins
  · next hleaves =>
    rw [not_or, Bool.not_eq_true] at hleaves
    rwa [if_pos ⟨hleaves.1, hends.2 ⟨hc, fun x hx hmem => hleaves.2 ⟨x, hx, hmem⟩⟩⟩] at hjoins

/-- At last the call site is marked. -/
theorem Rejoining.mark (hlt : callSite < g.size) (hfresh : callSite ∉ copied) :
    Ensures (do
      Graph.markBlock callSite { grafted := true }
      return terminals : Graph.Edit (List BlockId)) g₁ fun _ g' =>
        (g'.Tight ∧ g'.size = g.size ∧ g'.groups = g.groups) ∧
        ∀ c ∈ copied, ∃ next, g'.chart c = { g.chart c with next } ∧
          Rejoins copied (g.chart c) back next := by
  obtain ⟨site, hsite⟩ := Graph.getElem?_eq_some_of_lt (h.size.symm ▸ hlt : callSite < g₁.size)
  refine .bind (Graph.modifyBlock_redraws h.tight hsite fun k hk =>
    h.tight.slot_lt hsite k hk) ?_
  rintro _ g' ⟨htight, hsize, -, hgroups, hchart⟩
  refine .pure ⟨⟨htight, hsize.trans h.size, hgroups.trans h.groups⟩, fun c hc => ?_⟩
  obtain ⟨next, hnext, hjoins⟩ := h.exists_rejoins hends hc
  refine ⟨next, ?_, hjoins⟩
  rw [hchart]
  exact (if_neg (ne_of_mem_of_not_mem hc hfresh)).trans hnext

end Ends

/-- **The call site is led into the copies, and those that end the range to where it led.** -/
theorem splice_rejoins (hg : g.Tight) (hfresh : callSite ∉ copied)
    (hcopied : ∀ c ∈ copied, c < g.size) (hnodup : copied.Nodup) (hfirst : first ∈ copied) :
    Ensures (splice callSite first copied) g fun _ g' =>
      (g'.Tight ∧ g'.size = g.size ∧ g'.groups = g.groups) ∧
      ∀ c ∈ copied, ∃ next, g'.chart c = { g.chart c with next } ∧
        Rejoins copied (g.chart c) (g.chart callSite).next.head? next := by
  refine .get_bind (.lift_bind fun terminals hterminals => ?_)
  refine .get_bind (.lift_bind fun block hblock => ?_)
  have hends := @Graph.mem_of_terminalsWithin_eq_ok _ _ _ hterminals
  have hblock := (Graph.block_eq_ok_iff _ _ _).1 hblock
  have hterminals_nodup : terminals.Nodup := by
    obtain ⟨p, -, rfl⟩ := exists_filter_of_filterM_eq_ok hterminals
    exact hnodup.filter p
  refine .bind (newSlot_slots hg (hcopied first hfirst)) ?_
  rintro entry g₁ ⟨hslots₁, hentry⟩
  have hchart₁ := hslots₁.chart_eq hg
  have hblock₁ : g₁.blocks[callSite]? = some block := by rw [hslots₁.blocks, hblock]
  refine .bind (Graph.modifyBlock_redraws hslots₁.tight hblock₁ fun k hk => ?_) ?_
  · rw [List.mem_singleton.1 hk]
    exact (Array.getElem?_eq_some_iff.1 hentry).1
  rintro _ g₂ ⟨htight₂, hsize₂, hslots₂, hgroups₂, hchart₂⟩
  rw [hchart₁] at hchart₂
  have hold₂ : ∀ b ≠ callSite, g₂.chart b = g.chart b := fun b hb => by
    rw [hchart₂]
    exact if_neg hb
  have hne : ∀ c ∈ copied, c ≠ callSite := fun c hc heq => hfresh (heq ▸ hc)
  have hlt : callSite < g.size := Graph.lt_size_of_getElem? hblock
  have hback : (g.chart callSite).next.head? = block.successors.head?.bind (g.slots[·]?) := by
    rw [Graph.chart_of_getElem? hblock, hg.head?_next hblock]
  dsimp only
  split
  · next slot hslot =>
    obtain ⟨x, hx⟩ : ∃ x, g.slots[slot]? = some x :=
      ⟨_, Array.getElem?_eq_getElem (hg.slot_lt hblock slot (List.mem_of_head? hslot))⟩
    rw [hback, hslot, Option.bind_some, hx]
    refine .bind (Ensures.forIn_rest (I := fun rest g₃ =>
      Rejoining g copied terminals (some x) rest g₃ ∧ g₃.slots = g₂.slots) ⟨?_, rfl⟩ ?_)
      fun _ g₃ h₃ => h₃.1.mark hends hlt hfresh
    · exact
        { tight := htight₂
          size := hsize₂.trans hslots₁.size_eq
          groups := hgroups₂.trans hslots₁.groups
          sub := List.Subset.refl _
          nodup := hterminals_nodup
          waits := fun c hc => hold₂ c (hne c (hends.1 hc).1)
          copy := fun c hc hnot => ⟨(g.chart c).next, hold₂ c (hne c hc), by
            rw [if_neg fun h => hnot h.2]⟩ }
    · rintro c rest g₃ ⟨h₃, hslots₃⟩
      have hslot₃ : g₃.slots[slot]? = some x := by
        rw [hslots₃, hslots₂]
        exact hslots₁.retains.slot hx
      refine (h₃.link hslot₃).mono ?_
      rintro r g₄ ⟨hr, h₄, hslots₄⟩
      exact ⟨hr, h₄, hslots₄.trans hslots₃⟩
  · next hnone =>
    have hnil : block.successors.head? = none := Option.eq_none_iff_forall_ne_some.2 hnone
    rw [hback, hnil, Option.bind_none]
    have hrejoining : Rejoining g copied terminals none [] g₂ :=
      { tight := htight₂
        size := hsize₂.trans hslots₁.size_eq
        groups := hgroups₂.trans hslots₁.groups
        sub := List.nil_subset _
        nodup := .nil
        waits := by simp
        copy := fun c hc _ => ⟨(g.chart c).next, hold₂ c (hne c hc), by
          split
          · exact .inr ⟨rfl, by simp⟩
          · rfl⟩ }
    exact hrejoining.mark hends hlt hfresh

/-- A copy that goes on to `back` if it ends the range leads where it should. -/
theorem Rejoins.resumes {t t' : Spot} {next : List BlockId} {back : Option BlockId}
    (h : Rejoins copied t' back next) (hlength : copied.length = members.length)
    (hnew : ∀ x ∈ t.next, x ∉ copied) (hending : t'.flags.ending = t.flags.ending)
    (hgoes : List.Forall₂ (Copies.Goes (members.zip copied)) t.next t'.next) :
    t.Resumes members copied back next := by
  refine ⟨t'.next, hgoes, ?_⟩
  have hiff : (∃ x ∈ t'.next, x ∈ copied) ↔ ∃ x ∈ t.next, x ∈ members := by
    constructor
    · rintro ⟨y, hy, hmem⟩
      obtain ⟨x, hx, hcopy | ⟨rfl, -⟩⟩ := exists_of_forall₂_of_mem hgoes hy
      · exact ⟨x, hx, (List.of_mem_zip hcopy).1⟩
      · exact absurd hmem (hnew _ hx)
    · rintro ⟨x, hx, hmem⟩
      obtain ⟨y, hy, hgoes⟩ := exists_of_forall₂_of_mem (R := flip _) hgoes.flip hx
      obtain hcopy | ⟨-, hnone⟩ := hgoes
      · exact ⟨y, hy, (List.of_mem_zip hcopy).2⟩
      · obtain ⟨c, hcopy⟩ := exists_copy hlength hmem
        exact absurd hcopy (hnone c)
  simpa only [Rejoins, hending, hiff] using h

/-- Copies of members have been spliced in at a call site. -/
structure Splices (g : Graph) (callSite : BlockId) (members copied : List BlockId) (g' : Graph) :
    Prop where
  tight : g'.Tight
  groups : g'.groups = g.groups
  retains : Retains (· = callSite) (fun _ => False) g g'
  length : copied.length = members.length
  nodup : copied.Nodup
  new : ∀ c ∈ copied, g.size ≤ c ∧ c < g'.size
  calls : ∀ c ∈ copied, ∃ m ∈ members, (g'.chart c).group = (g.chart m).group
  resumes : ∀ p ∈ members.zip copied, (g.chart p.1).Resumes members copied
    (g.chart callSite).next.head? (g'.chart p.2).next

/-- **Copies take the place of a call** and go on where the call site has led. -/
theorem Duplicates.splices {g₁ : Graph} (h : Duplicates g members copied g₁) (hg : g.Tight)
    (hsite : callSite < g.size) (hfirst : first ∈ copied) :
    Ensures (splice callSite first copied) g₁ fun _ g' => Splices g callSite members copied g' := by
  have hfresh : callSite ∉ copied := fun hc => hsite.not_ge (h.isNew hc).1
  obtain ⟨block, hblock⟩ := Graph.getElem?_eq_some_of_lt (hsite.trans_le h.retains.size_le)
  refine ((splice_retains hfresh hblock).and (splice_rejoins h.tight hfresh
    (fun c hc => (h.isNew hc).2) h.nodup hfirst)).mono ?_
  rintro _ g' ⟨⟨hretains, -⟩, ⟨htight, hsize, hgroups⟩, hrejoins⟩
  have hsame : g₁.chart callSite = g.chart callSite := hg.chart_eq h.retains hsite id
  refine
    { tight := htight
      groups := hgroups.trans h.groups
      retains := ?_
      length := h.length
      nodup := h.nodup
      new := fun c hc => hsize ▸ h.isNew hc
      calls := fun c hc => ?_
      resumes := fun p hp => ?_ }
  · refine ((h.retains.mono (D := fun b => b = callSite ∨ b ∈ copied) (fun _ _ h => h.elim)
      fun _ _ h => h.elim).trans hretains).mono (fun b hb hB => ?_) fun _ _ h => h
    exact hB.resolve_right fun hc => hb.not_ge (h.isNew hc).1
  · obtain ⟨m, hm⟩ := exists_original h.length hc
    obtain ⟨next, hnext, -⟩ := hrejoins c hc
    exact ⟨m, (List.of_mem_zip hm).1, by rw [hnext, (h.copy hm).2.2.2.2]⟩
  · obtain ⟨next, hnext, hrejoins⟩ := hrejoins p.2 (List.of_mem_zip hp).2
    rw [hnext, ← hsame]
    refine hrejoins.resumes h.length (fun x hx hmem => (hg.next_lt hx).not_ge (h.isNew hmem).1)
      (congrArg BlockFlags.ending (h.copy hp).2.2.2.1) (h.goes p hp)

end Build

end CobolFlow
