import CobolFlow.Proofs.Calls.Splicing
import CobolFlow.Proofs.Steps.Replay

/-!
# No two call sites share a member

The members of a group are copies made for it alone. This is so of captured groups because a range
is copied into new blocks, and it stays so when groups are spliced in, although a nested group is
for a while given the members of the group that it stands for: it is spliced in at once, which gives
it members of its own, and where it is not to be spliced in it is given none.

An edit may therefore be looked at as one that *renews* some groups. What it makes of their members
is newer than every block there was, so nothing need be known of what they were before.

## Main definitions

* `Graph.Apart`, `Scope.Apart` — no member is shared, and none belongs to a sentence
* `Graph.Renews` — some groups have been given new members

## Main results

* `Build.graft_renews` — splicing in renews
* `Builder.exists_run_sharesNoMember` — no program that a replay describes shares a member
-/

namespace CobolFlow

namespace Graph

variable {g g' g'' : Graph} {N N' : GroupId → Prop} {i : GroupId}

/-- The members of a group; a number that is no group stands for a group without any. -/
def membersOf (g : Graph) (i : GroupId) : List BlockId := (g.groups[i]?.map (·.members)).getD []

theorem membersOf_of_getElem? {group : Group} (h : g.groups[i]? = some group) :
    g.membersOf i = group.members := by
  simp [membersOf, h]

/-- The block is a member of some group. -/
def IsMember (g : Graph) (b : BlockId) : Prop := ∃ i, b ∈ g.membersOf i

theorem mem_flatMap_members_iff {b : BlockId} :
    b ∈ g.groups.toList.flatMap (·.members) ↔ g.IsMember b := by
  simp only [List.mem_flatMap, Array.mem_toList_iff, Array.mem_iff_getElem?, IsMember, membersOf]
  constructor
  · rintro ⟨group, ⟨i, hi⟩, hb⟩
    exact ⟨i, by simpa [hi] using hb⟩
  · rintro ⟨i, hb⟩
    cases hi : g.groups[i]? with
    | none => simp [hi] at hb
    | some group => exact ⟨group, ⟨i, hi⟩, by simpa [hi] using hb⟩

theorem membersOf_congr (h : g'.groups[i]? = g.groups[i]?) : g'.membersOf i = g.membersOf i := by
  simp [membersOf, h]

theorem eq_of_modifyGroup_eq_ok {f : Group → Group} (h : modifyGroup i f g = .ok ((), g')) :
    i < g.groups.size ∧ g' = { g with groups := g.groups.modify i f } := by
  unfold modifyGroup at h
  split at h
  · next hi => exact ⟨hi, (Prod.mk.inj (Except.ok.inj h)).2.symm⟩
  · exact nomatch h

/-- Members are blocks, each of one group and listed there once. -/
structure Apart (g : Graph) : Prop where
  lt : ∀ i, ∀ b ∈ g.membersOf i, b < g.size
  nodup : ∀ i, (g.membersOf i).Nodup
  disjoint : ∀ i j, i ≠ j → (g.membersOf i).Disjoint (g.membersOf j)

/-- The groups in `N` have new members, which they do not share; all others have those that they
had. -/
structure Renews (g g' : Graph) (N : GroupId → Prop) : Prop where
  size_le : g.size ≤ g'.size
  groups_le : g.groups.size ≤ g'.groups.size
  old : ∀ i, ¬ N i → g'.membersOf i = g.membersOf i
  new : ∀ i, N i → ∀ b ∈ g'.membersOf i, g.size ≤ b ∧ b < g'.size
  nodup : ∀ i, N i → (g'.membersOf i).Nodup
  disjoint : ∀ i j, N i → N j → i ≠ j → (g'.membersOf i).Disjoint (g'.membersOf j)

namespace Renews

/-- An edit that no group is concerned with. -/
theorem of_membersOf_eq (hsize : g.size ≤ g'.size) (hgroups : g.groups.size ≤ g'.groups.size)
    (h : ∀ i, g'.membersOf i = g.membersOf i) : Renews g g' fun _ => False where
  size_le := hsize
  groups_le := hgroups
  old i _ := h i
  new _ h := h.elim
  nodup _ h := h.elim
  disjoint _ _ h := h.elim

theorem of_groups_eq (hsize : g.size ≤ g'.size) (hgroups : g'.groups = g.groups) :
    Renews g g' fun _ => False :=
  .of_membersOf_eq hsize (by rw [hgroups]) fun _ => membersOf_congr (by rw [hgroups])

theorem trans (h : Renews g g' N) (h' : Renews g' g'' N') :
    Renews g g'' fun i => N i ∨ N' i := by
  -- what was new after the first edit is older than what is new after the second
  have hmem : ∀ i, (N i ∨ N' i) → ∀ b ∈ g''.membersOf i, g.size ≤ b ∧ b < g''.size ∧
      (¬ N' i → N i ∧ b ∈ g'.membersOf i ∧ b < g'.size) := by
    intro i hi b hb
    by_cases hi' : N' i
    · have := h'.new i hi' b hb
      exact ⟨h.size_le.trans this.1, this.2, fun hn => absurd hi' hn⟩
    · have hi := hi.resolve_right hi'
      rw [h'.old i hi'] at hb
      have := h.new i hi b hb
      exact ⟨this.1, this.2.trans_le h'.size_le, fun _ => ⟨hi, hb, this.2⟩⟩
  refine ⟨h.size_le.trans h'.size_le, h.groups_le.trans h'.groups_le, fun i hi => ?_,
    fun i hi b hb => ⟨(hmem i hi b hb).1, (hmem i hi b hb).2.1⟩, fun i hi => ?_, ?_⟩
  · rw [h'.old i fun hn => hi (.inr hn), h.old i fun hn => hi (.inl hn)]
  · by_cases hi' : N' i
    · exact h'.nodup i hi'
    · rw [h'.old i hi']
      exact h.nodup i (hi.resolve_right hi')
  · intro i j hi hj hij b hbi hbj
    by_cases hi' : N' i <;> by_cases hj' : N' j
    · exact h'.disjoint i j hi' hj' hij hbi hbj
    · exact ((hmem j hj b hbj).2.2 hj').2.2.not_ge (h'.new i hi' b hbi).1
    · exact ((hmem i hi b hbi).2.2 hi').2.2.not_ge (h'.new j hj' b hbj).1
    · obtain ⟨hi, hbi, -⟩ := (hmem i hi b hbi).2.2 hi'
      obtain ⟨hj, hbj, -⟩ := (hmem j hj b hbj).2.2 hj'
      exact h.disjoint i j hi hj hij hbi hbj

/-- What the groups that are renewed had before does not matter. -/
theorem of_old_eq (h : Renews g' g'' N) (hsize : g'.size = g.size)
    (hgroups : g.groups.size ≤ g'.groups.size)
    (hold : ∀ i, ¬ N i → g'.membersOf i = g.membersOf i) : Renews g g'' N :=
  { h with
    size_le := hsize ▸ h.size_le
    groups_le := hgroups.trans h.groups_le
    old := fun i hi => (h.old i hi).trans (hold i hi)
    new := fun i hi b hb => hsize ▸ h.new i hi b hb }

theorem congr (h : Renews g g' N) (hN : ∀ i, N i ↔ N' i) : Renews g g' N' := by
  obtain rfl : N = N' := funext fun i => propext (hN i)
  exact h

/-- No member is shared after an edit that renews, if none was before. -/
theorem apart (h : Renews g g' N) (hg : g.Apart) : g'.Apart where
  lt i b hb := by
    by_cases hi : N i
    · exact (h.new i hi b hb).2
    · rw [h.old i hi] at hb
      exact (hg.lt i b hb).trans_le h.size_le
  nodup i := by
    by_cases hi : N i
    · exact h.nodup i hi
    · rw [h.old i hi]
      exact hg.nodup i
  disjoint i j hij b hbi hbj := by
    by_cases hi : N i <;> by_cases hj : N j
    · exact h.disjoint i j hi hj hij hbi hbj
    · rw [h.old j hj] at hbj
      exact (hg.lt j b hbj).not_ge (h.new i hi b hbi).1
    · rw [h.old i hi] at hbi
      exact (hg.lt i b hbi).not_ge (h.new j hj b hbj).1
    · rw [h.old i hi] at hbi
      rw [h.old j hj] at hbj
      exact hg.disjoint i j hij hbi hbj

/-- An edit that spares calls. -/
theorem of_sparesCalls {α : Type} {x : Edit α} (hx : x.SparesCalls) {a : α}
    (h : x g = .ok (a, g')) :
    Renews g g' fun _ => False :=
  .of_groups_eq (hx _ _ _ h).1.size_le (hx _ _ _ h).2

/-- A group is opened, which has no members yet. -/
theorem opened {group : Group} (hsize : g.size ≤ g'.size)
    (hgroups : g'.groups = g.groups.push group)
    (hmembers : group.members = []) : Renews g g' fun _ => False := by
  refine .of_membersOf_eq hsize (by simp [hgroups]) fun i => ?_
  by_cases hi : i = g.groups.size
  · simp [membersOf, hgroups, hi, hmembers]
  · simp [membersOf, hgroups, Array.getElem?_push, hi]

/-- A group is changed, but for its members. -/
theorem modified {f : Group → Group} (hf : ∀ group, (f group).members = group.members)
    (hsize : g.size ≤ g'.size) (hgroups : g'.groups = g.groups.modify i f) :
    Renews g g' fun _ => False := by
  refine .of_membersOf_eq hsize (by simp [hgroups]) fun j => ?_
  simp only [membersOf, hgroups, Array.getElem?_modify]
  split
  · simp [Option.map_map, Function.comp_def, hf]
  · rfl

/-- A group is given blocks that were made before other groups were renewed. -/
theorem fill {g₁ : Graph} {f : Group → Group} {copied : List BlockId} (h₁ : g.size ≤ g₁.size)
    (hgroups₁ : g₁.groups = g.groups) (h : Renews g₁ g' N) (hi : ¬ N i) (hnodup : copied.Nodup)
    (hcopied : ∀ b ∈ copied, g.size ≤ b ∧ b < g₁.size)
    (hf : ∀ group, (f group).members = copied) (hsize : g''.size = g'.size)
    (hgroups : g''.groups = g'.groups.modify i f) : Renews g g'' fun j => N j ∨ j = i := by
  have hmem : ∀ j, g''.membersOf j = if j = i ∧ i < g'.groups.size then copied else
      g'.membersOf j := fun j => by
    simp only [membersOf, hgroups, Array.getElem?_modify]
    by_cases hj : i = j
    · subst hj
      cases hgroup : g'.groups[i]? with
      | none => simp [Array.getElem?_eq_none_iff.1 hgroup]
      | some group => simp [hf, (Array.getElem?_eq_some_iff.1 hgroup).1]
    · simp [hj, Ne.symm hj]
  have hsub : ∀ b ∈ g''.membersOf i, b ∈ copied := fun b hb => by
    rw [hmem] at hb
    split at hb
    · exact hb
    · next hlt => simp [membersOf, Array.getElem?_eq_none (not_lt.1 fun h => hlt ⟨rfl, h⟩)] at hb
  have hne : ∀ j, j ≠ i → g''.membersOf j = g'.membersOf j := fun j hj => by simp [hmem, hj]
  have hnew : ∀ j, N j → ∀ b ∈ g''.membersOf j, g₁.size ≤ b ∧ b < g'.size := fun j hj b hb => by
    rw [hne j fun heq => hi (heq ▸ hj)] at hb
    exact h.new j hj b hb
  refine ⟨h₁.trans (hsize ▸ h.size_le), ?_, fun j hj => ?_, fun j hj b hb => ?_, fun j hj => ?_, ?_⟩
  · simpa [hgroups, hgroups₁] using h.groups_le
  · rw [hne j fun heq => hj (.inr heq), h.old j fun hn => hj (.inl hn)]
    exact membersOf_congr (by rw [hgroups₁])
  · rw [hsize]
    obtain hj | rfl := hj
    · exact ⟨h₁.trans (hnew j hj b hb).1, (hnew j hj b hb).2⟩
    · exact ⟨(hcopied b (hsub b hb)).1, (hcopied b (hsub b hb)).2.trans_le h.size_le⟩
  · obtain hj | rfl := hj
    · rw [hne j fun heq => hi (heq ▸ hj)]
      exact h.nodup j hj
    · rw [hmem]
      split
      · exact hnodup
      · next hlt => simp [membersOf, Array.getElem?_eq_none (not_lt.1 fun h => hlt ⟨rfl, h⟩)]
  · rintro j k (hj | rfl) (hk | rfl) hjk b hbj hbk
    · rw [hne j fun heq => hi (heq ▸ hj)] at hbj
      rw [hne k fun heq => hi (heq ▸ hk)] at hbk
      exact h.disjoint j k hj hk hjk hbj hbk
    · exact (hcopied b (hsub b hbk)).2.not_ge (hnew j hj b hbj).1
    · exact (hcopied b (hsub b hbj)).2.not_ge (hnew k hk b hbk).1
    · exact hjk rfl

/-- What was no member before is none after an edit that renews. -/
theorem not_mem (h : Renews g g' N) {b : BlockId} (hb : b < g.size)
    (hout : ∀ i, b ∉ g.membersOf i) (i : GroupId) : b ∉ g'.membersOf i := by
  by_cases hi : N i
  · exact fun hmem => hb.not_ge (h.new i hi b hmem).1
  · rw [h.old i hi]
    exact hout i

end Renews

end Graph

namespace Build

open Graph

variable {g : Graph} {levels : ℕ}

/-! ### Splicing in -/

/-- Copies are the next blocks, one after another. -/
theorem copyBlocks_ensures (blocks : List BlockId) :
    Ensures (copyBlocks blocks) g fun copied g' => copied = List.range' g.size blocks.length ∧
      g'.size = g.size + blocks.length ∧ g'.groups = g.groups := by
  unfold copyBlocks
  induction blocks generalizing g with
  | nil => exact .pure ⟨rfl, rfl, rfl⟩
  | cons b rest ih =>
    rw [List.mapM_cons]
    refine .bind (P := fun c g' => c = g.size ∧ g'.size = g.size + 1 ∧ g'.groups = g.groups)
      (.get_bind (.lift_bind fun block _ => .modifyGet ⟨rfl, by simp [size], rfl⟩)) ?_
    rintro _ g₁ ⟨rfl, hsize₁, hgroups₁⟩
    refine .bind ih ?_
    rintro _ g₂ ⟨rfl, hsize₂, hgroups₂⟩
    refine .pure ⟨?_, ?_, hgroups₂.trans hgroups₁⟩
    · rw [List.length_cons, List.range'_succ, hsize₁]
    · rw [List.length_cons]
      omega

theorem copyMembers_ensures (members : List BlockId) :
    Ensures (copyMembers members) g fun copied g' => copied = List.range' g.size members.length ∧
      g.size + members.length ≤ g'.size ∧ g'.groups = g.groups := by
  refine .bind (copyBlocks_ensures members) ?_
  rintro _ g₁ ⟨rfl, hsize₁, hgroups₁⟩
  refine .bind (P := fun _ g' => g₁.KeepsCalls g' ∧ g'.groups = g₁.groups) ?_ ?_
  · exact Edit.SparesCalls.foldlM (fun _ _ => .bind .get fun _ => .bind (.lift _) fun _ =>
      .bind (.graftSlots _ _ _) fun _ => .bind (.setSuccessors _ _) fun _ => .pure _) _ _ g₁
  · rintro _ g₂ ⟨hkeep, hgroups₂⟩
    exact .pure ⟨rfl, hsize₁.symm.le.trans hkeep.size_le, hgroups₂.trans hgroups₁⟩

/-- What splicing a group in renews: new groups, and the group itself if it is spliced in. -/
def Regrouped (levels : ℕ) (i : GroupId) (g g' : Graph) : Prop :=
  ∃ N : GroupId → Prop, g.Renews g' N ∧ (∀ j, N j → j = i ∨ g.groups.size ≤ j) ∧
    ∀ group, g.groups[i]? = some group → group.recursive = false → group.members ≠ [] →
      levels ≠ 0 → N i

/-- One copy is dealt with. The group that is opened at it has the members of another group for as
long as it takes to splice it in. -/
theorem spread_renews (hgraft : ∀ (j : GroupId) (g : Graph),
      Ensures (graft levels j) g fun _ g' => Regrouped levels j g g') (copy : BlockId) :
    Ensures (spread levels copy) g fun _ g' =>
      ∃ N : GroupId → Prop, g.Renews g' N ∧ ∀ j, N j → g.groups.size ≤ j := by
  intro r g' hrun
  have hquiet : ∀ {g' : Graph}, (g.Renews g' fun _ => False) →
      ∃ N : GroupId → Prop, g.Renews g' N ∧ ∀ j, N j → g.groups.size ≤ j :=
    fun h => ⟨_, h, fun _ hj => hj.elim⟩
  obtain ⟨-, ⟨-, rfl⟩ | ⟨i, source, -, -, -, ⟨hnot, rfl⟩ | ⟨hgrafted, hrun'⟩⟩⟩ :=
    spread_cases levels copy r g' hrun
  · exact hquiet (.of_groups_eq le_rfl rfl)
  · exact hquiet (.opened (size_openedAt g copy _).ge rfl (if_neg hnot))
  · -- the group has the members of `source`, and at once new ones
    obtain ⟨N, hrenews, hN, hNj⟩ := hgraft _ _ _ _ hrun'
    have hmembers : (nested levels source g.groups.size copy).members = source.members :=
      if_pos hgrafted
    have hnew : N g.groups.size :=
      hNj _ Array.getElem?_push_size hgrafted.2.1 (hmembers ▸ hgrafted.2.2) hgrafted.1
    refine ⟨N, hrenews.of_old_eq (size_openedAt _ _ _) (by simp [openedAt]) fun j hj => ?_,
      fun j hj => ?_⟩
    · have hne : j ≠ g.groups.size := fun heq => hj (heq ▸ hnew)
      exact membersOf_congr (by simp [openedAt, Array.getElem?_push, hne])
    · have hj := hN j hj
      simp only [openedAt, Array.size_push] at hj
      obtain rfl | hj := hj
      · exact le_rfl
      · omega

/-- **Splicing a group in** gives new members to it, if anything, and to new groups. -/
theorem graft_renews (levels : ℕ) (i : GroupId) (g : Graph) :
    Ensures (graft levels i) g fun _ g' => Regrouped levels i g g' := by
  induction levels generalizing i g with
  | zero =>
    exact .pure ⟨_, .of_groups_eq le_rfl rfl, fun _ hj => hj.elim, fun _ _ _ _ h => absurd rfl h⟩
  | succ levels ih =>
    refine .get_bind (.lift_bind fun group hok => ?_)
    have hgroup := (group_eq_ok_iff g i group).1 hok
    split
    · next hrecursive =>
      refine .pure ⟨_, .of_groups_eq le_rfl rfl, fun _ hj => hj.elim,
        fun group' hgroup' hplain => ?_⟩
      obtain rfl := Option.some.inj (hgroup.symm.trans hgroup')
      simp [hrecursive] at hplain
    refine .bind (copyMembers_ensures group.members) ?_
    rintro _ g₁ ⟨rfl, hsize₁, hgroups₁⟩
    have hg₁ : g.size ≤ g₁.size := (Nat.le_add_right _ _).trans hsize₁
    split
    swap
    · next hempty =>
      refine .pure ⟨_, .of_groups_eq hg₁ hgroups₁, fun _ hj => hj.elim,
        fun group' hgroup' _ hmembers => ?_⟩
      obtain rfl := Option.some.inj (hgroup.symm.trans hgroup')
      cases hcase : group.members with
      | nil => exact absurd hcase hmembers
      | cons b rest => exact (hempty _ _ (by rw [hcase, List.length_cons, List.range'_succ])).elim
    next first rest hcopied =>
    refine .bind (P := fun _ g₂ => g₁.Renews g₂ fun _ => False)
      (fun _ _ h => .of_sparesCalls (.splice _ _ _) h) fun terminals g₂ h₂ => ?_
    refine .bind (P := fun _ g₃ => ∃ N : GroupId → Prop, g₁.Renews g₃ N ∧
      ∀ j, N j → g.groups.size ≤ j) (.forIn ⟨_, h₂, fun _ hj => hj.elim⟩ ?_) ?_
    · rintro copy - - g₃ ⟨N, h₃, hN⟩
      refine (spread_renews ih copy).mono ?_
      rintro r g₄ ⟨N', h₄, hN'⟩
      refine ⟨_, h₃.trans h₄, fun j hj => hj.elim (hN j) fun hj => ?_⟩
      exact (hgroups₁ ▸ h₃.groups_le).trans (hN' j hj)
    · rintro _ g₃ ⟨N, h₃, hN⟩ _ g' h
      obtain ⟨hi, rfl⟩ := eq_of_modifyGroup_eq_ok h
      have hiold : ¬ N i := fun hn =>
        (Array.getElem?_eq_some_iff.1 hgroup).1.not_ge (hN i hn)
      refine ⟨_, .fill (f := fun old => { old with
          members := List.range' g.size group.members.length, terminals }) hg₁ hgroups₁ h₃ hiold
        List.nodup_range' (fun b hb => ?_) (fun _ => rfl) rfl rfl, fun j hj => ?_,
        fun _ _ _ _ _ => .inr rfl⟩
      · simp only [List.mem_range'_1] at hb
        exact ⟨hb.1, hb.2.trans_le hsize₁⟩
      · exact hj.elim (fun hj => .inr (hN j hj)) .inl

theorem graftGroups_renews (o : Options) (g : Graph) :
    Ensures (graftGroups o) g fun _ g' => ∃ N : GroupId → Prop, g.Renews g' N := by
  refine .get_bind (.bind (P := fun _ g' => ∃ N : GroupId → Prop, g.Renews g' N)
    (.forIn ⟨_, .of_groups_eq le_rfl rfl⟩ ?_) ?_)
  · rintro i - - g₁ ⟨N, h₁⟩
    refine .bind ((graft_renews o.maxGraftDepth i g₁)) ?_
    rintro _ g₂ ⟨N', h₂, -⟩
    exact .pure ⟨_, h₁.trans h₂⟩
  · rintro _ g' ⟨N, h⟩
    exact .pure ⟨N, h⟩

/-! ### Capturing -/

/-- A step that no group and no procedure is concerned with. -/
def Spares (s s' : Scope) : Prop :=
  s.graph.size ≤ s'.graph.size ∧ s'.graph.groups = s.graph.groups ∧ s'.procedures = s.procedures

theorem Spares.of_reflTransGen {s s' : Scope} (h : Relation.ReflTransGen Spares s s') :
    Spares s s' := by
  induction h with
  | refl => exact ⟨le_rfl, rfl, rfl⟩
  | tail _ h ih => exact ⟨ih.1.trans h.1, h.2.1.trans ih.2.1, h.2.2.trans ih.2.2⟩

theorem editGraph_spares {α : Type} {e : Graph.Edit α} (he : e.SparesCalls) :
    Within Spares (editGraph e) := by
  intro s a s' hrun
  obtain ⟨g, hg, rfl⟩ := exists_of_editGraph_eq_ok hrun
  exact .single ⟨(he _ _ _ hg).1.size_le, (he _ _ _ hg).2, rfl⟩

theorem relocateSlots_spares (w : PendingPerform) (range : String) (copies : Copies)
    (block : Block) (b : BlockId) (isLast : Bool) (moves : Moves) :
    Within Spares (relocateSlots w range copies block b isLast moves) := by
  refine .foldlM fun (kept, moves) slot => ?_
  refine .bind (editGraph_spares (.moveSlot copies moves slot)) fun (moved?, moves) => ?_
  cases moved? with
  | some moved => exact .pure _
  | none =>
    cases isLast with
    | true => exact .pure _
    | false => exact .bind (.modify fun _ => ⟨le_rfl, rfl, rfl⟩) fun _ => .pure _

theorem relocate_renews (w : PendingPerform) (range : String) (captured : List BlockId)
    (s : Scope) : Ensures (relocate w range captured) s fun _ s' =>
      s.graph.Renews s'.graph (· = w.group) ∧ s'.procedures = s.procedures := by
  refine .bind (P := fun members s₁ => members = List.range' s.graph.size captured.length ∧
    s₁.graph.size = s.graph.size + captured.length ∧ s₁.graph.groups = s.graph.groups ∧
    s₁.procedures = s.procedures) ?_ ?_
  · intro members s₁ hrun
    obtain ⟨g, hg, rfl⟩ := exists_of_editGraph_eq_ok hrun
    obtain ⟨hmembers, hsize, hgroups⟩ := copyBlocks_ensures captured _ _ hg
    exact ⟨hmembers, hsize, hgroups, rfl⟩
  rintro _ s₁ ⟨rfl, hsize₁, hgroups₁, hprocedures₁⟩
  refine .bind (P := fun _ s₂ => Spares s₁ s₂) ?_ ?_
  · refine ((Within.foldlM (R := Spares) fun moves (b, copy) => ?_) s₁).mono
      fun _ _ h => .of_reflTransGen h
    exact .bind .get fun _ => .bind (.lift _) fun block =>
      .bind (relocateSlots_spares w range _ block b _ moves) fun _ =>
      .bind (editGraph_spares (.setSuccessors _ _)) fun _ => .pure _
  rintro _ s₂ ⟨hsize₂, hgroups₂, hprocedures₂⟩
  refine .get_bind (.lift_bind fun terminals _ => ?_)
  intro _ s' hrun
  obtain ⟨g, hg, rfl⟩ := exists_of_editGraph_eq_ok hrun
  obtain ⟨-, rfl⟩ := eq_of_modifyGroup_eq_ok hg
  refine ⟨.congr (.fill (f := fun old => { old with
      members := List.range' s.graph.size captured.length, terminals })
    (Nat.le_add_right _ _ |>.trans hsize₁.ge) hgroups₁
    (.of_groups_eq hsize₂ hgroups₂) id List.nodup_range' (fun b hb => ?_) (fun _ => rfl) rfl rfl)
    fun _ => by simp, hprocedures₂.trans hprocedures₁⟩
  simp only [List.mem_range'_1] at hb
  exact ⟨hb.1, hb.2.trans_le hsize₁.ge⟩

end Build

/-! ### Whole programs -/

namespace Scope

/-- No member is shared, and none belongs to a sentence. -/
structure Apart (s : Scope) : Prop where
  graph : s.graph.Apart
  lt : ∀ {j : SentenceId} {t : Sentence}, s.procedures.sentences[j]? = some t →
    ∀ b ∈ t.blocks, b < s.graph.size
  unlisted : ∀ {j : SentenceId} {t : Sentence}, s.procedures.sentences[j]? = some t →
    ∀ b ∈ t.blocks, ∀ i, b ∉ s.graph.membersOf i

variable {s s' : Scope}

theorem apart_empty (program : Option String) : ({ procedures := { program } } : Scope).Apart where
  graph := ⟨by simp [Graph.membersOf], by simp [Graph.membersOf], by simp [Graph.membersOf]⟩
  lt h := by simp at h
  unlisted h := by simp at h

/-- Some groups are renewed. -/
theorem Apart.renew (h : s.Apart) {N : GroupId → Prop} (hg : s.graph.Renews s'.graph N)
    (hprocedures : s'.procedures = s.procedures) : s'.Apart where
  graph := hg.apart h.graph
  lt ht b hb := (h.lt (hprocedures ▸ ht) b hb).trans_le hg.size_le
  unlisted ht b hb := hg.not_mem (h.lt (hprocedures ▸ ht) b hb) (h.unlisted (hprocedures ▸ ht) b hb)

/-- The catalog changes, but for the blocks of its sentences. -/
theorem Apart.declare (h : s.Apart) (hgraph : s'.graph = s.graph)
    (hsentences : ∀ {j : SentenceId} {t : Sentence}, s'.procedures.sentences[j]? = some t →
      t.blocks = [] ∨ ∃ t', s.procedures.sentences[j]? = some t' ∧ t.blocks = t'.blocks) :
    s'.Apart where
  graph := hgraph ▸ h.graph
  lt {j t} ht b hb := by
    obtain hnil | ⟨t', ht', hblocks⟩ := hsentences ht
    · simp [hnil] at hb
    · rw [hgraph]
      exact h.lt ht' b (hblocks ▸ hb)
  unlisted {j t} ht b hb := by
    obtain hnil | ⟨t', ht', hblocks⟩ := hsentences ht
    · simp [hnil] at hb
    · rw [hgraph]
      exact h.unlisted ht' b (hblocks ▸ hb)

end Scope

/-- A small edit of a graph renews no group. -/
theorem Graph.Step.renews {g g' : Graph} (h : g.Step g') : g.Renews g' fun _ => False := by
  cases h with
  | note roots owners nodes division compound => exact .of_groups_eq le_rfl rfl
  | write b is m hm => exact .of_groups_eq (by simp [size]) rfl
  | slot c => exact .of_groups_eq le_rfl rfl
  | link b k h => exact .of_groups_eq (by simp [size]) rfl
  | edge b c => exact .of_groups_eq (by simp) rfl
  | call b node range => exact .opened (by simp [size]) rfl rfl
  | finish => exact .of_groups_eq (by simp) rfl

/-- A new block is listed, which is no member because no member is as new. -/
theorem Scope.Apart.grow {s : Scope} (h : s.Apart) (tag : Option String) : ({ s with
    graph := s.graph.grow { declaratives := s.declaratives.isSome } tag
    procedures := s.procedures.list s.currentSentence [s.graph.size] } : Scope).Apart := by
  have hgraph : s.graph.Renews (s.graph.grow { declaratives := s.declaratives.isSome } tag)
      fun _ => False := .of_groups_eq (by simp) rfl
  refine ⟨hgraph.apart h.graph, fun ht b hb => ?_, fun ht b hb => ?_⟩
  · obtain ⟨t', ht', -, hmem⟩ := Procedures.exists_of_getElem?_list ht
    obtain hb | ⟨-, hb⟩ := hmem b hb
    · exact (h.lt ht' b hb).trans_le hgraph.size_le
    · obtain rfl := List.mem_singleton.1 hb
      simp
  · obtain ⟨t', ht', -, hmem⟩ := Procedures.exists_of_getElem?_list ht
    obtain hb | ⟨-, hb⟩ := hmem b hb
    · exact hgraph.not_mem (h.lt ht' b hb) (h.unlisted ht' b hb)
    · obtain rfl := List.mem_singleton.1 hb
      exact fun i hi => (h.graph.lt i _ (hgraph.old i id ▸ hi)).false

theorem Scope.Apart.step {s s' : Scope} (h : s.Apart) (hstep : s.Step s') : s'.Apart := by
  cases hstep with
  | graph hg => exact h.renew hg.renews rfl
  | aside hgraph hprocedures hdeclaratives hsentence =>
    exact h.declare hgraph fun ht => .inr ⟨_, hprocedures ▸ ht, rfl⟩
  | grow tag => exact h.grow tag
  | declare hc => exact h.declare rfl fun ht => .inr ⟨_, hc ▸ ht, rfl⟩
  | openSentence hc =>
    refine h.declare rfl fun {j t} ht => ?_
    rw [hc, Array.getElem?_push] at ht
    split at ht
    · exact .inl (by rw [← Option.some.inj ht])
    · exact .inr ⟨t, ht, rfl⟩
  | entry j k =>
    refine h.declare rfl fun {i t} ht => .inr ?_
    simp only [Array.getElem?_modify] at ht
    split at ht
    · obtain ⟨t', ht', rfl⟩ := Option.map_eq_some_iff.1 ht
      exact ⟨t', ht', rfl⟩
    · exact ⟨t, ht, rfl⟩
  | enterDeclaratives b => exact h.declare rfl fun ht => .inr ⟨_, ht, rfl⟩

theorem Scope.Apart.move {s s' : Scope} (h : s.Apart) (hmove : s.Move s') : s'.Apart := by
  cases hmove with
  | step hstep => exact h.step hstep
  | leaveDeclaratives => exact h.declare rfl fun ht => .inr ⟨_, ht, rfl⟩
  | start hg =>
    obtain ⟨-, rfl⟩ := (Graph.modifyBlock_eq_ok_iff _ _ _ _).1 hg
    exact h.renew (.of_groups_eq (by simp [Graph.size]) rfl) rfl
  | markRecursive hg =>
    obtain ⟨-, rfl⟩ := Graph.eq_of_modifyGroup_eq_ok hg
    exact h.renew (.modified (f := fun group => { group with recursive := true })
      (fun _ => rfl) le_rfl rfl) rfl
  | relocate hrun =>
    obtain ⟨hrenews, hprocedures⟩ := Build.relocate_renews _ _ _ _ _ _ hrun
    exact h.renew hrenews hprocedures
  | graft hrun =>
    obtain ⟨N, hrenews⟩ := Build.graftGroups_renews _ _ _ _ hrun
    exact h.renew hrenews rfl

/-- Every call site has its members to itself, and shares none with the text of the program. -/
structure ProgramFlow.SharesNoMember (flow : ProgramFlow) : Prop where
  nodup : ∀ {i : GroupId} {group : Group}, flow.graph.groups[i]? = some group →
    group.members.Nodup
  disjoint : ∀ {i j : GroupId} {group group' : Group}, flow.graph.groups[i]? = some group →
    flow.graph.groups[j]? = some group' → i ≠ j → group.members.Disjoint group'.members
  unlisted : ∀ {i : GroupId} {group : Group} {j : SentenceId} {t : Sentence},
    flow.graph.groups[i]? = some group → flow.procedures.sentences[j]? = some t →
    group.members.Disjoint t.blocks

/-- **No two call sites share a member**, whatever is replayed and however deep groups are spliced
into groups. -/
theorem Builder.exists_run_sharesNoMember (o : Options) (events : List Notification) :
    ∃ flows, run o events = .ok flows ∧ ∀ flow ∈ flows, flow.SharesNoMember := by
  obtain ⟨flows, hrun, hflows⟩ := exists_run_of_move (I := Scope.Apart) Scope.apart_empty
    (fun h hmove => h.move hmove) o events
  refine ⟨flows, hrun, fun flow hflow => ?_⟩
  obtain ⟨s, hs, hgraph, hprocedures⟩ := hflows flow hflow
  have hmembers : ∀ {i : GroupId} {group : Group}, flow.graph.groups[i]? = some group →
      s.graph.membersOf i = group.members := fun h => Graph.membersOf_of_getElem? (hgraph ▸ h)
  refine ⟨fun {i _} hi => hmembers hi ▸ hs.graph.nodup i, fun hi hj hij => ?_,
    fun hi ht b hb hbt => ?_⟩
  · rw [← hmembers hi, ← hmembers hj]
    exact hs.graph.disjoint _ _ hij
  · rw [← hmembers hi] at hb
    exact hs.unlisted (hprocedures ▸ ht) b hbt _ hb

end CobolFlow
