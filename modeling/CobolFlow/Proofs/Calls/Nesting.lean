import CobolFlow.Proofs.Calls.Growth

/-!
# How deep groups are nested

A group that is spliced in opens groups at its members, which are spliced in with one level less. So
below a group that is spliced in with some levels there are as many layers of groups, and those of
the last layer are empty: had they something to perform, they are marked as cut.

What is opened at a copy is made from the group that its original calls, and that group may have
been spliced in already. The copy has the members of it only if that group was not cut itself.
This is so because the levels left below the group that is called are never fewer than those that
are left for the copy.

## Main definitions

* `Group.Whole`, `Group.Cut` — a group above the nesting limit, and one at the limit
* `Graph.Nests` — so many layers of groups below a group are whole
* `Graph.Stems` — a group that has been opened at a member of another

## Main results

* `Build.graft_branches`, `Build.graftGroups_growing` — the layers that splicing in opens
-/

namespace CobolFlow

/-- A group above the nesting limit. It has members if its PERFORM has something to perform, unless
it is marked as recursive. -/
structure Group.Whole (full : NodeId → Prop) (group : Group) : Prop where
  truncated : group.truncated = false
  members : group.recursive = false → (group.members ≠ [] ↔ full group.node)

/-- A group at the nesting limit. -/
structure Group.Cut (full : NodeId → Prop) (group : Group) : Prop where
  members : group.members = []
  terminals : group.terminals = []
  truncated : group.truncated = true ↔ full group.node ∧ group.recursive = false

namespace Graph

variable {g g' g'' : Graph} {full : NodeId → Prop} {R R' : GroupId → GroupId → Prop}
  {leaf leaf' : Group → Prop} {levels n m : ℕ} {i j : GroupId} {group child : Group} {b : BlockId}

/-- So many layers of groups are whole, from the group `i` on along the calls of members, and behind
them there are the groups `leaf`. A call leads from a group to one that `R` relates to it. -/
def Nests (g : Graph) (full : NodeId → Prop) (R : GroupId → GroupId → Prop) (leaf : Group → Prop) :
    ℕ → GroupId → Prop
  | 0, i => ∃ group, g.groups[i]? = some group ∧ leaf group
  | levels + 1, i => ∃ group, g.groups[i]? = some group ∧ group.Whole full ∧
      (group.recursive = false → ∀ b ∈ group.members, ∀ j, (g.chart b).group = some j →
        R i j ∧ g.Nests full R leaf levels j)

/-- So many layers of groups are whole. -/
abbrev Provides (g : Graph) (full : NodeId → Prop) : ℕ → GroupId → Prop :=
  g.Nests full (fun _ _ => True) fun _ => True

/-- So many layers of groups are whole, and the groups behind them are cut. Calls lead to later
groups, which are not among the first `n`. -/
abbrev Ends (g : Graph) (full : NodeId → Prop) (n : ℕ) : ℕ → GroupId → Prop :=
  g.Nests full (fun i j => i < j ∧ n ≤ j) (Group.Cut full)

namespace Nests

theorem exists_group (h : g.Nests full R leaf levels i) : ∃ group, g.groups[i]? = some group := by
  cases levels with
  | zero => exact h.imp fun _ h => h.1
  | succ levels => exact h.imp fun _ h => h.1

theorem mono (hR : ∀ i j, R i j → R' i j) (hleaf : ∀ group, leaf group → leaf' group)
    (h : g.Nests full R leaf levels i) : g.Nests full R' leaf' levels i := by
  induction levels generalizing i with
  | zero => exact h.imp fun group h => ⟨h.1, hleaf group h.2⟩
  | succ levels ih =>
    obtain ⟨group, hi, hwhole, hcalls⟩ := h
    refine ⟨group, hi, hwhole, fun hplain b hb j hj => ?_⟩
    obtain ⟨hij, h⟩ := hcalls hplain b hb j hj
    exact ⟨hR i j hij, ih h⟩

theorem provides (h : g.Nests full R leaf levels i) : g.Provides full levels i :=
  h.mono (fun _ _ _ => trivial) fun _ _ => trivial

/-- Fewer layers are whole if more are. -/
theorem fewer (h : g.Provides full levels i) (hm : m ≤ levels) : g.Provides full m i := by
  induction m generalizing levels i with
  | zero => exact h.exists_group.imp fun _ h => ⟨h, trivial⟩
  | succ m ih =>
    cases levels with
    | zero => exact absurd hm (Nat.not_succ_le_zero m)
    | succ levels =>
      obtain ⟨group, hi, hwhole, hcalls⟩ := h
      refine ⟨group, hi, hwhole, fun hplain b hb j hj => ?_⟩
      exact ⟨trivial, ih (hcalls hplain b hb j hj).2 (Nat.le_of_succ_le_succ hm)⟩

/-- The layers stay as they are if the calls of members do, and of the groups that calls lead to
each is the same or has such layers too. -/
theorem keep (P : GroupId → Prop) (hP : ∀ i j, P i → R i j → P j)
    (hgroups : ∀ i, P i → (∀ group, g.groups[i]? = some group → g'.groups[i]? = some group) ∨
      ∀ m ≤ levels, g'.Nests full R leaf m i)
    (hcalls : ∀ i, ∀ b ∈ g.membersOf i, (g'.chart b).group = (g.chart b).group)
    (hi : P i) (hm : m ≤ levels) (h : g.Nests full R leaf m i) : g'.Nests full R leaf m i := by
  induction m generalizing i with
  | zero =>
    obtain hsame | hnests := hgroups i hi
    · exact h.imp fun group h => ⟨hsame group h.1, h.2⟩
    · exact hnests 0 hm
  | succ m ih =>
    obtain hsame | hnests := hgroups i hi
    · obtain ⟨group, hgroup, hwhole, hbelow⟩ := h
      refine ⟨group, hsame group hgroup, hwhole, fun hplain b hb j hj => ?_⟩
      rw [hcalls i b (membersOf_of_getElem? hgroup ▸ hb)] at hj
      obtain ⟨hij, h⟩ := hbelow hplain b hb j hj
      exact ⟨hij, ih (hP i j hi hij) (Nat.le_of_succ_le hm) h⟩
    · exact hnests (m + 1) hm

/-- The layers stay as they are if all groups do. -/
theorem extend
    (hgroups : ∀ (i : GroupId) group, g.groups[i]? = some group → g'.groups[i]? = some group)
    (hcalls : ∀ i, ∀ b ∈ g.membersOf i, (g'.chart b).group = (g.chart b).group)
    (h : g.Nests full R leaf m i) : g'.Nests full R leaf m i :=
  h.keep (fun _ => True) (fun _ _ _ _ => trivial) (fun i _ => .inl (hgroups i)) hcalls trivial
    le_rfl

end Nests

/-- A group that has been opened at a block which is not among the first `m`, a member of an earlier
group among `P`. If it is marked as recursive it is empty. -/
structure Stems (g : Graph) (m : ℕ) (P : GroupId → Prop) (j : GroupId) (child : Group) : Prop where
  new : m ≤ child.callSite
  bare : child.recursive = true → child.members = []
  parent : ∃ i < j, P i ∧ ∃ group, g.groups[i]? = some group ∧ group.recursive = false ∧
    child.callSite ∈ group.members

theorem Stems.mono {P P' : GroupId → Prop} (h : g.Stems m P j child) (hn : n ≤ m)
    (hP : ∀ i, P i → P' i)
    (hgroups : ∀ i group, P i → g.groups[i]? = some group → g'.groups[i]? = some group) :
    g'.Stems n P' j child where
  new := hn.trans h.new
  bare := h.bare
  parent := by
    obtain ⟨i, hij, hi, group, hgroup, hplain, hmem⟩ := h.parent
    exact ⟨i, hij, hP i hi, group, hgroups i group hi hgroup, hplain, hmem⟩

/-- All members are blocks. -/
def Lists (g : Graph) : Prop := ∀ i, ∀ b ∈ g.membersOf i, b < g.size

theorem Renews.lists {N : GroupId → Prop} (h : g.Renews g' N) (hg : g.Lists) : g'.Lists := by
  intro i b hb
  by_cases hi : N i
  · exact (h.new i hi b hb).2
  · rw [h.old i hi] at hb
    exact (hg i b hb).trans_le h.size_le

theorem group_chart_of_getElem?_eq (h : g'.blocks[b]? = g.blocks[b]?) :
    (g'.chart b).group = (g.chart b).group := by
  rw [chart, chart, h]
  cases g.blocks[b]? <;> rfl

theorem Retains.group_chart {B : BlockId → Prop} {G : GroupId → Prop} (h : Retains B G g g')
    (hb : b < g.size) (hB : ¬ B b) : (g'.chart b).group = (g.chart b).group :=
  group_chart_of_getElem?_eq (h.block b hb hB)

theorem Retains.getElem?_groups {B : BlockId → Prop} {G : GroupId → Prop} (h : Retains B G g g')
    (hi : g.groups[i]? = some group) (hG : ¬ G i) : g'.groups[i]? = some group :=
  (h.group i (Array.getElem?_eq_some_iff.1 hi).1 hG).trans hi

end Graph

namespace Build

open Graph

variable {g g' g₁ g₂ : Graph} {full : NodeId → Prop} {levels n : ℕ} {i : GroupId} {group : Group}
  {copy : BlockId}

/-! ### Copies -/

theorem cloneBlock_copies (b : BlockId) : Ensures (cloneBlock b) g fun c g' =>
    g.IsCopy g' b c ∧ g.KeepsCalls g' := by
  refine .get_bind (.lift_bind fun block hblock => .modifyGet ?_)
  have hblock := (block_eq_ok_iff _ _ _).1 hblock
  set g' : Graph := { g with blocks := g.blocks.push (block.detachedCopy g.blocks.size) }
  have hchart := @chart_push g g' _ rfl rfl
  have hsize : g'.size = g.size + 1 := by simp [size, g']
  have hnew : (g'.chart g.size).group = block.group := by
    rw [hchart]
    exact congrArg Spot.group (if_pos rfl)
  refine ⟨⟨le_rfl, hsize ▸ Nat.lt_succ_self _, ?_⟩, ⟨hsize ▸ Nat.le_succ _, fun c hc => ?_⟩⟩
  · rw [chart_of_getElem? hblock]
    exact hnew
  · simp only [hchart, if_neg hc.ne]

/-- Copies of blocks make the calls of these. -/
theorem copyBlocks_copies {blocks : List BlockId} (h : ∀ b ∈ blocks, b < g.size) :
    Ensures (copyBlocks blocks) g fun copied g' =>
      AreCopies g g' blocks copied ∧ g.KeepsCalls g' := by
  induction blocks generalizing g with
  | nil => exact .pure ⟨⟨rfl, by simp⟩, .refl g⟩
  | cons b rest ih =>
    rw [copyBlocks, List.mapM_cons]
    refine .bind (cloneBlock_copies b) ?_
    rintro c g₁ ⟨hcopy, hkeep₁⟩
    refine .bind (ih fun d hd => (h d (by simp [hd])).trans_le hkeep₁.size_le) ?_
    rintro copied g₂ ⟨⟨hlength, hcopied⟩, hkeep₂⟩
    refine .pure ⟨⟨by simp [hlength], fun p hp => ?_⟩, hkeep₁.trans hkeep₂⟩
    obtain rfl | hp := List.mem_cons.1 hp
    · exact hcopy.mono hkeep₂
    · obtain ⟨hnew, hlt, hgroup⟩ := hcopied p hp
      exact ⟨hkeep₁.size_le.trans hnew, hlt,
        hgroup.trans (hkeep₁.group p.1 (h p.1 (by simp [(List.of_mem_zip hp).1])))⟩

theorem copyMembers_copies {members : List BlockId} (h : ∀ b ∈ members, b < g.size) :
    Ensures (copyMembers members) g fun copied g' =>
      AreCopies g g' members copied ∧ g.KeepsCalls g' := by
  refine .bind (copyBlocks_copies h) fun copied g₁ ⟨hcopies, hkeep₁⟩ => ?_
  refine .bind (P := fun _ g' => g₁.KeepsCalls g' ∧ g'.groups = g₁.groups) ?_
    fun _ g₂ ⟨hkeep₂, _⟩ => .pure ⟨hcopies.mono hkeep₂, hkeep₁.trans hkeep₂⟩
  exact Edit.SparesCalls.foldlM (fun _ _ => .bind .get fun _ => .bind (.lift _) fun _ =>
    .bind (.graftSlots _ _ _) fun _ => .bind (.setSuccessors _ _) fun _ => .pure _) _ _ g₁

/-- No block changes its call when a group is spliced in. -/
theorem Regrafts.keepsCalls (h : Regrafts levels i group g g') : g.KeepsCalls g' where
  size_le := h.retains.size_le
  group b hb := by
    by_cases hgraft : IsGrafted levels group ∧ b = group.callSite
    · obtain ⟨hgraft, rfl⟩ := hgraft
      obtain ⟨_, _, _, -, block, _, hblock, -, -, hblock'⟩ := (h.1 hgraft).refilled
      rw [chart_of_getElem? hblock, chart_of_getElem? hblock']
      rfl
    · by_cases hgrafted : IsGrafted levels group
      · exact (h.1 hgrafted).retains.group_chart hb fun heq => hgraft ⟨hgrafted, heq⟩
      · exact (h.2 hgrafted).group_chart hb id

/-! ### One copy -/

/-- What is needed of a group that is to be spliced in. -/
structure Ready (full : NodeId → Prop) (n levels : ℕ) (i : GroupId) (group : Group) (g : Graph) :
    Prop where
  left : levels ≠ 0
  here : g.groups[i]? = some group
  site : group.callSite < g.size
  whole : group.Whole full
  calls : group.recursive = false → ∀ b ∈ group.members, ∀ j, (g.chart b).group = some j →
    g.Provides full levels j
  lists : g.Lists
  le : n ≤ g.groups.size

/-- What has been opened below the group `i`. -/
structure Branches (full : NodeId → Prop) (n levels : ℕ) (i : GroupId) (g g' : Graph) : Prop where
  ends : g'.Ends full n levels i
  opened : ∀ j ≥ g.groups.size, ∀ child, g'.groups[j]? = some child →
    g'.Stems g.size (fun k => k = i ∨ g.groups.size ≤ k) j child

/-- What has been opened at a copy. -/
structure Sprouts (full : NodeId → Prop) (n levels : ℕ) (copy : BlockId) (g g' : Graph) : Prop where
  ends : ∀ j, (g'.chart copy).group = some j → g.groups.size ≤ j ∧ g'.Ends full n levels j
  opened : ∀ j ≥ g.groups.size, ∀ child, g'.groups[j]? = some child →
    (child.callSite = copy ∧ (child.recursive = true → child.members = [])) ∨
      g'.Stems g.size (g.groups.size ≤ ·) j child

/-- A group that is opened and not spliced in. -/
theorem ends_nested {source : Group} (hwhole : source.Whole full) (hnot : ¬ IsGrafted levels source)
    (hi : g.groups[i]? = some (nested levels source i copy)) : g.Ends full n levels i := by
  have hmembers : (nested levels source i copy).members = [] := if_neg hnot
  have hterminals : (nested levels source i copy).terminals = [] := if_neg hnot
  cases levels with
  | zero =>
    refine ⟨_, hi, hmembers, hterminals, ?_⟩
    cases hrecursive : source.recursive with
    | true => simp [nested, hrecursive]
    | false =>
      have hfull := hwhole.members hrecursive
      simpa [nested, hrecursive, Group.isEmpty] using hfull
  | succ levels =>
    refine ⟨_, hi, ⟨by simp [nested], fun hplain => ?_⟩, fun _ b hb => ?_⟩
    · have hempty : source.members = [] :=
        of_not_not fun hne => hnot ⟨Nat.succ_ne_zero _, hplain, hne⟩
      rw [hmembers]
      exact hempty ▸ hwhole.members hplain
    · rw [hmembers] at hb
      cases hb

section Spread

variable (hgraft : ∀ {i : GroupId} {group : Group} {g : Graph}, Ready full n levels i group g →
  Ensures (graft levels i) g fun _ g' => Branches full n levels i g g')
include hgraft

/-- What is done at a copy that is no member of a group yet. -/
theorem spread_sprouts (hn : n ≤ g.groups.size) (hlists : g.Lists)
    (hout : ∀ i, copy ∉ g.membersOf i)
    (hcalls : ∀ i, (g.chart copy).group = some i → g.Provides full (levels + 1) i) :
    Ensures (spread levels copy) g fun _ g' => Sprouts full n levels copy g g' := by
  intro r g' hrun
  obtain ⟨-, ⟨hnone, rfl⟩ | ⟨i, source, hi, hsource, hlt, hcase⟩⟩ :=
    spread_cases levels copy r g' hrun
  · refine ⟨fun j hj => absurd (hnone.symm.trans hj) (by simp), fun j hj child hchild => ?_⟩
    exact absurd (Array.getElem?_eq_some_iff.1 hchild).1 hj.not_gt
  obtain ⟨source', hsource', hwhole, hbelow⟩ := hcalls i hi
  obtain rfl := Option.some.inj (hsource.symm.trans hsource')
  set new := nested levels source g.groups.size copy with hnew
  set g₁ := openedAt g copy new with hg₁
  have hat : g₁.groups[g.groups.size]? = some new := Array.getElem?_push_size
  have hcopy : (g₁.chart copy).group = some g.groups.size := by
    rw [group_chart_openedAt hlt, if_pos rfl]
  have hchild : ∀ j ≥ g.groups.size, ∀ child, g₁.groups[j]? = some child →
      j = g.groups.size ∧ child = new := fun j hj child hchild => by
    have hle := (Array.getElem?_eq_some_iff.1 hchild).1
    simp only [hg₁, openedAt, Array.size_push] at hle
    obtain rfl : j = g.groups.size := le_antisymm (Nat.lt_succ_iff.1 hle) hj
    exact ⟨rfl, (Option.some.inj (hat.symm.trans hchild)).symm⟩
  obtain ⟨hnot, rfl⟩ | ⟨hgrafted, hrun'⟩ := hcase
  · refine ⟨fun j hj => ?_, fun j hj child hget => ?_⟩
    · obtain rfl := Option.some.inj (hcopy.symm.trans hj)
      exact ⟨le_rfl, ends_nested hwhole hnot hat⟩
    · obtain ⟨-, rfl⟩ := hchild j hj child hget
      exact .inl ⟨rfl, fun _ => if_neg hnot⟩
  -- the new group has the members of `source`, none of which is the copy
  have hmembers : new.members = source.members := if_pos hgrafted
  have hne : ∀ i, ∀ b ∈ g.membersOf i, b ≠ copy := fun i b hb heq => hout i (heq ▸ hb)
  have hsame : ∀ i, ∀ b ∈ g.membersOf i, (g₁.chart b).group = (g.chart b).group := fun i b hb => by
    rw [group_chart_openedAt hlt, if_neg (hne i b hb)]
  have hold : ∀ (i : GroupId) group, g.groups[i]? = some group → g₁.groups[i]? = some group :=
    fun i group hi => by
      rw [hg₁, openedAt, Array.getElem?_push, if_neg (Array.getElem?_eq_some_iff.1 hi).1.ne, hi]
  have hat' : ∀ b ∈ new.members, b ∈ g.membersOf i := fun b hb => by
    rw [membersOf_of_getElem? hsource]
    exact hmembers ▸ hb
  have hready : Ready full n levels g.groups.size new g₁ :=
    { left := hgrafted.1
      here := hat
      site := (size_openedAt g copy new).symm ▸ hlt
      whole := ⟨by simp [hnew, nested, hgrafted.1], fun hplain => hmembers ▸ hwhole.members hplain⟩
      calls := fun hplain b hb j hj => by
        rw [hsame i b (hat' b hb)] at hj
        exact ((hbelow hplain b (hmembers ▸ hb) j hj).2).extend hold hsame
      lists := fun j b hb => by
        rw [size_openedAt]
        obtain hj | hj := lt_or_ge j g.groups.size
        · obtain ⟨group, hj⟩ : ∃ group, g.groups[j]? = some group :=
            ⟨_, Array.getElem?_eq_getElem hj⟩
          rw [membersOf_of_getElem? (hold j group hj)] at hb
          exact hlists j b (membersOf_of_getElem? hj ▸ hb)
        · cases hget : g₁.groups[j]? with
          | none => simp [membersOf, hget] at hb
          | some child =>
            obtain ⟨-, rfl⟩ := hchild j hj child hget
            rw [membersOf_of_getElem? hget] at hb
            exact hlists i b (hat' b hb)
      le := by simpa [hg₁, openedAt] using Nat.le_succ_of_le hn }
  have hbranches := hgraft hready _ _ hrun'
  have hregrafts := graft_retains levels _ _ _ hat hready.site _ _ hrun'
  refine ⟨fun j hj => ?_, fun j hj child hget => ?_⟩
  · rw [hregrafts.keepsCalls.group copy hready.site, hcopy] at hj
    obtain rfl := Option.some.inj hj
    exact ⟨le_rfl, hbranches.ends⟩
  · have hsize : g₁.groups.size = g.groups.size + 1 := by simp [hg₁, openedAt]
    obtain rfl | hlt' := hj.eq_or_lt
    · have hgrafted' : IsGrafted levels new :=
        ⟨hgrafted.1, hgrafted.2.1, hmembers ▸ hgrafted.2.2⟩
      obtain ⟨first, rest, terminals, hget', -⟩ := (hregrafts.1 hgrafted').refilled
      obtain rfl := Option.some.inj (hget'.symm.trans hget)
      exact .inl ⟨rfl, fun hrecursive => by cases hgrafted.2.1.symm.trans hrecursive⟩
    · refine .inr ((hbranches.opened j (hsize ▸ hlt') child hget).mono
        (size_openedAt g copy new).ge (fun k hk => ?_) fun _ _ _ h => h)
      exact hk.elim ge_of_eq fun hk => (Nat.le_succ _).trans (hsize.symm.le.trans hk)

end Spread

/-! ### One group -/

/-- While the copies in `left` wait, and the group `i` has not got the others as members yet. -/
structure Sprouting (full : NodeId → Prop) (n levels : ℕ) (i : GroupId) (copied : List BlockId)
    (g : Graph) (left : List BlockId) (g' : Graph) : Prop where
  nodup : left.Nodup
  sub : left ⊆ copied
  size_le : g.size ≤ g'.size
  groups_le : g.groups.size ≤ g'.groups.size
  groups : ∀ (j : GroupId) group, g.groups[j]? = some group → g'.groups[j]? = some group
  lists : g'.Lists
  outside : ∀ c ∈ copied, c < g'.size ∧ ∀ k, c ∉ g'.membersOf k
  waiting : ∀ c ∈ left, ∀ j, (g'.chart c).group = some j → g'.Provides full (levels + 1) j
  ends : ∀ c ∈ copied, c ∉ left → ∀ j, (g'.chart c).group = some j →
    g.groups.size ≤ j ∧ g'.Ends full n levels j
  opened : ∀ j ≥ g.groups.size, ∀ child, g'.groups[j]? = some child →
    (child.callSite ∈ copied ∧ (child.recursive = true → child.members = [])) ∨
      g'.Stems g.size (g.groups.size ≤ ·) j child

/-- One copy more is dealt with. -/
theorem Sprouting.next {copied left : List BlockId}
    (h : Sprouting full n levels i copied g (copy :: left) g₁)
    (hsprouts : Sprouts full n levels copy g₁ g₂)
    (hretains : Retains (· = copy) (fun _ => False) g₁ g₂) {N : GroupId → Prop}
    (hrenews : g₁.Renews g₂ N) : Sprouting full n levels i copied g left g₂ := by
  obtain ⟨hnot, hnodup⟩ := List.nodup_cons.1 h.nodup
  have hmem : copy ∈ copied := h.sub (by simp)
  have hgroups : ∀ (j : GroupId) group, g₁.groups[j]? = some group → g₂.groups[j]? = some group :=
    fun j group hj => hretains.getElem?_groups hj id
  have hcalls : ∀ j, ∀ b ∈ g₁.membersOf j, (g₂.chart b).group = (g₁.chart b).group := fun j b hb =>
    hretains.group_chart (h.lists j b hb) fun heq => (h.outside copy hmem).2 j (heq ▸ hb)
  have hother : ∀ c ∈ copied, c ≠ copy → (g₂.chart c).group = (g₁.chart c).group := fun c hc hne =>
    hretains.group_chart (h.outside c hc).1 hne
  refine
    { nodup := hnodup
      sub := fun c hc => h.sub (List.mem_cons_of_mem _ hc)
      size_le := h.size_le.trans hretains.size_le
      groups_le := h.groups_le.trans hretains.groups_le
      groups := fun j group hj => hgroups j group (h.groups j group hj)
      lists := hrenews.lists h.lists
      outside := fun c hc => ⟨(h.outside c hc).1.trans_le hretains.size_le,
        hrenews.not_mem (h.outside c hc).1 (h.outside c hc).2⟩
      waiting := fun c hc j hj => ?_
      ends := fun c hc hleft j hj => ?_
      opened := fun j hj child hchild => ?_ }
  · rw [hother c (h.sub (by simp [hc])) fun heq => hnot (heq ▸ hc)] at hj
    exact (h.waiting c (by simp [hc]) j hj).extend hgroups hcalls
  · by_cases hne : c = copy
    · subst hne
      obtain ⟨hle, hends⟩ := hsprouts.ends j hj
      exact ⟨h.groups_le.trans hle, hends⟩
    · rw [hother c hc hne] at hj
      obtain ⟨hle, hends⟩ := h.ends c hc (by simp [hne, hleft]) j hj
      exact ⟨hle, hends.extend hgroups hcalls⟩
  · obtain hlt | hge := lt_or_ge j g₁.groups.size
    · have hold := hgroups j _ (Array.getElem?_eq_getElem hlt)
      obtain rfl := Option.some.inj (hold.symm.trans hchild)
      exact (h.opened j hj _ (Array.getElem?_eq_getElem hlt)).imp_right fun hstems =>
        hstems.mono le_rfl (fun _ h => h) fun k group _ => hgroups k group
    · obtain ⟨rfl, hbare⟩ | hstems := hsprouts.opened j hge child hchild
      · exact .inl ⟨hmem, hbare⟩
      · exact .inr (hstems.mono h.size_le (fun k hk => h.groups_le.trans hk)
          fun _ _ _ h => h)

/-- When all copies have been dealt with, they become the members. -/
theorem Sprouting.branches {copied : List BlockId}
    (h : Sprouting full n levels i copied g [] g₁) (hn : n ≤ g.groups.size)
    (hi : g.groups[i]? = some group) (hplain : group.recursive = false) (hwhole : group.Whole full)
    (hmembers : group.members ≠ []) (hcopied : copied ≠ []) (hnew : ∀ c ∈ copied, g.size ≤ c)
    {terminals : List BlockId} (hg' : g' = { g₁ with
      groups := g₁.groups.modify i fun old => { old with members := copied, terminals } }) :
    Branches full n (levels + 1) i g g' := by
  have hlt : i < g.groups.size := (Array.getElem?_eq_some_iff.1 hi).1
  have hat : g'.groups[i]? = some { group with members := copied, terminals } := by
    rw [hg', Array.getElem?_modify, if_pos rfl, h.groups i group hi]
    rfl
  have hother : ∀ j, j ≠ i → g'.groups[j]? = g₁.groups[j]? := fun j hj => by
    rw [hg', Array.getElem?_modify, if_neg (Ne.symm hj)]
  have hcalls : ∀ b, (g'.chart b).group = (g₁.chart b).group := fun b =>
    group_chart_congr (by rw [hg']) b
  refine ⟨⟨_, hat, ⟨hwhole.truncated, fun _ => ?_⟩, fun _ b hb j hj => ?_⟩,
    fun j hj child hchild => ?_⟩
  · exact iff_of_true hcopied ((hwhole.members hplain).1 hmembers)
  · rw [hcalls] at hj
    obtain ⟨hle, hends⟩ := h.ends b hb List.not_mem_nil j hj
    refine ⟨⟨hlt.trans_le hle, hn.trans hle⟩, ?_⟩
    refine hends.keep (i < ·) (fun _ _ hi hR => hi.trans hR.1) (fun k hk => .inl fun old hold => ?_)
      (fun _ b _ => hcalls b) (hlt.trans_le hle) le_rfl
    rw [hother k hk.ne', hold]
  · have hne : j ≠ i := (hlt.trans_le hj).ne'
    rw [hother j hne] at hchild
    obtain ⟨hmem, hbare⟩ | hstems := h.opened j hj child hchild
    · exact ⟨hnew _ hmem, hbare, i, hlt.trans_le hj, .inl rfl, _, hat, hplain, hmem⟩
    · refine hstems.mono le_rfl (fun k hk => .inr hk) fun k old hk hold => ?_
      rw [hother k (hlt.trans_le hk).ne', hold]

/-- **Splicing a group in** opens as many layers of groups below it as there are levels. -/
theorem graft_branches (h : Ready full n levels i group g) :
    Ensures (graft levels i) g fun _ g' => Branches full n levels i g g' := by
  induction levels generalizing i group g with
  | zero => exact absurd rfl h.left
  | succ levels ih =>
    refine .get_bind (.lift_bind fun group' hok => ?_)
    obtain rfl := Option.some.inj (h.here.symm.trans ((group_eq_ok_iff g i group').1 hok))
    -- no group is opened where there is nothing to splice in
    have hquiet : ∀ g' : Graph, g'.groups = g.groups →
        (group.recursive = true ∨ group.members = []) → Branches full n (levels + 1) i g g' := by
      intro g' hgroups hcase
      refine ⟨⟨group, hgroups ▸ h.here, h.whole, fun hplain b hb => ?_⟩,
        fun j hj child hchild => ?_⟩
      · obtain hrecursive | hnil := hcase
        · exact nomatch hplain.symm.trans hrecursive
        · exact nomatch hnil ▸ hb
      · rw [hgroups] at hchild
        exact absurd (Array.getElem?_eq_some_iff.1 hchild).1 hj.not_gt
    split
    · next hrecursive => exact .pure (hquiet g rfl (.inl hrecursive))
    next hrecursive =>
    have hplain := Bool.eq_false_of_not_eq_true hrecursive
    have hmembers : ∀ b ∈ group.members, b < g.size := fun b hb =>
      h.lists i b (membersOf_of_getElem? h.here ▸ hb)
    refine .bind (((copyMembers_ensures group.members).and (copyMembers_copies hmembers)).and
      (copyMembers_retains _ g)) ?_
    rintro copied g₁ ⟨⟨⟨hcopied, hsize₁, hgroups₁⟩, hcopies, hkeep₁⟩, h₁⟩
    split
    swap
    · next hempty =>
      refine .pure (hquiet g₁ hgroups₁ (.inr ?_))
      cases hcase : group.members with
      | nil => rfl
      | cons b rest =>
        exact (hempty _ _ (by rw [hcopied, hcase, List.length_cons, List.range'_succ])).elim
    next first rest =>
    have hnew : ∀ c ∈ first :: rest, g.size ≤ c ∧ c < g₁.size := fun c hc => by
      rw [hcopied, List.mem_range'_1] at hc
      exact ⟨hc.1, hc.2.trans_le hsize₁⟩
    have hne : group.members ≠ [] := fun hnil => by simp [hnil] at hcopied
    refine .bind (Edit.SparesCalls.splice group.callSite first (first :: rest) g₁) ?_
    rintro terminals g₂ ⟨hkeep₂, hgroups₂⟩
    have hkeep : g.KeepsCalls g₂ := hkeep₁.trans hkeep₂
    have hgroups : g₂.groups = g.groups := hgroups₂.trans hgroups₁
    have hmembersOf : ∀ k, g₂.membersOf k = g.membersOf k := fun k =>
      membersOf_congr (by rw [hgroups])
    have hbegun : Sprouting full n levels i (first :: rest) g (first :: rest) g₂ :=
      { nodup := hcopied ▸ List.nodup_range'
        sub := List.Subset.refl _
        size_le := hkeep.size_le
        groups_le := hgroups ▸ le_rfl
        groups := fun j old hj => hgroups ▸ hj
        lists := fun k b hb => (h.lists k b (hmembersOf k ▸ hb)).trans_le hkeep.size_le
        outside := fun c hc => ⟨(hnew c hc).2.trans_le hkeep₂.size_le, fun k hk =>
          (h.lists k c (hmembersOf k ▸ hk)).not_ge (hnew c hc).1⟩
        waiting := fun c hc j hj => by
          obtain ⟨b, hb, hcopy⟩ := hcopies.exists_original hc
          rw [hkeep₂.group c (hnew c hc).2, hcopy.group] at hj
          exact (h.calls hplain b hb j hj).extend (fun k old hk => hgroups ▸ hk)
            fun k b hb => hkeep.group b (h.lists k b hb)
        ends := fun c hc hnot => absurd hc hnot
        opened := fun j hj child hchild => by
          rw [hgroups] at hchild
          exact absurd (Array.getElem?_eq_some_iff.1 hchild).1 hj.not_gt }
    refine .bind (.forIn_rest (I := Sprouting full n levels i (first :: rest) g) hbegun
      fun copy left g₃ h₃ => ?_) ?_
    · have hmem : copy ∈ first :: rest := h₃.sub (by simp)
      intro r g₄ hrun
      obtain ⟨hyield, -⟩ := spread_cases levels copy r g₄ hrun
      obtain ⟨N, hrenews, -⟩ := spread_renews (graft_renews levels) copy r g₄ hrun
      have hsprouts := spread_sprouts (fun hready => ih hready) (h.le.trans h₃.groups_le) h₃.lists
        (h₃.outside copy hmem).2 (h₃.waiting copy (by simp)) r g₄ hrun
      have hretains := spread_retains (graft_retains levels) copy r g₄ hrun
      exact ⟨hyield, h₃.next hsprouts hretains hrenews⟩
    · intro _ g₃ h₃ _ g' hrun
      obtain ⟨-, hg'⟩ := eq_of_modifyGroup_eq_ok hrun
      exact h₃.branches h.le h.here hplain h.whole hne (by simp) (fun c hc => (hnew c hc).1) hg'

/-! ### All groups -/

/-- While the groups in `left` wait, the others are spliced in. -/
structure Growing (full : NodeId → Prop) (levels : ℕ) (g : Graph) (left : List GroupId)
    (g' : Graph) : Prop where
  nodup : left.Nodup
  lt : ∀ i ∈ left, i < g.groups.size
  keeps : g.KeepsCalls g'
  groups_le : g.groups.size ≤ g'.groups.size
  waiting : ∀ i ∈ left, ∀ group, g.groups[i]? = some group → g'.groups[i]? = some group
  lists : g'.Lists
  provides : ∀ i < g.groups.size, g'.Provides full levels i
  ends : ∀ i < g.groups.size, i ∉ left → g'.Ends full g.groups.size levels i
  opened : ∀ j ≥ g.groups.size, ∀ child, g'.groups[j]? = some child →
    g'.Stems g.size (· ∉ left) j child

/-- Where no group is cut, there are as many whole layers as one likes. -/
theorem provides_of_whole (hg : Sound g)
    (hwhole : ∀ (i : GroupId) group, g.groups[i]? = some group → group.Whole full) (levels : ℕ) :
    ∀ i < g.groups.size, g.Provides full levels i := by
  induction levels with
  | zero => exact fun i hi => ⟨_, Array.getElem?_eq_getElem hi, trivial⟩
  | succ levels ih =>
    intro i hi
    have hget := Array.getElem?_eq_getElem hi
    refine ⟨_, hget, hwhole i _ hget, fun _ b hb j hj => ⟨trivial, ih j ?_⟩⟩
    obtain ⟨block, hblock⟩ := getElem?_eq_some_of_lt (hg.member_lt hget b hb)
    exact hg.group_lt hblock (by rwa [chart_of_getElem? hblock] at hj)

/-- One group more is spliced in. -/
theorem Growing.next {left : List GroupId} (h : Growing full levels g (i :: left) g₁)
    (hi : g.groups[i]? = some group) (hbranches : Branches full g.groups.size levels i g₁ g₂)
    (hregrafts : Regrafts levels i group g₁ g₂) {N : GroupId → Prop} (hrenews : g₁.Renews g₂ N) :
    Growing full levels g left g₂ := by
  obtain ⟨hnot, hnodup⟩ := List.nodup_cons.1 h.nodup
  have hlt : i < g.groups.size := h.lt i (by simp)
  have hother : ∀ (j : GroupId) old, j ≠ i → g₁.groups[j]? = some old → g₂.groups[j]? = some old :=
    fun j old hj hold => hregrafts.retains.getElem?_groups hold hj
  have hcalls : ∀ j, ∀ b ∈ g₁.membersOf j, (g₂.chart b).group = (g₁.chart b).group := fun j b hb =>
    hregrafts.keepsCalls.group b (h.lists j b hb)
  refine
    { nodup := hnodup
      lt := fun j hj => h.lt j (by simp [hj])
      keeps := h.keeps.trans hregrafts.keepsCalls
      groups_le := h.groups_le.trans hregrafts.retains.groups_le
      waiting := fun j hj old hold =>
        hother j old (fun heq => hnot (heq ▸ hj)) (h.waiting j (by simp [hj]) old hold)
      lists := hrenews.lists h.lists
      provides := fun j hj => ?_
      ends := fun j hj hleft => ?_
      opened := fun j hj child hchild => ?_ }
  · refine (h.provides j hj).keep (fun _ => True) (fun _ _ _ _ => trivial) (fun k _ => ?_) hcalls
      trivial le_rfl
    by_cases hk : k = i
    · exact .inr fun m hm => hk ▸ hbranches.ends.provides.fewer hm
    · exact .inl fun old => hother k old hk
  · by_cases hne : j = i
    · exact hne ▸ hbranches.ends
    · -- calls lead from `j` to groups that have been opened, and `i` is none of them
      refine (h.ends j hj (by simp [hne, hleft])).keep (· ≠ i) (fun _ k _ hk => ?_)
        (fun k hk => .inl fun old => hother k old hk) hcalls hne le_rfl
      exact (hlt.trans_le hk.2).ne'
  · obtain hold | hnew := lt_or_ge j g₁.groups.size
    · have hget := hother j _ (hlt.trans_le hj).ne' (Array.getElem?_eq_getElem hold)
      obtain rfl := Option.some.inj (hget.symm.trans hchild)
      refine (h.opened j hj _ (Array.getElem?_eq_getElem hold)).mono le_rfl
        (fun k hk hmem => hk (by simp [hmem]))
        fun k old hk => hother k old fun heq => hk (by simp [heq])
    · refine (hbranches.opened j hnew child hchild).mono h.keeps.size_le (fun k hk hmem => ?_)
        fun _ _ _ h => h
      obtain rfl | hk := hk
      · exact hnot hmem
      · exact (h.lt k (by simp [hmem])).not_ge (h.groups_le.trans hk)

/-- **Splicing all groups in.** -/
theorem graftGroups_growing (o : Options) (ho : o.maxGraftDepth ≠ 0) (hg : Sound g)
    (hwhole : ∀ (i : GroupId) group, g.groups[i]? = some group → group.Whole full) :
    Ensures (graftGroups o) g fun _ g' => Growing full o.maxGraftDepth g [] g' := by
  refine .get_bind (.bind (.forIn_rest (I := Growing full o.maxGraftDepth g) ?_ ?_)
    fun _ _ h => .pure h)
  · exact
      { nodup := List.nodup_range
        lt := fun i hi => List.mem_range.1 hi
        keeps := .refl g
        groups_le := le_rfl
        waiting := fun _ _ _ h => h
        lists := fun i b hb => by
          cases hget : g.groups[i]? with
          | none => simp [membersOf, hget] at hb
          | some group => exact hg.member_lt hget b (membersOf_of_getElem? hget ▸ hb)
        provides := provides_of_whole hg hwhole _
        ends := fun i hi hnot => absurd (List.mem_range.2 hi) hnot
        opened := fun j hj child hchild =>
          absurd (Array.getElem?_eq_some_iff.1 hchild).1 hj.not_gt }
  · intro i left g₁ h
    have hlt := h.lt i (by simp)
    have hi : g.groups[i]? = some g.groups[i] := Array.getElem?_eq_getElem hlt
    have hi₁ := h.waiting i (by simp) _ hi
    obtain ⟨site, hsite, -⟩ := hg.callSite hi
    have hsite₁ := (lt_size_of_getElem? hsite).trans_le h.keeps.size_le
    have hready : Ready full g.groups.size o.maxGraftDepth i g.groups[i] g₁ :=
      { left := ho
        here := hi₁
        site := hsite₁
        whole := hwhole i _ hi
        calls := fun _ b hb j hj => by
          obtain ⟨block, hblock⟩ := getElem?_eq_some_of_lt (hg.member_lt hi b hb)
          rw [h.keeps.group b (hg.member_lt hi b hb), chart_of_getElem? hblock] at hj
          exact h.provides j (hg.group_lt hblock hj)
        lists := h.lists
        le := h.groups_le }
    refine .bind (((graft_branches hready).and (graft_retains _ i g₁ _ hi₁ hsite₁)).and
      (graft_renews _ i g₁)) ?_
    rintro _ g₂ ⟨⟨hbranches, hregrafts⟩, N, hrenews, -⟩
    exact .pure ⟨rfl, h.next hi hbranches hregrafts hrenews⟩

end Build

end CobolFlow
