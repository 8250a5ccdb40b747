import CobolFlow.Proofs.Calls.Nesting
import CobolFlow.Proofs.Calls.Rejoining

/-!
# Where control goes from the copies of a range

A group that is spliced in takes the place of a PERFORM. Its members lead where those do that they
are copies of, but for this: what led to a member leads to the copy of that, and where the range
ends, control goes on where the call site led.

A group that is opened at a copy of a call site is made from the members of the group that is
called. These are as they were captured only if that group has not been spliced in yet, which is so
if every PERFORM stands before those that its range performs. Otherwise they already go on behind
another call site, and so do their copies.

Where a call site led before it was led into its group is not to be seen in the result. So this is
kept track of beside the graph.

## Main definitions

* `Graph.Restores` — the members of a group are such copies
* `Graph.CallsOnward` — every PERFORM stands before those that its range performs
* `Graph.Inlines` — groups have been opened and spliced in, and their members are such copies

## Main results

* `Build.graft_inlines`, `Build.graftGroups_inlines` — one group, and all groups
-/

namespace CobolFlow

/-- A group that has members and is not marked as recursive. -/
def Group.Filled (group : Group) : Prop := group.recursive = false ∧ group.members ≠ []

namespace Graph

variable {g₀ g g₁ g₂ g' : Graph} {led led' : BlockId → List BlockId} {O O' Q : BlockId → Prop}
  {P P' R : GroupId → Prop} {b : BlockId} {r : ℕ} {group source : Group}

/-- The members of a group are copies of those that `source` has in `g₀`, and go on where the call
site led. -/
structure Restores (g₀ : Graph) (led : BlockId → List BlockId) (source group : Group) : Prop where
  node : group.node = source.node
  range : group.range = source.range
  length : group.members.length = source.members.length
  next : ∀ p ∈ source.members.zip group.members,
    (g₀.chart p.1).Resumes source.members group.members (led group.callSite).head? (led p.2)

theorem Restores.congr (h : g₀.Restores led source group)
    (hsite : led' group.callSite = led group.callSite)
    (hmembers : ∀ m ∈ group.members, led' m = led m) : g₀.Restores led' source group :=
  { h with
    next := fun p hp => by
      rw [hsite, hmembers p.2 (List.of_mem_zip hp).2]
      exact h.next p hp }

/-- Every PERFORM stands before those that its range performs. -/
def CallsOnward (g : Graph) : Prop :=
  ∀ i < g.groups.size, ∀ group ∈ g.groups[i]?, group.recursive = false →
    ∀ m ∈ group.members, ∀ j ∈ (g.chart m).group, i < j

instance (g : Graph) : Decidable g.CallsOnward :=
  inferInstanceAs (Decidable (∀ i < g.groups.size, ∀ group ∈ g.groups[i]?, _))

/-- No member is a call site. -/
def Outward (g : Graph) : Prop := ∀ i, ∀ m ∈ g.membersOf i, ¬ g.IsCallSite m

/-- A group whose members are new in `g'`, and so is its call site unless it is among `O`. They are
copies of those that some group has in `g₀`. -/
structure Inlined (g₀ g : Graph) (O : BlockId → Prop) (led : BlockId → List BlockId) (g' : Graph)
    (group : Group) : Prop where
  site : O group.callSite ∨ g.size ≤ group.callSite
  site_lt : group.callSite < g'.size
  member : ∀ m ∈ group.members, g.size ≤ m ∧ m < g'.size
  restores : ∃ (i : GroupId) (source : Group), g₀.groups[i]? = some source ∧ source.Filled ∧
    g₀.Restores led source group

/-- From `g` to `g'` the groups among `P` have been spliced in and others have been opened. `led` is
where a block leads in `g'`, or led when it was made the call site of one of these groups. -/
structure Inlines (g₀ g : Graph) (O : BlockId → Prop) (P : GroupId → Prop)
    (led : BlockId → List BlockId) (g' : Graph) : Prop where
  size_le : g.size ≤ g'.size
  groups_le : g.groups.size ≤ g'.groups.size
  old : ∀ b < g.size, led b = (g.chart b).next
  leads : ∀ b < g'.size, (∀ (j : GroupId) group, P j ∨ g.groups.size ≤ j →
    g'.groups[j]? = some group → group.Filled → group.callSite ≠ b) → led b = (g'.chart b).next
  group : ∀ (j : GroupId) group, P j ∨ g.groups.size ≤ j → g'.groups[j]? = some group →
    group.Filled → Inlined g₀ g O led g' group

namespace Inlines

/-- Nothing is spliced in. -/
theorem of_next_eq (hsize : g.size ≤ g'.size) (hgroups : g.groups.size ≤ g'.groups.size)
    (hnext : ∀ b, (g'.chart b).next = (g.chart b).next)
    (hnone : ∀ (j : GroupId) group, P j ∨ g.groups.size ≤ j → g'.groups[j]? = some group →
      ¬ group.Filled) : Inlines g₀ g O P (fun b => (g.chart b).next) g' where
  size_le := hsize
  groups_le := hgroups
  old _ _ := rfl
  leads b _ _ := (hnext b).symm
  group j group hj hgroup hfilled := absurd hfilled (hnone j group hj hgroup)

/-- One part after another. What is spliced in later is not what has been spliced in, and has its
call site elsewhere. -/
theorem trans (h : Inlines g₀ g O P led g₁) (h' : Inlines g₀ g₁ O' P' led' g₂)
    (hretains : Retains O' P' g₁ g₂)
    (hdone : ∀ j < g₁.groups.size, P j ∨ g.groups.size ≤ j → ¬ P' j)
    (hfree : ∀ b < g₁.size, O' b → led b = (g₁.chart b).next)
    (hO : ∀ b, O b ∨ O' b → Q b ∨ g.size ≤ b) (hR : ∀ j, R j ↔ P j ∨ P' j) :
    ∃ led'', Inlines g₀ g Q R led'' g₂ := by
  set led'' : BlockId → List BlockId := fun b => if b < g₁.size then led b else led' b
  have hearly : ∀ {b}, b < g₁.size → led'' b = led b := fun hb => if_pos hb
  have hlate : ∀ {b}, g₁.size ≤ b → led'' b = led' b := fun hb => if_neg hb.not_gt
  have hkept : ∀ j < g₁.groups.size, P j ∨ g.groups.size ≤ j → g₂.groups[j]? = g₁.groups[j]? :=
    fun j hlt hj => hretains.group j hlt (hdone j hlt hj)
  refine ⟨led'',
    { size_le := h.size_le.trans h'.size_le
      groups_le := h.groups_le.trans h'.groups_le
      old := fun b hb => by rw [hearly (hb.trans_le h.size_le), h.old b hb]
      leads := fun b hb hsite => ?_
      group := fun j group hj hgroup hfilled => ?_ }⟩
  · have hafter : led' b = (g₂.chart b).next := h'.leads b hb fun j group hj =>
      hsite j group (hj.imp (fun hj => (hR j).2 (.inr hj)) h.groups_le.trans)
    obtain hlt | hle := lt_or_ge b g₁.size
    · rw [hearly hlt, ← hafter, h'.old b hlt]
      refine h.leads b hlt fun j group hj hgroup =>
        hsite j group (hj.imp_left fun hj => (hR j).2 (.inl hj)) ?_
      rw [hkept j (Array.getElem?_eq_some_iff.1 hgroup).1 hj, hgroup]
    · rw [hlate hle, hafter]
  · by_cases hnew : P' j ∨ g₁.groups.size ≤ j
    · have hlast := h'.group j group hnew hgroup hfilled
      refine
        { site := hlast.site.elim (fun hsite => hO _ (.inr hsite)) fun hle =>
            .inr (h.size_le.trans hle)
          site_lt := hlast.site_lt
          member := fun m hm => ⟨h.size_le.trans (hlast.member m hm).1, (hlast.member m hm).2⟩
          restores := ?_ }
      obtain ⟨i, source, hi, hsource, hrestores⟩ := hlast.restores
      refine ⟨i, source, hi, hsource, hrestores.congr ?_ fun m hm => hlate (hlast.member m hm).1⟩
      obtain hlt | hle := lt_or_ge group.callSite g₁.size
      · rw [hearly hlt, h'.old _ hlt, hfree _ hlt (hlast.site.resolve_right hlt.not_ge)]
      · exact hlate hle
    · obtain ⟨hnot, hlt⟩ := not_or.1 hnew
      rw [not_le] at hlt
      have hj := hj.imp_left fun hj => ((hR j).1 hj).resolve_right hnot
      rw [hkept j hlt hj] at hgroup
      have hfirst := h.group j group hj hgroup hfilled
      obtain ⟨i, source, hi, hsource, hrestores⟩ := hfirst.restores
      exact
        { site := hfirst.site.elim (fun hsite => hO _ (.inl hsite)) .inr
          site_lt := hfirst.site_lt.trans_le h'.size_le
          member := fun m hm => ⟨(hfirst.member m hm).1, (hfirst.member m hm).2.trans_le h'.size_le⟩
          restores := ⟨i, source, hi, hsource, hrestores.congr (hearly hfirst.site_lt) fun m hm =>
            hearly (hfirst.member m hm).2⟩ }

end Inlines

/-- What has been captured in `g₀` is still as it was, but for the groups before `r`. -/
structure Untouched (g₀ : Graph) (r : ℕ) (g : Graph) : Prop where
  tight : g.Tight
  size_le : g₀.size ≤ g.size
  groups_le : g₀.groups.size ≤ g.groups.size
  chart : ∀ b < g₀.size, ¬ g₀.IsCallSite b → g.chart b = g₀.chart b
  group : ∀ j < g₀.groups.size, r ≤ j → g.groups[j]? = g₀.groups[j]?

/-- Blocks and groups that are not captured ones may be changed. -/
theorem Untouched.retains (h : Untouched g₀ r g) (hg' : g'.Tight) (hretains : Retains O P g g')
    (hO : ∀ b, O b → g₀.IsCallSite b ∨ g₀.size ≤ b) (hP : ∀ j, P j → j < r ∨ g₀.groups.size ≤ j) :
    Untouched g₀ r g' where
  tight := hg'
  size_le := h.size_le.trans hretains.size_le
  groups_le := h.groups_le.trans hretains.groups_le
  chart b hb hsite := by
    rw [h.tight.chart_eq hretains (hb.trans_le h.size_le) fun hO' =>
      (hO b hO').elim hsite hb.not_ge, h.chart b hb hsite]
  group j hj hr := by
    rw [hretains.group j (hj.trans_le h.groups_le) fun hP' =>
      (hP j hP').elim hr.not_gt hj.not_ge, h.group j hj hr]

end Graph

namespace Build

open Graph

variable {g₀ g g' : Graph} {r levels : ℕ} {copy : BlockId} {group : Group} {i : GroupId}

/-- What is needed of a group that is to be spliced in: it has the members that a group has that
has been captured. -/
structure Due (g₀ : Graph) (r : ℕ) (i : GroupId) (group : Group) (g : Graph) : Prop where
  here : g.groups[i]? = some group
  out : i < r ∨ g₀.groups.size ≤ i
  site_lt : group.callSite < g.size
  site : g₀.IsCallSite group.callSite ∨ g₀.size ≤ group.callSite
  source : ∃ (k : GroupId) (source : Group), g₀.groups[k]? = some source ∧ r ≤ k + 1 ∧
    group.node = source.node ∧ group.range = source.range ∧ group.members = source.members ∧
    group.recursive = source.recursive

namespace Due

variable (h : Due g₀ r i group g) (hg₀ : Sound g₀) (houtward : g₀.Outward) (hg : Untouched g₀ r g)
  {m : BlockId} (hm : m ∈ group.members)
include h hg₀ houtward hg hm

/-- The members are as they were captured. -/
theorem chart_eq : m < g₀.size ∧ g.chart m = g₀.chart m := by
  obtain ⟨k, source, hk, -, -, -, hmembers, -⟩ := h.source
  have hm : m ∈ source.members := hmembers ▸ hm
  have hlt := hg₀.member_lt hk m hm
  exact ⟨hlt, hg.chart m hlt (houtward k m (membersOf_of_getElem? hk ▸ hm))⟩

/-- What a member calls has not been spliced in. -/
theorem calls (honward : g₀.CallsOnward) (hplain : group.recursive = false) {j : GroupId}
    (hj : (g.chart m).group = some j) : r ≤ j ∧ j < g₀.groups.size := by
  obtain ⟨hlt, hchart⟩ := h.chart_eq hg₀ houtward hg hm
  rw [hchart] at hj
  obtain ⟨k, source, hk, hr, -, -, hmembers, hrecursive⟩ := h.source
  obtain ⟨block, hblock⟩ := getElem?_eq_some_of_lt hlt
  have hkj := honward k (Array.getElem?_eq_some_iff.1 hk).1 source hk (hrecursive ▸ hplain) m
    (hmembers ▸ hm) j hj
  exact ⟨hr.trans hkj, hg₀.group_lt hblock (by rwa [chart_of_getElem? hblock] at hj)⟩

end Due

section Spread

variable (hgraft : ∀ {i : GroupId} {group : Group} {g : Graph}, levels ≠ 0 → Due g₀ r i group g →
  Untouched g₀ r g → Ensures (graft levels i) g fun _ g' => Untouched g₀ r g' ∧
    ∃ led, Inlines g₀ g (· = group.callSite) (· = i) led g')
include hgraft

/-- What is done at a copy that calls a group that has not been spliced in. -/
theorem spread_inlines (hg : Untouched g₀ r g) (hcopy : g₀.size ≤ copy)
    (hcalls : ∀ j, (g.chart copy).group = some j → r ≤ j ∧ j < g₀.groups.size) :
    Ensures (spread levels copy) g fun _ g' => Untouched g₀ r g' ∧
      ∃ led, Inlines g₀ g (· = copy) (fun _ => False) led g' := by
  intro a g' hrun
  obtain ⟨-, ⟨-, rfl⟩ | ⟨k, source, hk, hsource, hlt, hcase⟩⟩ := spread_cases levels copy a g' hrun
  · refine ⟨hg, _, .of_next_eq le_rfl le_rfl (fun _ => rfl) fun j group hj hgroup => ?_⟩
    exact absurd (Array.getElem?_eq_some_iff.1 hgroup).1 (hj.resolve_left id).not_gt
  obtain ⟨hr, hk₀⟩ := hcalls k hk
  set new := nested levels source g.groups.size copy with hnew
  set g₁ := openedAt g copy new with hg₁
  have hat : g₁.groups[g.groups.size]? = some new := Array.getElem?_push_size
  have hsize : g₁.groups.size = g.groups.size + 1 := Array.size_push ..
  have hopened : Untouched g₀ r g₁ := hg.retains (hg.tight.openedAt copy new)
    (openedAt_retains g copy new) (fun b hb => .inr (hb ▸ hcopy)) fun _ h => h.elim
  have hnext : ∀ b, (g₁.chart b).next = (g.chart b).next := fun b => by
    rw [hg₁, chart_openedAt hlt]
  obtain ⟨hnot, rfl⟩ | ⟨hgrafted, hrun'⟩ := hcase
  · refine ⟨hopened, _, .of_next_eq (size_openedAt g copy new).ge (hsize ▸ Nat.le_succ _)
      hnext ?_⟩
    intro j group hj hgroup hfilled
    have hj' := (Array.getElem?_eq_some_iff.1 hgroup).1
    obtain rfl : j = g.groups.size :=
      le_antisymm (Nat.lt_succ_iff.1 (hj'.trans_eq hsize)) (hj.resolve_left id)
    obtain rfl := Option.some.inj (hat.symm.trans hgroup)
    exact hfilled.2 (if_neg hnot)
  · have hdue : Due g₀ r g.groups.size new g₁ :=
      { here := hat
        out := .inr hg.groups_le
        site_lt := (size_openedAt g copy new).symm ▸ hlt
        site := .inr hcopy
        source := ⟨k, source, (hg.group k hk₀ hr).symm.trans hsource, hr.trans (Nat.le_succ k), rfl,
          rfl, if_pos hgrafted, rfl⟩ }
    obtain ⟨huntouched, led, hled⟩ := hgraft hgrafted.1 hdue hopened _ _ hrun'
    have hsize' : g₁.size = g.size := size_openedAt g copy new
    have hgroups : g.groups.size ≤ g₁.groups.size := hsize ▸ Nat.le_succ _
    have hle : ∀ {j}, g.groups.size ≤ j ↔ j = g.groups.size ∨ g₁.groups.size ≤ j := by
      intro j
      rw [hsize, Nat.succ_le_iff, le_iff_eq_or_lt, eq_comm]
    refine ⟨huntouched, led, ?_⟩
    exact
      { size_le := hsize' ▸ hled.size_le
        groups_le := hgroups.trans hled.groups_le
        old := fun b hb => (hled.old b (hsize'.symm ▸ hb)).trans (hnext b)
        leads := fun b hb hsite => hled.leads b hb fun j group hj =>
          hsite j group (.inr (hle.2 hj))
        group := fun j group hj hgroup hfilled => by
          have h := hled.group j group (hle.1 (hj.resolve_left id)) hgroup hfilled
          exact ⟨hsize' ▸ h.site, h.site_lt, hsize' ▸ h.member, h.restores⟩ }

end Spread

/-! ### One group -/

/-- While the copies in `left` wait. -/
structure Unfolding (g₀ : Graph) (r : ℕ) (copied : List BlockId) (g : Graph) (left : List BlockId)
    (g' : Graph) : Prop where
  nodup : left.Nodup
  sub : left ⊆ copied
  untouched : Untouched g₀ r g'
  retains : Retains (fun b => b ∈ copied ∧ b ∉ left) (fun _ => False) g g'
  inlines : ∃ led, Inlines g₀ g (fun b => b ∈ copied ∧ b ∉ left) (fun _ => False) led g'

/-- One copy more is dealt with. -/
theorem Unfolding.next {g₁ g₂ : Graph} {copied left : List BlockId}
    (h : Unfolding g₀ r copied g (copy :: left) g₁) (hcopied : ∀ c ∈ copied, c < g.size)
    (hretains : Retains (· = copy) (fun _ => False) g₁ g₂) (huntouched : Untouched g₀ r g₂)
    (hinlines : ∃ led, Inlines g₀ g₁ (· = copy) (fun _ => False) led g₂) :
    Unfolding g₀ r copied g left g₂ := by
  obtain ⟨hnot, hnodup⟩ := List.nodup_cons.1 h.nodup
  have hmem : copy ∈ copied := h.sub List.mem_cons_self
  have hdone : ∀ b, (b ∈ copied ∧ b ∉ copy :: left) ∨ b = copy → b ∈ copied ∧ b ∉ left := by
    rintro b (⟨hb, hleft⟩ | rfl)
    · exact ⟨hb, fun hl => hleft (List.mem_cons_of_mem copy hl)⟩
    · exact ⟨hmem, hnot⟩
  refine
    { nodup := hnodup
      sub := fun c hc => h.sub (List.mem_cons_of_mem copy hc)
      untouched := huntouched
      retains := (h.retains.mono (fun b _ hb => hdone b (.inl hb)) fun _ _ h => h).trans
        (hretains.mono (fun b _ hb => hdone b (.inr hb)) fun _ _ h => h)
      inlines := ?_ }
  obtain ⟨led, hled⟩ := h.inlines
  obtain ⟨led', hled'⟩ := hinlines
  refine hled.trans hled' hretains (fun _ _ _ h => h) ?_ (fun b hb => .inl (hdone b hb)) (by simp)
  -- no group has been opened at the copy yet
  rintro _ hlt rfl
  refine hled.leads _ hlt fun j group hj hgroup hfilled heq => ?_
  obtain ⟨-, hleft⟩ | hle := heq ▸ (hled.group j group hj hgroup hfilled).site
  · exact hleft List.mem_cons_self
  · exact (hcopied _ hmem).not_ge hle

/-- When all copies have been dealt with, they become the members. -/
theorem Unfolding.refilled {g₁ g₂ : Graph} {copied terminals : List BlockId}
    (h : Unfolding g₀ r copied g₁ [] g₂) (hg : g.Tight) (hdue : Due g₀ r i group g)
    (hfilled : group.Filled)
    (hsplices : Splices g group.callSite group.members copied g₁)
    (hmembers : ∀ m ∈ group.members, g.chart m = g₀.chart m)
    (hrun : modifyGroup i (fun old => { old with members := copied, terminals }) g₂ =
      .ok ((), g')) :
    Untouched g₀ r g' ∧ ∃ led, Inlines g₀ g (· = group.callSite) (· = i) led g' := by
  obtain ⟨led, hled⟩ := h.inlines
  have hlt : i < g.groups.size := (Array.getElem?_eq_some_iff.1 hdue.here).1
  have hretains := retains_of_within (B := fun _ => False)
    (modifyGroup_retains (G := (· = i)) rfl _) g₂ _ _ hrun
  obtain ⟨-, hg'⟩ := eq_of_modifyGroup_eq_ok hrun
  have hchart : g'.chart = g₂.chart := by rw [hg']; rfl
  have htight : g'.Tight := by
    rw [hg']
    exact ⟨h.untouched.tight.slot_lt, h.untouched.tight.target_lt⟩
  have hsize := hsplices.retains.size_le
  have hsize' : g₁.size ≤ g'.size := h.retains.size_le.trans hretains.size_le
  have hat : g'.groups[i]? = some { group with members := copied, terminals } := by
    rw [hg', Array.getElem?_modify, if_pos rfl,
      h.retains.getElem?_groups (hsplices.groups ▸ hdue.here) id]
    rfl
  have hkept : ∀ j, g.groups.size ≤ j → g'.groups[j]? = g₂.groups[j]? := fun j hj => by
    rw [hg', Array.getElem?_modify, if_neg (hlt.trans_le hj).ne]
  have hcopied : copied ≠ [] := fun hnil =>
    hfilled.2 (List.length_eq_zero_iff.1 (by rw [← hsplices.length, hnil, List.length_nil]))
  -- the call site led where it did before it was led into the copies
  set led' : BlockId → List BlockId :=
    fun b => if b = group.callSite then (g.chart b).next else led b with hled'
  have hsite : led' group.callSite = (g.chart group.callSite).next := if_pos rfl
  have hnew : ∀ b, g.size ≤ b → led' b = led b := fun b hb =>
    if_neg (hdue.site_lt.trans_le hb).ne'
  refine ⟨h.untouched.retains htight hretains (fun _ h => h.elim) fun j hj => hj ▸ hdue.out, led',
    { size_le := hsize.trans hsize'
      groups_le := hsplices.groups ▸ h.retains.groups_le.trans hretains.groups_le
      old := fun b hb => ?_
      leads := fun b hb hnone => ?_
      group := fun j child hj hchild hfilled' => ?_ }⟩
  · by_cases heq : b = group.callSite
    · rw [heq, hsite]
    · rw [← hg.chart_eq hsplices.retains hb heq, ← hled.old b (hb.trans_le hsize)]
      exact if_neg heq
  · have hne : b ≠ group.callSite := (hnone i _ (.inl rfl) hat ⟨hfilled.1, hcopied⟩).symm
    rw [hchart]
    refine (if_neg hne).trans (hled.leads b (by rwa [hg'] at hb) fun j child hj hchild => ?_)
    have hj : g.groups.size ≤ j := hsplices.groups ▸ hj.resolve_left id
    exact hnone j child (.inr hj) ((hkept j hj).trans hchild)
  · obtain rfl | hj := hj
    · obtain rfl := Option.some.inj (hat.symm.trans hchild)
      obtain ⟨k, source, hk, -, hnode, hrange, hsource, hrecursive⟩ := hdue.source
      refine
        { site := .inl rfl
          site_lt := hdue.site_lt.trans_le (hsize.trans hsize')
          member := fun m hm => ⟨(hsplices.new m hm).1, (hsplices.new m hm).2.trans_le hsize'⟩
          restores := ⟨k, source, hk, ⟨hrecursive ▸ hfilled.1, hsource ▸ hfilled.2⟩, hnode, hrange,
            hsource ▸ hsplices.length, fun p hp => ?_⟩ }
      rw [← hsource] at hp ⊢
      obtain ⟨hm, hc⟩ := List.of_mem_zip hp
      rw [hsite, hnew p.2 (hsplices.new _ hc).1, hled.old p.2 (hsplices.new _ hc).2,
        ← hmembers p.1 hm]
      exact hsplices.resumes p hp
    · rw [hkept j hj] at hchild
      have hchild := hled.group j child (.inr (hsplices.groups ▸ hj)) hchild hfilled'
      have hsite_le : g.size ≤ child.callSite :=
        hchild.site.elim (fun hmem => (hsplices.new _ hmem.1).1) hsize.trans
      obtain ⟨k, source, hk, hsource, hrestores⟩ := hchild.restores
      exact
        { site := .inr hsite_le
          site_lt := hchild.site_lt.trans_le hretains.size_le
          member := fun m hm => ⟨hsize.trans (hchild.member m hm).1,
            (hchild.member m hm).2.trans_le hretains.size_le⟩
          restores := ⟨k, source, hk, hsource, hrestores.congr (hnew _ hsite_le) fun m hm =>
            hnew m (hsize.trans (hchild.member m hm).1)⟩ }

/-- Where there is nothing to splice in all blocks lead where they did. -/
theorem Due.inlines_of_next_eq (h : Due g₀ r i group g) (hsize : g.size ≤ g'.size)
    (hgroups : g'.groups = g.groups) (hnext : ∀ b, (g'.chart b).next = (g.chart b).next)
    (hnot : ¬ group.Filled) : ∃ led, Inlines g₀ g (· = group.callSite) (· = i) led g' := by
  refine ⟨_, .of_next_eq hsize (hgroups ▸ le_rfl) hnext fun j child hj hchild => ?_⟩
  rw [hgroups] at hchild
  obtain rfl | hj := hj
  · exact Option.some.inj (h.here.symm.trans hchild) ▸ hnot
  · exact absurd (Array.getElem?_eq_some_iff.1 hchild).1 hj.not_gt

/-- **Splicing a group in** makes its members copies of what has been captured, and so those of all
groups that are opened below it. -/
theorem graft_inlines (hg₀ : Sound g₀) (honward : g₀.CallsOnward) (houtward : g₀.Outward)
    (hlevels : levels ≠ 0) (h : Due g₀ r i group g) (hg : Untouched g₀ r g) :
    Ensures (graft levels i) g fun _ g' => Untouched g₀ r g' ∧
      ∃ led, Inlines g₀ g (· = group.callSite) (· = i) led g' := by
  induction levels generalizing i group g with
  | zero => exact absurd rfl hlevels
  | succ levels ih =>
    refine .get_bind (.lift_bind fun group' hok => ?_)
    obtain rfl := Option.some.inj (h.here.symm.trans ((group_eq_ok_iff g i group').1 hok))
    split
    · next hrecursive =>
      exact .pure ⟨hg, h.inlines_of_next_eq le_rfl rfl (fun _ => rfl) fun hfilled => by
        cases hfilled.1.symm.trans hrecursive⟩
    next hrecursive =>
    have hplain := Bool.eq_false_of_not_eq_true hrecursive
    have hmember : ∀ m ∈ group.members, m < g₀.size ∧ g.chart m = g₀.chart m := fun m hm =>
      h.chart_eq hg₀ houtward hg hm
    refine .bind (copyMembers_duplicates hg.tight fun m hm =>
      (hmember m hm).1.trans_le hg.size_le) fun copied g₁ h₁ => ?_
    split
    swap
    · next hempty =>
      obtain rfl : copied = [] := by
        cases copied with
        | nil => rfl
        | cons first rest => exact (hempty first rest rfl).elim
      exact .pure ⟨hg.retains h₁.tight h₁.retains (fun _ h => h.elim) fun _ h => h.elim,
        h.inlines_of_next_eq h₁.retains.size_le h₁.groups (h₁.next_eq hg.tight) fun hfilled =>
          hfilled.2 (List.length_eq_zero_iff.1 h₁.length.symm)⟩
    next first rest =>
    refine .bind (h₁.splices hg.tight h.site_lt List.mem_cons_self) fun terminals g₂ h₂ => ?_
    have hbegun : Unfolding g₀ r (first :: rest) g₂ (first :: rest) g₂ :=
      { nodup := h₂.nodup
        sub := List.Subset.refl _
        untouched := hg.retains h₂.tight h₂.retains (fun b hb => hb ▸ h.site) fun _ h => h.elim
        retains := .refl g₂
        inlines := ⟨_, .of_next_eq le_rfl le_rfl (fun _ => rfl) fun j child hj hchild _ =>
          (hj.resolve_left id).not_gt (Array.getElem?_eq_some_iff.1 hchild).1⟩ }
    refine .bind (.forIn_rest (I := Unfolding g₀ r (first :: rest) g₂) hbegun
      fun copy left g₃ h₃ => ?_) fun _ g₃ h₃ _ g' hrun => ?_
    · have hmem : copy ∈ first :: rest := h₃.sub List.mem_cons_self
      have hcalls : ∀ j, (g₃.chart copy).group = some j → r ≤ j ∧ j < g₀.groups.size := by
        intro j hj
        obtain ⟨m, hm, hcall⟩ := h₂.calls copy hmem
        rw [h₂.tight.chart_eq h₃.retains (h₂.new copy hmem).2 fun h => h.2 List.mem_cons_self,
          hcall] at hj
        exact h.calls hg₀ houtward hg hm honward hplain hj
      intro a g₄ hrun
      obtain ⟨hyield, -⟩ := spread_cases levels copy a g₄ hrun
      have hretains := spread_retains (graft_retains levels) copy a g₄ hrun
      obtain ⟨huntouched, hinlines⟩ := spread_inlines (fun hlevels hdue hg => ih hlevels hdue hg)
        h₃.untouched (hg.size_le.trans (h₂.new copy hmem).1) hcalls a g₄ hrun
      exact ⟨hyield, h₃.next (fun c hc => (h₂.new c hc).2) hretains huntouched hinlines⟩
    · have hfilled : group.Filled := ⟨hplain, fun hnil => by simpa [hnil] using h₂.length⟩
      exact h₃.refilled hg.tight h hfilled h₂ (fun m hm => (hmember m hm).2) hrun

/-! ### All groups -/

/-- While the groups in `left` wait, which are those from `k` on. -/
structure Inlining (g : Graph) (k : ℕ) (left : List GroupId) (g' : Graph) : Prop where
  left_eq : left = List.range' k (g.groups.size - k)
  untouched : Untouched g k g'
  inlines : ∃ led, Inlines g g (fun b => ∃ i < k, ∃ group, g.groups[i]? = some group ∧
    group.callSite = b) (· < k) led g'

/-- One group more is spliced in. -/
theorem Inlining.next (hg : Sound g) {g₁ g₂ : Graph} {k : ℕ} {left : List GroupId}
    (h : Inlining g k (k :: left) g₁) (hk : g.groups[k]? = some group)
    (hretains : Retains (· = group.callSite) (· = k) g₁ g₂) (huntouched : Untouched g (k + 1) g₂)
    (hinlines : ∃ led, Inlines g g₁ (· = group.callSite) (· = k) led g₂) :
    Inlining g (k + 1) left g₂ := by
  obtain ⟨led, hled⟩ := h.inlines
  obtain ⟨led', hled'⟩ := hinlines
  have hlt : k < g.groups.size := (Array.getElem?_eq_some_iff.1 hk).1
  refine ⟨?_, huntouched, hled.trans hled' hretains (fun j _ hj => ?_) ?_ (fun b hb => .inl ?_)
    fun j => Nat.lt_succ_iff_lt_or_eq⟩
  · have hleft := h.left_eq
    rw [← Nat.succ_pred_eq_of_pos (Nat.sub_pos_of_lt hlt), List.range'_succ] at hleft
    exact (List.cons.inj hleft).2
  · exact hj.elim ne_of_lt fun hj => (hlt.trans_le hj).ne'
  · -- no group has been opened at the call site, and no other has it
    rintro _ hb rfl
    refine hled.leads _ hb fun j child hj hchild hfilled heq => ?_
    obtain ⟨i, hi, other, hother, hsite⟩ | hle := heq ▸ (hled.group j child hj hchild hfilled).site
    · exact hi.ne (eq_of_callSite_eq hg hother hk hsite)
    · obtain ⟨site, hsite, -⟩ := hg.callSite hk
      exact (lt_size_of_getElem? hsite).not_ge hle
  · obtain ⟨i, hi, other, hother, hsite⟩ | rfl := hb
    · exact ⟨i, Nat.lt_succ_of_lt hi, other, hother, hsite⟩
    · exact ⟨k, Nat.lt_succ_self k, group, hk, rfl⟩

/-- **Splicing all groups in**: if every PERFORM stands before those that its range performs, the
members of all groups are copies of what has been captured. -/
theorem graftGroups_inlines (o : Options) (ho : o.maxGraftDepth ≠ 0) (hg : Sound g)
    (honward : g.CallsOnward) (houtward : g.Outward) : Ensures (graftGroups o) g fun _ g' =>
      ∃ led, Inlines g g g.IsCallSite (fun _ => True) led g' := by
  refine .get_bind (.bind (.forIn_rest (I := fun left g' => ∃ k, Inlining g k left g') ?_ ?_) ?_)
  · refine ⟨0, by rw [List.range_eq_range', Nat.sub_zero], ?_, _,
      .of_next_eq le_rfl le_rfl (fun _ => rfl) fun j group hj hgroup _ => ?_⟩
    · exact ⟨.of_sound hg, le_rfl, le_rfl, fun _ _ _ => rfl, fun _ _ _ => rfl⟩
    · exact (hj.resolve_left (Nat.not_lt_zero j)).not_gt (Array.getElem?_eq_some_iff.1 hgroup).1
  · rintro i left g₁ ⟨k, h⟩
    have hlt : k < g.groups.size := by
      have hlength := congrArg List.length h.left_eq
      rw [List.length_cons, List.length_range'] at hlength
      omega
    obtain rfl : i = k := by
      have hleft := h.left_eq
      rw [← Nat.succ_pred_eq_of_pos (Nat.sub_pos_of_lt hlt), List.range'_succ] at hleft
      exact (List.cons.inj hleft).1
    have hi : g.groups[i]? = some g.groups[i] := Array.getElem?_eq_getElem hlt
    obtain ⟨site, hsite, -⟩ := hg.callSite hi
    have hdue : Due g (i + 1) i g.groups[i] g₁ :=
      { here := (h.untouched.group i hlt le_rfl).trans hi
        out := .inl (Nat.lt_succ_self i)
        site_lt := (lt_size_of_getElem? hsite).trans_le h.untouched.size_le
        site := .inl ⟨i, _, hi, rfl⟩
        source := ⟨i, _, hi, le_rfl, rfl, rfl, rfl, rfl⟩ }
    have huntouched : Untouched g (i + 1) g₁ :=
      { h.untouched with
        group := fun j hj hle => h.untouched.group j hj ((Nat.le_succ i).trans hle) }
    refine .bind ((graft_inlines hg honward houtward ho hdue huntouched).and
      (graft_retains _ i g₁ _ hdue.here hdue.site_lt)) ?_
    rintro _ g₂ ⟨⟨huntouched₂, hinlines⟩, hregrafts⟩
    exact .pure ⟨rfl, i + 1, h.next hg hi hregrafts.retains huntouched₂ hinlines⟩
  · rintro _ g' ⟨k, h⟩
    have hle : g.groups.size ≤ k := by
      have hlength := congrArg List.length h.left_eq
      rw [List.length_nil, List.length_range'] at hlength
      omega
    obtain ⟨led, hled⟩ := h.inlines
    have hall : ∀ j, j < k ∨ g.groups.size ≤ j := fun j => (lt_or_ge j k).imp_right hle.trans
    exact .pure ⟨led,
      { hled with
        leads := fun b hb hsite => hled.leads b hb fun j group _ => hsite j group (.inl trivial)
        group := fun j group _ hgroup hfilled => by
          have hchild := hled.group j group (hall j) hgroup hfilled
          refine { hchild with site := hchild.site.imp_left ?_ }
          rintro ⟨i, -, other, hother, hsite⟩
          exact ⟨i, other, hother, hsite⟩ }⟩

end Build

end CobolFlow
