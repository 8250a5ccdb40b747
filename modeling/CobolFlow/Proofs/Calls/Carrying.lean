import CobolFlow.Proofs.Calls.Rejoining

/-!
# Control is carried on

Control comes from the roots of a graph along its edges. Capturing puts copies beside the graph to
which no edge leads; splicing copies these once more, leads the call site into the new copies, and
these to where the call site led. In all this control is carried on: from a block that it may come
to it goes on to blocks that it may come to, and it stops only where it should.

## Main definitions

* `Graph.Carries` — control is carried on in a graph

## Main results

* `Build.relocate_carries`, `Build.graft_carries` — capturing and splicing keep this so
-/

namespace CobolFlow

namespace Graph

/-- Control that comes to the `live` blocks is carried on, except by those that are `loose`, and
stays away from those put `aside`. -/
structure Carries (g : Graph) (aside loose live : BlockId → Prop) : Prop where
  tight : g.Tight
  lt : ∀ {b : BlockId}, live b → b < g.size
  aside_lt : ∀ {b : BlockId}, aside b → b < g.size
  roots : ∀ b ∈ g.roots, live b ∧ ¬ aside b
  next : ∀ {b x : BlockId}, live b → x ∈ (g.chart b).next → live x
  outside : ∀ {b x : BlockId}, ¬ aside b → x ∈ (g.chart b).next → ¬ aside x
  members : ∀ {k : GroupId} {group : Group}, g.groups[k]? = some group → ∀ m ∈ group.members,
    m < g.size ∧ ∀ x ∈ (g.chart m).next, x ∈ group.members ∨ ¬ aside x
  site : ∀ {k : GroupId} {group : Group}, g.groups[k]? = some group →
    ¬ aside group.callSite ∧ (g.chart group.callSite).group.isSome
  calls : ∀ {b : BlockId} {k : GroupId}, (g.chart b).group = some k →
    ∃ group, g.groups[k]? = some group ∧ (live b → live group.callSite)
  /-- Where control comes to a call site it may come to the first member. -/
  enters : ∀ {k : GroupId} {group : Group}, g.groups[k]? = some group → live group.callSite →
    ∀ m ∈ group.members.head?, live m
  opened : ∀ {b : BlockId}, (g.chart b).group.isSome → (g.chart b).flags.ending = false
  /-- It stops where the program ends, by a statement or not, and in DECLARATIVES, but never at a
  call site. -/
  leads : ∀ {b : BlockId}, live b → ¬ aside b → ¬ loose b → (g.chart b).next = [] →
    (g.chart b).group = none ∧ ((g.chart b).flags.finish = true ∨
      (g.chart b).flags.ending = true ∨ (g.chart b).flags.declaratives = true)

variable {g g' : Graph} {aside aside' loose loose' live : BlockId → Prop} {b : BlockId}

namespace Carries

theorem lt_of_isSome (hb : (g.chart b).group.isSome) : b < g.size := by
  by_contra hge
  rw [chart_of_size_le (Nat.le_of_not_lt hge)] at hb
  exact nomatch hb

/-- A group may be changed, but for its call site. -/
theorem modifyGroup (h : g.Carries aside loose live) {i : GroupId} {f : Group → Group}
    (hsite : ∀ group, (f group).callSite = group.callSite)
    (hmembers : ∀ group, g.groups[i]? = some group → ∀ m ∈ (f group).members,
      m < g.size ∧ ∀ x ∈ (g.chart m).next, x ∈ (f group).members ∨ ¬ aside x)
    (henters : ∀ group, g.groups[i]? = some group → live group.callSite →
      ∀ m ∈ (f group).members.head?, live m) :
    Carries { g with groups := g.groups.modify i f } aside loose live := by
  have hat : ∀ {k : GroupId} {group : Group}, (g.groups.modify i f)[k]? = some group →
      g.groups[k]? = some group ∨ k = i ∧ ∃ old, g.groups[i]? = some old ∧ group = f old := by
    intro k group hk
    rw [Array.getElem?_modify] at hk
    split at hk
    · next heq =>
      obtain ⟨old, hold, rfl⟩ := Option.map_eq_some_iff.1 hk
      exact .inr ⟨heq.symm, old, heq ▸ hold, rfl⟩
    · exact .inl hk
  have hchart : ({ g with groups := g.groups.modify i f } : Graph).chart = g.chart :=
    chart_congr rfl rfl
  exact
    { h with
      tight := ⟨h.tight.slot_lt, h.tight.target_lt⟩
      next := fun hb hx => h.next hb (hchart ▸ hx)
      outside := fun hb hx => h.outside hb (hchart ▸ hx)
      members := fun hk => by
        rw [hchart]
        obtain hk | ⟨-, old, hold, rfl⟩ := hat hk
        · exact h.members hk
        · exact hmembers old hold
      site := fun hk => by
        rw [hchart]
        obtain hk | ⟨-, old, hold, rfl⟩ := hat hk
        · exact h.site hk
        · rw [hsite]
          exact h.site hold
      calls := fun {b k} hb => by
        rw [hchart] at hb
        obtain ⟨group, hk, hlive⟩ := h.calls hb
        by_cases heq : i = k
        · subst heq
          refine ⟨f group, ?_, by rwa [hsite]⟩
          change (g.groups.modify i f)[i]? = _
          rw [Array.getElem?_modify, if_pos rfl, hk]
          rfl
        · refine ⟨group, ?_, hlive⟩
          change (g.groups.modify i f)[k]? = _
          rw [Array.getElem?_modify, if_neg heq, hk]
      enters := fun hk => by
        obtain hk | ⟨-, old, hold, rfl⟩ := hat hk
        · exact h.enters hk
        · rw [hsite]
          exact henters old hold
      opened := fun hb => by
        rw [hchart] at hb ⊢
        exact h.opened hb
      leads := fun hb ha hl hnext => by
        rw [hchart] at hnext ⊢
        exact h.leads hb ha hl hnext }

/-- Where an edge of a block leads. -/
theorem target (h : g.Carries aside loose live) {block : Block} (hblock : g.blocks[b]? = some block)
    (ha : ¬ aside b) {k : SlotId} (hk : k ∈ block.successors) :
    ∃ x, g.slots[k]? = some x ∧ ¬ aside x ∧ (live b → live x) := by
  have hlt := h.tight.slot_lt hblock k hk
  have hx : g.slots[k] ∈ (g.chart b).next := by
    rw [chart_of_getElem? hblock]
    exact List.mem_filterMap.2 ⟨k, hk, Array.getElem?_eq_getElem hlt⟩
  exact ⟨_, Array.getElem?_eq_getElem hlt, h.outside ha hx, fun hlive => h.next hlive hx⟩

/-- A group is opened at a block that makes a call already. -/
theorem openedAt (h : g.Carries aside loose live) (hb : (g.chart b).group.isSome) (ha : ¬ aside b)
    {new : Group} (hsite : new.callSite = b)
    (hmembers : ∀ m ∈ new.members, m < g.size ∧ ∀ x ∈ (g.chart m).next, x ∈ new.members ∨ ¬ aside x)
    (henters : live b → ∀ m ∈ new.members.head?, live m) :
    (Build.openedAt g b new).Carries aside loose live := by
  have hsize := Build.size_openedAt g b new
  have hchart := chart_openedAt (lt_of_isSome hb) new
  have hat : ∀ {k : GroupId} {group : Group}, (Build.openedAt g b new).groups[k]? = some group →
      g.groups[k]? = some group ∨ group = new := fun {k group} hk => by
    rw [Build.openedAt, Array.getElem?_push] at hk
    split at hk
    · exact .inr (Option.some.inj hk).symm
    · exact .inl hk
  have hisSome : ∀ {d : BlockId}, (g.chart d).group.isSome →
      ((Build.openedAt g b new).chart d).group.isSome := fun hd => by
    rw [hchart]
    dsimp only
    split
    · rfl
    · exact hd
  exact
    { tight := h.tight.openedAt b new
      lt := fun hd => hsize ▸ h.lt hd
      aside_lt := fun hd => hsize ▸ h.aside_lt hd
      roots := h.roots
      next := fun hd hx => h.next hd (by rwa [hchart] at hx)
      outside := fun hd hx => h.outside hd (by rwa [hchart] at hx)
      members := fun hk m hm => by
        rw [hsize, hchart]
        obtain hk | rfl := hat hk
        · exact h.members hk m hm
        · exact hmembers m hm
      site := fun hk => by
        obtain hk | rfl := hat hk
        · exact ⟨(h.site hk).1, hisSome (h.site hk).2⟩
        · rw [hsite]
          exact ⟨ha, hisSome hb⟩
      calls := fun {d k} hd => by
        rw [hchart] at hd
        dsimp only at hd
        split at hd
        · next heq =>
          obtain rfl := Option.some.inj hd
          exact ⟨new, Array.getElem?_push_size, fun hlive => by rwa [hsite, ← heq]⟩
        · obtain ⟨group, hk, hlive⟩ := h.calls hd
          obtain ⟨hlt, heq⟩ := Array.getElem?_eq_some_iff.1 hk
          exact ⟨group, (Array.getElem?_push_lt hlt).trans (congrArg some heq), hlive⟩
      enters := fun hk hlive m hm => by
        obtain hk | rfl := hat hk
        · exact h.enters hk hlive m hm
        · exact henters (hsite ▸ hlive) m hm
      opened := fun {d} hd => by
        rw [hchart] at hd ⊢
        dsimp only at hd ⊢
        split at hd
        · next heq => exact heq ▸ h.opened hb
        · exact h.opened hd
      leads := fun {d} hd hda hdl hnil => by
        rw [hchart] at hnil ⊢
        obtain ⟨hnone, hends⟩ := h.leads hd hda hdl hnil
        dsimp only
        split
        · next heq => exact absurd hb (by simp [← heq, hnone])
        · exact ⟨hnone, hends⟩ }

/-- Edges may change, and marks that are of no account here. -/
theorem rewire (h : g.Carries aside loose live) (htight : g'.Tight) (hsize : g'.size = g.size)
    (hroots : g'.roots = g.roots) (hgroups : g'.groups = g.groups)
    (hsame : ∀ d, (g'.chart d).group = (g.chart d).group ∧
      (g'.chart d).flags.ending = (g.chart d).flags.ending ∧
      (g'.chart d).flags.finish = (g.chart d).flags.finish ∧
      (g'.chart d).flags.declaratives = (g.chart d).flags.declaratives)
    (hnext : ∀ d, ∀ x ∈ (g'.chart d).next,
      x ∈ (g.chart d).next ∨ ¬ aside x ∧ (live d → live x))
    (hleads : ∀ d, live d → ¬ aside d → ¬ loose' d → (g'.chart d).next = [] →
      ¬ loose d ∧ (g.chart d).next = [] ∨ (g.chart d).flags.ending = true) :
    g'.Carries aside loose' live where
  tight := htight
  lt hb := hsize ▸ h.lt hb
  aside_lt hb := hsize ▸ h.aside_lt hb
  roots := hroots ▸ h.roots
  next hb hx := (hnext _ _ hx).elim (h.next hb) fun hx => hx.2 hb
  outside hb hx := (hnext _ _ hx).elim (h.outside hb) And.left
  members hk m hm := by
    rw [hgroups] at hk
    obtain ⟨hlt, hmembers⟩ := h.members hk m hm
    exact ⟨hsize ▸ hlt, fun x hx => (hnext m x hx).elim (hmembers x) fun hx => .inr hx.1⟩
  site hk := by
    rw [hgroups] at hk
    rw [(hsame _).1]
    exact h.site hk
  calls hb := by
    rw [hgroups]
    exact h.calls ((hsame _).1 ▸ hb)
  enters hk := h.enters (hgroups ▸ hk)
  opened hb := by
    rw [(hsame _).1] at hb
    rw [(hsame _).2.1]
    exact h.opened hb
  leads {b} hb ha hl hnil := by
    obtain ⟨hgroup, hending, hfinish, hdeclaratives⟩ := hsame b
    rw [hgroup, hending, hfinish, hdeclaratives]
    obtain ⟨hl', hnil'⟩ | hends := hleads b hb ha hl hnil
    · exact h.leads hb ha hl' hnil'
    · refine ⟨?_, .inr (.inl hends)⟩
      cases hcase : (g.chart b).group with
      | none => rfl
      | some k =>
        exact absurd (h.opened (hcase ▸ rfl : (g.chart b).group.isSome)) (by rw [hends]; nofun)

/-- Control need not be watched where it ends, where it cannot come to, or where it goes on. -/
theorem loosen (h : g.Carries aside loose live)
    (hloose : ∀ d, live d → ¬ aside d → ¬ loose' d → (g.chart d).next = [] →
      ¬ loose d ∨ (g.chart d).flags.ending = true) : g.Carries aside loose' live :=
  h.rewire h.tight rfl rfl rfl (fun _ => ⟨rfl, rfl, rfl, rfl⟩) (fun _ _ => .inl)
    fun d hd ha hl hnil => (hloose d hd ha hl hnil).imp_left fun hl' => ⟨hl', hnil⟩

end Carries

/-- A block is given other edges, or other marks that are of no account. -/
theorem modifyBlock_carries (h : g.Carries aside loose live) {f : Block → Block}
    (hgroup : ∀ block, (f block).group = block.group)
    (hflags : ∀ block, (f block).flags.ending = block.flags.ending ∧
      (f block).flags.finish = block.flags.finish ∧
      (f block).flags.declaratives = block.flags.declaratives)
    (hnext : ∀ block, g.blocks[b]? = some block → ∀ k ∈ (f block).successors,
      k ∈ block.successors ∨ ∃ x, g.slots[k]? = some x ∧ ¬ aside x ∧ (live b → live x))
    (hloose : ∀ d ≠ b, loose d → loose' d)
    (hleads : ∀ block, g.blocks[b]? = some block → live b → ¬ loose' b →
      (f block).successors = [] → ¬ loose b ∧ block.successors = [] ∨ block.flags.ending = true) :
    Ensures (modifyBlock b f) g fun _ g' => g'.Carries aside loose' live := by
  intro _ g' hrun
  obtain ⟨hlt, hg'⟩ := (modifyBlock_eq_ok_iff _ _ _ _).1 hrun
  obtain ⟨block, hblock⟩ := getElem?_eq_some_of_lt hlt
  have hchart : ∀ d, g'.chart d = if d = b then (f block).spot g.slots else g.chart d := fun d =>
    congrFun (chart_modify hblock (by rw [hg']) (by rw [hg'])) d
  have htight : g'.Tight := h.tight.modify (by rw [hg']) (by rw [hg']) fun old hold k hk => by
    obtain hk | ⟨x, hx, -⟩ := hnext old hold k hk
    · exact h.tight.slot_lt hold k hk
    · exact (Array.getElem?_eq_some_iff.1 hx).1
  have hat : g.chart b = block.spot g.slots := chart_of_getElem? hblock
  refine h.rewire htight (by rw [hg']; simp [size]) (by rw [hg']) (by rw [hg']) (fun d => ?_)
    (fun d x hx => ?_) fun d hd ha hl hnil => ?_
  · rw [hchart]
    split
    · next heq =>
      subst heq
      rw [hat]
      exact ⟨hgroup block, hflags block⟩
    · exact ⟨rfl, rfl, rfl, rfl⟩
  · rw [hchart] at hx
    split at hx
    · next heq =>
      subst heq
      obtain ⟨k, hk, hx⟩ := List.mem_filterMap.1 hx
      obtain hk | ⟨y, hy, haside, hlive⟩ := hnext block hblock k hk
      · rw [hat]
        exact .inl (List.mem_filterMap.2 ⟨k, hk, hx⟩)
      · obtain rfl := Option.some.inj (hy.symm.trans hx)
        exact .inr ⟨haside, hlive⟩
    · exact .inl hx
  · by_cases heq : d = b
    · subst heq
      have hnone : (f block).successors = [] := htight.successors_eq_nil
        (by rw [hg', Array.getElem?_modify, if_pos rfl, hblock]; rfl) hnil
      rw [hat]
      obtain ⟨hl', hnil'⟩ | hends := hleads block hblock hd hl hnone
      · exact .inl ⟨hl', by rw [Block.spot, hnil']; rfl⟩
      · exact .inr hends
    · rw [hchart, if_neg heq] at hnil
      exact .inl ⟨fun hl' => hl (hloose d heq hl'), hnil⟩

end Graph

namespace Build

open Graph (Carries)

variable {g g' : Graph} {aside aside' loose live : BlockId → Prop} {copies : Copies}
  {b callSite first : BlockId} {copied : List BlockId}

/-! ### Copies -/

/-- Where control may come to once blocks have been copied for a call site to which it comes if
`C`. -/
def Copies.Live (copies : Copies) (live : BlockId → Prop) (C : Prop) (b : BlockId) : Prop :=
  live b ∨ C ∧ ∃ m, (m, b) ∈ copies ∧ live m

section Mirrors

variable (h : g.Carries aside (fun _ => False) live) (hm : Mirrors g copies g') {C : Prop}

include hm in
theorem Mirrors.live_iff (hb : b < g.size) : copies.Live live C b ↔ live b := by
  refine ⟨fun hlive => hlive.elim id fun ⟨_, m, hmem, _⟩ => ?_, .inl⟩
  exact absurd (hm.copy hmem).2.1 hb.not_ge

include h hm in
/-- Copies carry control on as their originals do, but that they may have lost edges. -/
theorem Mirrors.carries (hmembers : ∀ {m c : BlockId}, (m, c) ∈ copies →
      ∀ x ∈ (g.chart m).next, (∃ c', (x, c') ∈ copies) ∨ ¬ aside x)
    (hold : ∀ b < g.size, aside' b ↔ aside b) (hlt : ∀ {b : BlockId}, aside' b → b < g'.size)
    (hnew : (∀ b, g.size ≤ b → ¬ aside' b) ∨ ∀ b, g.size ≤ b → b < g'.size → aside' b) :
    g'.Carries aside' (g.size ≤ ·) (copies.Live live C) := by
  have hchart : ∀ {b}, b < g.size → g'.chart b = g.chart b := fun hb =>
    h.tight.chart_eq hm.retains hb id
  -- what is no copy is as it was, or is not there
  have hcases : ∀ b, b < g.size ∨ (∃ m, (m, b) ∈ copies) ∨ g'.chart b = {} := fun b => by
    obtain hb | hb := Nat.lt_or_ge b g.size
    · exact .inl hb
    · obtain hb' | hb' := Nat.lt_or_ge b g'.size
      · exact .inr (.inl (hm.new b hb hb'))
      · exact .inr (.inr (Graph.chart_of_size_le hb'))
  exact
    { tight := hm.tight
      lt := by
        rintro b (hb | ⟨-, m, hmem, -⟩)
        · exact (h.lt hb).trans_le hm.retains.size_le
        · exact (hm.copy hmem).2.2.1
      aside_lt := hlt
      roots := fun b hb => by
        rw [hm.retains.roots] at hb
        obtain ⟨hlive, haside⟩ := h.roots b hb
        exact ⟨.inl hlive, fun ha => haside ((hold b (h.lt hlive)).1 ha)⟩
      next := by
        rintro b x (hb | ⟨hC, m, hmem, hlive⟩) hx
        · rw [hchart (h.lt hb)] at hx
          exact .inl (h.next hb hx)
        · obtain ⟨y, hy, hcopy⟩ | ⟨hx, -⟩ := hm.next hmem x hx
          · exact .inr ⟨hC, y, hcopy, h.next hlive hy⟩
          · exact .inl (h.next hlive hx)
      outside := by
        intro b x hb hx
        obtain hlt | ⟨m, hmem⟩ | hblank := hcases b
        · rw [hchart hlt] at hx
          rw [hold x (h.tight.next_lt hx)]
          exact h.outside (fun ha => hb ((hold b hlt).2 ha)) hx
        · obtain ⟨hm', hge, hlt', -⟩ := hm.copy hmem
          have hnew := hnew.resolve_right fun hall => hb (hall b hge hlt')
          obtain ⟨y, -, hcopy⟩ | ⟨hx, hnone⟩ := hm.next hmem x hx
          · exact hnew x (hm.copy hcopy).2.1
          · rw [hold x (h.tight.next_lt hx)]
            exact (hmembers hmem x hx).resolve_left fun ⟨c, hc⟩ => hnone c hc
        · rw [hblank] at hx
          exact absurd hx List.not_mem_nil
      members := fun {k group} hk m hmem => by
        rw [hm.groups] at hk
        obtain ⟨hlt, hnext⟩ := h.members hk m hmem
        refine ⟨hlt.trans_le hm.retains.size_le, fun x hx => ?_⟩
        rw [hchart hlt] at hx
        rw [hold x (h.tight.next_lt hx)]
        exact hnext x hx
      site := fun hk => by
        rw [hm.groups] at hk
        obtain ⟨haside, hsome⟩ := h.site hk
        have hlt := Carries.lt_of_isSome hsome
        rw [hold _ hlt, hchart hlt]
        exact ⟨haside, hsome⟩
      calls := by
        intro b k hb
        rw [hm.groups]
        obtain hlt | ⟨m, hmem⟩ | hblank := hcases b
        · rw [hchart hlt] at hb
          obtain ⟨group, hk, hlive⟩ := h.calls hb
          exact ⟨group, hk, fun hb => .inl (hlive ((hm.live_iff hlt).1 hb))⟩
        · obtain ⟨-, hge, -, -, hgroup⟩ := hm.copy hmem
          rw [hgroup] at hb
          obtain ⟨group, hk, hlive⟩ := h.calls hb
          refine ⟨group, hk, ?_⟩
          rintro (hb | ⟨-, m', hmem', hm'⟩)
          · exact absurd (h.lt hb) hge.not_gt
          · exact .inl (hlive (hm.unique hmem' hmem ▸ hm'))
        · rw [hblank] at hb
          exact nomatch hb
      enters := fun hk hsite m hmem => by
        rw [hm.groups] at hk
        refine .inl (h.enters hk ((hm.live_iff ?_).1 hsite) m hmem)
        exact Carries.lt_of_isSome (h.site hk).2
      opened := by
        intro b hb
        obtain hlt | ⟨m, hmem⟩ | hblank := hcases b
        · rw [hchart hlt] at hb ⊢
          exact h.opened hb
        · obtain ⟨-, -, -, hflags, hgroup⟩ := hm.copy hmem
          rw [hgroup] at hb
          rw [hflags]
          exact h.opened hb
        · rw [hblank]
      leads := by
        intro b hb ha hge hnext
        have hlt := Nat.lt_of_not_ge hge
        rw [hchart hlt] at hnext ⊢
        exact h.leads ((hm.live_iff hlt).1 hb) (fun ha' => ha ((hold b hlt).2 ha')) id hnext }

end Mirrors

/-- **Capturing** puts copies aside. -/
theorem relocate_carries {s : Scope} (h : s.graph.Carries aside (fun _ => False) live)
    (w : PendingPerform) (range : String) {captured : List BlockId}
    (hcaptured : ∀ b ∈ captured, b < s.graph.size ∧ ¬ aside b)
    (hhead : ∀ b ∈ captured.head?, live b) :
    Ensures (relocate w range captured) s fun _ s' => s'.procedures = s.procedures ∧
      s.graph.size ≤ s'.graph.size ∧ ∃ live',
        s'.graph.Carries (fun b => aside b ∨ s.graph.size ≤ b ∧ b < s'.graph.size)
          (fun _ => False) live' ∧ ∀ b < s.graph.size, live' b ↔ live b := by
  refine (relocate_mirrors h.tight w range fun b hb => (hcaptured b hb).1).mono ?_
  rintro _ s' ⟨hprocedures, members, terminals, g, hlength, hm, -, hgraph⟩
  have hsize : s'.graph.size = g.size := by rw [hgraph]; rfl
  have hold : ∀ b < s.graph.size, (aside b ∨ s.graph.size ≤ b ∧ b < g.size) ↔ aside b :=
    fun b hb => or_iff_left fun hge => hb.not_ge hge.1
  have hcopies : g.Carries (fun b => aside b ∨ s.graph.size ≤ b ∧ b < g.size) (s.graph.size ≤ ·)
      (Copies.Live (captured.zip members) live True) := by
    refine hm.carries h (fun hmem x hx => .inr ?_) hold ?_ (.inr fun b hge hlt => .inr ⟨hge, hlt⟩)
    · exact h.outside (hcaptured _ (List.of_mem_zip hmem).1).2 hx
    · exact fun hb => hb.elim (fun ha => (h.aside_lt ha).trans_le hm.retains.size_le) And.right
  have haside : g.Carries _ (fun _ => False) _ := hcopies.loosen fun b hb ha _ _ =>
    .inl fun hge => ha (.inr ⟨hge, hcopies.lt hb⟩)
  refine ⟨hprocedures, hsize ▸ hm.retains.size_le, _, ?_, fun b hb => hm.live_iff (C := True) hb⟩
  rw [hsize, hgraph]
  refine haside.modifyGroup (fun _ => rfl) (fun group _ c hc => ?_) fun group _ _ c hc => ?_
  · obtain ⟨m, hmem⟩ := exists_original hlength hc
    refine ⟨(hm.copy hmem).2.2.1, fun x hx => ?_⟩
    obtain ⟨y, -, hcopy⟩ | ⟨hx, -⟩ := hm.next hmem x hx
    · exact .inl (List.of_mem_zip hcopy).2
    · refine .inr fun ha => h.outside (hcaptured m (List.of_mem_zip hmem).1).2 hx ?_
      exact (hold x (h.tight.next_lt hx)).1 ha
  · obtain ⟨m, hhead', hmem⟩ := exists_head hlength hc
    exact .inr ⟨trivial, m, hmem, hhead m hhead'⟩

/-! ### Splicing -/

/-- A block is given a way on. -/
theorem link_carries {rest : List BlockId} (h : g.Carries aside (· ∈ b :: rest) live)
    {slot : SlotId}
    (hslot : ∃ x, g.slots[slot]? = some x ∧ ¬ aside x ∧ (live b → live x)) :
    Ensures (Graph.link b slot) g fun _ g' => g'.Carries aside (· ∈ rest) live := by
  refine .get_bind (.lift_bind fun block hblock => ?_)
  have hblock := (Graph.block_eq_ok_iff _ _ _).1 hblock
  split
  · next hcontains =>
    refine .pure (h.loosen fun d _ _ hd hnil => .inl fun hmem => ?_)
    obtain rfl := (List.mem_cons.1 hmem).resolve_right hd
    rw [h.tight.successors_eq_nil hblock hnil] at hcontains
    exact nomatch hcontains
  · refine .bind (Graph.modifyBlock_carries h (fun _ => rfl) (fun _ => ⟨rfl, rfl, rfl⟩)
      (fun block _ k hk => ?_) (fun d hne hmem => (List.mem_cons.1 hmem).resolve_left hne)
      fun block _ _ _ hnil => ?_) fun _ g' h' => .pure h'
    · refine (List.mem_append.1 hk).imp_right fun hk => ?_
      rw [List.mem_singleton.1 hk]
      exact hslot
    · exact absurd hnil (List.append_ne_nil_of_right_ne_nil _ (List.cons_ne_nil _ _))

/-- A terminal is led on, unless it ends the program. -/
theorem leadOn_carries {rest : List BlockId} (h : g.Carries aside (· ∈ b :: rest) live)
    {slot : SlotId} {x : BlockId} (hslot : g.slots[slot]? = some x) (hx : ¬ aside x)
    (hlive : live b → live x) :
    Ensures (do
      unless (← (← get).block b).flags.ending do
        let _ ← Graph.link b slot
      return .yield ⟨⟩ : Graph.Edit (ForInStep PUnit)) g fun r g' => r = .yield ⟨⟩ ∧
        g'.Carries aside (· ∈ rest) live ∧ g'.slots[slot]? = some x := by
  refine .get_bind (.lift_bind fun block hblock => ?_)
  have hblock := (Graph.block_eq_ok_iff _ _ _).1 hblock
  split
  · next hending =>
    refine .pure ⟨rfl, h.loosen fun d _ _ hd _ => ?_, hslot⟩
    obtain rfl | hne := eq_or_ne d b
    · rw [Graph.chart_of_getElem? hblock]
      exact .inr hending
    · exact .inl fun hmem => hd ((List.mem_cons.1 hmem).resolve_left hne)
  · refine .bind ((link_carries h ⟨x, hslot, hx, hlive⟩).and (retains_of_within
      (B := fun _ => True) (G := fun _ => True) (Graph.link_retains trivial slot) g)) ?_
    rintro _ g' ⟨h', hretains⟩
    exact .pure ⟨rfl, h', hretains.slot hslot⟩

theorem markBlock_carries (h : g.Carries aside loose live) (b : BlockId)
    (terminals : List BlockId) :
    Ensures (do
      Graph.markBlock b { grafted := true }
      return terminals : Graph.Edit (List BlockId)) g fun _ g' => g'.Carries aside loose live := by
  refine .bind (Graph.modifyBlock_carries h (fun _ => rfl) (fun block => ?_)
    (fun block _ k hk => .inl hk) (fun d _ hd => hd) fun block _ _ hl hnil => .inl ⟨hl, hnil⟩)
    fun _ g' h' => .pure h'
  simp [Block.mark, BlockFlags.union]

/-- The call site is led into the copies, and these to where it led. -/
theorem splice_carries (h : g.Carries aside (· ∈ copied) live)
    (hsite : (g.chart callSite).group.isSome) (haside : ¬ aside callSite)
    (hfresh : callSite ∉ copied)
    (hcopied : ∀ c ∈ copied, c < g.size ∧ ¬ aside c ∧ (live c → live callSite))
    (hfirst : first ∈ copied) (hlive : live callSite → live first) :
    Ensures (splice callSite first copied) g fun _ g' =>
      g'.Carries aside (fun _ => False) live := by
  refine .get_bind (.lift_bind fun terminals hterminals =>
    .get_bind (.lift_bind fun block hblock => ?_))
  have hends := @Graph.mem_of_terminalsWithin_eq_ok _ _ _ hterminals
  have hblock := (Graph.block_eq_ok_iff _ _ _).1 hblock
  have h₀ : g.Carries aside (· ∈ terminals) live := by
    refine h.loosen fun d _ _ hd hnil => .inl fun hmem => hd (hends.2 ⟨hmem, fun x hx => ?_⟩)
    rw [hnil] at hx
    exact absurd hx List.not_mem_nil
  refine .bind (newSlot_slots h.tight (hcopied first hfirst).1) ?_
  rintro entry g₁ ⟨hslots, hentry⟩
  have hchart₁ := hslots.chart_eq h.tight
  have h₁ : g₁.Carries aside (· ∈ terminals) live :=
    h₀.rewire hslots.tight hslots.size_eq hslots.retains.roots hslots.groups
      (fun d => by rw [hchart₁]; exact ⟨rfl, rfl, rfl, rfl⟩) (fun d x hx => .inl (hchart₁ ▸ hx))
      fun d _ _ hl hnil => .inl ⟨hl, hchart₁ ▸ hnil⟩
  refine .bind (P := fun _ g₂ => g₂.Carries aside (· ∈ terminals) live ∧ g₂.slots = g₁.slots) ?_ ?_
  · refine Ensures.and (Graph.modifyBlock_carries h₁ (fun _ => rfl) (fun _ => ⟨rfl, rfl, rfl⟩)
      (fun block _ k hk => .inr ?_) (fun d _ hd => hd) fun block _ _ _ hnil => by cases hnil) ?_
    · rw [List.mem_singleton.1 hk]
      exact ⟨first, hentry, (hcopied first hfirst).2.1, hlive⟩
    · intro _ g₂ hrun
      obtain ⟨-, rfl⟩ := (Graph.modifyBlock_eq_ok_iff _ _ _ _).1 hrun
      rfl
  rintro _ g₂ ⟨h₂, hslots₂⟩
  dsimp only
  split
  · next slot hslot =>
    -- where the call site led, if control comes to it
    obtain ⟨x, hx, hout, hon⟩ := h.target hblock haside (List.mem_of_head? hslot)
    have hx₂ : g₂.slots[slot]? = some x := by
      rw [hslots₂]
      exact hslots.retains.slot hx
    refine .bind (Ensures.forIn_rest (I := fun rest g₃ => g₃.Carries aside (· ∈ rest) live ∧
      rest ⊆ terminals ∧ g₃.slots[slot]? = some x) ⟨h₂, List.Subset.refl _, hx₂⟩ ?_)
      fun _ g₃ h₃ => markBlock_carries (h₃.1.loosen fun d _ _ _ _ => .inl List.not_mem_nil) _ _
    rintro c rest g₃ ⟨h₃, hsub, hslot₃⟩
    obtain ⟨hc, hrest⟩ := List.cons_subset.1 hsub
    refine (leadOn_carries h₃ hslot₃ hout fun hlive =>
      hon ((hcopied c (hends.1 hc).1).2.2 hlive)).mono ?_
    rintro r g₄ ⟨hr, h₄, hslot₄⟩
    exact ⟨hr, h₄, hrest, hslot₄⟩
  · next hnone =>
    refine markBlock_carries (h₂.loosen fun d hd _ _ _ => .inl fun hmem => ?_) _ _
    have hnil : block.successors = [] :=
      List.head?_eq_none_iff.1 (Option.eq_none_iff_forall_ne_some.2 hnone)
    have hlead := h.leads ((hcopied d (hends.1 hmem).1).2.2 hd) haside hfresh
      (by rw [Graph.chart_of_getElem? hblock, Block.spot, hnil]; rfl)
    exact absurd hsite (by simp [hlead.1])

section Grafts

variable {levels : ℕ} (hgraft : ∀ (j : GroupId) (g : Graph) (live : BlockId → Prop),
  g.Carries aside (fun _ => False) live → Ensures (graft levels j) g fun _ g' =>
    ∃ live', g'.Carries aside (fun _ => False) live' ∧ ∀ b < g.size, live' b ↔ live b)

include hgraft in
/-- What is done at a copy. -/
theorem spread_carries (h : g.Carries aside (fun _ => False) live) (hb : ¬ aside b) :
    Ensures (spread levels b) g fun r g' => r = .yield ⟨⟩ ∧ ∃ live',
      g'.Carries aside (fun _ => False) live' ∧ ∀ b < g.size, live' b ↔ live b := by
  intro r g' hrun
  obtain ⟨hyield, ⟨-, rfl⟩ | ⟨i, source, hcall, hsource, -, hcase⟩⟩ :=
    spread_cases levels b r g' hrun
  · exact ⟨hyield, live, h, fun _ _ => Iff.rfl⟩
  obtain ⟨source', hsource', hlive⟩ := h.calls hcall
  obtain rfl := Option.some.inj (hsource.symm.trans hsource')
  have hsome : (g.chart b).group.isSome := hcall ▸ rfl
  set new := nested levels source g.groups.size b
  obtain ⟨hnot, rfl⟩ | ⟨hgrafted, hrun'⟩ := hcase
  · have hmembers : new.members = [] := if_neg hnot
    refine ⟨hyield, live, h.openedAt hsome hb rfl ?_ ?_, fun _ _ => Iff.rfl⟩
    · simp [hmembers]
    · simp [hmembers]
  · have hmembers : new.members = source.members := if_pos hgrafted
    have hopened : (openedAt g b new).Carries aside (fun _ => False) live := by
      refine h.openedAt hsome hb rfl ?_ ?_
      · rw [hmembers]
        exact h.members hsource
      · rw [hmembers]
        exact fun hsite => h.enters hsource (hlive hsite)
    obtain ⟨live', h', hagrees⟩ := hgraft _ _ live hopened _ _ hrun'
    exact ⟨hyield, live', h', fun d hd => hagrees d (hd.trans_eq (size_openedAt g b new).symm)⟩

end Grafts

/-- **Splicing a group in.** -/
theorem graft_carries (levels : ℕ) (i : GroupId) (g : Graph) (live : BlockId → Prop)
    (h : g.Carries aside (fun _ => False) live) : Ensures (graft levels i) g fun _ g' =>
      ∃ live', g'.Carries aside (fun _ => False) live' ∧ ∀ b < g.size, live' b ↔ live b := by
  induction levels generalizing i g live with
  | zero => exact .pure ⟨live, h, fun _ _ => Iff.rfl⟩
  | succ levels ih =>
    refine .get_bind (.lift_bind fun group hgroup => ?_)
    have hgroup := (Graph.group_eq_ok_iff _ _ _).1 hgroup
    split
    · exact .pure ⟨live, h, fun _ _ => Iff.rfl⟩
    refine .bind (copyMembers_duplicates h.tight fun m hm => (h.members hgroup m hm).1)
      fun copied g₁ hcopied => ?_
    have hm := hcopied.toMirrors
    have hlength := hcopied.length
    have hgroups₁ : g₁.groups[i]? = some group := by rw [hm.groups, hgroup]
    obtain ⟨haside, hsite⟩ := h.site hgroup
    have hlt := Carries.lt_of_isSome hsite
    have hcopies : g₁.Carries aside (g.size ≤ ·)
        (Copies.Live (group.members.zip copied) live (live group.callSite)) := by
      refine hm.carries h (fun {m c} hmem x hx => ?_) (fun _ _ => Iff.rfl)
        (fun ha => (h.aside_lt ha).trans_le hm.retains.size_le)
        (.inl fun b hge ha => (h.aside_lt ha).not_ge hge)
      exact ((h.members hgroup m (List.of_mem_zip hmem).1).2 x hx).imp_left (exists_copy hlength)
    have hfresh : ∀ c ∈ copied, g.size ≤ c ∧ c < g₁.size := fun c hc => hcopied.isNew hc
    -- the copies are all that is new
    have hloose : g₁.Carries aside (· ∈ copied)
        (Copies.Live (group.members.zip copied) live (live group.callSite)) :=
      hcopies.loosen fun d hd _ hnot _ => .inl fun hge => by
        obtain ⟨m, hmem⟩ := hm.new d hge (hcopies.lt hd)
        exact hnot (List.of_mem_zip hmem).2
    have hagrees : ∀ b < g.size,
        Copies.Live (group.members.zip copied) live (live group.callSite) b ↔ live b :=
      fun b hb => hm.live_iff hb
    set live₁ := Copies.Live (group.members.zip copied) live (live group.callSite) with hlive₁
    split
    swap
    · next hempty =>
      refine .pure ⟨live₁, hloose.loosen fun d _ _ _ _ => .inl fun hmem => ?_, hagrees⟩
      obtain ⟨first, rest, hcopied⟩ := List.exists_cons_of_ne_nil (List.ne_nil_of_mem hmem)
      exact hempty first rest hcopied
    next first rest =>
    have henter : live₁ group.callSite → live₁ first := fun hlive => by
      have hlive := (hagrees _ hlt).1 hlive
      obtain ⟨m, hhead, hmem⟩ := exists_head hlength (c := first) rfl
      exact .inr ⟨hlive, m, hmem, h.enters hgroup hlive m hhead⟩
    have hnew : ∀ c ∈ first :: rest, c < g₁.size ∧ ¬ aside c ∧
        (live₁ c → live₁ group.callSite) := by
      refine fun c hc => ⟨(hfresh c hc).2, fun ha => (h.aside_lt ha).not_ge (hfresh c hc).1, ?_⟩
      rintro (hlive | ⟨hlive, -⟩)
      · exact absurd (h.lt hlive) (hfresh c hc).1.not_gt
      · exact .inl hlive
    have hsite₁ : (g₁.chart group.callSite).group.isSome := by
      rwa [h.tight.chart_eq hm.retains hlt id]
    refine .bind ((splice_carries hloose hsite₁ haside (fun hc => hlt.not_ge (hfresh _ hc).1) hnew
      List.mem_cons_self henter).and
        (Graph.Edit.SparesCalls.splice group.callSite first (first :: rest) g₁))
      fun terminals g₂ ⟨h₂, hkeep₂, hgroups₂⟩ => ?_
    refine .bind (P := fun _ g₃ => (∃ live₃, g₃.Carries aside (fun _ => False) live₃ ∧
      ∀ b < g₁.size, live₃ b ↔ live₁ b) ∧ g₁.size ≤ g₃.size ∧ g₃.groups[i]? = some group)
      (.forIn ⟨⟨live₁, h₂, fun _ _ => Iff.rfl⟩, hkeep₂.size_le, by rw [hgroups₂, hgroups₁]⟩ ?_) ?_
    · rintro copy hcopy - g₃ ⟨⟨live₃, h₃, hagrees₃⟩, hle₃, hgroup₃⟩
      refine ((spread_carries ih h₃ (hnew copy hcopy).2.1).and
        (spread_retains (graft_retains levels) copy)).mono ?_
      rintro r g₄ ⟨⟨-, live₄, h₄, hagrees₄⟩, hretains⟩
      refine ⟨⟨live₄, h₄, fun b hb => ?_⟩, hle₃.trans hretains.size_le, ?_⟩
      · exact (hagrees₄ b (hb.trans_le hle₃)).trans (hagrees₃ b hb)
      · rw [hretains.group i (Array.getElem?_eq_some_iff.1 hgroup₃).1 id, hgroup₃]
    · rintro _ g₃ ⟨⟨live₃, h₃, hagrees₃⟩, hle₃, hgroup₃⟩ _ g' hrun
      obtain ⟨-, rfl⟩ := Graph.eq_of_modifyGroup_eq_ok hrun
      refine ⟨live₃, h₃.modifyGroup (fun _ => rfl) (fun group' _ c hc => ?_)
        fun group' hgroup' hlive c hc => ?_, fun b hb => ?_⟩
      · refine ⟨(hnew c hc).1.trans_le hle₃, fun x hx => .inr ?_⟩
        exact h₃.outside (hnew c hc).2.1 hx
      · obtain rfl := Option.some.inj (hgroup₃.symm.trans hgroup')
        obtain rfl := Option.some.inj hc
        rw [hagrees₃ _ (hnew _ List.mem_cons_self).1]
        exact henter ((hagrees₃ _ (hlt.trans_le hm.retains.size_le)).1 hlive)
      · exact (hagrees₃ b (hb.trans_le hm.retains.size_le)).trans (hagrees b hb)

/-- **Splicing all groups in.** -/
theorem graftGroups_carries (o : Options) (h : g.Carries aside (fun _ => False) live) :
    Ensures (graftGroups o) g fun _ g' => ∃ live', g'.Carries aside (fun _ => False) live' := by
  refine .get_bind (.bind (P := fun _ (g' : Graph) => ∃ live',
    g'.Carries aside (fun _ => False) live') (.forIn ⟨live, h⟩ ?_) fun _ _ h' => .pure h')
  rintro i - - g₁ ⟨live₁, h₁⟩
  exact .bind (graft_carries o.maxGraftDepth i g₁ live₁ h₁) fun _ g₂ ⟨live₂, h₂, _⟩ =>
    .pure ⟨live₂, h₂⟩

end Build

end CobolFlow
