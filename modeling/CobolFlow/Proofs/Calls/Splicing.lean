import CobolFlow.Proofs.Calls.Copies

/-!
# Groups spliced into groups

A group that splicing adds stands for one that was there before: the group whose call site was
copied. A call made from the members of a group is a call made from its range, so when groups are
opened at the copies of call sites, what they stand for descends along the calls. It never descends
through a group that is marked recursive, and without the marks the calls are well founded. So with
as many levels as there are PERFORMs the nesting limit is never reached.

## Main definitions

* `Graph.Edit.SparesCalls` — an edit that opens no group and changes no call
* `Spliced` — every group stands for one that was there before

## Main results

* `Build.spread_cases` — all that is done at a copy
* `Build.graft_spliced`, `Build.graftGroups_spliced` — splicing keeps this so
-/

namespace CobolFlow

namespace Graph

variable {α β γ : Type} {g g' : Graph} {b : BlockId} {k : SlotId}

/-! ### Edits that no group is concerned with -/

/-- An edit that changes no group, and no block's call. -/
def Edit.SparesCalls (x : Edit α) : Prop := ∀ g a g', x g = .ok (a, g') →
  g.KeepsCalls g' ∧ g'.groups = g.groups

namespace Edit.SparesCalls

theorem pure (a : α) : SparesCalls (Pure.pure a) := by
  rintro g _ _ ⟨⟩
  exact ⟨.refl g, rfl⟩

theorem bind {x : Edit α} {f : α → Edit β} (hx : SparesCalls x) (hf : ∀ a, SparesCalls (f a)) :
    SparesCalls (x >>= f) := by
  intro g r g' h
  obtain ⟨a, g₁, h₁, h₂⟩ := exists_of_run_bind_eq_ok h
  obtain ⟨hkeep, hgroups⟩ := hx _ _ _ h₁
  obtain ⟨hkeep', hgroups'⟩ := hf a _ _ _ h₂
  exact ⟨hkeep.trans hkeep', hgroups'.trans hgroups⟩

theorem get : SparesCalls (get : Edit Graph) := by
  rintro g _ _ ⟨⟩
  exact ⟨.refl g, rfl⟩

theorem lift (e : Except Fault α) : SparesCalls (liftM e : Edit α) := by
  intro g a g' h
  cases e with
  | error e => exact nomatch h
  | ok a =>
    obtain ⟨⟩ := h
    exact ⟨.refl g, rfl⟩

theorem foldlM {f : β → α → Edit β} (hf : ∀ b a, SparesCalls (f b a)) (l : List α) (init : β) :
    SparesCalls (l.foldlM f init) := by
  induction l generalizing init with
  | nil => exact .pure init
  | cons a l ih => exact .bind (hf init a) ih

theorem forIn {f : α → β → Edit (ForInStep β)} (hf : ∀ a b, SparesCalls (f a b)) (l : List α)
    (init : β) : SparesCalls (ForIn.forIn l init f) := by
  induction l generalizing init with
  | nil => exact .pure init
  | cons a l ih =>
    rw [List.forIn_cons]
    refine .bind (hf a init) fun r => ?_
    cases r with
    | done b => exact .pure b
    | yield b => exact ih b

theorem newSlot (b : BlockId) : SparesCalls (newSlot b) := by
  rintro g _ _ ⟨⟩
  exact ⟨.of_blocks_eq rfl, rfl⟩

theorem modifyBlock (b : BlockId) {f : Block → Block}
    (hf : ∀ block, (f block).group = block.group) :
    SparesCalls (modifyBlock b f) := by
  rintro g ⟨⟩ g' h
  refine ⟨.of_modify hf h, ?_⟩
  obtain ⟨-, rfl⟩ := (modifyBlock_eq_ok_iff b f g g').1 h
  rfl

theorem setSuccessors (b : BlockId) (slots : List SlotId) : SparesCalls (setSuccessors b slots) :=
  modifyBlock b fun _ => rfl

theorem link (b : BlockId) (k : SlotId) : SparesCalls (link b k) := by
  refine .bind .get fun g => .bind (.lift _) fun block => ?_
  split
  · exact .pure _
  · exact .bind (modifyBlock b fun _ => rfl) fun _ => .pure _

theorem moveSlot (copies : Build.Copies) (moves : Build.Moves) (k : SlotId) :
    SparesCalls (Build.moveSlot copies moves k) := by
  unfold Build.moveSlot
  split
  · exact .pure _
  · refine .bind .get fun g => .bind (.lift _) fun b => ?_
    split
    · exact .bind (newSlot _) fun _ => .pure _
    · exact .pure _

theorem graftSlots (copies : Build.Copies) (slots : List SlotId) (moves : Build.Moves) :
    SparesCalls (Build.graftSlots copies slots moves) :=
  .foldlM (fun _ _ => .bind (moveSlot _ _ _) fun _ => .pure _) _ _

theorem splice (callSite first : BlockId) (copied : List BlockId) :
    SparesCalls (Build.splice callSite first copied) := by
  have hend : ∀ terminals : List BlockId, SparesCalls
      (do Graph.markBlock callSite { grafted := true }; return terminals) := fun _ =>
    .bind (modifyBlock callSite fun _ => rfl) fun _ => .pure _
  refine .bind .get fun _ => .bind (.lift _) fun terminals => .bind .get fun _ =>
    .bind (.lift _) fun block => .bind (newSlot first) fun entry =>
      .bind (setSuccessors callSite [entry]) fun _ => ?_
  dsimp only
  split
  · refine .bind
      (.forIn (fun terminal _ => .bind .get fun _ => .bind (.lift _) fun block => ?_) _ _)
      fun _ => hend terminals
    split
    · exact .pure _
    · exact .bind (link terminal _) fun _ => .pure _
  · exact hend terminals

theorem faultless {x : Edit α} {P : α → Graph → Prop} (hx : SparesCalls x) (h : Faultless x g P) :
    Faultless x g fun a g' => P a g' ∧ g.KeepsCalls g' ∧ g'.groups = g.groups := by
  intro hg
  obtain ⟨a, g', hrun, hg', hle, ha⟩ := h hg
  exact ⟨a, g', hrun, hg', hle, ha, hx _ _ _ hrun⟩

end Edit.SparesCalls

end Graph

namespace Build

open Graph

variable {g g' : Graph}

theorem group_chart_congr (h : g'.blocks = g.blocks) (b : BlockId) :
    (g'.chart b).group = (g.chart b).group := by
  rw [chart, chart, h]
  cases g.blocks[b]? <;> rfl

/-- The members of a group are copied with the calls that they make. -/
theorem copyMembers_keeps {members : List BlockId} (h : ∀ b ∈ members, b < g.size) :
    Faultless (copyMembers members) g fun copied g' =>
      AreCopies g g' members copied ∧ g'.groups = g.groups ∧ g.KeepsCalls g' := by
  intro hg
  obtain ⟨copied, g', hrun, hg', hle, -⟩ := copyMembers_faultless h hg
  obtain ⟨copied₁, g₁, hcopy, hrest⟩ := exists_of_run_bind_eq_ok hrun
  obtain ⟨-, -, hcopies, hgroups, hkeep, -⟩ := (copyBlocks_keeps h).of_eq_ok hg hcopy
  obtain ⟨moves, g₂, hfold, hend⟩ := exists_of_run_bind_eq_ok hrest
  obtain ⟨rfl, rfl⟩ : copied₁ = copied ∧ g₂ = g' := by simpa using Except.ok.inj hend
  obtain ⟨hkeep', hgroups'⟩ := Edit.SparesCalls.foldlM (fun _ _ => .bind .get fun _ =>
    .bind (.lift _) fun _ => .bind (.graftSlots _ _ _) fun _ =>
      .bind (.setSuccessors _ _) fun _ => .pure _) _ _ _ _ _ hfold
  exact ⟨copied₁, g₂, hrun, hg', hle, hcopies.mono hkeep', hgroups'.trans hgroups,
    hkeep.toKeepsCalls.trans hkeep'⟩

end Build

/-! ### What groups stand for -/

/-- Every group `X` of `g` stands for the group `ω X` of `g₀`: it carries the same PERFORM and the
same mark, and what its members call is what that group calls. If the nesting limit is not to be
reached, it was not. -/
structure Spliced (g₀ : Graph) (Calls : ℕ → ℕ → Prop) (deep : Prop) (ω : ℕ → ℕ) (g : Graph) :
    Prop where
  size_le : g₀.groups.size ≤ g.groups.size
  own : ∀ i < g₀.groups.size, ω i = i
  source : ∀ {X : ℕ} {group : Group}, g.groups[X]? = some group → ∃ source,
    g₀.groups[ω X]? = some source ∧ group.node = source.node ∧ group.range = source.range ∧
      group.recursive = source.recursive ∧
      (X < g₀.groups.size → group.callSite = source.callSite)
  calls : ∀ {X : ℕ} {group : Group}, g.groups[X]? = some group → ∀ m ∈ group.members, ∀ Y,
    (g.chart m).group = some Y → Calls (ω X) (ω Y)
  whole : deep → ∀ {X : ℕ} {group : Group}, g.groups[X]? = some group → group.truncated = false

namespace Spliced

variable {g₀ g g' : Graph} {Calls : ℕ → ℕ → Prop} {deep : Prop} {ω : ℕ → ℕ} {X Y : ℕ}
  {group source : Group} {b : BlockId}

theorem of_keepsCalls (h : Spliced g₀ Calls deep ω g) (hg : Sound g) (hkeep : g.KeepsCalls g')
    (hgroups : g'.groups = g.groups) : Spliced g₀ Calls deep ω g' where
  size_le := hgroups ▸ h.size_le
  own := h.own
  source hX := h.source (hgroups ▸ hX)
  calls {X group} hX m hm Y hY := by
    rw [hgroups] at hX
    rw [hkeep.group m (hg.member_lt hX m hm)] at hY
    exact h.calls hX m hm Y hY
  whole hdeep {X group} hX := h.whole hdeep (hgroups ▸ hX)

/-- A group is opened at a block that made the call `Y`, and stands for what `Y` stands for. -/
theorem enter (h : Spliced g₀ Calls deep ω g) (hg : Sound g) (hY : g.groups[Y]? = some source)
    (hb : (g.chart b).group = some Y) {new : Group} (hgroups : g'.groups = g.groups.push new)
    (hcalls : ∀ c, (g'.chart c).group = if c = b then some g.groups.size else (g.chart c).group)
    (hnode : new.node = source.node) (hrange : new.range = source.range)
    (hrecursive : new.recursive = source.recursive)
    (hmembers : ∀ m ∈ new.members, m ∈ source.members) (hwhole : deep → new.truncated = false) :
    Spliced g₀ Calls deep (Function.update ω g.groups.size (ω Y)) g' := by
  set n := g.groups.size with hn
  have hYn : Y < n := (Array.getElem?_eq_some_iff.1 hY).1
  have hold : ∀ X, X < n → Function.update ω n (ω Y) X = ω X := fun X hX =>
    Function.update_of_ne hX.ne _ _
  have hnew : Function.update ω n (ω Y) n = ω Y := Function.update_self _ _ _
  have hcases : ∀ {X : ℕ} {group : Group}, g'.groups[X]? = some group →
      (g.groups[X]? = some group ∧ X < n) ∨ X = n ∧ group = new := fun {X group} hX => by
    rw [hgroups, Array.getElem?_push] at hX
    split at hX
    · exact .inr ⟨‹_›, (Option.some.inj hX).symm⟩
    · exact .inl ⟨hX, (Array.getElem?_eq_some_iff.1 hX).1⟩
  -- what is called by the members of a group is the same under the new numbers
  have hstep : ∀ {X : ℕ} {group : Group}, g.groups[X]? = some group → ∀ m ∈ group.members, ∀ Z,
      (g'.chart m).group = some Z → Calls (ω X) (Function.update ω n (ω Y) Z) := by
    intro X group hX m hm Z hZ
    rw [hcalls] at hZ
    split at hZ
    · next hmb =>
      obtain rfl := Option.some.inj hZ
      rw [hnew]
      exact h.calls hX m hm Y (hmb ▸ hb)
    · obtain ⟨block, hblock⟩ := Graph.getElem?_eq_some_of_lt (hg.member_lt hX m hm)
      have hZn : Z < n := hg.group_lt hblock (by rwa [Graph.chart_of_getElem? hblock] at hZ)
      rw [hold Z hZn]
      exact h.calls hX m hm Z hZ
  refine
    { size_le := by rw [hgroups, Array.size_push]; exact h.size_le.trans (Nat.le_succ _)
      own := fun i hi => (hold i (hi.trans_le h.size_le)).trans (h.own i hi)
      source := fun {X group} hX => ?_
      calls := fun {X group} hX m hm Z hZ => ?_
      whole := fun hdeep {X group} hX => ?_ }
  · obtain ⟨hX, hlt⟩ | ⟨rfl, rfl⟩ := hcases hX
    · rw [hold X hlt]
      exact h.source hX
    · obtain ⟨source', hsource', hnode', hrange', hrecursive', -⟩ := h.source hY
      rw [hnew]
      exact ⟨source', hsource', hnode.trans hnode', hrange.trans hrange',
        hrecursive.trans hrecursive', fun hlt => absurd hlt (h.size_le.not_gt)⟩
  · obtain ⟨hX, hlt⟩ | ⟨rfl, rfl⟩ := hcases hX
    · rw [hold X hlt]
      exact hstep hX m hm Z hZ
    · rw [hnew]
      exact hstep hY m (hmembers m hm) Z hZ
  · obtain ⟨hX, -⟩ | ⟨rfl, rfl⟩ := hcases hX
    · exact h.whole hdeep hX
    · exact hwhole hdeep

/-- A group is given new members, which call what it calls. -/
theorem refill (h : Spliced g₀ Calls deep ω g) {members terminals : List BlockId}
    (hmembers : ∀ m ∈ members, ∀ Y, (g.chart m).group = some Y → Calls (ω X) (ω Y))
    (hgroups : g'.groups = g.groups.modify X fun group => { group with members, terminals })
    (hchart : ∀ c, (g'.chart c).group = (g.chart c).group) : Spliced g₀ Calls deep ω g' := by
  have hcases : ∀ {Y : ℕ} {group : Group}, g'.groups[Y]? = some group → ∃ old,
      g.groups[Y]? = some old ∧
        (group = old ∨ Y = X ∧ group = { old with members, terminals }) := by
    intro Y group hY
    rw [hgroups, Array.getElem?_modify] at hY
    split at hY
    · next hXY =>
      obtain ⟨old, hold, rfl⟩ := Option.map_eq_some_iff.1 hY
      exact ⟨old, hold, .inr ⟨hXY.symm, rfl⟩⟩
    · exact ⟨group, hY, .inl rfl⟩
  refine
    { size_le := by rw [hgroups, Array.size_modify]; exact h.size_le
      own := h.own
      source := fun {Y group} hY => ?_
      calls := fun {Y group} hY m hm Z hZ => ?_
      whole := fun hdeep {Y group} hY => ?_ }
  · obtain ⟨old, hold, rfl | ⟨-, rfl⟩⟩ := hcases hY
    · exact h.source hold
    · have hsource := h.source hold
      exact hsource
  · rw [hchart] at hZ
    obtain ⟨old, hold, rfl | ⟨rfl, rfl⟩⟩ := hcases hY
    · exact h.calls hold m hm Z hZ
    · exact hmembers m hm Z hZ
  · obtain ⟨old, hold, rfl | ⟨-, rfl⟩⟩ := hcases hY
    · exact h.whole hdeep hold
    · have hwhole := h.whole hdeep hold
      exact hwhole

end Spliced

/-! ### One group -/

section Graft

variable {g₀ g g' g'' : Graph} {Calls : ℕ → ℕ → Prop} {deep : Prop} {ω : ℕ → ℕ} {X Y : ℕ}
  {copied : List BlockId} {source : Group} {b : BlockId}

/-- While groups are opened at the copies of the members of `X`: what the copies call, `X` calls. -/
structure Copying (g₀ : Graph) (Calls : ℕ → ℕ → Prop) (deep : Prop) (ω : ℕ → ℕ) (X : ℕ)
    (copied : List BlockId) (g : Graph) (ω' : ℕ → ℕ) (g' : Graph) : Prop where
  keeps : g.KeepsCalls g'
  spliced : Spliced g₀ Calls deep ω' g'
  agrees : ∀ Y < g.groups.size, ω' Y = ω Y
  calls : ∀ c ∈ copied, ∀ Y, (g'.chart c).group = some Y → Calls (ω X) (ω' Y)

namespace Copying

variable {ω' ω'' : ℕ → ℕ}

/-- A group is opened at a copy. -/
theorem enter (h : Copying g₀ Calls deep ω X copied g ω' g') (hg : Sound g') (hle : g ≤ g')
    (hcopied : ∀ c ∈ copied, c < g'.size) (hb : g.size ≤ b) (hY : g'.groups[Y]? = some source)
    (hbY : (g'.chart b).group = some Y) (hmem : b ∈ copied) (hsize : g''.size = g'.size)
    {new : Group} (hgroups : g''.groups = g'.groups.push new)
    (hcalls : ∀ c, (g''.chart c).group = if c = b then some g'.groups.size else (g'.chart c).group)
    (hnode : new.node = source.node) (hrange : new.range = source.range)
    (hrecursive : new.recursive = source.recursive)
    (hmembers : ∀ m ∈ new.members, m ∈ source.members) (hwhole : deep → new.truncated = false) :
    Copying g₀ Calls deep ω X copied g (Function.update ω' g'.groups.size (ω' Y)) g'' where
  keeps :=
    { size_le := hle.1.trans hsize.ge
      group := fun c hc => by
        rw [hcalls, if_neg (hc.trans_le hb).ne]
        exact h.keeps.group c hc }
  spliced := h.spliced.enter hg hY hbY hgroups hcalls hnode hrange hrecursive hmembers hwhole
  agrees Z hZ := by
    have hne : Z ≠ g'.groups.size := (hZ.trans_le hle.2.2).ne
    rw [Function.update_of_ne hne]
    exact h.agrees Z hZ
  calls c hc Z hZ := by
    rw [hcalls] at hZ
    split at hZ
    · obtain rfl := Option.some.inj hZ
      rw [Function.update_self]
      exact h.calls b hmem Y hbY
    · obtain ⟨block, hblock⟩ := Graph.getElem?_eq_some_of_lt (hcopied c hc)
      have hlt := hg.group_lt hblock (by rwa [Graph.chart_of_getElem? hblock] at hZ)
      rw [Function.update_of_ne hlt.ne]
      exact h.calls c hc Z hZ

/-- A group that was opened is spliced in in its turn. -/
theorem graft (h : Copying g₀ Calls deep ω X copied g ω' g') (hg : Sound g') (hle : g ≤ g')
    (hcopied : ∀ c ∈ copied, c < g'.size) (hkeep : g'.KeepsCalls g'')
    (hspliced : Spliced g₀ Calls deep ω'' g'') (hagrees : ∀ Y < g'.groups.size, ω'' Y = ω' Y) :
    Copying g₀ Calls deep ω X copied g ω'' g'' where
  keeps := h.keeps.trans hkeep
  spliced := hspliced
  agrees Y hY := (hagrees Y (hY.trans_le hle.2.2)).trans (h.agrees Y hY)
  calls c hc Y hY := by
    rw [hkeep.group c (hcopied c hc)] at hY
    obtain ⟨block, hblock⟩ := Graph.getElem?_eq_some_of_lt (hcopied c hc)
    rw [hagrees Y (hg.group_lt hblock (by rwa [Graph.chart_of_getElem? hblock] at hY))]
    exact h.calls c hc Y hY

end Copying

/-- While the copies in `left` wait: what holds of a graph on the way. -/
structure Spreading (g₀ : Graph) (Calls : ℕ → ℕ → Prop) (deep : Prop) (ω : ℕ → ℕ) (X : ℕ)
    (copied : List BlockId) (g : Graph) (left : List BlockId) (g' : Graph) : Prop where
  waiting : Build.Waiting g left g'
  sub : left ⊆ copied
  le : g ≤ g'
  lt_size : ∀ c ∈ copied, c < g'.size
  copying : ∃ ω', Copying g₀ Calls deep ω X copied g ω' g'

end Graft

namespace Build

open Graph

variable {g₀ g g₁ g₂ g₃ : Graph} {Calls : ℕ → ℕ → Prop} {deep : Prop} {ω ω' : ℕ → ℕ} {X : ℕ}
  {rank : ℕ → ℕ} {copied left : List BlockId} {copy : BlockId} {source : Group}

/-- **What is done at a copy**: nothing, unless it is a call site. -/
theorem spread_cases (levels : ℕ) (copy : BlockId) : Ensures (spread levels copy) g fun r g' =>
    r = .yield ⟨⟩ ∧ ((g.chart copy).group = none ∧ g' = g ∨ ∃ i source,
      (g.chart copy).group = some i ∧ g.groups[i]? = some source ∧ copy < g.size ∧
        ((¬ IsGrafted levels source ∧
          g' = openedAt g copy (nested levels source g.groups.size copy)) ∨
        (IsGrafted levels source ∧ graft levels g.groups.size
          (openedAt g copy (nested levels source g.groups.size copy)) = .ok ((), g')))) := by
  intro r g' hrun
  obtain ⟨block, hblock, hfinds⟩ := spread_finds levels copy r g' hrun
  rw [chart_of_getElem? hblock]
  cases hcall : block.group with
  | none =>
    rw [spread_of_callFree hblock hcall] at hrun
    obtain ⟨⟩ := hrun
    exact ⟨rfl, .inl ⟨hcall, rfl⟩⟩
  | some i =>
    obtain ⟨source, hsource⟩ := hfinds i hcall
    have hlt := lt_size_of_getElem? hblock
    rw [spread_of_call hblock hcall hsource] at hrun
    split at hrun
    · next hgrafted =>
      obtain ⟨_, _, hgraft, ⟨⟩⟩ := exists_of_run_bind_eq_ok hrun
      exact ⟨rfl, .inr ⟨i, source, hcall, hsource, hlt, .inr ⟨hgrafted, hgraft⟩⟩⟩
    · next hnot =>
      obtain ⟨⟩ := hrun
      exact ⟨rfl, .inr ⟨i, source, hcall, hsource, hlt, .inl ⟨hnot, rfl⟩⟩⟩

/-- What a copy calls has a lower rank, unless it is marked. -/
theorem rank_lt_of_copying (hrank : ∀ i j, Calls i j → ∀ source, g₀.groups[j]? = some source →
      source.recursive = false → rank j < rank i) (h : Copying g₀ Calls deep ω X copied g ω' g₁)
    (hmem : copy ∈ copied) {n : ℕ} {new : Group} (hn : g₁.groups[n]? = some new)
    (hnew : new.recursive = false) (hcall : (g₁.chart copy).group = some n) :
    rank (ω' n) < rank (ω X) := by
  obtain ⟨original, horiginal, -, -, hsame, -⟩ := h.spliced.source hn
  exact hrank _ _ (h.calls copy hmem _ hcall) original horiginal (hsame ▸ hnew)

/-- One copy is dealt with, if groups of lower rank can be spliced in. -/
theorem spread_faultless (hrank : ∀ i j, Calls i j → ∀ source, g₀.groups[j]? = some source →
      source.recursive = false → rank j < rank i) {levels : ℕ} (hg : Sound g)
    (hdeep : deep → rank (ω X) < levels + 1)
    (hgraft : ∀ {g₁ : Graph} {ω₁ : ℕ → ℕ} {Y : ℕ}, Y < g₁.groups.size →
      Spliced g₀ Calls deep ω₁ g₁ → (deep → rank (ω₁ Y) < levels) →
      Faultless (graft levels Y) g₁ fun _ g' => g₁.KeepsCalls g' ∧
        ∃ ω', Spliced g₀ Calls deep ω' g' ∧ ∀ Z < g₁.groups.size, ω' Z = ω₁ Z)
    (h : Spreading g₀ Calls deep ω X copied g (copy :: left) g₁) :
    Faultless (spread levels copy) g₁ fun r g' =>
      r = .yield ⟨⟩ ∧ Spreading g₀ Calls deep ω X copied g left g' := by
  obtain ⟨hwait, hsub, hle, hlt, ω₁, hcopying⟩ := h
  have hnew := hwait.new copy (by simp)
  have hmem : copy ∈ copied := hsub (by simp)
  have hsub' : left ⊆ copied := fun c hc => hsub (List.mem_cons_of_mem _ hc)
  intro hs₁
  obtain ⟨block, hblock⟩ := getElem?_eq_some_of_lt hnew.2
  cases hcall : block.group with
  | none =>
    exact ⟨_, g₁, spread_of_callFree hblock hcall, hs₁, le_rfl, rfl, hwait.tail, hsub', hle, hlt,
      ω₁, hcopying⟩
  | some i =>
    obtain ⟨source, -, hsource⟩ := exists_group_eq_ok (hs₁.group_lt hblock hcall)
    have hcalls : (g₁.chart copy).group = some i := by rwa [chart_of_getElem? hblock]
    have hlower : source.recursive = false → rank (ω₁ i) < rank (ω X) := fun hplain =>
      rank_lt_of_copying hrank hcopying hmem hsource hplain hcalls
    set new := nested levels source g₁.groups.size copy with hdefn
    set g₂ := openedAt g₁ copy new
    have hsound : Sound g₂ := WellFormed.openedAt hs₁ hnew.2 (hwait.free hg) rfl rfl fun m hm =>
      hs₁.member_lt hsource m (mem_of_mem_nested hm)
    have hle₂ : g₁ ≤ g₂ := le_openedAt g₁ copy new
    have hwait₂ : Waiting g left g₂ := hwait.openedAt rfl
    have hlt₂ : ∀ c ∈ copied, c < g₂.size := fun c hc => (hlt c hc).trans_le hle₂.1
    -- with a level for every rank the limit is not reached
    have hwhole : deep → new.truncated = false := fun hd => by
      cases hplain : source.recursive with
      | true => simp [hdefn, nested, hplain]
      | false =>
        have hlevels : levels ≠ 0 := by
          have := hlower hplain
          have := hdeep hd
          omega
        simp [hdefn, nested, hlevels]
    -- the new group stands for the group of the original call site
    have hcopying₂ : Copying g₀ Calls deep ω X copied g
        (Function.update ω₁ g₁.groups.size (ω₁ i)) g₂ :=
      hcopying.enter hs₁ hle hlt hnew.1 hsource hcalls hmem (size_openedAt g₁ copy new) rfl
        (group_chart_openedAt hnew.2 new) rfl rfl rfl (fun _ => mem_of_mem_nested) hwhole
    refine Faultless.of_run_eq (spread_of_call hblock hcall hsource) (fun _ => hsound) hle₂ ?_ hs₁
    split
    · next hgrafted =>
      have hj : g₁.groups.size < g₂.groups.size :=
        (Nat.lt_succ_self _).trans_eq (Array.size_push ..).symm
      refine .bind ((graft_faultless levels hj).and (hgraft hj hcopying₂.spliced fun hd => ?_)) ?_
      · rw [Function.update_self]
        have := hlower hgrafted.2.1
        have := hdeep hd
        omega
      · rintro - g₃ - h₃ ⟨hsites₃, hkeep₃, ω₃, hspliced₃, hagrees₃⟩
        have hle₃ := hle.trans hle₂
        exact .pure fun _ => ⟨rfl, hwait₂.keep hsites₃ hle₃ h₃, hsub', hle₃.trans h₃,
          fun c hc => (hlt₂ c hc).trans_le h₃.1, ω₃,
          hcopying₂.graft hsound hle₃ hlt₂ hkeep₃ hspliced₃ hagrees₃⟩
    · refine .bind (P := fun _ g' => Spreading g₀ Calls deep ω X copied g left g')
        (.pure fun _ => ?_) fun _ _ _ _ h => .pure fun _ => ⟨rfl, h⟩
      exact ⟨hwait₂, hsub', hle.trans hle₂, hlt₂, _, hcopying₂⟩

/-- **Splicing a group in.** What is spliced in has a lower rank, so as many levels as the rank of
the group suffice. -/
theorem graft_spliced (hrank : ∀ i j, Calls i j → ∀ source, g₀.groups[j]? = some source →
      source.recursive = false → rank j < rank i) (levels : ℕ) (hX : X < g.groups.size)
    (h : Spliced g₀ Calls deep ω g) (hdeep : deep → rank (ω X) < levels) :
    Faultless (graft levels X) g fun _ g' => g.KeepsCalls g' ∧
      ∃ ω', Spliced g₀ Calls deep ω' g' ∧ ∀ Y < g.groups.size, ω' Y = ω Y := by
  induction levels generalizing X g ω with
  | zero => exact .pure fun _ => ⟨.refl g, ω, h, fun _ _ => rfl⟩
  | succ levels ih =>
    refine .get_bind fun hg => ?_
    obtain ⟨group, hok, hgroup⟩ := exists_group_eq_ok hX
    refine .lift_bind hok ?_
    split
    · exact .pure fun _ => ⟨.refl g, ω, h, fun _ _ => rfl⟩
    refine .bind ((copyMembers_faultless (hg.member_lt hgroup)).and
      (copyMembers_keeps (hg.member_lt hgroup))) ?_
    rintro copied g₁ hg₁ h₁ ⟨⟨-, hnodup, hcopied⟩, hcopies, hgroups₁, hkeep₁⟩
    have hspliced₁ := h.of_keepsCalls hg hkeep₁ hgroups₁
    split
    swap
    · exact .pure fun _ => ⟨hkeep₁, ω, hspliced₁, fun _ _ => rfl⟩
    next first rest =>
    obtain ⟨site, hsite, -⟩ := hg.callSite hgroup
    refine .bind ((Edit.SparesCalls.splice _ _ _).faultless (splice_faultless
      ((lt_size_of_getElem? hsite).trans_le h₁.1) (fun c hc => (hcopied c hc).2) (by simp))) ?_
    rintro terminals g₂ hg₂ h₂ ⟨-, hkeep₂, hgroups₂⟩
    have hlt₂ : ∀ c ∈ first :: rest, c < g₂.size := fun c hc => (hcopied c hc).2.trans_le h₂.1
    have hbegun : Spreading g₀ Calls deep ω X (first :: rest) g (first :: rest) g₂ :=
      { waiting :=
          { callSite := fun b hb => .inl ((isCallSite_congr (hgroups₂.trans hgroups₁)).1 hb)
            nodup := hnodup
            new := fun c hc => ⟨(hcopied c hc).1, hlt₂ c hc⟩ }
        sub := List.Subset.refl _
        le := h₁.trans h₂
        lt_size := hlt₂
        copying := ⟨ω,
          { keeps := hkeep₁.trans hkeep₂
            spliced := hspliced₁.of_keepsCalls hg₁ hkeep₂ hgroups₂
            agrees := fun _ _ => rfl
            calls := fun c hc Y hY => by
              obtain ⟨m, hm, hcopy⟩ := hcopies.exists_original hc
              rw [hkeep₂.group c hcopy.lt_size, hcopy.group] at hY
              exact h.calls hgroup m hm Y hY }⟩ }
    refine .bind (.forIn_rest (I := Spreading g₀ Calls deep ω X (first :: rest) g) (fun _ => hbegun)
      fun copy left g₃ _ _ hspreading => spread_faultless hrank hg hdeep ih hspreading) ?_
    rintro - g₃ - - ⟨-, -, hle₃, hlt₃, ω₃, hcopying⟩
    refine (modifyGroup_faultless (f := fun old => { old with members := first :: rest, terminals })
      (hX.trans_le hle₃.2.2) (fun _ => rfl) (fun _ => rfl) fun _ _ _ => hlt₃).of_run
      (modifyGroup_eq_ok (hX.trans_le hle₃.2.2) _) fun _ _ _ _ => ?_
    refine ⟨hcopying.keeps.trans (.of_blocks_eq rfl), ω₃, ?_, hcopying.agrees⟩
    refine hcopying.spliced.refill (fun m hm Y hY => ?_) rfl fun c => group_chart_congr rfl c
    rw [hcopying.agrees X hX]
    exact hcopying.calls m hm Y hY

/-- **Splicing all groups in.** -/
theorem graftGroups_spliced (hrank : ∀ i j, Calls i j → ∀ source, g₀.groups[j]? = some source →
      source.recursive = false → rank j < rank i)
    (hlt : ∀ i < g₀.groups.size, rank i < g₀.groups.size) (o : Options)
    (hdeep : deep → g₀.groups.size ≤ o.maxGraftDepth) (h : Spliced g₀ Calls deep id g₀) :
    Faultless (graftGroups o) g₀ fun _ g' => ∃ ω, Spliced g₀ Calls deep ω g' := by
  refine .get_bind fun _ => .bind (P := fun _ g' => ∃ ω, Spliced g₀ Calls deep ω g')
    (.forIn (fun _ => ⟨id, h⟩) ?_) fun _ _ _ _ h => .pure fun _ => h
  rintro i hi - g₁ - h₁ ⟨ω, hspliced⟩
  have hi' : i < g₀.groups.size := List.mem_range.1 hi
  refine .bind (graft_spliced hrank o.maxGraftDepth (hi'.trans_le h₁.2.2) hspliced fun hd => ?_)
    fun _ _ _ _ hg => .pure fun _ => ?_
  · rw [hspliced.own i hi']
    exact (hlt i hi').trans_le (hdeep hd)
  · obtain ⟨-, ω', hspliced', -⟩ := hg
    exact ⟨ω', hspliced'⟩

end Build

end CobolFlow
