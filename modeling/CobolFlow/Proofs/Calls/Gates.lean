import CobolFlow.Proofs.Calls.Capturing
import CobolFlow.Proofs.Calls.Growth
import CobolFlow.Proofs.Writing.Pages

/-!
# Copies are no gates

A graph has two gates, the block where the division is entered and the one where it is left. A copy
has the marks of its original. So no copy is a gate as long as none is made of one: ranges are
captured from sentences that contain none, and what is spliced in are copies of copies.

## Main definitions

* `Spot.IsGate` — the block is marked as one where the division is entered or left
* `Graph.Walled` — there are no gates but some blocks, and none of these is a member

## Main results

* `Build.graftGroups_walled`, `Build.resolvePerforms_walled` — splicing in and capturing keep it so
-/

namespace CobolFlow

/-- The block is marked as one where the division is entered or left. -/
def Spot.IsGate (s : Spot) : Prop := s.flags.start = true ∨ s.flags.finish = true

namespace Graph

/-- No block has become a gate. -/
def AddsNoGate (g g' : Graph) : Prop := ∀ b, (g'.chart b).IsGate → (g.chart b).IsGate

/-- There are no gates but the blocks in `X`, and none of these is a member. -/
structure Walled (X : BlockId → Prop) (g : Graph) : Prop where
  lt : ∀ b, X b → b < g.size
  gates : ∀ b, (g.chart b).IsGate → X b
  members : ∀ {i : GroupId} {group : Group}, g.groups[i]? = some group → ∀ m ∈ group.members, ¬ X m

variable {α : Type} {X : BlockId → Prop} {g g' g₁ : Graph} {b : BlockId} {i : GroupId}

namespace AddsNoGate

theorem refl (g : Graph) : g.AddsNoGate g := fun _ => id

theorem trans (h : g.AddsNoGate g₁) (h' : g₁.AddsNoGate g') : g.AddsNoGate g' :=
  fun b hb => h b (h' b hb)

theorem of_flags (h : ∀ b, (g'.chart b).flags = (g.chart b).flags) : g.AddsNoGate g' :=
  fun b hb => by
    rw [Spot.IsGate, h] at hb
    exact hb

theorem of_reflTransGen (h : Relation.ReflTransGen AddsNoGate g g') : g.AddsNoGate g' := by
  induction h with
  | refl => exact .refl _
  | tail _ h ih => exact ih.trans h

end AddsNoGate

/-! ### Edits that make no gate -/

theorem newSlot_addsNoGate (b : BlockId) : Within AddsNoGate (newSlot b) :=
  fun _ => (newSlot_ensures b).mono fun _ _ h => .single (.of_flags h.flags)

theorem setSuccessors_addsNoGate (b : BlockId) (slots : List SlotId) :
    Within AddsNoGate (setSuccessors b slots) :=
  fun _ => (modifyBlock_ensures (f := ({ · with successors := slots })) b
    fun _ => ⟨rfl, rfl⟩).mono fun _ _ h => .single (.of_flags h.flags)

theorem link_addsNoGate (b : BlockId) (k : SlotId) : Within AddsNoGate (link b k) :=
  fun _ => (link_ensures b k).mono fun _ _ h => .single (.of_flags h.flags)

theorem markGrafted_addsNoGate (b : BlockId) :
    Within AddsNoGate (markBlock b { grafted := true }) := by
  refine fun _ => (markBlock_ensures b _).mono fun _ _ ⟨_, h⟩ => .single fun c hc => ?_
  rw [Spot.IsGate, h.flags] at hc
  split at hc
  · simpa [BlockFlags.union, Spot.IsGate] using hc
  · exact hc

/-- A copy is a gate if its original is. -/
theorem cloneBlock_addsNoGate (hb : ¬ (g.chart b).IsGate) :
    Ensures (cloneBlock b) g fun _ g' => g.AddsNoGate g' := by
  refine .get_bind (.lift_bind fun block hblock => .modifyGet fun c hc => ?_)
  have hblock := (block_eq_ok_iff g b block).1 hblock
  let g' : Graph := { g with blocks := g.blocks.push (block.detachedCopy g.blocks.size) }
  have hchart : g'.chart = _ := chart_push rfl rfl
  rw [Spot.IsGate, hchart] at hc
  dsimp only at hc
  split at hc
  · rw [chart_of_getElem? hblock] at hb
    exact absurd hc hb
  · exact hc

namespace Walled

theorem not_isGate (h : g.Walled X) (hb : ¬ X b) : ¬ (g.chart b).IsGate := mt (h.gates b) hb

/-- A block that is new is not among them. -/
theorem not_of_size_le (h : g.Walled X) (hb : g.size ≤ b) : ¬ X b := fun hX => (h.lt b hX).not_ge hb

/-- The groups stay as they are. -/
theorem grow (h : g.Walled X) (hsize : g.size ≤ g'.size) (hgates : g.AddsNoGate g')
    (hgroups : g'.groups = g.groups) : g'.Walled X where
  lt b hb := (h.lt b hb).trans_le hsize
  gates b hb := h.gates b (hgates b hb)
  members hi := h.members (hgroups ▸ hi)

theorem of_sparesCalls {x : Edit α} (h : g.Walled X) (hx : x.SparesCalls)
    (hgates : Within AddsNoGate x) {a : α} (hrun : x g = .ok (a, g')) : g'.Walled X :=
  h.grow (hx _ _ _ hrun).1.size_le (.of_reflTransGen (hgates g a g' hrun)) (hx _ _ _ hrun).2

/-- A group gets other members. -/
theorem modifyGroup (h : g.Walled X) {f : Group → Group}
    (hf : ∀ group, g.groups[i]? = some group → ∀ m ∈ (f group).members, ¬ X m) :
    ({ g with groups := g.groups.modify i f } : Graph).Walled X where
  lt b hb := h.lt b hb
  gates b hb := h.gates b hb
  members {j group} hj := by
    simp only [Array.getElem?_modify] at hj
    split at hj
    · next hij =>
      subst hij
      obtain ⟨group', hgroup', rfl⟩ := Option.map_eq_some_iff.1 hj
      exact hf group' hgroup'
    · exact h.members hj

/-- A group is opened at a block. -/
theorem openedAt (h : g.Walled X) {group : Group} (hgroup : ∀ m ∈ group.members, ¬ X m) :
    (Build.openedAt g b group).Walled X where
  lt c hc := (h.lt c hc).trans_le (Build.size_openedAt g b group).ge
  gates c hc := by
    refine h.gates c (AddsNoGate.of_flags (fun d => ?_) c hc)
    simp only [chart_flags, Build.openedAt, Array.getElem?_modify]
    split <;> cases g.blocks[d]? <;> simp
  members {j group'} hj := by
    simp only [Build.openedAt, Array.getElem?_push] at hj
    split at hj
    · exact Option.some.inj hj ▸ hgroup
    · exact h.members hj

end Walled

end Graph

namespace Build

open Graph (AddsNoGate Walled)

variable {X : BlockId → Prop} {g g' : Graph} {blocks : List BlockId}

/-! ### Copies -/

theorem moveSlot_addsNoGate (copies : Copies) (moves : Moves) (k : SlotId) :
    Within AddsNoGate (moveSlot copies moves k) := by
  unfold moveSlot
  split
  · exact .pure _
  · refine .bind .get fun _ => .bind (.lift _) fun b => ?_
    split
    · exact .bind (Graph.newSlot_addsNoGate _) fun _ => .pure _
    · exact .pure _

/-- Copies of some blocks are no gates if none of these is. -/
theorem copyBlocks_addsNoGate (hblocks : ∀ b ∈ blocks, ¬ (g.chart b).IsGate) :
    Ensures (copyBlocks blocks) g fun _ g' => g.AddsNoGate g' := by
  refine .mapM (I := fun _ g' => g.AddsNoGate g') (.refl g) fun b hb _ g₁ h₁ => ?_
  exact (Graph.cloneBlock_addsNoGate fun hgate => hblocks b hb (h₁ b hgate)).mono
    fun _ _ h => h₁.trans h

theorem copyBlocks_walled (h : g.Walled X) (hblocks : ∀ b ∈ blocks, ¬ X b) :
    Ensures (copyBlocks blocks) g fun copied g' => (∀ c ∈ copied, ¬ X c) ∧ g'.Walled X := by
  have hcopies := copyBlocks_addsNoGate fun b hb => h.not_isGate (hblocks b hb)
  refine ((copyBlocks_ensures blocks).and hcopies).mono ?_
  rintro _ g' ⟨⟨rfl, hsize, hgroups⟩, hgates⟩
  exact ⟨fun c hc => h.not_of_size_le (List.mem_range'_1.1 hc).1,
    h.grow (hsize ▸ Nat.le_add_right _ _) hgates hgroups⟩

/-! ### Splicing in -/

/-- Members are copied. -/
theorem copyMembers_walled (h : g.Walled X) (hblocks : ∀ b ∈ blocks, ¬ X b) :
    Ensures (copyMembers blocks) g fun copied g' => (∀ c ∈ copied, ¬ X c) ∧ g'.Walled X := by
  refine .bind (copyBlocks_walled h hblocks)
    fun copied g₁ ⟨hcopied, h₁⟩ => ?_
  refine .bind (P := fun _ g' => g'.Walled X) (.foldlM h₁ fun p _ moves g₂ h₂ => ?_)
    fun _ _ h => .pure ⟨hcopied, h⟩
  intro _ g₃ hrun
  refine h₂.of_sparesCalls (.bind .get fun _ => .bind (.lift _) fun _ =>
    .bind (.graftSlots _ _ _) fun _ => .bind (.setSuccessors _ _) fun _ => .pure _) ?_ hrun
  exact .bind .get fun _ => .bind (.lift _) fun _ =>
    .bind (.foldlM fun _ _ => .bind (moveSlot_addsNoGate _ _ _) fun _ => .pure _) fun _ =>
      .bind (Graph.setSuccessors_addsNoGate _ _) fun _ => .pure _

theorem splice_addsNoGate (callSite first : BlockId) (copied : List BlockId) :
    Within AddsNoGate (splice callSite first copied) := by
  have hmark (terminals : List BlockId) : Within AddsNoGate (do
      Graph.markBlock callSite { grafted := true }
      return terminals) := .bind (Graph.markGrafted_addsNoGate _) fun _ => .pure _
  refine .bind .get fun _ => .bind (.lift _) fun terminals => .bind .get fun _ =>
    .bind (.lift _) fun block => .bind (Graph.newSlot_addsNoGate _) fun _ =>
      .bind (Graph.setSuccessors_addsNoGate _ _) fun _ => ?_
  dsimp only
  split
  · refine .bind (.forIn fun terminal _ => .bind .get fun _ => .bind (.lift _) fun _ => ?_)
      fun _ => hmark terminals
    split
    · exact .pure _
    · exact .bind (Graph.link_addsNoGate _ _) fun _ => .pure _
  · exact hmark terminals

theorem spread_walled {levels : ℕ} (hgraft : ∀ (j : GroupId) (g : Graph), g.Walled X →
      Ensures (graft levels j) g fun _ g' => g'.Walled X) (h : g.Walled X) (copy : BlockId) :
    Ensures (spread levels copy) g fun _ g' => g'.Walled X := by
  intro r g' hrun
  have hopened : ∀ {i : GroupId} {source : Group}, g.groups[i]? = some source →
      (openedAt g copy (nested levels source g.groups.size copy)).Walled X := fun {i source} hi =>
    h.openedAt fun m hm => by
      rw [nested] at hm
      split at hm
      · exact h.members hi m hm
      · cases hm
  obtain ⟨-, ⟨-, rfl⟩ | ⟨i, source, -, hi, -, ⟨-, rfl⟩ | ⟨-, hrun'⟩⟩⟩ :=
    spread_cases levels copy r g' hrun
  · exact h
  · exact hopened hi
  · exact hgraft _ _ (hopened hi) _ _ hrun'

/-- **Splicing a group in** makes no gate, because its members are none. -/
theorem graft_walled (levels : ℕ) (i : GroupId) (g : Graph) (h : g.Walled X) :
    Ensures (graft levels i) g fun _ g' => g'.Walled X := by
  induction levels generalizing i g with
  | zero => exact .pure h
  | succ levels ih =>
    refine .get_bind (.lift_bind fun group hgroup => ?_)
    have hmembers := h.members ((Graph.group_eq_ok_iff g i group).1 hgroup)
    split
    · exact .pure h
    refine .bind (copyMembers_walled h hmembers) fun copied g₁ ⟨hcopied, h₁⟩ => ?_
    split
    swap
    · exact .pure h₁
    refine .bind (P := fun _ g' => g'.Walled X)
      (fun _ _ hrun => h₁.of_sparesCalls (.splice _ _ _) (splice_addsNoGate _ _ _) hrun)
      fun terminals g₂ h₂ => ?_
    refine .bind (P := fun _ g' => g'.Walled X)
      (.forIn h₂ fun copy _ _ g₃ h₃ => ?_) fun _ g₃ h₃ => ?_
    · exact (spread_walled ih h₃ copy).mono fun _ _ h => h
    intro _ g' hrun
    obtain ⟨-, rfl⟩ := Graph.eq_of_modifyGroup_eq_ok hrun
    exact h₃.modifyGroup fun _ _ => hcopied

theorem graftGroups_walled (o : Options) (h : g.Walled X) :
    Ensures (graftGroups o) g fun _ g' => g'.Walled X :=
  .get_bind (.bind (P := fun _ g' => g'.Walled X) (.forIn h fun i _ _ g₁ h₁ =>
    .bind (graft_walled _ i g₁ h₁) fun _ _ h => .pure h) fun _ _ h => .pure h)

/-! ### Capturing -/

/-- One step after another keeps it so. -/
theorem walled_of_reflTransGen {s s' : Scope} (h : s.graph.Walled X)
    (hsteps : Relation.ReflTransGen (fun s s' : Scope => s.graph.AddsNoGate s'.graph ∧
      Spares s s') s s') : s'.graph.Walled X := by
  induction hsteps with
  | refl => exact h
  | tail _ hstep ih => exact ih.grow hstep.2.1 hstep.1 hstep.2.2.1

/-- Blocks are captured that are no gates. -/
theorem relocate_walled {s : Scope} (h : s.graph.Walled X) (w : PendingPerform) (range : String)
    {captured : List BlockId} (hcaptured : ∀ b ∈ captured, ¬ X b) :
    Ensures (relocate w range captured) s fun _ s' => s'.graph.Walled X := by
  refine .bind (P := fun members s₁ => (∀ m ∈ members, ¬ X m) ∧ s₁.graph.Walled X) ?_ ?_
  · intro members s₁ hrun
    obtain ⟨g, hg, rfl⟩ := exists_of_editGraph_eq_ok hrun
    exact copyBlocks_walled h hcaptured members g hg
  rintro members s₁ ⟨hmembers, h₁⟩
  set R := fun s s' : Scope => s.graph.AddsNoGate s'.graph ∧ Spares s s'
  have hedit {α : Type} {e : Graph.Edit α} (he : e.SparesCalls) (hgates : Within AddsNoGate e) :
      Within R (editGraph e) := by
    intro s a s' hrun
    obtain ⟨g, hg, rfl⟩ := exists_of_editGraph_eq_ok hrun
    exact .single
      ⟨.of_reflTransGen (hgates _ _ _ hg), (he _ _ _ hg).1.size_le, (he _ _ _ hg).2, rfl⟩
  refine .bind (P := fun _ s₂ => s₂.graph.Walled X) ?_ fun _ s₂ h₂ => ?_
  · refine ((Within.foldlM (R := R) fun moves (b, copy) => ?_) s₁).mono
      fun _ _ hsteps => walled_of_reflTransGen h₁ hsteps
    refine .bind .get fun _ => .bind (.lift _) fun block => .bind (.foldlM fun _ slot => ?_)
      fun _ => .bind (hedit (.setSuccessors _ _) (Graph.setSuccessors_addsNoGate _ _)) fun _ =>
        .pure _
    refine .bind (hedit (.moveSlot _ _ _) (moveSlot_addsNoGate _ _ _)) fun (moved?, moves) => ?_
    cases moved? with
    | some moved => exact .pure _
    | none =>
      dsimp only
      split
      · exact .pure _
      · exact .bind (.modify fun _ => ⟨.refl _, le_rfl, rfl, rfl⟩) fun _ => .pure _
  · refine .get_bind (.lift_bind fun terminals _ => ?_)
    intro _ s' hrun
    obtain ⟨g, hg, rfl⟩ := exists_of_editGraph_eq_ok hrun
    obtain ⟨-, rfl⟩ := Graph.eq_of_modifyGroup_eq_ok hg
    exact h₂.modifyGroup fun _ _ => hmembers

/-- **The capture of all ranges** makes no gate, because no range contains one. -/
theorem resolvePerforms_walled {s : Scope} (h : s.graph.Walled X)
    (hranges : ∀ {r : PerformRange} {blocks : List BlockId},
      s.procedures.captured? r = some blocks →
      ∀ b ∈ blocks, ¬ X b) (waiting : List PendingPerform) :
    Ensures (resolvePerforms waiting) s fun _ s' => s'.graph.Walled X := by
  have hcaptures : Captures fun s' => s'.graph.Walled X ∧ s'.procedures = s.procedures :=
    { report := fun _ h => h
      mark := fun {s' i g} h hrun => by
        obtain ⟨-, rfl⟩ := Graph.eq_of_modifyGroup_eq_ok hrun
        exact ⟨h.1.modifyGroup fun group hi m hm => h.1.members hi m hm, h.2⟩
      relocate := fun {s' w range blocks captured} h hblocks hsub _ => by
        refine ((relocate_walled h.1 w range fun b hb => ?_).and
          (relocate_renews w range captured s')).mono fun _ _ h' => ⟨h'.1, h'.2.2.trans h.2⟩
        exact hranges (h.2 ▸ hblocks) b (hsub hb) }
  exact (hcaptures.resolvePerforms ⟨h, rfl⟩ waiting).mono fun _ _ h => h.1

end Build

end CobolFlow
