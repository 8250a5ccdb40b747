import CobolFlow.Build.Replay
import CobolFlow.Proofs.Calls.Splicing
import CobolFlow.Proofs.Division.Passes
import CobolFlow.Proofs.Writing.Desk

/-!
# What is written does not change any more

When a division has been read, its blocks are linked, and some of them are copied again and again.
Nothing is written after that: every block says what some block of the draft says, and the blocks of
the draft say what they said. Edges are added only to blocks that end in a transfer of control, and
edges of copies correspond to edges of what is copied, so a block that ends the program still leads
nowhere.

## Main definitions

* `Spot.print` — what is written in a block, and its marks
* `Graph.Rewires` — edges and groups may change, and nothing else does
* `Graph.Reprints` — every block says what a block of the draft says

## Main results

* `Build.resolvePending_reprints` — nothing is written when names are looked up, when ranges are
  captured and when groups are spliced in
-/

namespace CobolFlow

/-- The statement ends the program. -/
def NodeTag.terminates : NodeTag → Bool
  | .terminate _ => true
  | _ => false

namespace Spot

/-- What is written in a block, and the marks that depend on it. -/
def print (t : Spot) : List Instruction × Bool × Bool × Bool :=
  (t.nodes, t.flags.ending, t.flags.default, t.flags.finish)

/-- The last statement ends the program. -/
def Terminates (t : Spot) : Prop := ∃ i ∈ t.nodes.getLast?, i.tag.terminates = true

variable {t t' : Spot}

theorem Terminates.of_print (h : t.Terminates) (heq : t'.print = t.print) : t'.Terminates := by
  rw [Terminates, show t'.nodes = t.nodes from congrArg Prod.fst heq]
  exact h

theorem Transfers.of_print (h : t.Transfers) (heq : t'.print = t.print) : t'.Transfers := by
  rw [Transfers, show t'.nodes = t.nodes from congrArg Prod.fst heq]
  exact h

theorem Shaped.of_print (h : t.Shaped) (heq : t'.print = t.print) : t'.Shaped := by
  simp only [print, Prod.mk.injEq] at heq
  obtain ⟨hnodes, hending, -⟩ := heq
  exact ⟨hnodes ▸ h.closes, by rw [hending, hnodes]; exact h.ending⟩

/-- Control that is handed over does not end the program. -/
theorem Transfers.not_terminates (h : t.Transfers) : ¬ t.Terminates := by
  rintro ⟨i, hi, hterminates⟩
  obtain ⟨j, hj, htransfers⟩ := h
  obtain rfl := Option.some.inj (hi.symm.trans hj)
  cases htag : i.tag <;> simp_all [NodeTag.transfers, NodeTag.terminates]

theorem Shaped.ending_of_terminates (h : t.Shaped) (ht : t.Terminates) : t.flags.ending = true := by
  obtain ⟨i, hi, hterminates⟩ := ht
  refine h.ending.2 ⟨i, hi, ?_⟩
  cases htag : i.tag <;> simp_all [NodeTag.leaves, NodeTag.terminates]

end Spot

namespace Graph

/-- A block that ends the program leads nowhere. -/
def Calm (g : Graph) : Prop := ∀ (b : BlockId) (block : Block), g.blocks[b]? = some block →
  (g.chart b).Terminates → block.successors = []

/-- Where calls are made. -/
def sites (g : Graph) : List BlockId := g.groups.toList.map (·.callSite)

/-- Edges and groups may change, and nothing else does. -/
structure Rewires (g g' : Graph) : Prop where
  size : g'.size = g.size
  owners : g'.owners = g.owners
  print : ∀ b, (g'.chart b).print = (g.chart b).print
  calls : ∀ b, (g'.chart b).group = (g.chart b).group
  sites : g'.sites = g.sites
  calm : g.Calm → g'.Calm

variable {g₀ g g' g₁ g₂ : Graph} {b c d : BlockId} {k : SlotId}

theorem chart_print (g : Graph) (b : BlockId) : (g.chart b).print = ((g.blocks[b]?.map fun block =>
    (block.instructions, block.flags.ending, block.flags.default, block.flags.finish)).getD
      ([], false, false, false)) := by
  cases h : g.blocks[b]? <;> simp [chart, h, Block.spot, Spot.print]

theorem chart_group (g : Graph) (b : BlockId) :
    (g.chart b).group = g.blocks[b]?.bind (·.group) := by
  cases h : g.blocks[b]? <;> simp [chart, h, Block.spot]

namespace Rewires

theorem refl (g : Graph) : g.Rewires g := ⟨rfl, rfl, fun _ => rfl, fun _ => rfl, rfl, id⟩

theorem trans (h : g.Rewires g₁) (h' : g₁.Rewires g₂) : g.Rewires g₂ where
  size := h'.size.trans h.size
  owners := h'.owners.trans h.owners
  print b := (h'.print b).trans (h.print b)
  calls b := (h'.calls b).trans (h.calls b)
  sites := h'.sites.trans h.sites
  calm hg := h'.calm (h.calm hg)

theorem of_blocks (hblocks : g'.blocks = g.blocks) (howners : g'.owners = g.owners)
    (hsites : g'.sites = g.sites) : g.Rewires g' where
  size := by rw [Graph.size, hblocks]; rfl
  owners := howners
  print b := by rw [chart_print, hblocks, chart_print]
  calls b := by rw [chart_group, hblocks, chart_group]
  sites := hsites
  calm hg b block hb ht := by
    refine hg b block (hblocks ▸ hb) (ht.of_print ?_)
    rw [chart_print, chart_print, hblocks]

end Rewires

/-! ### Edits that write nothing -/

section Modify

variable {f : Block → Block} (hf : ∀ block,
    ((f block).instructions, (f block).flags.ending, (f block).flags.default,
      (f block).flags.finish) =
    (block.instructions, block.flags.ending, block.flags.default, block.flags.finish))
include hf

theorem print_modify (hblocks : g'.blocks = g.blocks.modify b f) (c : BlockId) :
    (g'.chart c).print = (g.chart c).print := by
  simp only [chart_print, hblocks, Array.getElem?_modify]
  split
  · cases g.blocks[c]? with
    | none => rfl
    | some block => exact hf block
  · rfl

theorem Calm.modify (h : g.Calm) (hblocks : g'.blocks = g.blocks.modify b f)
    (hcalm : (g.chart b).Terminates → ∀ block, block.successors = [] → (f block).successors = []) :
    g'.Calm := by
  intro c block hc ht
  have ht' : (g.chart c).Terminates := ht.of_print (print_modify hf hblocks c).symm
  rw [hblocks, Array.getElem?_modify] at hc
  split at hc
  · next heq =>
    subst heq
    obtain ⟨block', hblock', rfl⟩ := Option.map_eq_some_iff.1 hc
    exact hcalm ht' block' (h b block' hblock' ht')
  · exact h c block hc ht'

theorem modifyBlock_rewires (hgroup : ∀ block, (f block).group = block.group)
    (hcalm : (g.chart b).Terminates → ∀ block, block.successors = [] → (f block).successors = []) :
    Ensures (modifyBlock b f) g fun _ g' => g.Rewires g' := by
  rintro ⟨⟩ g' h
  obtain ⟨-, rfl⟩ := (modifyBlock_eq_ok_iff b f g g').1 h
  refine ⟨by simp [size], rfl, print_modify hf rfl, fun c => ?_, rfl,
    fun hg => hg.modify hf rfl hcalm⟩
  simp only [chart_group, Array.getElem?_modify]
  split <;> cases g.blocks[c]? <;> simp [hgroup]

end Modify

theorem newSlot_rewires (d : BlockId) : Ensures (newSlot d) g fun _ g' => g.Rewires g' :=
  .modifyGet (.of_blocks rfl rfl rfl)

theorem link_rewires (hb : ¬ (g.chart b).Terminates) (k : SlotId) :
    Ensures (link b k) g fun _ g' => g.Rewires g' := by
  refine .get_bind (.lift_bind fun block _ => ?_)
  split
  · exact .pure (.refl g)
  · exact .bind (modifyBlock_rewires (fun _ => rfl) (fun _ => rfl) fun ht => absurd ht hb)
      fun _ _ h => .pure h

theorem setSuccessors_rewires {slots : List SlotId} (hb : (g.chart b).Terminates → slots = []) :
    Ensures (setSuccessors b slots) g fun _ g' => g.Rewires g' :=
  modifyBlock_rewires (fun _ => rfl) (fun _ => rfl) fun ht _ _ => hb ht

theorem markGrafted_rewires (b : BlockId) :
    Ensures (markBlock b { grafted := true }) g fun _ g' => g.Rewires g' :=
  modifyBlock_rewires (fun block => by simp [Block.mark, BlockFlags.union]) (fun _ => rfl)
    fun _ _ h => h

theorem modifyGroup_rewires {i : GroupId} {f : Group → Group}
    (hf : ∀ group, (f group).callSite = group.callSite) :
    Ensures (modifyGroup i f) g fun _ g' => g.Rewires g' := by
  rintro ⟨⟩ g' h
  rw [modifyGroup] at h
  split at h
  · obtain ⟨rfl⟩ := h
    refine .of_blocks rfl rfl ?_
    refine List.ext_getElem? fun j => ?_
    simp only [sites, List.getElem?_map, Array.getElem?_toList, Array.getElem?_modify]
    split <;> cases g.groups[j]? <;> simp [hf]
  · cases h

/-! ### Copies of the draft -/

/-- Every block says what a block of the draft `g₀` says. Calls are made from blocks that end in a
transfer of control, and a block that ends the program leads nowhere. -/
structure Reprints (g₀ g : Graph) : Prop where
  size_le : g₀.size ≤ g.size
  owners : g.owners = g₀.owners
  kept : ∀ b < g₀.size, (g.chart b).print = (g₀.chart b).print
  copied : ∀ b < g.size, ∃ c < g₀.size, (g.chart b).print = (g₀.chart c).print
  calls : ∀ b, (g.chart b).group.isSome → (g.chart b).Transfers
  sites : ∀ b ∈ g.sites, (g.chart b).Transfers
  calm : g.Calm

/-- Blocks are added, and what is written in those that there were stays. -/
structure Extends (g g' : Graph) : Prop where
  size_le : g.size ≤ g'.size
  print : ∀ b < g.size, (g'.chart b).print = (g.chart b).print

theorem Extends.refl (g : Graph) : g.Extends g := ⟨le_rfl, fun _ _ => rfl⟩

theorem Extends.trans (h : g.Extends g₁) (h' : g₁.Extends g₂) : g.Extends g₂ where
  size_le := h.size_le.trans h'.size_le
  print b hb := (h'.print b (hb.trans_le h.size_le)).trans (h.print b hb)

theorem Rewires.extends (h : g.Rewires g') : g.Extends g' := ⟨h.size.ge, fun b _ => h.print b⟩

theorem lt_of_transfers (h : (g.chart b).Transfers) : b < g.size := by
  by_contra hb
  obtain ⟨i, hi, -⟩ := h
  rw [chart_of_size_le (not_lt.1 hb)] at hi
  exact nomatch hi

theorem Extends.transfers (h : g.Extends g') (hb : (g.chart b).Transfers) :
    (g'.chart b).Transfers :=
  hb.of_print (h.print b (lt_of_transfers hb))

namespace Reprints

theorem rewire (h : g₀.Reprints g) (hg : g.Rewires g') : g₀.Reprints g' where
  size_le := hg.size ▸ h.size_le
  owners := hg.owners.trans h.owners
  kept b hb := (hg.print b).trans (h.kept b hb)
  copied b hb := by
    obtain ⟨c, hc, heq⟩ := h.copied b (hg.size ▸ hb)
    exact ⟨c, hc, (hg.print b).trans heq⟩
  calls b hb := (h.calls b (hg.calls b ▸ hb)).of_print (hg.print b)
  sites b hb := (h.sites b (hg.sites ▸ hb)).of_print (hg.print b)
  calm := hg.calm h.calm

theorem shaped (h : g₀.Reprints g) (hshaped : ∀ b, (g₀.chart b).Shaped) (b : BlockId) :
    (g.chart b).Shaped := by
  by_cases hb : b < g.size
  · obtain ⟨c, -, heq⟩ := h.copied b hb
    exact (hshaped c).of_print heq
  · rw [chart_of_size_le (not_lt.1 hb)]
    exact Spot.shaped_empty

/-- A copy says what is copied. -/
theorem cloneBlock (h : g₀.Reprints g) (b : BlockId) : Ensures (cloneBlock b) g fun c g' =>
    g₀.Reprints g' ∧ g.Extends g' ∧ b < g.size ∧ c < g'.size ∧
      (g'.chart c).print = (g.chart b).print := by
  refine .get_bind (.lift_bind fun block hblock => .modifyGet ?_)
  rw [block_eq_ok_iff] at hblock
  have hb : b < g.size := (Array.getElem?_eq_some_iff.1 hblock).1
  set g' : Graph := { g with blocks := g.blocks.push (block.detachedCopy g.blocks.size) } with hg'
  have hchart : g'.chart = fun c =>
      if c = g.size then (block.detachedCopy g.blocks.size).spot g.slots else g.chart c :=
    chart_push rfl rfl
  have hsize : g'.size = g.size + 1 := by simp [hg', size]
  have hold : ∀ c < g.size, g'.chart c = g.chart c := fun c hc => by rw [hchart]; exact if_neg hc.ne
  have hnew : g'.chart g.size = { g.chart b with next := [] } := by
    rw [hchart, chart_of_getElem? hblock]
    exact if_pos rfl
  have hextends : g.Extends g' := ⟨hsize ▸ Nat.le_succ _, fun c hc => by rw [hold c hc]⟩
  have hprint : (g'.chart g.size).print = (g.chart b).print := by rw [hnew]; rfl
  refine ⟨?_, hextends, hb, hsize ▸ Nat.lt_succ_self _, hprint⟩
  refine ⟨h.size_le.trans hextends.size_le, h.owners, fun c hc => ?_, fun c hc => ?_,
    fun c hc => ?_, fun c hc => hextends.transfers (h.sites c hc), fun c block' hc ht => ?_⟩
  · rw [hold c (hc.trans_le h.size_le), h.kept c hc]
  · obtain hlt | rfl := Nat.lt_succ_iff_lt_or_eq.1 (hsize ▸ hc)
    · rw [hold c hlt]
      exact h.copied c hlt
    · rw [hprint]
      exact h.copied b hb
  · by_cases hlt : c < g.size
    · rw [hold c hlt] at hc ⊢
      exact h.calls c hc
    · by_cases heq : c = g.size
      · subst heq
        rw [hnew] at hc
        exact (h.calls b hc).of_print hprint
      · have hle : g'.size ≤ c := by omega
        rw [chart_of_size_le hle] at hc
        cases hc
  · change g'.blocks[c]? = some block' at hc
    have hlt : c < g'.size := (Array.getElem?_eq_some_iff.1 hc).1
    obtain hlt | rfl := Nat.lt_succ_iff_lt_or_eq.1 (hsize ▸ hlt)
    · rw [hold c hlt] at ht
      refine h.calm c block' ?_ ht
      rwa [hg', Array.getElem?_push, if_neg (show ¬c = g.blocks.size from hlt.ne)] at hc
    · rw [hg', Array.getElem?_push, if_pos (by rfl)] at hc
      rw [← Option.some.inj hc]
      rfl

/-- A call is opened at a block that ends in a transfer of control. -/
theorem openedAt (h : g₀.Reprints g) (hb : (g.chart b).Transfers) {new : Group}
    (hsite : new.callSite = b) : g₀.Reprints (Build.openedAt g b new) := by
  set g₂ := Build.openedAt g b new
  set f : Block → Block := fun block => { block with group := some g.groups.size }
  have hmodify : g₂.blocks = g.blocks.modify b f := rfl
  have hprint : ∀ c, (g₂.chart c).print = (g.chart c).print :=
    print_modify (f := f) (fun _ => rfl) hmodify
  have hsize : g₂.size = g.size := Build.size_openedAt g b new
  have hsites : g₂.sites = g.sites ++ [b] := by
    simp [g₂, Graph.sites, Build.openedAt, hsite]
  refine ⟨hsize ▸ h.size_le, h.owners, fun c hc => (hprint c).trans (h.kept c hc), fun c hc => ?_,
    fun c hc => ?_, fun c hc => ?_,
    h.calm.modify (f := f) (fun _ => rfl) hmodify fun _ _ hnil => hnil⟩
  · obtain ⟨d, hd, heq⟩ := h.copied c (hsize ▸ hc)
    exact ⟨d, hd, (hprint c).trans heq⟩
  · by_cases heq : c = b
    · exact (heq ▸ hb).of_print (hprint c)
    · refine (h.calls c ?_).of_print (hprint c)
      rw [chart_group, hmodify, Array.getElem?_modify, if_neg (Ne.symm heq), ← chart_group] at hc
      exact hc
  · rw [hsites] at hc
    obtain hc | hc := List.mem_append.1 hc
    · exact (h.sites c hc).of_print (hprint c)
    · rw [List.mem_singleton.1 hc]
      exact hb.of_print (hprint b)

end Reprints

end Graph

namespace Build

open Graph

variable {g₀ g : Graph}

/-! ### Copies and their edges -/

/-- Copies say what is copied. -/
theorem copyBlocks_reprints (h : g₀.Reprints g) (blocks : List BlockId) :
    Ensures (copyBlocks blocks) g fun copied g' => g₀.Reprints g' ∧ g.Extends g' ∧
      ∀ p ∈ blocks.zip copied, (p.1 < g'.size ∧ p.2 < g'.size) ∧
        (g'.chart p.2).print = (g'.chart p.1).print := by
  induction blocks generalizing g with
  | nil => exact .pure ⟨h, .refl g, by simp⟩
  | cons b rest ih =>
    rw [copyBlocks, List.mapM_cons]
    refine .bind (h.cloneBlock b) ?_
    rintro c g₁ ⟨h₁, hextends₁, hb, hc, hprint⟩
    refine .bind (ih h₁) ?_
    rintro copied g₂ ⟨h₂, hextends₂, hcopies⟩
    refine .pure ⟨h₂, hextends₁.trans hextends₂, fun p hp => ?_⟩
    rw [List.zip_cons_cons] at hp
    obtain rfl | hp := List.mem_cons.1 hp
    · have hb₁ : b < g₁.size := hb.trans_le hextends₁.size_le
      refine ⟨⟨hb₁.trans_le hextends₂.size_le, hc.trans_le hextends₂.size_le⟩, ?_⟩
      rw [hextends₂.print c hc, hextends₂.print b hb₁, hprint, hextends₁.print b hb]
    · exact hcopies p hp

theorem moveSlot_rewires (copies : Copies) (moves : Moves) (k : SlotId) :
    Ensures (moveSlot copies moves k) g fun _ g' => g.Rewires g' := by
  rw [moveSlot]
  split
  · exact .pure (.refl g)
  · refine .get_bind (.lift_bind fun b _ => ?_)
    split
    · exact .bind (newSlot_rewires _) fun _ _ h => .pure h
    · exact .pure (.refl g)

/-- A copy of a block without edges has none. -/
theorem graftSlots_rewires (copies : Copies) (slots : List SlotId) (moves : Moves) :
    Ensures (graftSlots copies slots moves) g fun r g' =>
      g.Rewires g' ∧ (slots = [] → r.1 = []) := by
  cases slots with
  | nil => exact .pure ⟨.refl g, fun _ => rfl⟩
  | cons k rest =>
    have hloop : Ensures (graftSlots copies (k :: rest) moves) g fun _ g' => g.Rewires g' :=
      .foldlM (.refl g) fun k _ r g₁ h₁ => .bind (moveSlot_rewires copies r.2 k) fun _ _ h₂ =>
        .pure (h₁.trans h₂)
    exact hloop.mono fun _ _ h => ⟨h, nofun⟩

/-- The edges of copies correspond to those of what is copied. -/
theorem copyMembers_reprints (h : g₀.Reprints g) (members : List BlockId) :
    Ensures (copyMembers members) g fun _ g' => g₀.Reprints g' ∧ g.Extends g' := by
  refine .bind (copyBlocks_reprints h members) ?_
  rintro copied g₁ ⟨h₁, hextends, hcopies⟩
  refine .bind (P := fun _ g₂ => g₁.Rewires g₂) (.foldlM (.refl g₁) ?_) fun _ g₂ h₂ =>
    .pure ⟨h₁.rewire h₂, hextends.trans h₂.extends⟩
  rintro p hp moves g₂ h₂
  refine .get_bind (.lift_bind fun block hblock => ?_)
  rw [block_eq_ok_iff] at hblock
  refine .bind (graftSlots_rewires _ block.successors moves) ?_
  rintro r g₃ ⟨h₃, hnone⟩
  refine .bind (setSuccessors_rewires fun ht => hnone ?_) fun _ g₄ h₄ =>
    .pure (h₂.trans (h₃.trans h₄))
  refine (h₁.rewire h₂).calm p.1 block hblock (ht.of_print ?_)
  rw [h₂.print, h₃.print, h₂.print, (hcopies p hp).2]

/-- Control that is handed over goes on elsewhere, and control that has ended does not go on. -/
theorem splice_rewires (h : g₀.Reprints g) (hshaped : ∀ b, (g₀.chart b).Shaped)
    {callSite : BlockId} (hsite : (g.chart callSite).Transfers) (first : BlockId)
    (copied : List BlockId) :
    Ensures (splice callSite first copied) g fun _ g' => g.Rewires g' := by
  refine .get_bind (.lift_bind fun terminals _ => .get_bind (.lift_bind fun block _ => ?_))
  refine .bind (newSlot_rewires first) fun entry g₁ h₁ => ?_
  refine .bind (setSuccessors_rewires fun ht =>
    absurd (ht.of_print (h₁.print callSite).symm) hsite.not_terminates) fun _ g₂ h₂ => ?_
  have hmark : ∀ g₃, g.Rewires g₃ → Ensures (do
      markBlock callSite { grafted := true }
      return terminals) g₃ fun _ g' => g.Rewires g' := fun g₃ h₃ =>
    .bind (markGrafted_rewires callSite) fun _ _ h₄ => .pure (h₃.trans h₄)
  dsimp only
  split
  · next slot _ =>
    refine .bind (P := fun _ g₃ => g.Rewires g₃) (.forIn (h₁.trans h₂) ?_)
      fun _ g₃ h₃ => hmark g₃ h₃
    rintro terminal - - g₃ h₃
    refine .get_bind (.lift_bind fun block hblock => ?_)
    rw [block_eq_ok_iff] at hblock
    split
    · exact .pure h₃
    · next hending =>
      refine .bind (link_rewires (fun ht => hending ?_) slot) fun _ g₄ h₄ => .pure (h₃.trans h₄)
      have hterminal := ((h.rewire h₃).shaped hshaped terminal).ending_of_terminates ht
      rwa [chart_of_getElem? hblock] at hterminal
  · exact hmark g₂ (h₁.trans h₂)

/-- A call is opened at the copy of a call site, and its group is spliced in. -/
theorem spread_reprints (h : g₀.Reprints g) {levels : ℕ}
    (hgraft : ∀ {g₁ : Graph}, g₀.Reprints g₁ → ∀ j, Ensures (graft levels j) g₁ fun _ g' =>
      g₀.Reprints g') (copy : BlockId) :
    Ensures (spread levels copy) g fun _ g' => g₀.Reprints g' := by
  intro r g' hrun
  obtain ⟨-, ⟨-, rfl⟩ | ⟨i, source, hcall, -, -, hcase⟩⟩ := spread_cases levels copy r g' hrun
  · exact h
  have htransfers : (g.chart copy).Transfers := h.calls copy (hcall ▸ rfl)
  obtain ⟨-, rfl⟩ | ⟨-, hgrafted⟩ := hcase
  · exact h.openedAt htransfers rfl
  · exact hgraft (h.openedAt htransfers rfl) _ _ _ hgrafted

/-- **Splicing a group in** writes nothing. -/
theorem graft_reprints (h : g₀.Reprints g) (hshaped : ∀ b, (g₀.chart b).Shaped) (levels : ℕ)
    (i : GroupId) : Ensures (graft levels i) g fun _ g' => g₀.Reprints g' := by
  induction levels generalizing i g with
  | zero => exact .pure h
  | succ levels ih =>
    refine .get_bind (.lift_bind fun group hgroup => ?_)
    rw [group_eq_ok_iff] at hgroup
    have hsite : (g.chart group.callSite).Transfers :=
      h.sites _ (List.mem_map_of_mem (Array.mem_toList_iff.2 (Array.mem_of_getElem? hgroup)))
    split
    · exact .pure h
    refine .bind (copyMembers_reprints h group.members) ?_
    rintro copied g₁ ⟨h₁, hextends⟩
    split
    swap
    · exact .pure h₁
    next first rest =>
    refine .bind (splice_rewires h₁ hshaped (hextends.transfers hsite) first (first :: rest))
      fun terminals g₂ h₂ => ?_
    refine .bind (.forIn (P := fun _ g₃ => g₀.Reprints g₃) (h₁.rewire h₂)
      fun copy _ _ _ h₃ => spread_reprints h₃ (fun h₄ => ih h₄) copy) fun _ g₃ h₃ => ?_
    exact (modifyGroup_rewires (f := fun old => { old with members := first :: rest, terminals })
      fun _ => rfl).mono fun _ _ h₄ => h₃.rewire h₄

theorem graftGroups_reprints (h : g₀.Reprints g) (hshaped : ∀ b, (g₀.chart b).Shaped)
    (o : Options) : Ensures (graftGroups o) g fun _ g' => g₀.Reprints g' := by
  refine .get_bind (.bind (.forIn (P := fun _ g' => g₀.Reprints g') h fun i _ _ _ h₁ => ?_)
    fun _ _ h₁ => .pure h₁)
  exact .bind (graft_reprints h₁ hshaped o.maxGraftDepth i) fun _ _ h₂ => .pure h₂

end Build

/-! ### Looking names up -/

/-- Nothing is written, and nothing is done against the protocol. -/
structure Scope.Rewires (s s' : Scope) : Prop where
  graph : s.graph.Rewires s'.graph
  violations : s'.violations = s.violations

namespace Scope.Rewires

variable {s s₁ s₂ : Scope}

theorem refl (s : Scope) : s.Rewires s := ⟨.refl _, rfl⟩

theorem trans (h : s.Rewires s₁) (h' : s₁.Rewires s₂) : s.Rewires s₂ :=
  ⟨h.graph.trans h'.graph, h'.violations.trans h.violations⟩

end Scope.Rewires

/-- The draft is as it was but for its edges, and there may be copies. -/
structure Scope.Reprints (s₀ s : Scope) : Prop where
  graph : s₀.graph.Reprints s.graph
  violations : s.violations = s₀.violations

theorem Scope.Reprints.rewire {s₀ s s' : Scope} (h : s₀.Reprints s) (hs : s.Rewires s') :
    s₀.Reprints s' :=
  ⟨h.graph.rewire hs.graph, hs.violations.trans h.violations⟩

namespace Build

open Graph Scope

variable {s s₀ : Scope} {α : Type}

theorem editGraph_rewires {e : Graph.Edit α}
    (h : Ensures e s.graph fun _ g' => s.graph.Rewires g') :
    Ensures (editGraph e) s fun _ s' => s.Rewires s' :=
  (editGraph_ensures h).mono fun _ _ ⟨hdesk, hg⟩ => ⟨hg, congrArg (·.1.2.2.2) hdesk⟩

theorem editProcedures_rewires (e : Procedures.Edit α) :
    Ensures (editProcedures e) s fun _ s' => s.Rewires s' :=
  (editProcedures_ensures e).mono fun _ _ ⟨hdesk, hgraph⟩ =>
    ⟨hgraph ▸ .refl _, congrArg (·.1.2.2.2) hdesk⟩

theorem report_rewires (p : Problem) : Ensures (report p) s fun _ s' => s.Rewires s' :=
  .modify ⟨.refl _, rfl⟩

theorem lookup_rewires (n : QualifiedName) (span : Span) :
    Ensures (lookup n span) s fun _ s' => s.Rewires s' := by
  refine .get_bind (.lift_bind fun r _ => ?_)
  split
  · exact .pure (.refl s)
  · exact .bind (report_rewires _) fun _ _ h => .pure h
  · exact .bind (report_rewires _) fun _ _ h => .pure h

theorem sentenceEntry_rewires (j : SentenceId) :
    Ensures (sentenceEntry j) s fun _ s' => s.Rewires s' := by
  refine .get_bind (.lift_bind fun sentence _ => ?_)
  split
  · exact .pure (.refl s)
  · exact .pure (.refl s)
  · refine .bind (editGraph_rewires (newSlot_rewires _)) fun slot s₁ h₁ => ?_
    exact .bind (editProcedures_rewires _) fun _ _ h₂ => .pure (h₁.trans h₂)

/-- A block that hands control over is led into a sentence. -/
theorem linkToSentence_rewires {b : BlockId} (hb : (s.graph.chart b).Transfers) (j : SentenceId) :
    Ensures (linkToSentence b j) s fun _ s' => s.Rewires s' := by
  refine .bind (sentenceEntry_rewires j) fun slot? s₁ h₁ => ?_
  split
  · next slot =>
    have hb₁ := (hb.of_print (h₁.graph.print b)).not_terminates
    exact .bind (editGraph_rewires (link_rewires hb₁ slot)) fun _ _ h₂ => .pure (h₁.trans h₂)
  · exact .pure h₁

theorem resolveNextSentences_rewires {waiting : List PendingNextSentence}
    (h : ∀ w ∈ waiting, (s.graph.chart w.block).Transfers) :
    Ensures (resolveNextSentences waiting) s fun _ s' => s.Rewires s' := by
  refine .bind (P := fun _ s' => s.Rewires s') (.forIn (.refl s) fun w hw _ s₁ h₁ => ?_)
    fun _ _ h₁ => .pure h₁
  refine .get_bind ?_
  split
  · next next _ =>
    exact .bind (linkToSentence_rewires ((h w hw).of_print (h₁.graph.print _)) next)
      fun _ _ h₂ => .pure (h₁.trans h₂)
  · exact .pure h₁

theorem leadingJump_ensures (p : ProcedureId) : Ensures (leadingJump p) s fun _ s' => s' = s := by
  refine .get_bind (.lift_bind fun sentence? _ => ?_)
  split
  swap
  · exact .pure rfl
  refine .lift_bind fun sentence _ => ?_
  split
  swap
  · exact .pure rfl
  refine .lift_bind fun block _ => ?_
  split
  · exact .pure rfl
  · exact .pure rfl

theorem resolveAlterClause_rewires (span : Span) (known : Alterations) (clause : AlterClause) :
    Ensures (resolveAlterClause span known clause) s fun _ s' => s.Rewires s' := by
  refine .bind (lookup_rewires _ _) fun altered? s₁ h₁ => ?_
  split
  swap
  · exact .pure h₁
  refine .bind (lookup_rewires _ _) fun target? s₂ h₂ => ?_
  split
  swap
  · exact .pure (h₁.trans h₂)
  refine .bind (leadingJump_ensures _) ?_
  rintro jump? _ rfl
  split
  · exact .pure (h₁.trans h₂)
  · refine .get_bind (.lift_bind fun procedure _ => .bind (report_rewires _) fun _ _ h₃ => ?_)
    exact .pure (h₁.trans (h₂.trans h₃))

theorem resolveAlters_rewires (waiting : List PendingAlter) :
    Ensures (resolveAlters waiting) s fun _ s' => s.Rewires s' :=
  .foldlM (.refl s) fun w _ _ _ h₁ => .foldlM (P := fun _ s' => s.Rewires s') h₁
    fun clause _ known _ h₂ => (resolveAlterClause_rewires w.span known clause).mono
      fun _ _ h₃ => h₂.trans h₃

theorem resolveJumps_rewires {waiting : List PendingJump}
    (h : ∀ w ∈ waiting, (s.graph.chart w.block).Transfers) (a : Alterations) :
    Ensures (resolveJumps a waiting) s fun _ s' => s.Rewires s' := by
  refine .forM (.refl s) fun w hw s₁ h₁ => ?_
  rw [resolveJump_eq]
  refine .bind (P := fun _ s₂ => s.Rewires s₂) (.foldlM h₁ fun target _ reached s₂ h₂ => ?_)
    fun _ _ h₂ => .pure h₂
  refine .bind (lookup_rewires _ _) fun p? s₃ h₃ => ?_
  have h₂₃ := h₂.trans h₃
  split
  swap
  · exact .pure h₂₃
  split
  · exact .pure h₂₃
  refine .get_bind (.lift_bind fun sentence? _ => ?_)
  split
  · next sentence _ =>
    exact .bind (linkToSentence_rewires ((h w hw).of_print (h₂₃.graph.print _)) sentence)
      fun _ _ h₄ => .pure (h₂₃.trans h₄)
  · exact .pure h₂₃

/-! ### Capturing ranges -/

/-- A copy of a block without edges has none. -/
theorem relocateSlots_rewires (w : PendingPerform) (range : String) (copies : Copies)
    (block : Block) (b : BlockId) (isLast : Bool) (moves : Moves) :
    Ensures (relocateSlots w range copies block b isLast moves) s fun r s' =>
      s.Rewires s' ∧ (block.successors = [] → r.1 = []) := by
  rw [relocateSlots]
  cases block.successors with
  | nil => exact .pure ⟨.refl s, fun _ => rfl⟩
  | cons k rest =>
    refine Ensures.mono (P := fun _ s' => s.Rewires s') (.foldlM (.refl s) ?_)
      fun _ _ h => ⟨h, nofun⟩
    rintro k - r s₁ h₁
    refine .bind (editGraph_rewires (moveSlot_rewires copies r.2 k)) fun moved s₂ h₂ => ?_
    split
    · exact .pure (h₁.trans h₂)
    · split
      · exact .pure (h₁.trans h₂)
      · exact .bind (report_rewires _) fun _ _ h₃ => .pure (h₁.trans (h₂.trans h₃))

/-- **Filling a group** writes nothing. -/
theorem relocate_reprints (h : s₀.Reprints s) (w : PendingPerform) (range : String)
    (captured : List BlockId) :
    Ensures (relocate w range captured) s fun _ s' => s₀.Reprints s' := by
  refine .bind (editGraph_ensures (copyBlocks_reprints h.graph captured)) ?_
  rintro members s₁ ⟨hdesk, h₁, -, hcopies⟩
  have hs₁ : s₀.Reprints s₁ := ⟨h₁, (congrArg (·.1.2.2.2) hdesk).trans h.violations⟩
  refine .bind (P := fun _ s₂ => s₁.Rewires s₂) (.foldlM (.refl s₁) ?_) fun _ s₂ h₂ => ?_
  · rintro p hp moves s₂ h₂
    refine .get_bind (.lift_bind fun block hblock => ?_)
    rw [block_eq_ok_iff] at hblock
    refine .bind (relocateSlots_rewires w range _ block p.1 _ moves) ?_
    rintro r s₃ ⟨h₃, hnone⟩
    refine .bind (editGraph_rewires (setSuccessors_rewires fun ht => hnone ?_)) fun _ s₄ h₄ =>
      .pure (h₂.trans (h₃.trans h₄))
    refine (hs₁.rewire h₂).graph.calm p.1 block hblock (ht.of_print ?_)
    rw [h₂.graph.print, h₃.graph.print, h₂.graph.print, (hcopies p hp).2]
  · refine .get_bind (.lift_bind fun terminals _ => ?_)
    have hmodify := modifyGroup_rewires (g := s₂.graph) (i := w.group)
      (f := fun group => { group with members, terminals }) fun _ => rfl
    exact (editGraph_rewires hmodify).mono fun _ _ h₃ => (hs₁.rewire h₂).rewire h₃

theorem performedRange_rewires (w : PendingPerform) :
    Ensures (performedRange w) s fun _ s' => s.Rewires s' := by
  refine .bind (lookup_rewires _ _) fun first? s₁ h₁ => ?_
  split
  swap
  · exact .pure h₁
  next first =>
  have hrest : ∀ (last : ProcedureId) (s₂ : Scope), s.Rewires s₂ → Ensures (do
      if last < first then
        let c := (← get).procedures
        report
          { kind := .invalidPerformRange (← c.procedure first).name (← c.procedure last).name
            span := w.span }
        return none
      else
        return some (first, last) : Build (Option (ProcedureId × ProcedureId))) s₂
      fun _ s' => s.Rewires s' := by
    intro last s₂ h₂
    split
    · refine .get_bind (.lift_bind fun p _ => .lift_bind fun q _ => ?_)
      exact .bind (report_rewires _) fun _ _ h₃ => .pure (h₂.trans h₃)
    · exact .pure h₂
  split
  · refine .bind (lookup_rewires _ _) fun last? s₂ h₂ => ?_
    cases last? with
    | some last => exact hrest last s₂ (h₁.trans h₂)
    | none => exact .pure (h₁.trans h₂)
  · exact hrest first s₁ h₁

section Capture

variable {capture : ℕ → Capture → Build Capture}
  (hcapture : ∀ j c {s : Scope}, s₀.Reprints s → Ensures (capture j c) s fun _ s' => s₀.Reprints s')
include hcapture

theorem visitCallSite_reprints (h : s₀.Reprints s) (w : PendingPerform) (range : String)
    (b : BlockId) (c : Capture) :
    Ensures (visitCallSite capture w range b c) s fun _ s' => s₀.Reprints s' := by
  refine .get_bind (.lift_bind fun block _ => ?_)
  split
  swap
  · exact .pure h
  split
  swap
  · exact .pure h
  split
  · exact hcapture _ _ h
  · refine .bind (report_rewires _) fun _ s₁ h₁ => ?_
    refine .bind (editGraph_rewires (modifyGroup_rewires fun _ => rfl)) fun _ s₂ h₂ => ?_
    exact .pure ((h.rewire h₁).rewire h₂)
  · exact .pure h

theorem collect_reprints (h : s₀.Reprints s) (w : PendingPerform) (range : String)
    (blocks : List BlockId) (c : Capture) :
    Ensures (collect capture w range blocks c) s fun _ s' => s₀.Reprints s' := by
  refine .foldlM h fun b _ r s₁ h₁ => ?_
  dsimp only
  split
  · exact .bind (report_rewires _) fun _ _ h₂ => .pure (h₁.rewire h₂)
  · exact .bind (visitCallSite_reprints hcapture h₁ w range b r.2) fun _ _ h₂ => .pure h₂

end Capture

theorem resolvePerform_reprints (h : s₀.Reprints s) (depth k : ℕ) (c : Capture) :
    Ensures (resolvePerform depth k c) s fun _ s' => s₀.Reprints s' := by
  induction depth generalizing k c s with
  | zero => exact .pure h
  | succ depth ih =>
    rw [resolvePerform]
    split
    swap
    · exact .pure h
    split
    swap
    · exact .pure h
    refine .bind (performedRange_rewires _) fun range? s₁ h₁ => ?_
    have hs₁ := h.rewire h₁
    split
    · exact .pure hs₁
    refine .get_bind (.lift_bind fun group _ => .get_bind (.lift_bind fun blocks _ => ?_))
    refine .bind (collect_reprints (fun j c _ h => ih h j c) hs₁ _ _ _ _) fun r s₂ h₂ => ?_
    exact .bind (relocate_reprints h₂ _ _ _) fun _ _ h₃ => .pure h₃

theorem resolvePerforms_reprints (h : s₀.Reprints s) (waiting : List PendingPerform) :
    Ensures (resolvePerforms waiting) s fun _ s' => s₀.Reprints s' :=
  .bind (P := fun _ s' => s₀.Reprints s')
    (.foldlM h fun k _ c _ h₁ => resolvePerform_reprints h₁ _ k c) fun _ _ h₁ => .pure h₁

/-! ### The end of a division -/

/-- **When a division ends** nothing is written any more. -/
theorem resolvePending_reprints (o : Options) (hsigned : s.Signed)
    (hshaped : ∀ b, (s.graph.chart b).Shaped) (hcalm : s.graph.Calm)
    (hcalls : ∀ b, (s.graph.chart b).group.isSome → (s.graph.chart b).Transfers) :
    Ensures (resolvePending o) s fun _ s' => s.Reprints s' := by
  have hstart : s.Reprints s :=
    ⟨⟨le_rfl, rfl, fun _ _ => rfl, fun b hb => ⟨b, hb, rfl⟩, hcalls, fun b hb =>
      hsigned b (List.mem_append_right _ hb), hcalm⟩, rfl⟩
  refine .get_bind (.modify_bind ?_)
  set s₁ : Scope := { s with pending := {} }
  have h₁ : s.Rewires s₁ := ⟨.refl _, rfl⟩
  refine .bind (resolveNextSentences_rewires fun w hw => hsigned _ ?_) fun _ s₂ h₂ => ?_
  · simp only [awaiting, List.mem_append, List.mem_map]
    exact .inl (.inr ⟨w, hw, rfl⟩)
  refine .bind (resolveAlters_rewires s.pending.alters) fun a s₃ h₃ => ?_
  have h₁₃ := h₁.trans (h₂.trans h₃)
  refine .bind (resolveJumps_rewires (fun w hw => ?_) a) fun _ s₄ h₄ => ?_
  · refine (hsigned w.block ?_).of_print (h₁₃.graph.print _)
    simp only [awaiting, List.mem_append, List.mem_map]
    exact .inl (.inl ⟨w, hw, rfl⟩)
  refine .bind (resolvePerforms_reprints (hstart.rewire (h₁₃.trans h₄)) _) fun _ s₅ h₅ => ?_
  split
  · refine (editGraph_ensures (graftGroups_reprints h₅.graph hshaped o)).mono ?_
    rintro _ s₆ ⟨hdesk, h₆⟩
    exact ⟨h₆, (congrArg (·.1.2.2.2) hdesk).trans h₅.violations⟩
  · exact .pure h₅

end Build

end CobolFlow
