import CobolFlow.Proofs.Steps

/-!
# Blocks only get longer

Short of the end of a division nothing that stands in a block is taken away: instructions are added
behind those that there are, and edges beside those that there are.

## Main definitions

* `Graph.Lengthens` — what is written stays, and more may be written behind it

## Main results

* `Build.lengthens_of_strides` — whatever is made of small steps lengthens the blocks
-/

namespace CobolFlow

/-- What is written in a block stays there, and so does where it leads. More may be written behind
it, and more edges may be added. -/
structure Graph.Lengthens (g g' : Graph) : Prop where
  size_le : g.size ≤ g'.size
  nodes : ∀ b, (g.chart b).nodes <+: (g'.chart b).nodes
  next : ∀ b, (g.chart b).next ⊆ (g'.chart b).next

namespace Graph

variable {g g' g₁ : Graph} {b : BlockId}

namespace Lengthens

theorem refl (g : Graph) : g.Lengthens g :=
  ⟨le_rfl, fun _ => List.prefix_rfl, fun _ => List.Subset.refl _⟩

theorem trans (h : g.Lengthens g₁) (h' : g₁.Lengthens g') : g.Lengthens g' :=
  ⟨h.size_le.trans h'.size_le, fun b => (h.nodes b).trans (h'.nodes b),
    fun b => List.Subset.trans (h.next b) (h'.next b)⟩

/-- Slots are kept, and blocks are kept but for what is added to them. -/
theorem of_blocks
    (hslots : ∀ {k : SlotId} {c : BlockId}, g.slots[k]? = some c → g'.slots[k]? = some c)
    (hblocks : ∀ {b : BlockId} {block : Block}, g.blocks[b]? = some block → ∃ block',
      g'.blocks[b]? = some block' ∧ block.instructions <+: block'.instructions ∧
        block.successors ⊆ block'.successors) : g.Lengthens g' where
  size_le := by
    by_contra hlt
    obtain ⟨block', hblock', -⟩ := hblocks (Array.getElem?_eq_getElem (not_le.1 hlt))
    exact (Array.getElem?_eq_some_iff.1 hblock').1.false
  nodes b := by
    rw [chart_nodes, chart_nodes]
    cases hblock : g.blocks[b]? with
    | none => exact List.nil_prefix
    | some block =>
      obtain ⟨block', hblock', hinstructions, -⟩ := hblocks hblock
      rw [hblock']
      exact hinstructions
  next b := by
    cases hblock : g.blocks[b]? with
    | none =>
      rw [chart_of_size_le (Array.getElem?_eq_none_iff.1 hblock)]
      exact List.nil_subset _
    | some block =>
      obtain ⟨block', hblock', -, hsuccessors⟩ := hblocks hblock
      rw [chart_of_getElem? hblock, chart_of_getElem? hblock']
      intro c hc
      obtain ⟨k, hk, hkc⟩ := List.mem_filterMap.1 hc
      exact List.mem_filterMap.2 ⟨k, hsuccessors hk, hslots hkc⟩

theorem of_blocks_eq (hblocks : g'.blocks = g.blocks)
    (hslots : ∀ {k : SlotId} {c : BlockId}, g.slots[k]? = some c → g'.slots[k]? = some c) :
    g.Lengthens g' :=
  of_blocks hslots fun {_ block} h =>
    ⟨block, hblocks ▸ h, List.prefix_rfl, List.Subset.refl _⟩

theorem of_modify {c : BlockId} {f : Block → Block} (hblocks : g'.blocks = g.blocks.modify c f)
    (hslots : ∀ {k : SlotId} {c : BlockId}, g.slots[k]? = some c → g'.slots[k]? = some c)
    (hf : ∀ block, block.instructions <+: (f block).instructions ∧
      block.successors ⊆ (f block).successors) : g.Lengthens g' :=
  of_blocks hslots fun {b block} h => by
    rw [hblocks, Array.getElem?_modify, h]
    split
    · exact ⟨f block, rfl, hf block⟩
    · exact ⟨block, rfl, List.prefix_rfl, List.Subset.refl _⟩

end Lengthens

theorem lengthens_grow (g : Graph) (flags : BlockFlags) (tag : Option String) :
    g.Lengthens (g.grow flags tag) :=
  .of_blocks id fun {b block} h => by
    rw [grow, Array.getElem?_push_lt (Array.getElem?_eq_some_iff.1 h).1]
    exact ⟨_, congrArg some (Array.getElem?_eq_some_iff.1 h).2, List.prefix_rfl, List.Subset.refl _⟩

theorem getElem?_slots_push {k : SlotId} {c d : BlockId} (h : g.slots[k]? = some c) :
    (g.slots.push d)[k]? = some c := by
  rw [Array.getElem?_push_lt (Array.getElem?_eq_some_iff.1 h).1]
  exact congrArg some (Array.getElem?_eq_some_iff.1 h).2

theorem Step.lengthens (h : g.Step g') : g.Lengthens g' := by
  cases h with
  | note roots owners nodes division compound => exact .of_blocks_eq rfl id
  | write b is m hm =>
    exact .of_modify (f := fun block => { block with
      instructions := block.instructions ++ is, flags := block.flags.union m }) rfl id
      fun block => ⟨List.prefix_append _ _, List.Subset.refl _⟩
  | slot c => exact .of_blocks_eq rfl getElem?_slots_push
  | link b k hk =>
    exact .of_modify (f := (·.addSuccessor k)) rfl id
      fun block => ⟨List.prefix_rfl, List.subset_append_left _ _⟩
  | edge b c =>
    exact .of_modify (f := (·.addSuccessor g.slots.size)) rfl getElem?_slots_push
      fun block => ⟨List.prefix_rfl, List.subset_append_left _ _⟩
  | call b node range hb =>
    exact .of_modify (f := ({ · with group := some g.groups.size })) rfl id
      fun block => ⟨List.prefix_rfl, List.Subset.refl _⟩
  | finish => exact g.lengthens_grow _ _

end Graph

theorem Scope.Step.lengthens {s s' : Scope} (h : s.Step s') : s.graph.Lengthens s'.graph := by
  cases h with
  | graph h => exact h.lengthens
  | aside hgraph _ _ _ => exact hgraph ▸ .refl _
  | grow tag => exact s.graph.lengthens_grow _ _
  | declare _ => exact .refl _
  | openSentence _ => exact .refl _
  | entry _ _ => exact .refl _
  | enterDeclaratives _ => exact .refl _

theorem Scope.Stride.lengthens {s s' : Scope} (h : s.Stride s') : s.graph.Lengthens s'.graph := by
  cases h with
  | step h => exact h.lengthens
  | leaveDeclaratives => exact .refl _

/-- Short of the end of a division, what is written stays. -/
theorem Build.lengthens_of_strides {x : Build Unit} (hx : Within Scope.Stride x) (s : Scope) :
    Ensures x s fun _ s' => s.graph.Lengthens s'.graph := fun _ s' hrun => by
  have hstrides := hx s () s' hrun
  clear hrun
  induction hstrides with
  | refl => exact .refl _
  | tail _ h ih => exact ih.trans h.lengthens

/-- Small steps lengthen the blocks. -/
theorem Build.lengthens_of_steps {x : Build Unit} (hx : Within Scope.Step x) (s : Scope) :
    Ensures x s fun _ s' => s.graph.Lengthens s'.graph :=
  lengthens_of_strides (hx.mono fun _ _ => .step) s

end CobolFlow
