import CobolFlow.Proofs.Calls.Gates
import CobolFlow.Proofs.Leaving

/-!
# The way in and the way out

A graph has one block where the division is entered and one where it is left. The first is the
first of the roots, and from the second no edge leads on, whatever ranges are performed and however
they are spliced into each other.

The first block of a division belongs to a sentence of the implicit section, which has no name, so
no range contains it; and the last one belongs to no sentence at all. That is why neither is ever
copied. Control may well come to the last block from inside of a range. But what is spliced in is
led on from the ends of the copies, and the last block is none of these.

## Main definitions

* `Graph.Gated` — a graph has one way in and one way out

## Main results

* `StatementTree.build_gated` — so has every graph of a division
-/

namespace CobolFlow

open Scope

namespace Graph

/-- The division is entered at the block `first` and left at the block `last`, and neither is a
member of a group. A copy has the marks of its original, so no copy of them is a member either. -/
structure Gated (g : Graph) (first last : BlockId) : Prop where
  start : ∀ {b : BlockId} {block : Block}, g.blocks[b]? = some block →
    (block.flags.start = true ↔ b = first)
  finish : ∀ {b : BlockId} {block : Block}, g.blocks[b]? = some block →
    (block.flags.finish = true ↔ b = last)
  first_lt : first < g.size
  last_lt : last < g.size
  root : g.roots.head? = some first
  sink : g.successors last = .ok []
  members : ∀ {i : GroupId} {group : Group}, g.groups[i]? = some group → ∀ m ∈ group.members,
    ∃ block, g.blocks[m]? = some block ∧ block.flags.start = false ∧ block.flags.finish = false

/-! ### Where the division is entered -/

/-- No block has become one where the division is entered. -/
def AddsNoStart (g g' : Graph) : Prop :=
  ∀ b, (g'.chart b).flags.start = true → (g.chart b).flags.start = true

variable {g g' g₁ : Graph} {b : BlockId}

namespace AddsNoStart

theorem refl (g : Graph) : g.AddsNoStart g := fun _ => id

theorem trans (h : g.AddsNoStart g₁) (h' : g₁.AddsNoStart g') : g.AddsNoStart g' :=
  fun b hb => h b (h' b hb)

theorem of_blocks_eq (hblocks : g'.blocks = g.blocks) : g.AddsNoStart g' := fun b hb => by
  rwa [chart_flags, hblocks, ← chart_flags] at hb

theorem of_modify {c : BlockId} {f : Block → Block} (hblocks : g'.blocks = g.blocks.modify c f)
    (hf : ∀ block, (f block).flags.start = block.flags.start) : g.AddsNoStart g' := fun b hb => by
  rw [chart_flags, hblocks, Array.getElem?_modify] at hb
  rw [chart_flags]
  split at hb
  · cases hblock : g.blocks[b]? with
    | none => simp [hblock] at hb
    | some block => simpa [hblock, hf] using hb
  · exact hb

theorem grow (g : Graph) {flags : BlockFlags} (hflags : flags.start = false) (tag : Option String) :
    g.AddsNoStart (g.grow flags tag) := fun b hb => by
  rw [chart_flags, Graph.grow, Array.getElem?_push] at hb
  rw [chart_flags]
  split at hb
  · simp [hflags] at hb
  · exact hb

end AddsNoStart

theorem Step.addsNoStart (h : g.Step g') : g.AddsNoStart g' := by
  cases h with
  | note roots owners nodes division compound => exact .of_blocks_eq rfl
  | write b is m hm =>
    refine .of_modify (f := fun block => { block with
      instructions := block.instructions ++ is, flags := block.flags.union m }) rfl fun block => ?_
    simp [BlockFlags.union, hm.2.2.2]
  | slot c => exact .of_blocks_eq rfl
  | link b k hk => exact .of_modify (f := (·.addSuccessor k)) rfl fun _ => rfl
  | edge b c => exact .of_modify (f := (·.addSuccessor g.slots.size)) rfl fun _ => rfl
  | call b node range hb =>
    exact .of_modify (f := ({ · with group := some g.groups.size })) rfl fun _ => rfl
  | finish => exact .grow g rfl none

end Graph

theorem Scope.Stride.addsNoStart {s s' : Scope} (h : s.Stride s') :
    s.graph.AddsNoStart s'.graph := by
  cases h with
  | step h =>
    cases h with
    | graph h => exact h.addsNoStart
    | aside hgraph _ _ _ => exact hgraph ▸ .refl _
    | grow tag => exact .grow s.graph rfl tag
    | declare _ => exact .refl _
    | openSentence _ => exact .refl _
    | entry _ _ => exact .refl _
    | enterDeclaratives _ => exact .refl _
  | leaveDeclaratives => exact .refl _

theorem Build.addsNoStart_of_strides {x : Build Unit} (hx : Within Scope.Stride x) (s : Scope) :
    Ensures x s fun _ s' => s.graph.AddsNoStart s'.graph := fun _ s' hrun => by
  have hstrides := hx s () s' hrun
  clear hrun
  induction hstrides with
  | refl => exact .refl _
  | tail _ h ih => exact ih.trans h.addsNoStart

namespace ProgramUnit

variable {o : Options} {u : ProgramUnit} {d : DivisionText} {flow : ProgramFlow}
  {s s₁ s₂ t : Scope} {chs : List Chapter}

/-- Of the blocks of a division, it is entered at the first. -/
theorem eq_zero_of_start (hplay : Build.play o ((d.items.run (u.id + 1)).1.flatMap Item.events)
      (Scope.started u.program u.id) = .ok ((), t))
    (hfinish : Build.finishBlocks { t with enclosing := t.enclosing.tail } = .ok ((), s))
    {b : BlockId} (hb : (s.graph.chart b).flags.start = true) : b = 0 := by
  have hwithin := d.isWithin_items (u.id + 1)
  have hitems := Build.addsNoStart_of_strides (Build.play_strides o hwithin) _ () t hplay
  have hlast := Build.addsNoStart_of_strides (Build.finishBlocks_steps.mono fun _ _ => .step) _ () s
    hfinish
  have hb := hitems b (hlast b hb)
  by_contra hne
  rw [Graph.chart_of_size_le (Nat.one_le_iff_ne_zero.2 hne)] at hb
  exact nomatch hb

namespace Arises

variable (h : u.Arises o d flow s chs s₁ s₂) {b : BlockId}
include h

/-- Neither the first block nor the last one belongs to a range. -/
theorem not_gates_of_captured {r : PerformRange} {blocks : List BlockId}
    (hblocks : s₁.procedures.captured? r = some blocks) (hb : b ∈ blocks) :
    ¬ (b = 0 ∨ b = Chapter.extent chs) := by
  rw [← h.procedures_eq] at hblocks
  obtain ⟨l, hl⟩ := Procedures.exists_covers h.shelved h.rooted h.sound_procedures hblocks
  obtain ⟨c, hc, ⟨j, hj, hcj⟩, hhas⟩ := (h.mem_blocks_iff hl).1 hb
  obtain ⟨i, hi⟩ := List.mem_iff_getElem?.1 hc
  rintro (rfl | rfl)
  · -- the first block is in the first sentence, which belongs to the implicit section
    obtain ⟨t₀, ht₀, howner₀⟩ := h.rooted.first
    obtain ⟨c₀, hc₀, hcj₀⟩ := h.exists_chapter (Array.getElem?_eq_some_iff.1 ht₀).1
    obtain ⟨i₀, hi₀⟩ := List.mem_iff_getElem?.1 hc₀
    obtain ⟨first, rest, hchs⟩ := List.exists_cons_of_ne_nil h.draft.nonempty
    have hfirst : chs[0]? = some first := by rw [hchs]; rfl
    have hstart : first.start = 0 := h.draft.contiguous hfirst
    have hhas₀ : first.Has 0 := by
      have hhas₀ := (h.draft.drawn first (List.mem_of_getElem? hfirst)).has_start
      rwa [hstart] at hhas₀
    obtain rfl := h.draft.eq_of_has hi hfirst hhas hhas₀
    obtain rfl | hpos := Nat.eq_zero_or_pos j
    · obtain ⟨t, ht, howner⟩ := hl.owned 0 hj
      obtain rfl := Option.some.inj (ht.symm.trans ht₀)
      exact howner howner₀
    · exact Nat.not_lt_zero _ (h.draft.index_lt hi₀ hcj₀ hi hcj hpos)
  · exact (h.draft.has_lt_extent hi hhas).false

/-- When the jumps have been drawn there are no members yet. -/
theorem walled_linked (hstart : ∀ b, (s.graph.chart b).flags.start = true → b = 0) :
    s₁.graph.Walled fun b => b = 0 ∨ b = Chapter.extent chs where
  lt b hb := by
    rw [h.links.size, h.draft.size]
    obtain rfl | rfl := hb
    · exact Nat.succ_pos _
    · exact Nat.lt_succ_self _
  gates b hb := by
    obtain ⟨more, hchart, -⟩ := h.links.chart b
    rw [hchart] at hb
    obtain hb | hb := hb
    · exact .inl (hstart b hb)
    · refine .inr (Nat.le_antisymm ?_ ?_)
      · by_contra hlt
        have hsize : s.graph.size ≤ b := by rw [h.draft.size]; omega
        rw [Graph.chart_of_size_le hsize] at hb
        exact nomatch hb
      · by_contra hlt
        exact nomatch hb.symm.trans (h.draft.spot_calm (not_le.1 hlt)).1
  members {i group} hi := by
    have hlt : i < s.pending.performs.length :=
      h.awaits.size ▸ (Array.getElem?_eq_some_iff.1 hi).1
    obtain ⟨-, callSite, node, hi'⟩ := h.awaits.group (List.getElem?_eq_getElem hlt)
    obtain rfl := Option.some.inj (hi.symm.trans hi')
    exact nofun

/-- Neither the first block nor the last one is ever copied. -/
theorem walled (hstart : ∀ b, (s.graph.chart b).flags.start = true → b = 0) :
    flow.graph.Walled fun b => b = 0 ∨ b = Chapter.extent chs := by
  have hcaptured : s₂.graph.Walled fun b => b = 0 ∨ b = Chapter.extent chs :=
    Build.resolvePerforms_walled (h.walled_linked hstart)
      (fun hblocks _ hb => h.not_gates_of_captured hblocks hb) _ () s₂ h.captured
  cases ho : o.isExtended with
  | true => exact Build.graftGroups_walled o hcaptured () _ (h.spliced ho)
  | false => exact h.unspliced ho ▸ hcaptured

theorem extent_lt : Chapter.extent chs < s.graph.size := h.draft.size ▸ Nat.lt_succ_self _

/-- From the last block no edge leads on. -/
theorem next_extent : (flow.graph.chart (Chapter.extent chs)).next = [] := by
  obtain ⟨more, hchart, hmore⟩ := h.links.chart (Chapter.extent chs)
  obtain ⟨-, -, -, hsame⟩ := h.chart_eq h.extent_lt
  rw [h.draft.finish] at hchart
  rw [hsame (by rw [hchart]), hchart]
  exact List.eq_nil_iff_forall_not_mem.2 fun x hx =>
    (h.draft.lt_extent_of_jumps (hmore x (by simpa using hx))).false

/-- The first block is the one where the division is entered, and not the one where it is left. -/
theorem flags_zero : (flow.graph.chart 0).flags.start = true ∧
    (flow.graph.chart 0).flags.finish = false := by
  obtain ⟨m, hm⟩ := h.exists_flags_eq (Nat.zero_lt_of_lt h.extent_lt)
  have hextent : Chapter.extent chs ≠ 0 := fun heq => by
    have hbegins := h.draft.begins
    rw [← heq, h.draft.finish] at hbegins
    exact nomatch hbegins
  rw [hm]
  simp [BlockFlags.union, h.draft.begins, (h.draft.spot_calm (Nat.pos_of_ne_zero hextent)).1]

/-- The last block is the one where the division is left, and not the one where it is entered. -/
theorem flags_extent : (flow.graph.chart (Chapter.extent chs)).flags.start = false ∧
    (flow.graph.chart (Chapter.extent chs)).flags.finish = true := by
  obtain ⟨m, hm⟩ := h.exists_flags_eq h.extent_lt
  rw [hm]
  simp [BlockFlags.union, h.draft.finish]

theorem gated (hstart : ∀ b, (s.graph.chart b).flags.start = true → b = 0) :
    flow.graph.Gated 0 (Chapter.extent chs) := by
  have hwalled := h.walled hstart
  have hspot : ∀ {b : BlockId} {block : Block}, flow.graph.blocks[b]? = some block →
      block.flags = (flow.graph.chart b).flags := fun hb => by rw [Graph.chart_of_getElem? hb]; rfl
  obtain ⟨hzero, hzero'⟩ := h.flags_zero
  obtain ⟨hlast', hlast⟩ := h.flags_extent
  have hsize : Chapter.extent chs < flow.graph.size := h.extent_lt.trans_le h.size_le
  obtain ⟨last, hblock⟩ := Graph.getElem?_eq_some_of_lt hsize
  exact
    { start := fun {b block} hb => by
        rw [hspot hb]
        refine ⟨fun hgate => ?_, fun heq => heq ▸ hzero⟩
        obtain rfl | rfl := hwalled.gates b (.inl hgate)
        · rfl
        · exact nomatch hgate.symm.trans hlast'
      finish := fun {b block} hb => by
        rw [hspot hb]
        refine ⟨fun hgate => ?_, fun heq => heq ▸ hlast⟩
        obtain rfl | rfl := hwalled.gates b (.inr hgate)
        · exact nomatch hgate.symm.trans hzero'
        · rfl
      first_lt := Nat.zero_lt_of_lt hsize
      last_lt := hsize
      root := by rw [h.roots, h.draft.roots]; rfl
      sink := by
        rw [Graph.successors, (Graph.block_eq_ok_iff _ _ _).2 hblock, ok_bind,
          Graph.successors_eq_nil h.sound hblock h.next_extent]
        rfl
      members := fun {i group} hi m hm => by
        obtain ⟨block, hblock⟩ := Graph.getElem?_eq_some_of_lt (h.sound.member_lt hi m hm)
        have hnot := hwalled.not_isGate (hwalled.members hi m hm)
        rw [Graph.chart_of_getElem? hblock] at hnot
        exact ⟨block, hblock, Bool.eq_false_of_not_eq_true fun hgate => hnot (.inl hgate),
          Bool.eq_false_of_not_eq_true fun hgate => hnot (.inr hgate)⟩ }

end Arises

theorem Yields.exists_gated (h : u.Yields o flow) (hflow : flow.graph.isInitialized = true) :
    ∃ first last, flow.graph.Gated first last := by
  cases hd : u.division with
  | none =>
    rw [(h.of_none hd).1] at hflow
    exact nomatch hflow
  | some d =>
    obtain ⟨t, chs, hplay, houtline, -⟩ := (Outline.start o u.program u.id).exists_play
      (d.items.run (u.id + 1)).1 (d.allowsAll_items u.program (u.id + 1))
    obtain ⟨s, s₁, s₂, hfinish, harises⟩ := h.arises_of_outline hd houtline hplay
    exact ⟨0, Chapter.extent chs, harises.gated fun b hb => eq_zero_of_start hplay hfinish hb⟩

end ProgramUnit

/-- **Every graph has one way in and one way out**, and neither is ever copied. For every tree and
every options there is a result, and in each of its graphs that a division has made exactly one
block is marked as the start, which is the first root, exactly one is marked as the end, from which
no edge leads on, and no member of a group carries either mark. -/
theorem StatementTree.build_gated (t : StatementTree) (o : Options) : ∃ flows,
    t.build o = .ok flows ∧ ∀ flow ∈ flows, flow.graph.isInitialized = true →
      ∃ first last, flow.graph.Gated first last := by
  obtain ⟨flows, hbuild, hflows⟩ := t.exists_build o
  refine ⟨flows, hbuild, fun flow hflow => ?_⟩
  obtain ⟨u, -, hyields⟩ := exists_of_forall₂_of_mem hflows hflow
  exact hyields.exists_gated

end CobolFlow
