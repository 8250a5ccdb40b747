import CobolFlow.Proofs.Division.Jumps

/-!
# Copies beside the graph

Capturing a range adds blocks and slots to a graph and gives the new blocks edges. The blocks there
were stay as they are, and this is all that is needed of the edges of copies: nothing but a call
site ever looks at them. Which call a block makes is copied with it.

## Main definitions

* `Graph.KeepsCalls`, `Graph.Keeps` — no block changes the call it makes, and the first blocks
  stay as they are altogether
* `Graph.IsCopy` — a new block that makes the call of an old one
* `Build.leavings` — what is reported of edges that leave a range

## Main results

* `Build.relocate_copies` — filling a group adds copies, and changes no other group
-/

namespace CobolFlow

namespace Graph

/-- Blocks are added, and none changes the call it makes. -/
structure KeepsCalls (g g' : Graph) : Prop where
  size_le : g.size ≤ g'.size
  group : ∀ b < g.size, (g'.chart b).group = (g.chart b).group

/-- The first `n` blocks stay as they are, and no block changes the call it makes. -/
structure Keeps (n : ℕ) (g g' : Graph) : Prop extends KeepsCalls g g' where
  slots : ∀ {k : SlotId} {b : BlockId}, g.slots[k]? = some b → g'.slots[k]? = some b
  chart : ∀ b < n, g'.chart b = g.chart b
  roots : g'.roots = g.roots

variable {g g' g'' : Graph} {n m : ℕ} {b c : BlockId} {k : SlotId}

namespace KeepsCalls

theorem refl (g : Graph) : KeepsCalls g g := ⟨le_rfl, fun _ _ => rfl⟩

theorem trans (h : KeepsCalls g g') (h' : KeepsCalls g' g'') : KeepsCalls g g'' where
  size_le := h.size_le.trans h'.size_le
  group b hb := (h'.group b (hb.trans_le h.size_le)).trans (h.group b hb)

theorem of_blocks_eq (hblocks : g'.blocks = g.blocks) : KeepsCalls g g' where
  size_le := by rw [size, size, hblocks]
  group b _ := by
    rw [chart, chart, hblocks]
    cases g.blocks[b]? <;> rfl

/-- A block may be rewritten, but for the call it makes. -/
theorem of_modify {f : Block → Block} (hf : ∀ block, (f block).group = block.group)
    (h : modifyBlock b f g = .ok ((), g')) : KeepsCalls g g' := by
  obtain ⟨hb, rfl⟩ := (modifyBlock_eq_ok_iff b f g g').1 h
  obtain ⟨block, hblock⟩ := getElem?_eq_some_of_lt hb
  refine ⟨by simp [size], fun c _ => ?_⟩
  rw [@chart_modify g { g with blocks := g.blocks.modify b f } b block f hblock rfl rfl]
  dsimp only
  split
  · next hc => rw [hc, chart_of_getElem? hblock]; exact hf block
  · rfl

end KeepsCalls

namespace Keeps

theorem refl (n : ℕ) (g : Graph) : Keeps n g g := ⟨.refl g, id, fun _ _ => rfl, rfl⟩

theorem trans (h : Keeps n g g') (h' : Keeps n g' g'') : Keeps n g g'' where
  toKeepsCalls := h.toKeepsCalls.trans h'.toKeepsCalls
  slots hk := h'.slots (h.slots hk)
  chart b hb := (h'.chart b hb).trans (h.chart b hb)
  roots := h'.roots.trans h.roots

theorem mono (h : Keeps n g g') (hmn : m ≤ n) : Keeps m g g' :=
  { h with chart := fun b hb => h.chart b (hb.trans_le hmn) }

/-- What has the same blocks and slots has the same chart. -/
theorem of_eq (hblocks : g'.blocks = g.blocks) (hslots : g'.slots = g.slots)
    (hroots : g'.roots = g.roots) : Keeps n g g' := by
  have hchart := chart_congr hblocks hslots
  exact ⟨.of_blocks_eq hblocks, by rw [hslots]; exact id, fun b _ => by rw [hchart], hroots⟩

/-- A block behind the first `n` may be rewritten, but for the call it makes. -/
theorem of_modify {f : Block → Block} (hn : n ≤ b) (hf : ∀ block, (f block).group = block.group)
    (h : modifyBlock b f g = .ok ((), g')) : Keeps n g g' := by
  refine ⟨.of_modify hf h, ?_, fun c hc => ?_, ?_⟩ <;>
    obtain ⟨hb, rfl⟩ := (modifyBlock_eq_ok_iff b f g g').1 h
  · exact id
  · obtain ⟨block, hblock⟩ := getElem?_eq_some_of_lt hb
    rw [@chart_modify g { g with blocks := g.blocks.modify b f } b block f hblock rfl rfl]
    exact if_neg (hc.trans_le hn).ne
  · rfl

end Keeps

/-! ### Edits that keep what there is -/

theorem newSlot_keeps (hc : c < g.size) : Faultless (newSlot c) g fun k g' =>
    g'.slots[k]? = some c ∧ g'.groups = g.groups ∧ ∀ n, g.Keeps n g' := by
  refine (newSlot_faultless hc).of_run rfl fun hg _ _ _ => ⟨by simp, rfl, fun n => ?_⟩
  have hchart : Graph.chart { g with slots := g.slots.push c } = g.chart :=
    chart_pushSlot hg rfl rfl
  refine ⟨.of_blocks_eq rfl, fun {k b} hk => ?_, fun b _ => by rw [hchart], rfl⟩
  rw [Array.getElem?_push, if_neg (Array.getElem?_eq_some_iff.1 hk).1.ne, hk]

/-- A new block that makes the call of an old one. -/
structure IsCopy (g g' : Graph) (b c : BlockId) : Prop where
  new : g.size ≤ c
  lt_size : c < g'.size
  group : (g'.chart c).group = (g.chart b).group

theorem IsCopy.mono (h : IsCopy g g' b c) (hkeep : KeepsCalls g' g'') : IsCopy g g'' b c :=
  ⟨h.new, h.lt_size.trans_le hkeep.size_le, (hkeep.group c h.lt_size).trans h.group⟩

/-- A copy has no edges yet, and is otherwise as its original. -/
theorem cloneBlock_keeps (hb : b < g.size) : Faultless (cloneBlock b) g fun c g' =>
    g.IsCopy g' b c ∧ g'.groups = g.groups ∧ g.Keeps g.size g' ∧
      g'.chart c = { g.chart b with next := [] } := by
  obtain ⟨block, hok, hblock⟩ := exists_block_eq_ok hb
  have hrun : cloneBlock b g = .ok (g.size,
      { g with blocks := g.blocks.push (block.detachedCopy g.blocks.size) }) := by
    rw [cloneBlock, run_bind (a := g) (t := g) rfl, run_bind (run_lift hok g)]
    rfl
  refine (cloneBlock_faultless hb).of_run hrun fun hg _ _ _ => ?_
  set g' : Graph := { g with blocks := g.blocks.push (block.detachedCopy g.blocks.size) }
  have hchart := @chart_push g g' _ rfl rfl
  have hsize : g'.size = g.size + 1 := by simp [size, g']
  have hnew : g'.chart g.size = { g.chart b with next := [] } := by
    simp only [hchart, if_true, chart_of_getElem? hblock]
    rfl
  refine ⟨⟨le_rfl, hsize ▸ Nat.lt_succ_self _, congrArg (·.group) hnew⟩, rfl,
    ⟨⟨hsize ▸ Nat.le_succ _, fun c hc => ?_⟩, id, fun c hc => ?_, rfl⟩, hnew⟩
  · simp only [hchart, if_neg hc.ne]
  · simp only [hchart, if_neg hc.ne]

theorem setSuccessors_keeps (hb : b < g.size) {slots : List SlotId}
    (hs : ∀ k ∈ slots, k < g.slots.size) : Faultless (setSuccessors b slots) g fun _ g' =>
      g'.groups = g.groups ∧ (∀ n ≤ b, g.Keeps n g') ∧ g'.chart = fun c =>
        if c = b then { g.chart b with next := slots.filterMap (g.slots[·]?) } else g.chart c := by
  obtain ⟨g', hrun⟩ : ∃ g', setSuccessors b slots g = .ok ((), g') :=
    ⟨_, (modifyBlock_eq_ok_iff _ _ _ _).2 ⟨hb, rfl⟩⟩
  refine (setSuccessors_faultless hb hs).of_run hrun fun _ _ _ hgroups => ⟨hgroups, fun _ hn =>
    .of_modify (f := fun block => { block with successors := slots }) hn (fun _ => rfl) hrun, ?_⟩
  obtain ⟨-, rfl⟩ := (modifyBlock_eq_ok_iff _ _ _ _).1 hrun
  obtain ⟨block, hblock⟩ := getElem?_eq_some_of_lt hb
  rw [chart_of_getElem? hblock]
  exact chart_modify (f := ({ · with successors := slots })) hblock rfl rfl

/-- The ends among some blocks, in their order: the edges are those that the chart shows. -/
theorem terminalsWithin_eq_ok (hg : g.Checked) {members : List BlockId}
    (h : ∀ m ∈ members, m < g.size) : g.terminalsWithin members =
      .ok (members.filter fun m => (g.chart m).next.all fun x => !members.contains x) := by
  refine filterM_eq_ok_filter fun m hm => ?_
  obtain ⟨block, hok, hblock⟩ := exists_block_eq_ok (h m hm)
  have hany : block.successors.anyM (fun slot => return members.contains (← g.target slot)) =
      .ok (block.successors.any fun slot => (g.slots[slot]?).any members.contains) := by
    refine anyM_eq_ok_any fun slot hslot => ?_
    obtain ⟨c, hc, -⟩ := hg.target hblock slot hslot
    rw [(g.target_eq_ok_iff slot c).2 hc, hc]
    rfl
  rw [hok, ok_bind, hany, ok_bind, chart_of_getElem? hblock, ← List.not_any_eq_all_not,
    Block.spot, List.any_filterMap]
  rfl

theorem modifyGroup_eq_ok {i : GroupId} (hi : i < g.groups.size) (f : Group → Group) :
    modifyGroup i f g = .ok ((), { g with groups := g.groups.modify i f }) := by
  rw [modifyGroup, if_pos hi]

theorem modifyGroup_keeps {i : GroupId} (hi : i < g.groups.size) {f : Group → Group}
    (hid : ∀ group, (f group).id = group.id) (hsite : ∀ group, (f group).callSite = group.callSite)
    (hmem : Sound g → ∀ group, g.groups[i]? = some group → ∀ b ∈ (f group).members, b < g.size) :
    Faultless (modifyGroup i f) g fun _ g' =>
      g'.groups = g.groups.modify i f ∧ ∀ n, g.Keeps n g' :=
  (modifyGroup_faultless hi hid hsite hmem).of_run (modifyGroup_eq_ok hi f) fun _ _ _ _ =>
    ⟨rfl, fun _ => .of_eq rfl rfl rfl⟩

/-- The blocks of the second list are copies of those of the first. -/
structure AreCopies (g g' : Graph) (blocks copied : List BlockId) : Prop where
  length : copied.length = blocks.length
  copy : ∀ p ∈ blocks.zip copied, g.IsCopy g' p.1 p.2

namespace AreCopies

variable {blocks copied : List BlockId}

theorem mono (h : AreCopies g g' blocks copied) (hkeep : g'.KeepsCalls g'') :
    AreCopies g g'' blocks copied :=
  ⟨h.length, fun p hp => (h.copy p hp).mono hkeep⟩

theorem exists_original (h : AreCopies g g' blocks copied) (hc : c ∈ copied) :
    ∃ b ∈ blocks, g.IsCopy g' b c := by
  obtain ⟨i, hi⟩ := List.getElem?_of_mem hc
  have hlt : i < blocks.length := h.length ▸ (List.getElem?_eq_some_iff.1 hi).1
  have hp : (blocks[i], c) ∈ blocks.zip copied :=
    List.mem_of_getElem? (i := i) (List.getElem?_zip_eq_some.2 ⟨List.getElem?_eq_getElem hlt, hi⟩)
  exact ⟨blocks[i], List.getElem_mem hlt, h.copy _ hp⟩

/-- Copies of what was there before are copies of it as it was. -/
theorem of_keeps (h : AreCopies g' g'' blocks copied) (hkeep : g.Keeps n g')
    (hblocks : ∀ b ∈ blocks, b < g.size) : AreCopies g g'' blocks copied :=
  ⟨h.length, fun p hp =>
    { new := hkeep.size_le.trans (h.copy p hp).new
      lt_size := (h.copy p hp).lt_size
      group := (h.copy p hp).group.trans (hkeep.group p.1 (hblocks p.1 (List.of_mem_zip hp).1)) }⟩

end AreCopies

end Graph

namespace Build

open Graph

variable {g g' : Graph} {copies : Copies} {moves : Moves} {n : ℕ} {b : BlockId} {k : SlotId}

theorem copyBlocks_keeps {blocks : List BlockId} (h : ∀ b ∈ blocks, b < g.size) :
    Faultless (copyBlocks blocks) g fun copied g' =>
      AreCopies g g' blocks copied ∧ g'.groups = g.groups ∧ g.Keeps g.size g' ∧ copied.Nodup ∧
        ∀ p ∈ blocks.zip copied, g'.chart p.2 = { g.chart p.1 with next := [] } := by
  induction blocks generalizing g with
  | nil => exact .pure fun _ => ⟨⟨rfl, by simp⟩, rfl, .refl _ _, .nil, by simp⟩
  | cons b rest ih =>
    rw [copyBlocks, List.mapM_cons]
    refine .bind (cloneBlock_keeps (h b (by simp))) ?_
    rintro c g₁ - h₁ ⟨hcopy, hgroups₁, hkeep₁, hchart₁⟩
    refine .bind (ih fun d hd => (h d (by simp [hd])).trans_le h₁.1) ?_
    rintro copied g₂ - h₂ ⟨⟨hlength, hcopied⟩, hgroups₂, hkeep₂, hnodup, hcharts⟩
    have hcopies : AreCopies g₁ g₂ rest copied := ⟨hlength, hcopied⟩
    refine .pure fun _ => ⟨⟨by simp [hlength], fun p hp => ?_⟩, hgroups₂.trans hgroups₁,
      hkeep₁.trans (hkeep₂.mono h₁.1), List.nodup_cons.2 ⟨fun hc => ?_, hnodup⟩, fun p hp => ?_⟩
    · obtain rfl | hp := List.mem_cons.1 hp
      · exact hcopy.mono hkeep₂.toKeepsCalls
      · obtain ⟨hnew, hlt, hgroup⟩ := hcopied p hp
        exact ⟨h₁.1.trans hnew, hlt,
          hgroup.trans (hkeep₁.group p.1 (h p.1 (by simp [(List.of_mem_zip hp).1])))⟩
    · obtain ⟨_, -, hnew⟩ := hcopies.exists_original hc
      exact hnew.new.not_gt hcopy.lt_size
    · obtain rfl | hp := List.mem_cons.1 hp
      · exact (hkeep₂.chart c hcopy.lt_size).trans hchart₁
      · rw [hcharts p hp, hkeep₁.chart p.1 (h p.1 (by simp [(List.of_mem_zip hp).1]))]

/-! ### The edges among the copies -/

/-- Each slot already met leads to what the slot in its place leads to a copy of. -/
def Tracks (copies : Copies) (moves : Moves) (g : Graph) : Prop :=
  ∀ p ∈ moves, ∃ b c, g.slots[p.1]? = some b ∧ g.slots[p.2]? = some c ∧ copies.lookup b = some c

theorem Tracks.mono (h : Tracks copies moves g) (hkeep : g.Keeps n g') :
    Tracks copies moves g' := fun p hp => by
  obtain ⟨b, c, hb, hc, hcopy⟩ := h p hp
  exact ⟨b, c, hkeep.slots hb, hkeep.slots hc, hcopy⟩

/-- A slot has a counterpart among the copies if it leads to what is copied, and this leads to the
copy. -/
theorem moveSlot_copies (hcopies : ∀ p ∈ copies, p.2 < g.size) (hmoves : Tracks copies moves g)
    (hk : g.slots[k]? = some b) : Faultless (moveSlot copies moves k) g fun r g' =>
      r.1.map (g'.slots[·]?) = (copies.lookup b).map some ∧
        Tracks copies r.2 g' ∧ g'.groups = g.groups ∧ ∀ n, g.Keeps n g' := by
  unfold moveSlot
  split
  · next moved hmoved =>
    obtain ⟨b', c, hb', hc, hcopy⟩ := hmoves _ (mem_of_lookup_eq_some hmoved)
    obtain rfl : b' = b := Option.some.inj (hb'.symm.trans hk)
    exact .pure fun _ => ⟨by rw [hcopy, Option.map_some, hc, Option.map_some], hmoves, rfl,
      fun n => .refl n g⟩
  · refine .get_bind fun hg => .lift_bind ((g.target_eq_ok_iff k b).2 hk) ?_
    split
    · next copy hcopy =>
      refine .bind (newSlot_keeps (hcopies _ (mem_of_lookup_eq_some hcopy))) ?_
      rintro moved g₁ - h₁ ⟨hmoved, hgroups, hkeep⟩
      refine .pure fun _ => ⟨by rw [hcopy, Option.map_some, hmoved, Option.map_some],
        fun p hp => ?_, hgroups, hkeep⟩
      obtain rfl | hp := List.mem_cons.1 hp
      · exact ⟨b, copy, (hkeep 0).slots hk, hmoved, hcopy⟩
      · exact (hmoves.mono (hkeep 0)) p hp
    · next hcopy =>
      exact .pure fun _ => ⟨by rw [hcopy]; rfl, hmoves, rfl, fun n => .refl n g⟩

/-- What becomes of the edges of a captured block on its copy: an edge within the range leads to
the copy of what it led to; any other edge stays, unless the block ends the range. -/
def Copies.carry (copies : Copies) (isLast : Bool) (next : List BlockId) : List BlockId :=
  next.filterMap fun x => (copies.lookup x).or (if isLast then none else some x)

theorem Copies.carry_append (copies : Copies) (isLast : Bool) (next more : List BlockId) :
    copies.carry isLast (next ++ more) = copies.carry isLast next ++ copies.carry isLast more :=
  List.filterMap_append

/-- What is reported of the edges that leave a range from a block that does not end it. -/
def strays (w : PendingPerform) (range : String) (tag : Option String) (b : BlockId)
    (outside : List BlockId) : List Problem :=
  outside.map fun _ => { kind := .branchOutOfRange range (tag.getD "") b, span := w.span }

variable {s s' : Scope}

/-- What is known of some slots of a block that have been dealt with: those that are `kept` lead to
`next`. -/
structure Relocated (s s' : Scope) (copies : Copies) (kept : List SlotId) (moves : Moves)
    (next : List BlockId) (ps : List Problem) : Prop where
  kept : kept.map (s'.graph.slots[·]?) = next.map some
  tracks : Tracks copies moves s'.graph
  groups : s'.graph.groups = s.graph.groups
  keeps : ∀ n, s.graph.Keeps n s'.graph
  procedures : s'.procedures = s.procedures
  problems : s'.problems = s.problems ++ ps

namespace Relocated

variable {kept : List SlotId} {next : List BlockId} {ps : List Problem}

theorem exists_slot (h : Relocated s s' copies kept moves next ps) {t : SlotId} (ht : t ∈ kept) :
    ∃ x, s'.graph.slots[t]? = some x := by
  have hmem : s'.graph.slots[t]? ∈ next.map some := h.kept ▸ List.mem_map_of_mem ht
  obtain ⟨x, -, hx⟩ := List.mem_map.1 hmem
  exact ⟨x, hx.symm⟩

theorem filterMap_slots (h : Relocated s s' copies kept moves next ps) :
    kept.filterMap (s'.graph.slots[·]?) = next := by
  have hid : (kept.map (s'.graph.slots[·]?)).filterMap id = (next.map some).filterMap id := by
    rw [h.kept]
  simpa [List.filterMap_map] using hid

end Relocated

theorem relocateSlots_copies (w : PendingPerform) (range : String) {block : Block} (b : BlockId)
    (isLast : Bool) (hcopies : ∀ p ∈ copies, p.2 < s.graph.size)
    (hmoves : Tracks copies moves s.graph)
    (hslots : ∀ t ∈ block.successors, t < s.graph.slots.size) :
    Faultless (relocateSlots w range copies block b isLast moves) s fun r s' =>
      Relocated s s' copies r.1 r.2 (copies.carry isLast (block.spot s.graph.slots).next)
        (if isLast then [] else strays w range block.tag b
          ((block.spot s.graph.slots).next.filter fun c => (copies.lookup c).isNone)) := by
  refine .foldlM_progress (I := fun pre (r : List SlotId × Moves) s' =>
    Relocated s s' copies r.1 r.2 (copies.carry isLast (pre.filterMap (s.graph.slots[·]?)))
      (if isLast then [] else strays w range block.tag b
        ((pre.filterMap (s.graph.slots[·]?)).filter fun c => (copies.lookup c).isNone))) ?_ ?_
  · exact fun _ => ⟨rfl, hmoves, rfl, fun n => .refl n _, rfl, by simp [strays]⟩
  rintro pre k rest hl ⟨kept, moves⟩ s₁ - h₁ hdone₁
  have hk : k < s.graph.slots.size := hslots k (by simp [hl])
  set c := s.graph.slots[k] with hc
  have hkc : s.graph.slots[k]? = some c := Array.getElem?_eq_getElem hk
  refine .bind (editGraph_faultless (moveSlot_copies (fun p hp => (hcopies p hp).trans_le h₁.1.1)
    hdone₁.tracks ((hdone₁.keeps 0).slots hkc))) ?_
  rintro ⟨moved?, moves⟩ s₂ - h₂ ⟨hs₂, hmoved, htracks₂, hgroups₂, hkeeps₂⟩
  have hnext : (pre ++ [k]).filterMap (s.graph.slots[·]?) =
      pre.filterMap (s.graph.slots[·]?) ++ [c] := by
    rw [List.filterMap_append]
    simp [hkc]
  have hkept₂ : kept.map (s₂.graph.slots[·]?) =
      (copies.carry isLast (pre.filterMap (s.graph.slots[·]?))).map some := by
    rw [← hdone₁.kept]
    refine List.map_congr_left fun t ht => ?_
    obtain ⟨x, hx⟩ := hdone₁.exists_slot ht
    rw [hx, (hkeeps₂ 0).slots hx]
  have hmore : ∀ {t x}, s₂.graph.slots[t]? = some x → (kept ++ [t]).map (s₂.graph.slots[·]?) =
      (copies.carry isLast (pre.filterMap (s.graph.slots[·]?)) ++ [x]).map some := fun ht => by
    rw [List.map_append, List.map_append, hkept₂, List.map_singleton, List.map_singleton, ht]
  have hdone : ∀ kept' next ps, kept'.map (s₂.graph.slots[·]?) = next.map some →
      s₂.problems = s.problems ++ ps → Relocated s s₂ copies kept' moves next ps :=
    fun kept' next ps h hps =>
      { kept := h
        tracks := htracks₂
        groups := hgroups₂.trans hdone₁.groups
        keeps := fun n => (hdone₁.keeps n).trans (hkeeps₂ n)
        procedures := by rw [hs₂]; exact hdone₁.procedures
        problems := hps }
  have hproblems₂ : s₂.problems = s₁.problems := by rw [hs₂]
  rw [hdone₁.problems] at hproblems₂
  rw [hnext, List.filter_append, copies.carry_append]
  cases moved? with
  | some moved =>
    obtain ⟨y, hy, hslot⟩ := Option.map_eq_some_iff.1 hmoved.symm
    have hinside : [c].filter (fun c => (copies.lookup c).isNone) = [] := by simp [hy]
    have hcarry : copies.carry isLast [c] = [y] := by simp [Copies.carry, hy]
    rw [hinside, hcarry, List.append_nil]
    exact .pure fun _ => hdone _ _ _ (hmore hslot.symm) hproblems₂
  | none =>
    have hnone : copies.lookup c = none := Option.map_eq_none_iff.1 hmoved.symm
    have houtside : [c].filter (fun c => (copies.lookup c).isNone) = [c] := by simp [hnone]
    rw [houtside]
    cases isLast with
    | true =>
      have hcarry : copies.carry true [c] = [] := by simp [Copies.carry, hnone]
      rw [hcarry, List.append_nil]
      exact .pure fun _ => hdone _ _ _ hkept₂ hproblems₂
    | false =>
      have hcarry : copies.carry false [c] = [c] := by simp [Copies.carry, hnone]
      have hslot₂ : s₂.graph.slots[k]? = some c := (hkeeps₂ 0).slots ((hdone₁.keeps 0).slots hkc)
      rw [hcarry]
      dsimp only
      set q : Problem := { kind := .branchOutOfRange range (block.tag.getD "") b, span := w.span }
      have hreport : Build.report q s₂ = .ok ((), s₂.reporting [q]) := rfl
      refine .bind ((report_faultless q).of_run hreport (Q := fun _ s' => s' = s₂.reporting [q])
        fun _ _ _ _ => rfl) ?_
      rintro _ _ - - rfl
      refine .pure fun _ => ?_
      have hall := hdone (kept ++ [k]) _ _ (hmore hslot₂) hproblems₂
      refine { hall with problems := ?_ }
      simp only [Bool.false_eq_true, if_false, strays, List.map_append] at hproblems₂ ⊢
      rw [Scope.reporting, hproblems₂, List.append_assoc]
      rfl

theorem isNone_lookup_zip {captured members : List BlockId}
    (h : members.length = captured.length) (c : BlockId) :
    ((captured.zip members).lookup c).isNone = !captured.contains c := by
  induction captured generalizing members with
  | nil => simp
  | cons b rest ih =>
    cases members with
    | nil => simp at h
    | cons m members =>
      rw [List.zip_cons_cons, List.lookup_cons, List.contains_cons]
      by_cases hc : c = b
      · simp [hc]
      · simp [beq_false_of_ne hc, ih (by simpa using h)]

/-- What is reported of a captured range. -/
def leavings (w : PendingPerform) (range : String) (χ : Chart) (captured : List BlockId) :
    List Problem :=
  captured.flatMap fun b => if some b == captured.getLast? then [] else
    strays w range (χ b).tag b ((χ b).next.filter fun c => !captured.contains c)

theorem leavings_congr {w : PendingPerform} {range : String} {χ χ' : Chart}
    {captured : List BlockId} (h : ∀ b ∈ captured, χ' b = χ b) :
    leavings w range χ' captured = leavings w range χ captured :=
  List.flatMap_congr fun b hb => by rw [h b hb]

/-- The members of a group are new blocks which look like the blocks of a range, each with its
edges carried over; its terminals are the members that lead to no member. -/
structure Transcribes (χ : Chart) (g : Graph) (blocks members terminals : List BlockId) : Prop where
  length : members.length = blocks.length
  nodup : members.Nodup
  lt_size : ∀ m ∈ members, m < g.size
  chart : ∀ p ∈ blocks.zip members, g.chart p.2 = { χ p.1 with
    next := Copies.carry (blocks.zip members) (some p.1 == blocks.getLast?) (χ p.1).next }
  terminals : terminals = members.filter fun m => (g.chart m).next.all fun x => !members.contains x

namespace Transcribes

variable {χ χ' : Chart} {blocks members terminals : List BlockId}

/-- The members stay as they are. -/
theorem mono (h : Transcribes χ g blocks members terminals) (hkeep : g.Keeps g.size g') :
    Transcribes χ g' blocks members terminals where
  length := h.length
  nodup := h.nodup
  lt_size m hm := (h.lt_size m hm).trans_le hkeep.size_le
  chart p hp := (hkeep.chart _ (h.lt_size _ (List.of_mem_zip hp).2)).trans (h.chart p hp)
  terminals := h.terminals.trans
    (List.filter_congr fun m hm => by rw [hkeep.chart m (h.lt_size m hm)])

theorem congr (h : Transcribes χ g blocks members terminals) (hχ : ∀ b ∈ blocks, χ b = χ' b) :
    Transcribes χ' g blocks members terminals :=
  { h with chart := fun p hp => by rw [h.chart p hp, hχ p.1 (List.of_mem_zip hp).1] }

end Transcribes

/-- While a range is copied: the copies of the blocks in `pre` have got their edges, and the other
copies have none yet. -/
structure Relocating (w : PendingPerform) (range : String) (captured members : List BlockId)
    (s s₁ : Scope) (pre : Copies) (moves : Moves) (s' : Scope) : Prop where
  tracks : Tracks (captured.zip members) moves s'.graph
  groups : s'.graph.groups = s.graph.groups
  keeps : s₁.graph.Keeps s.graph.size s'.graph
  procedures : s'.procedures = s.procedures
  problems : s'.problems = s.problems ++ (pre.map Prod.fst).flatMap fun b =>
    if some b == captured.getLast? then [] else strays w range (s.graph.chart b).tag b
      ((s.graph.chart b).next.filter fun c => !captured.contains c)
  chart : ∀ p ∈ captured.zip members, s'.graph.chart p.2 = { s.graph.chart p.1 with
    next := if p ∈ pre then
      Copies.carry (captured.zip members) (some p.1 == captured.getLast?) (s.graph.chart p.1).next
    else [] }

section Relocate

variable {w : PendingPerform} {range : String} {captured members : List BlockId} {s s₁ s₂ : Scope}
  {copy : BlockId} {pre : Copies}

/-- One copy gets its edges. -/
theorem Relocating.step (h : Relocating w range captured members s s₁ pre moves s₂)
    (hcopied : AreCopies s.graph s₁.graph captured members) (hnodup : members.Nodup)
    (hcaptured : ∀ b ∈ captured, b < s.graph.size) (hkeep₁ : s.graph.Keeps s.graph.size s₁.graph)
    (hle₁ : s₁ ≤ s₂) (hp : (b, copy) ∈ captured.zip members) :
    Faultless (do
      let block ← (← get).graph.block b
      let (slots, moves) ← relocateSlots w range (captured.zip members) block b
        (some b == captured.getLast?) moves
      editGraph (Graph.setSuccessors copy slots)
      return moves) s₂ (Relocating w range captured members s s₁ (pre ++ [(b, copy)])) := by
  have hnew := (hcopied.copy (b, copy) hp).new
  have hcopies : ∀ p ∈ captured.zip members, p.2 < s₂.graph.size := fun p hp =>
    (hcopied.copy p hp).lt_size.trans_le hle₁.1.1
  have hb := hcaptured b (List.of_mem_zip hp).1
  refine .get_bind fun hs₂ => ?_
  obtain ⟨block, hok, hblock⟩ := Graph.exists_block_eq_ok
    ((hb.trans_le hkeep₁.size_le).trans_le hle₁.1.1)
  refine .lift_bind hok ?_
  have hspot : block.spot s₂.graph.slots = s.graph.chart b := by
    rw [← Graph.chart_of_getElem? hblock, h.keeps.chart b hb, hkeep₁.chart b hb]
  refine .bind (relocateSlots_copies w range b _ hcopies h.tracks (hs₂.graph.slot_lt hblock)) ?_
  rintro ⟨slots, moves'⟩ s₃ - h₃ hdone₃
  have hslots : ∀ t ∈ slots, t < s₃.graph.slots.size := fun t ht => by
    obtain ⟨x, hx⟩ := hdone₃.exists_slot ht
    exact (Array.getElem?_eq_some_iff.1 hx).1
  refine .bind (editGraph_faultless (Graph.setSuccessors_keeps
    ((hcopies _ hp).trans_le h₃.1.1) hslots)) ?_
  rintro - s₄ - h₄ ⟨hs₄, hgroups₄, hkeep₄, hchart₄⟩
  refine .pure fun _ =>
    { tracks := hdone₃.tracks.mono (hkeep₄ 0 (Nat.zero_le _))
      groups := hgroups₄.trans (hdone₃.groups.trans h.groups)
      keeps := h.keeps.trans ((hdone₃.keeps _).trans (hkeep₄ _ hnew))
      procedures := by rw [hs₄]; exact hdone₃.procedures.trans h.procedures
      problems := ?_
      chart := fun p hp' => ?_ }
  · have htag : block.tag = (s.graph.chart b).tag := congrArg (·.tag) hspot
    have hproblems₄ : s₄.problems = s₃.problems := by rw [hs₄]
    rw [hproblems₄, hdone₃.problems, h.problems, hspot, htag, List.map_append,
      List.flatMap_append, List.append_assoc]
    simp only [isNone_lookup_zip hcopied.length, List.map_cons, List.map_nil, List.flatMap_cons,
      List.flatMap_nil, List.append_nil]
  · have hsame : s₃.graph.chart p.2 = s₂.graph.chart p.2 :=
      (hdone₃.keeps (p.2 + 1)).chart p.2 (Nat.lt_succ_self _)
    rw [hchart₄]
    dsimp only
    split
    · next heq =>
      obtain rfl : p = (b, copy) := List.inj_on_of_nodup_map
        (by rwa [List.map_snd_zip hcopied.length.le]) hp' hp heq
      have hmem : (b, copy) ∈ pre ++ [(b, copy)] := by simp
      rw [hsame, h.chart _ hp', hdone₃.filterMap_slots, hspot, if_pos hmem]
    · next hne =>
      have hiff : p ∈ pre ++ [(b, copy)] ↔ p ∈ pre := by
        rw [List.mem_append, List.mem_singleton, or_iff_left fun heq => hne (congrArg _ heq)]
      simp only [hsame, h.chart p hp', hiff]

/-- **Filling a group** adds copies of the captured blocks, and changes no other group. -/
theorem relocate_copies (range : String) (hw : w.group < s.graph.groups.size)
    (h : ∀ b ∈ captured, b < s.graph.size) :
    Faultless (relocate w range captured) s fun _ s' => ∃ members terminals,
      AreCopies s.graph s'.graph captured members ∧ s.graph.Keeps s.graph.size s'.graph ∧
      s'.graph.groups = s.graph.groups.modify w.group
        (fun group => { group with members, terminals }) ∧
      s'.procedures = s.procedures ∧
      s'.problems = s.problems ++ leavings w range s.graph.chart captured ∧
      Transcribes s.graph.chart s'.graph captured members terminals := by
  refine .bind (editGraph_faultless (copyBlocks_keeps h)) ?_
  rintro members s₁ hsound₁ h₁ ⟨hs₁, hcopied, hgroups₁, hkeep₁, hnodup, hbare⟩
  have hbegun : Relocating w range captured members s s₁ [] [] s₁ :=
    { tracks := by simp [Tracks]
      groups := hgroups₁
      keeps := .refl _ _
      procedures := by rw [hs₁]
      problems := by rw [hs₁]; simp
      chart := by simpa using hbare }
  refine .bind (.foldlM_progress (I := Relocating w range captured members s s₁) (fun _ => hbegun)
    fun pre ⟨b, copy⟩ rest hl moves s₂ _ h₂ h₂' => ?_) ?_
  · exact h₂'.step hcopied hnodup h hkeep₁ h₂ (by simp [hl])
  · rintro moves s₂ hsound₂ h₂ hrelocated
    refine .get_bind fun hs₂ => ?_
    have hmembers₂ : ∀ c ∈ members, c < s₂.graph.size := fun c hc => by
      obtain ⟨_, -, hcopy⟩ := hcopied.exists_original hc
      exact hcopy.lt_size.trans_le h₂.1.1
    have htranscribes : Transcribes s.graph.chart s₂.graph captured members _ :=
      { length := hcopied.length
        nodup := hnodup
        lt_size := hmembers₂
        chart := fun p hp => by rw [hrelocated.chart p hp, if_pos hp]
        terminals := rfl }
    refine .lift_bind (Graph.terminalsWithin_eq_ok hs₂.graph.checked hmembers₂) ?_
    set terminals := members.filter fun m =>
      (s₂.graph.chart m).next.all fun x => !members.contains x
    refine (editGraph_faultless (Graph.modifyGroup_keeps
      (f := fun group => { group with members, terminals })
      (hw.trans_le (h₁.1.2.2.trans h₂.1.2.2)) (fun _ => rfl) (fun _ => rfl)
      fun _ _ _ => hmembers₂)).mono ?_
    rintro - s₃ - h₃ ⟨hs₃, hgroups₃, hkeep₃⟩
    refine ⟨members, terminals, hcopied.mono (hrelocated.keeps.trans (hkeep₃ _)).toKeepsCalls,
      hkeep₁.trans (hrelocated.keeps.trans (hkeep₃ _)), by rw [hgroups₃, hrelocated.groups],
      by rw [hs₃]; exact hrelocated.procedures, ?_, htranscribes.mono (hkeep₃ _)⟩
    rw [hs₃]
    refine hrelocated.problems.trans ?_
    rw [List.map_fst_zip hcopied.length.ge]
    rfl

end Relocate

end Build

end CobolFlow
