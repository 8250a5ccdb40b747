import CobolFlow.Proofs.Faultless.Splice
import CobolFlow.Proofs.Joins
import CobolFlow.Proofs.Trace.Bundle

/-!
# Edits of a graph as its paths see them

Each edit of a graph is an edit of its sketch. What a block is called and which call it makes is
laid down when it is made, and no later edit changes it; slots are only added. `Graph.Edited` says
so for a whole row of edits.

## Main definitions

* `Graph.sketch` — a graph as a chart in the making
* `Graph.Edited` — what some edits have made of a graph, and what they have left alone

## Main results

* `Graph.exists_addEdge_edited`, `Graph.exists_close_edited` and others — one for each edit
-/

namespace CobolFlow

/-- What stays of a block. -/
def Spot.label (s : Spot) : Option String × Option GroupId × Bool :=
  (s.tag, s.group, s.flags.start)

namespace Graph

/-- A graph as a chart in the making, with the block that is current. -/
def sketch (g : Graph) (here : ℕ) : Sketch := ⟨g.chart, g.size, here⟩

variable {g g' g₁ g₂ : Graph} {b c : ℕ} {block : Block} {tag : Option String} {k : SlotId}

/-! ### Charts -/

theorem chart_of_getElem? (h : g.blocks[b]? = some block) : g.chart b = block.spot g.slots := by
  simp only [chart, h]

theorem chart_of_size_le (h : g.size ≤ b) : g.chart b = {} := by
  simp only [chart, Array.getElem?_eq_none h]

theorem chart_congr (hblocks : g'.blocks = g.blocks) (hslots : g'.slots = g.slots) :
    g'.chart = g.chart := by
  funext b
  simp only [chart, hblocks, hslots]

theorem chart_modify {f : Block → Block} (hb : g.blocks[b]? = some block)
    (hblocks : g'.blocks = g.blocks.modify b f) (hslots : g'.slots = g.slots) :
    g'.chart = fun c => if c = b then (f block).spot g.slots else g.chart c := by
  funext c
  simp only [chart, hblocks, hslots, Array.getElem?_modify]
  by_cases hc : c = b
  · subst hc
    simp [hb]
  · simp [hc, Ne.symm hc]

theorem chart_openedAt (hb : b < g.size) (group : Group) (c : BlockId) :
    (Build.openedAt g b group).chart c =
      { g.chart c with group := if c = b then some g.groups.size else (g.chart c).group } := by
  obtain ⟨block, hblock⟩ := getElem?_eq_some_of_lt hb
  have hchart : (Build.openedAt g b group).chart = fun d =>
      if d = b then ({ block with group := some g.groups.size } : Block).spot g.slots
      else g.chart d := chart_modify (f := ({ · with group := some g.groups.size })) hblock rfl rfl
  rw [hchart]
  dsimp only
  split
  · next heq =>
    rw [heq, chart_of_getElem? hblock]
    rfl
  · rfl

theorem group_chart_openedAt (hb : b < g.size) (group : Group) (c : BlockId) :
    ((Build.openedAt g b group).chart c).group =
      if c = b then some g.groups.size else (g.chart c).group := by
  rw [chart_openedAt hb]

theorem chart_push (hblocks : g'.blocks = g.blocks.push block) (hslots : g'.slots = g.slots) :
    g'.chart = fun c => if c = g.size then block.spot g.slots else g.chart c := by
  funext c
  simp only [chart, hblocks, hslots, Array.getElem?_push, size]
  by_cases hc : c = g.blocks.size <;> simp [hc]

/-- A slot that no block has changes nothing. -/
theorem chart_pushSlot (hg : Sound g) {d : BlockId} (hblocks : g'.blocks = g.blocks)
    (hslots : g'.slots = g.slots.push d) : g'.chart = g.chart := by
  funext b
  cases hb : g.blocks[b]? with
  | none => simp only [chart, hblocks, hb]
  | some block =>
    simp only [chart, hblocks, hb, Block.spot, hslots]
    congr 1
    refine List.filterMap_congr fun s hs => ?_
    rw [Array.getElem?_push, if_neg (hg.slot_lt hb s hs).ne]

theorem leads_iff_mem_next : g.Leads b c ↔ c ∈ (g.chart b).next := by
  cases hb : g.blocks[b]? with
  | none =>
    simp only [chart, hb, List.not_mem_nil, iff_false]
    rintro ⟨block, -, hblock, -⟩
    simp [hb] at hblock
  | some block =>
    rw [leads_iff_of_getElem? hb, chart_of_getElem? hb]
    simp [Block.spot]

theorem forall_not_leads_iff : (∀ c, ¬ g.Leads b c) ↔ (g.chart b).next = [] := by
  simp only [leads_iff_mem_next, List.eq_nil_iff_forall_not_mem]

theorem trail_iff_reaches {allowed : BlockId → Prop} (h : ∀ c, g.chart.Reaches b c → allowed c) :
    Trail g allowed b c ↔ g.chart.Reaches b c := by
  constructor
  · intro htrail
    clear h
    induction htrail with
    | refl => exact .refl
    | step _ hab _ ih => exact .head (leads_iff_mem_next.1 hab) ih
  · intro hreach
    induction hreach using Relation.ReflTransGen.head_induction_on with
    | refl => exact .refl (h c .refl)
    | head hab _ ih =>
      exact .step (h _ .refl) (leads_iff_mem_next.2 hab) (ih fun d hd => h d (.head hab hd))

/-! ### What edits leave alone -/

/-- A block that makes a call is where its group is called. -/
def Honest (g : Graph) : Prop := ∀ b i, (g.chart b).group = some i →
  ∃ group, g.groups[i]? = some group ∧ group.callSite = b

/-- Nothing is taken away, and new blocks are tagged alike. -/
structure Draws (tag : Option String) (g g' : Graph) : Prop where
  size_le : g.size ≤ g'.size
  slots : ∀ {k : SlotId} {c : BlockId}, g.slots[k]? = some c → g'.slots[k]? = some c
  roots : g'.roots = g.roots
  tags : ∀ b < g'.size, (g'.chart b).tag = if b < g.size then (g.chart b).tag else tag
  starts : ∀ b < g.size, (g'.chart b).flags.start = (g.chart b).flags.start
  honest : g.Honest → g'.Honest

theorem Draws.refl (tag : Option String) (g : Graph) : g.Draws tag g where
  size_le := le_rfl
  slots h := h
  roots := rfl
  tags b hb := by rw [if_pos hb]
  starts _ _ := rfl
  honest h := h

theorem Draws.trans (h₁ : g.Draws tag g₁) (h₂ : g₁.Draws tag g₂) : g.Draws tag g₂ where
  size_le := h₁.size_le.trans h₂.size_le
  slots h := h₂.slots (h₁.slots h)
  roots := h₂.roots.trans h₁.roots
  tags b hb := by
    have hle := h₁.size_le
    rw [h₂.tags b hb]
    by_cases hb₁ : b < g₁.size
    · rw [if_pos hb₁, h₁.tags b hb₁]
    · rw [if_neg hb₁, if_neg (by omega)]
  starts b hb := by rw [h₂.starts b (hb.trans_le h₁.size_le), h₁.starts b hb]
  honest h := h₂.honest (h₁.honest h)

/-- An edit that adds no block and keeps what is laid down. -/
theorem Draws.of_label (hsize : g'.size = g.size)
    (hslots : ∀ {k : SlotId} {c : BlockId}, g.slots[k]? = some c → g'.slots[k]? = some c)
    (hroots : g'.roots = g.roots) (hgroups : g'.groups = g.groups)
    (hlabel : ∀ b, (g'.chart b).label = (g.chart b).label) : g.Draws tag g' where
  size_le := hsize.ge
  slots := hslots
  roots := hroots
  tags b hb := by
    rw [if_pos (hsize ▸ hb)]
    exact congrArg Prod.fst (hlabel b)
  starts b _ := congrArg (·.2.2) (hlabel b)
  honest h b i hi := by
    have hgroup : (g'.chart b).group = (g.chart b).group := congrArg (·.2.1) (hlabel b)
    rw [hgroups]
    exact h b i (hgroup ▸ hi)

/-- What some edits have made of a graph: `op` of its sketch. They have opened no group. -/
structure Edited (tag : Option String) (g g' : Graph) (op : Sketch → Sketch) : Prop where
  sound : Sound g'
  le : g ≤ g'
  draws : g.Draws tag g'
  groups : g'.groups = g.groups
  sketch : ∀ here, g'.sketch here = op (g.sketch here)

variable {op op₁ op₂ : Sketch → Sketch}

theorem Edited.trans (h₁ : g.Edited tag g₁ op₁) (h₂ : g₁.Edited tag g₂ op₂) :
    g.Edited tag g₂ (fun Γ => op₂ (op₁ Γ)) where
  sound := h₂.sound
  le := h₁.le.trans h₂.le
  draws := h₁.draws.trans h₂.draws
  groups := h₂.groups.trans h₁.groups
  sketch here := by rw [h₂.sketch, h₁.sketch]

/-- An edit of a single block. -/
theorem Edited.of_modify {f : Block → Block} {op : Sketch → Sketch} (hsound : Sound g')
    (hle : g ≤ g') (hb : g.blocks[b]? = some block) (hblocks : g'.blocks = g.blocks.modify b f)
    (hslots : g'.slots = g.slots) (hroots : g'.roots = g.roots) (hgroups : g'.groups = g.groups)
    (hlabel : ((f block).spot g.slots).label = (block.spot g.slots).label)
    (hop : ∀ here, op (g.sketch here) =
      { g.sketch here with
        chart := fun c => if c = b then (f block).spot g.slots else g.chart c }) :
    g.Edited tag g' op where
  sound := hsound
  le := hle
  draws := by
    refine .of_label (by simp [size, hblocks]) (fun h => by rw [hslots, h]) hroots hgroups
      fun c => ?_
    rw [chart_modify hb hblocks hslots]
    by_cases hc : c = b
    · simp only [hc, if_true]
      rw [hlabel, chart_of_getElem? hb]
    · simp only [hc, if_false]
  groups := hgroups
  sketch here := by
    rw [hop]
    simp only [Graph.sketch, chart_modify hb hblocks hslots]
    simp [size, hblocks]

/-- An edit that touches neither blocks nor slots. -/
theorem Edited.of_same (hsound : Sound g') (hle : g ≤ g') (hblocks : g'.blocks = g.blocks)
    (hslots : g'.slots = g.slots) (hroots : g'.roots = g.roots)
    (hgroups : g'.groups = g.groups) : g.Edited tag g' id where
  sound := hsound
  le := hle
  draws :=
    .of_label (by simp [size, hblocks]) (fun h => by rw [hslots, h]) hroots hgroups fun b => by
    rw [chart_congr hblocks hslots]
  groups := hgroups
  sketch here := by
    simp only [Graph.sketch, chart_congr hblocks hslots, id]
    simp [size, hblocks]

/-! ### Single edits -/

variable (tag) (hg : Sound g)

include hg

theorem exists_recordNode_edited (n : Node) :
    ∃ g', recordNode n g = .ok ((), g') ∧ g.Edited tag g' id := by
  obtain ⟨hsound, hle, -⟩ := (recordNode_faultless n).of_eq_ok hg rfl
  exact ⟨_, rfl, .of_same hsound hle rfl rfl rfl rfl⟩

theorem exists_setBlockFor_edited (n : NodeId) (b : BlockId) :
    ∃ g', setBlockFor n b g = .ok ((), g') ∧ g.Edited tag g' id := by
  obtain ⟨hsound, hle, -⟩ := (setBlockFor_faultless (b := b) n).of_eq_ok hg rfl
  exact ⟨_, rfl, .of_same hsound hle rfl rfl rfl rfl⟩

theorem exists_markBlock_edited (hb : b < g.size) {f : BlockFlags} (hf : f.start = false) :
    ∃ g', markBlock b f g = .ok ((), g') ∧ g.Edited tag g' (·.flag b f) := by
  obtain ⟨block, hblock⟩ := getElem?_eq_some_of_lt hb
  have hrun : markBlock b f g = .ok ((), { g with blocks := g.blocks.modify b (·.mark f) }) :=
    (modifyBlock_eq_ok_iff _ _ _ _).2 ⟨hb, rfl⟩
  obtain ⟨hsound, hle, -⟩ := (markBlock_faultless hb f).of_eq_ok hg hrun
  refine ⟨_, hrun, .of_modify (f := (·.mark f)) hsound hle hblock rfl rfl rfl rfl ?_
    fun here => ?_⟩
  · simp [Block.mark, Block.spot, Spot.label, BlockFlags.union, hf]
  · simp only [Sketch.flag, Graph.sketch, Sketch.mk.injEq, and_true]
    funext c
    by_cases hc : c = b
    · simp [hc, chart_of_getElem? hblock, Block.mark, Block.spot]
    · simp [hc]

theorem exists_appendInstruction_edited (hb : b < g.size) (i : Instruction) :
    ∃ g', appendInstruction b i g = .ok ((), g') ∧ g.Edited tag g' (·.sayAt b [i]) := by
  obtain ⟨block, hblock⟩ := getElem?_eq_some_of_lt hb
  have hrun : modifyBlock b (·.append i) g =
      .ok ((), { g with blocks := g.blocks.modify b (·.append i) }) :=
    (modifyBlock_eq_ok_iff _ _ _ _).2 ⟨hb, rfl⟩
  obtain ⟨hsound, hle, -⟩ := (relabel_faultless hb (f := (·.append i)) (fun _ => rfl)
    (fun _ => rfl) fun _ => rfl).of_eq_ok hg hrun
  obtain ⟨g', hset, hedit⟩ := exists_setBlockFor_edited tag hsound i.node b
  refine ⟨g', by rw [appendInstruction, run_bind hrun, hset], .trans ?_ hedit⟩
  refine .of_modify (f := (·.append i)) hsound hle hblock rfl rfl rfl rfl rfl fun here => ?_
  simp only [Graph.sketch, Sketch.mk.injEq, and_true]
  funext c
  by_cases hc : c = b
  · simp [hc, chart_of_getElem? hblock, Block.append, Block.spot]
  · simp [hc]

theorem exists_newSlot_edited (hc : c < g.size) :
    ∃ g', newSlot c g = .ok (g.slots.size, g') ∧ g.Edited tag g' id ∧
      g'.slots[g.slots.size]? = some c := by
  obtain ⟨hsound, hle, -⟩ := (newSlot_faultless hc).of_eq_ok hg rfl
  have hchart : ({ g with slots := g.slots.push c } : Graph).chart = g.chart :=
    chart_pushSlot (d := c) hg rfl rfl
  refine ⟨{ g with slots := g.slots.push c }, rfl, ⟨hsound, hle, ?_, rfl, fun here => ?_⟩, by simp⟩
  · refine .of_label rfl (fun {k d} h => ?_) rfl rfl fun b => by rw [hchart]
    have hlt := (Array.getElem?_eq_some_iff.1 h).1
    rw [Array.getElem?_push, if_neg hlt.ne, h]
  · simp only [Graph.sketch, hchart]
    rfl

/-- One more slot at the end of a block. -/
theorem edited_addSuccessor (hb : b < g.size) (hk : g.slots[k]? = some c) :
    ∃ g', modifyBlock b (·.addSuccessor k) g = .ok ((), g') ∧ g.Edited tag g' (·.edge b c) ∧
      g'.slots = g.slots := by
  obtain ⟨block, hblock⟩ := getElem?_eq_some_of_lt hb
  have hlt := (Array.getElem?_eq_some_iff.1 hk).1
  have hrun : modifyBlock b (·.addSuccessor k) g =
      .ok ((), { g with blocks := g.blocks.modify b (·.addSuccessor k) }) :=
    (modifyBlock_eq_ok_iff _ _ _ _).2 ⟨hb, rfl⟩
  obtain ⟨hsound, hle, -⟩ := (addSuccessor_faultless hb hlt).of_eq_ok hg hrun
  refine ⟨_, hrun, .of_modify (f := (·.addSuccessor k)) hsound hle hblock rfl rfl rfl rfl rfl
    fun here => ?_, rfl⟩
  simp only [Sketch.edge, Graph.sketch, Sketch.mk.injEq, and_true]
  funext d
  by_cases hd : d = b
  · simp [hd, chart_of_getElem? hblock, Block.addSuccessor, Block.spot, hk]
  · simp [hd]

theorem exists_addEdge_edited (hb : b < g.size) (hc : c < g.size) :
    ∃ g' k, addEdge b c g = .ok (k, g') ∧ g.Edited tag g' (·.edge b c) ∧
      g'.slots[k]? = some c := by
  obtain ⟨g₁, hslot, h₁, hk⟩ := exists_newSlot_edited tag hg hc
  obtain ⟨g₂, hadd, h₂, hslots⟩ :=
    edited_addSuccessor tag h₁.sound (hb.trans_le h₁.le.1) hk
  refine ⟨g₂, g.slots.size, ?_, h₁.trans h₂, by rw [hslots, hk]⟩
  rw [addEdge, run_bind hslot, run_bind hadd]
  rfl

/-- A slot is linked where no edge leads to its block yet. -/
theorem exists_link_edited (hb : b < g.size) (hk : g.slots[k]? = some c)
    (hnew : c ∉ (g.chart b).next) :
    ∃ g' r, link b k g = .ok (r, g') ∧ g.Edited tag g' (·.edge b c) := by
  obtain ⟨block, hok, hblock⟩ := exists_block_eq_ok hb
  have hnot : k ∉ block.successors := fun hmem => by
    refine hnew ?_
    rw [chart_of_getElem? hblock]
    exact List.mem_filterMap.2 ⟨k, hmem, hk⟩
  obtain ⟨g', hadd, h, -⟩ := edited_addSuccessor tag hg hb hk
  refine ⟨g', true, ?_, h⟩
  have hlink : link b k g = (if block.successors.contains k then
      (pure false : Edit Bool) else (do modifyBlock b (·.addSuccessor k); return true)) g := by
    refine (run_bind (a := g) (t := g) rfl _).trans ?_
    exact run_bind (run_lift hok g) _
  rw [hlink, if_neg (by simpa using hnot), run_bind hadd]
  rfl

/-- A new block, tagged and marked. -/
theorem exists_addBlock_edited (flags : BlockFlags) : ∃ g₁ g₂, addBlock g = .ok (g.size, g₁) ∧
    modifyBlock g.size (fun block => { block with tag, flags }) g₁ = .ok ((), g₂) ∧
    g.Edited tag g₂ (·.fresh { flags, tag }) ∧ g₂.slots = g.slots := by
  obtain ⟨hsound₁, hle₁, -, hlt, -⟩ := addBlock_faultless.of_eq_ok hg rfl
  set g₁ : Graph := { g with blocks := g.blocks.push { id := g.blocks.size } } with hg₁
  have hlt : g.size < g₁.size := by simp [hg₁, size]
  have hrun : modifyBlock g.size (fun block => { block with tag, flags }) g₁ =
      .ok ((), { g₁ with blocks := g₁.blocks.modify g.size fun block =>
        { block with tag, flags } }) := (modifyBlock_eq_ok_iff _ _ _ _).2 ⟨hlt, rfl⟩
  obtain ⟨hsound₂, hle₂, -⟩ := (relabel_faultless hlt (f := fun block =>
    { block with tag, flags }) (fun _ => rfl) (fun _ => rfl) fun _ => rfl).of_eq_ok hsound₁ hrun
  set g₂ : Graph := { g₁ with blocks := g₁.blocks.modify g.size fun block =>
    { block with tag, flags } } with hg₂
  have hblock : g₁.blocks[g.size]? = some { id := g.blocks.size } := by simp [hg₁, size]
  have hsize₂ : g₂.size = g.size + 1 := by simp [hg₂, hg₁, size]
  have hchart : g₂.chart = fun c => if c = g.size then { flags, tag } else g.chart c := by
    have hpush : g₁.chart = fun c => if c = g.size then _ else g.chart c := chart_push rfl rfl
    have hmodify : g₂.chart = fun c => if c = g.size then _ else g₁.chart c :=
      chart_modify (f := fun block => { block with tag, flags }) hblock rfl rfl
    rw [hmodify, hpush]
    funext c
    by_cases hc : c = g.size
    · simp [hc, Block.spot]
    · simp [hc]
  refine ⟨g₁, g₂, rfl, hrun, ⟨hsound₂, hle₁.trans hle₂, ⟨by omega, fun h => h, rfl,
    fun b hb => ?_, fun b hb => ?_, fun h b i hi => ?_⟩, rfl, fun here => ?_⟩, rfl⟩
  · rw [hchart]
    by_cases hb' : b = g.size
    · simp [hb']
    · simp [hb', show b < g.size by omega]
  · simp [hchart, hb.ne]
  · rw [hchart] at hi
    by_cases hb : b = g.size
    · simp [hb] at hi
    · simp only [hb, if_false] at hi
      exact h b i hi
  · simp only [Graph.sketch, hchart, hsize₂]
    rfl

/-- A new group makes its block a call site. -/
theorem exists_addGroup_draws (hb : b < g.size) (hfree : ¬ g.IsCallSite b) (node : NodeId)
    (range : String) : ∃ g', addGroup b node range g = .ok (g.groups.size, g') ∧ Sound g' ∧
      g ≤ g' ∧ g.Draws tag g' ∧
      g'.groups = g.groups.push { id := g.groups.size, callSite := b, node, range } ∧
      g'.size = g.size ∧ g'.chart = fun c =>
        if c = b then { g.chart c with group := some g.groups.size } else g.chart c := by
  set group : Group := { id := g.groups.size, callSite := b, node, range }
  have hrun := Build.addGroup_eq_ok hb node range
  obtain ⟨hsound, hle, -⟩ := (addGroup_faultless hb hfree node range).of_eq_ok hg hrun
  have hsize := Build.size_openedAt g b group
  have hchart : (Build.openedAt g b group).chart = fun c =>
      if c = b then { g.chart c with group := some g.groups.size } else g.chart c := by
    funext c
    rw [chart_openedAt hb]
    split <;> rfl
  refine ⟨_, hrun, hsound, hle, ⟨hsize.ge, fun h => h, rfl, fun c hc => ?_, fun c _ => ?_,
    fun h c i hi => ?_⟩, rfl, hsize, hchart⟩
  · rw [if_pos (hsize ▸ hc), hchart]
    by_cases hcb : c = b <;> simp [hcb]
  · rw [hchart]
    by_cases hcb : c = b <;> simp [hcb]
  · rw [group_chart_openedAt hb] at hi
    split at hi
    · next heq =>
      obtain rfl := Option.some.inj hi
      exact ⟨group, Array.getElem?_push_size, heq.symm⟩
    · obtain ⟨old, hold, hsite⟩ := h c i hi
      obtain ⟨hlt, heq⟩ := Array.getElem?_eq_some_iff.1 hold
      exact ⟨old, (Array.getElem?_push_lt hlt).trans (congrArg some heq), hsite⟩

/-- A slot becomes the last edge of some blocks that do not have it. -/
theorem edited_attachAll (hk : g.slots[k]? = some c) (sources : List BlockId)
    (hsources : ∀ b ∈ sources, b < g.size)
    (hnew : ∀ b ∈ sources, ∀ block, g.blocks[b]? = some block → k ∉ block.successors) :
    g.Edited tag (g.attachAll k sources) (·.lead sources c) := by
  have heq := attachAll_eq g k sources
  have hslots : (g.attachAll k sources).slots = g.slots := by rw [heq]
  have hchart : (g.attachAll k sources).chart = fun b =>
      if b ∈ sources then { g.chart b with next := (g.chart b).next ++ [c] } else g.chart b := by
    funext b
    simp only [chart, hslots, getElem?_attachAll]
    by_cases hb : b ∈ sources
    · obtain ⟨block, hblock⟩ := getElem?_eq_some_of_lt (hsources b hb)
      simp [hb, hblock, Block.attach, hnew b hb block hblock, Block.addSuccessor, Block.spot, hk]
    · simp [hb]
  have hsize := size_attachAll (s := k) g sources
  refine ⟨sound_attachAll hg (Array.getElem?_eq_some_iff.1 hk).1 sources,
    le_attachAll g k sources, .of_label hsize (fun {k c} h => ?_) ?_ ?_ fun b => ?_, ?_,
    fun here => ?_⟩
  · rwa [hslots]
  · rw [heq]
  · rw [heq]
  · rw [hchart]
    by_cases hb : b ∈ sources <;> simp [hb, Spot.label]
  · rw [heq]
  · simp only [Graph.sketch, hchart, hsize]
    rfl

/-- A join gives each of its sources one more edge. -/
theorem edited_joined {next : BlockId} (hnext : next < g.size) {sources : List BlockId}
    (hsources : ∀ b ∈ sources, b < g.size) :
    g.Edited tag (g.joined next sources) (·.lead sources next) := by
  by_cases hnil : sources.isEmpty
  · have hsame : g.joined next sources = g := by simp [joined, hnil]
    obtain rfl := List.isEmpty_iff.1 hnil
    rw [hsame]
    exact ⟨hg, le_rfl, .refl tag g, rfl, fun here => by simp [Sketch.lead]⟩
  · have hjoined : g.joined next sources =
        attachAll { g with slots := g.slots.push next } g.slots.size sources := by
      simp [joined, hnil]
    obtain ⟨g₁, hslot, hedit, hk⟩ := exists_newSlot_edited tag hg hnext
    obtain ⟨-, rfl⟩ := Prod.mk.inj (Except.ok.inj hslot)
    rw [hjoined]
    exact hedit.trans (edited_attachAll tag hedit.sound hk _ hsources fun b hb block hblock hmem =>
      lt_irrefl _ (hg.slot_lt (b := b) hblock _ hmem))

omit hg in
/-- The open ends of a fork as its sketch shows them. -/
theorem mem_ends_iff {f : Fork} {ends : List BlockId} {stop : Option BlockId} {next : BlockId}
    (hends : ∀ t, t ∈ ends ↔ (∀ c, ¬ g.Leads t c) ∧
      ∃ b ∈ f.branches, Trail g (fun x => some x ≠ stop) b t)
    (hstop : ∀ b ∈ f.branches, ∀ c, g.chart.Reaches b c → some c ≠ stop) {t : ℕ} :
    t ∈ ends.filter (fun b => b != next && !g.ending b) ↔
      t ≠ next ∧ g.chart.OpenEnd f.branches t := by
  have hending : g.ending t = (g.chart t).flags.ending := by
    cases ht : g.blocks[t]? <;> simp [Graph.ending, chart, ht, Block.spot]
  have htrail : (∃ b ∈ f.branches, Trail g (fun x => some x ≠ stop) b t) ↔
      ∃ b ∈ f.branches, g.chart.Reaches b t :=
    exists_congr fun b => and_congr_right fun hb => trail_iff_reaches fun c hc => hstop b hb c hc
  simp only [List.mem_filter, hends, forall_not_leads_iff, htrail, hending, Chart.OpenEnd,
    Bool.and_eq_true, bne_iff_ne, Bool.not_eq_true']
  tauto

/-- **A join** leads the open ends to a block, and the origin too if that is asked for. -/
theorem exists_close_edited {f : Fork} (hf : f.Inside g) (originToNext : Bool)
    (stop : Option BlockId) {next : BlockId} (hnext : next < g.size)
    (hstop : ∀ b ∈ f.branches, ∀ c, g.chart.Reaches b c → some c ≠ stop) :
    ∃ g' sources, f.close originToNext stop next g = .ok ((), g') ∧
      g.Edited tag g' (·.lead sources next) ∧
      ∀ t, t ∈ sources ↔ t ≠ next ∧ g.chart.OpenEnd f.branches t ∨
        originToNext = true ∧ t ∈ f.origin := by
  obtain ⟨ends, hends, hclose⟩ :=
    Fork.exists_close_eq_ok hg.checked hf.origin hf.branches originToNext stop next
  obtain ⟨_, hends', hmem⟩ := f.exists_terminals_eq_ok hg.checked hf.branches stop
  obtain rfl := Except.ok.inj (hends.symm.trans hends')
  have hopen : ∀ t, t ∈ ends.filter (fun b => b != next && !g.ending b) ↔
      t ≠ next ∧ g.chart.OpenEnd f.branches t := fun t => mem_ends_iff hmem hstop
  refine ⟨_, _, hclose, edited_joined tag hg hnext fun b hb => ?_, fun t => ?_⟩
  · obtain hb | hb := List.mem_append.1 hb
    · obtain ⟨-, a, ha, htrail⟩ := (hmem b).1 (List.mem_filter.1 hb).1
      exact htrail.lt_size hg.checked (hf.branches a ha)
    · split at hb
      · exact hf.origin b (by simpa using hb)
      · simp at hb
  · rw [List.mem_append, hopen]
    cases originToNext <;> simp

end Graph

end CobolFlow
