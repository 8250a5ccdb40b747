import CobolFlow.Build.Fork
import CobolFlow.Proofs.Terminals

/-!
# What a join does to the graph

Closing a fork gives one new slot to a list of blocks: the open ends of its branches, and the
origin if that is asked for. Nothing else changes, and if the list is empty nothing changes at all.
The statements are equations between graphs, so that what holds after a join can be read off from
what held before it.

## Main definitions

* `Graph.attach` — one more edge, unless it is there already
* `Graph.joined` — one new slot for a list of blocks

## Main results

* `Fork.exists_close_eq_ok` — a join, as an equation
-/

namespace CobolFlow

/-- Adds a slot at the end of the successors, unless it is one of them. -/
def Block.attach (block : Block) (s : SlotId) : Block :=
  if s ∈ block.successors then block else block.addSuccessor s

@[simp] theorem Block.attach_attach (block : Block) (s : SlotId) :
    (block.attach s).attach s = block.attach s := by
  by_cases h : s ∈ block.successors <;> simp [attach, h, addSuccessor]

theorem Block.mem_successors_attach {block : Block} {s t : SlotId} :
    t ∈ (block.attach s).successors ↔ t ∈ block.successors ∨ t = s := by
  by_cases h : s ∈ block.successors
  · simp only [attach, h, if_true, iff_self_or]
    rintro rfl
    exact h
  · simp [attach, h, addSuccessor]

namespace Graph

variable {g : Graph} {b : BlockId} {s : SlotId}

/-- Whether a block is marked as one that always leaves. -/
def ending (g : Graph) (b : BlockId) : Bool := g.blocks[b]?.any (·.flags.ending)

/-- The graph with one more edge at `b`. -/
def attach (g : Graph) (b : BlockId) (s : SlotId) : Graph :=
  { g with blocks := g.blocks.modify b (·.attach s) }

/-- The graph with the same edge added at each of the blocks. -/
def attachAll (g : Graph) (s : SlotId) (sources : List BlockId) : Graph :=
  sources.foldl (fun g b => g.attach b s) g

/-- The graph with a new slot that leads from each of the blocks to `next`. -/
def joined (g : Graph) (next : BlockId) (sources : List BlockId) : Graph :=
  if sources.isEmpty then g
  else attachAll { g with slots := g.slots.push next } g.slots.size sources

@[simp] theorem size_attach : (g.attach b s).size = g.size := by simp [attach, size]

theorem getElem?_attach (c : BlockId) : (g.attach b s).blocks[c]? =
    if b = c then g.blocks[c]?.map (·.attach s) else g.blocks[c]? := by
  simp [attach, Array.getElem?_modify]

theorem getElem?_attachAll (g : Graph) (sources : List BlockId) (c : BlockId) :
    (g.attachAll s sources).blocks[c]? =
      if c ∈ sources then g.blocks[c]?.map (·.attach s) else g.blocks[c]? := by
  induction sources generalizing g with
  | nil => simp [attachAll]
  | cons b rest ih =>
    have hstep : g.attachAll s (b :: rest) = (g.attach b s).attachAll s rest := rfl
    rw [hstep, ih, getElem?_attach]
    by_cases hb : b = c
    · subst hb
      by_cases hrest : b ∈ rest <;> simp [hrest, Function.comp_def]
    · simp [hb, Ne.symm hb]

/-- Attaching edges changes nothing but the successors of blocks. -/
theorem attachAll_eq (g : Graph) (s : SlotId) (sources : List BlockId) :
    g.attachAll s sources = { g with blocks := (g.attachAll s sources).blocks } := by
  induction sources generalizing g with
  | nil => rfl
  | cons b rest ih => exact ih (g.attach b s)

@[simp] theorem size_attachAll (g : Graph) (s : SlotId) (sources : List BlockId) :
    (g.attachAll s sources).size = g.size := by
  induction sources generalizing g with
  | nil => rfl
  | cons b rest ih => exact (ih (g.attach b s)).trans size_attach

theorem sound_attach (hg : Sound g) (hs : s < g.slots.size) : Sound (g.attach b s) := by
  refine WellFormed.modifyBlock hg (fun block => ?_) (fun block => ?_) fun block hblock t ht => ?_
  · by_cases h : s ∈ block.successors <;> simp [Block.attach, h, Block.addSuccessor]
  · by_cases h : s ∈ block.successors <;> simp [Block.attach, h, Block.addSuccessor]
  · obtain ht | rfl := Block.mem_successors_attach.1 ht
    · exact hg.slot_lt hblock t ht
    · exact hs

theorem sound_attachAll (hg : Sound g) (hs : s < g.slots.size) (sources : List BlockId) :
    Sound (g.attachAll s sources) := by
  induction sources generalizing g with
  | nil => exact hg
  | cons b rest ih => exact ih (sound_attach hg hs) hs

theorem le_attachAll (g : Graph) (s : SlotId) (sources : List BlockId) :
    g ≤ g.attachAll s sources := by
  rw [attachAll_eq]
  exact ⟨(size_attachAll (s := s) g sources).ge, le_rfl, le_rfl⟩

theorem sound_joined (hg : Sound g) {next : BlockId} (hnext : next < g.size)
    (sources : List BlockId) : Sound (g.joined next sources) := by
  rw [joined]
  split
  · exact hg
  · obtain ⟨_, _, hslot, hg₁, -, hs, -⟩ := newSlot_faultless hnext hg
    obtain ⟨rfl, rfl⟩ := Prod.mk.inj (Except.ok.inj hslot)
    exact sound_attachAll hg₁ hs sources

theorem le_joined (g : Graph) (next : BlockId) (sources : List BlockId) :
    g ≤ g.joined next sources := by
  rw [joined]
  split
  · exact le_rfl
  · have hle : g ≤ { g with slots := g.slots.push next } :=
      ⟨le_rfl, show g.slots.size ≤ (g.slots.push next).size by simp, le_rfl⟩
    exact hle.trans (le_attachAll _ _ _)

/-! ### Joins as equations -/

theorem exists_link_eq_ok (hb : b < g.size) : ∃ r, link b s g = .ok (r, g.attach b s) := by
  obtain ⟨block, hok, hblock⟩ := exists_block_eq_ok hb
  have hlink : link b s g = (if block.successors.contains s then
      (pure false : Edit Bool) else (do modifyBlock b (·.addSuccessor s); return true)) g := by
    refine (run_bind (a := g) (t := g) rfl _).trans ?_
    exact run_bind (run_lift hok g) _
  by_cases hs : s ∈ block.successors
  · refine ⟨false, ?_⟩
    rw [hlink, if_pos (by simpa using hs)]
    have hsame : g.attach b s = g := by
      have hblocks : g.blocks.modify b (·.attach s) = g.blocks := by
        refine Array.ext_getElem? fun c => ?_
        rw [Array.getElem?_modify]
        by_cases hbc : b = c
        · subst hbc
          simp [hblock, Block.attach, hs]
        · simp [hbc]
      rw [attach, hblocks]
    rw [hsame]
    rfl
  · refine ⟨true, ?_⟩
    rw [hlink, if_neg (by simpa using hs)]
    have hsame : g.blocks.modify b (·.addSuccessor s) = g.blocks.modify b (·.attach s) := by
      refine Array.ext_getElem? fun c => ?_
      rw [Array.getElem?_modify, Array.getElem?_modify]
      by_cases hbc : b = c
      · subst hbc
        simp [hblock, Block.attach, hs]
      · simp [hbc]
    have hmodify := (modifyBlock_eq_ok_iff b (·.addSuccessor s) g _).2 ⟨hb, rfl⟩
    rw [hsame] at hmodify
    rw [run_bind hmodify]
    rfl

theorem forIn_link_eq_ok (s : SlotId) {sources : List BlockId} (h : ∀ b ∈ sources, b < g.size) :
    (forIn sources PUnit.unit fun b _ => do
      let _ ← link b s
      pure (ForInStep.yield PUnit.unit) : Edit PUnit) g = .ok (⟨⟩, g.attachAll s sources) := by
  induction sources generalizing g with
  | nil => rfl
  | cons b rest ih =>
    obtain ⟨r, hlink⟩ := exists_link_eq_ok (s := s) (h b (by simp))
    rw [List.forIn_cons, bind_assoc, run_bind hlink]
    exact ih fun c hc => by simpa using h c (by simp [hc])

end Graph

/-- Filtering by look-ups that all succeed. -/
theorem filterM_eq_ok {σ γ : Type} {l : List γ} {f : γ → StateT σ (Except Fault) Bool}
    {p : γ → Bool} {s : σ} (h : ∀ c ∈ l, f c s = .ok (p c, s)) :
    l.filterM f s = .ok (l.filter p, s) := by
  have aux : ∀ (l acc : List γ), (∀ c ∈ l, f c s = .ok (p c, s)) →
      l.filterAuxM f acc s = .ok ((l.filter p).reverse ++ acc, s) := by
    intro l
    induction l with
    | nil => intro acc _; rfl
    | cons c l ih =>
      intro acc h
      rw [List.filterAuxM, run_bind (h c (by simp))]
      refine (ih _ fun d hd => h d (by simp [hd])).trans ?_
      cases hp : p c <;> simp [hp]
  rw [List.filterM, run_bind (aux l [] h), List.append_nil, List.reverse_reverse]
  rfl

namespace Fork

open Graph

variable {g : Graph} {f : Fork} {b : BlockId}

/-- Every handle of the fork is in range. -/
structure Inside (f : Fork) (g : Graph) : Prop where
  origin : ∀ b ∈ f.origin, b < g.size
  branches : ∀ b ∈ f.branches, b < g.size
  branchSlots : ∀ s ∈ f.branchSlots, s < g.slots.size
  root : ∀ b ∈ f.root, b < g.size
  rootSlot : ∀ s ∈ f.rootSlot, s < g.slots.size

theorem Inside.mono {g' : Graph} (h : f.Inside g) (hle : g ≤ g') : f.Inside g' where
  origin b hb := (h.origin b hb).trans_le hle.1
  branches b hb := (h.branches b hb).trans_le hle.1
  branchSlots s hs := (h.branchSlots s hs).trans_le hle.2.1
  root b hb := (h.root b hb).trans_le hle.1
  rootSlot s hs := (h.rootSlot s hs).trans_le hle.2.1

/-- The open ends of a fork are those of its branches. -/
theorem exists_terminals_eq_ok (hg : g.Checked) (hf : ∀ b ∈ f.branches, b < g.size)
    (stop : Option BlockId) :
    ∃ ends, f.terminals g stop = .ok ends ∧ ∀ t, t ∈ ends ↔ (∀ c, ¬ g.Leads t c) ∧
      ∃ b ∈ f.branches, Trail g (fun x => some x ≠ stop) b t := by
  have aux : ∀ (branches found : List BlockId), (∀ b ∈ branches, b < g.size) →
      ∃ ends, branches.foldlM (fun found branch => do
          return found ++ (← g.terminals branch stop).filter (!found.contains ·)) found =
            .ok ends ∧
        ∀ t, t ∈ ends ↔ t ∈ found ∨ (∀ c, ¬ g.Leads t c) ∧
          ∃ b ∈ branches, Trail g (fun x => some x ≠ stop) b t := by
    intro branches
    induction branches with
    | nil => intro found _; exact ⟨found, rfl, by simp⟩
    | cons b rest ih =>
      intro found h
      obtain ⟨here, hhere, hmem⟩ := Graph.exists_terminals_eq_ok hg (h b (by simp)) stop
      obtain ⟨ends, hends, hall⟩ := ih (found ++ here.filter (!found.contains ·))
        fun c hc => h c (by simp [hc])
      refine ⟨ends, by simpa [List.foldlM_cons, hhere] using hends, fun t => ?_⟩
      rw [hall]
      by_cases hfound : t ∈ found
      · simp [hfound]
      · simp [hfound, hmem]
        tauto
  obtain ⟨ends, hends, hmem⟩ := aux f.branches [] hf
  exact ⟨ends, hends, fun t => by simpa using hmem t⟩

/-- **A join as an equation.** The open ends other than `next` share one new slot, and so does the
origin if it is to go on as well. -/
theorem exists_close_eq_ok (hg : g.Checked) (horigin : ∀ b ∈ f.origin, b < g.size)
    (hbranches : ∀ b ∈ f.branches, b < g.size) (originToNext : Bool) (stop : Option BlockId)
    (next : BlockId) :
    ∃ ends, f.terminals g stop = .ok ends ∧
      f.close originToNext stop next g = .ok ((), g.joined next
        (ends.filter (fun b => b != next && !g.ending b) ++
          if originToNext then f.origin.toList else [])) := by
  obtain ⟨ends, hends, hmem⟩ := exists_terminals_eq_ok hg hbranches stop
  refine ⟨ends, hends, ?_⟩
  have hlt : ∀ t ∈ ends, t < g.size := fun t ht => by
    obtain ⟨-, b, hb, htrail⟩ := (hmem t).1 ht
    exact htrail.lt_size hg (hbranches b hb)
  have hfilter := filterM_eq_ok (l := ends) (s := g)
    (f := fun b => do return b != next && !(← (liftM (g.block b) : Edit Block)).flags.ending)
    (p := fun b => b != next && !g.ending b) fun b hb => by
      obtain ⟨block, hok, hblock⟩ := exists_block_eq_ok (hlt b hb)
      rw [run_bind (run_lift hok g), Graph.ending, hblock]
      rfl
  set sources := ends.filter (fun b => b != next && !g.ending b) ++
    if originToNext then f.origin.toList else [] with hsources
  have hslt : ∀ b ∈ sources, b < g.size := fun b hb => by
    obtain hb | hb := List.mem_append.1 hb
    · exact hlt b (List.mem_filter.1 hb).1
    · split at hb
      · exact horigin b (by simpa using hb)
      · simp at hb
  unfold Fork.close
  rw [run_bind (a := g) (t := g) rfl, run_bind (run_lift hends g), run_bind hfilter]
  simp only [← hsources]
  by_cases hnil : sources.isEmpty
  · simp only [hnil, joined]
    rfl
  · simp only [hnil, joined]
    refine (run_bind (a := g.slots.size) (t := { g with slots := g.slots.push next })
      rfl _).trans ?_
    exact run_bind (forIn_link_eq_ok (g := { g with slots := g.slots.push next }) _ hslt) _

theorem addBranch_faultless (hf : f.Inside g) (hb : b < g.size) :
    Faultless (f.addBranch b) g fun f' g' => f'.Inside g' := by
  unfold Fork.addBranch
  split
  · next origin horigin =>
    refine .bind (addEdge_faultless (hf.origin origin horigin) hb) fun s g₁ _ h₁ hs => ?_
    have hf₁ := hf.mono h₁
    refine .pure fun _ => { hf₁ with branches := fun c hc => ?_, branchSlots := fun t ht => ?_ }
    · obtain hc | hc := List.mem_append.1 hc
      · exact hf₁.branches c hc
      · exact List.mem_singleton.1 hc ▸ hb.trans_le h₁.1
    · obtain ht | ht := List.mem_append.1 ht
      · exact hf₁.branchSlots t ht
      · exact List.mem_singleton.1 ht ▸ hs.1
  · refine .pure fun _ => { hf with branches := fun c hc => ?_ }
    obtain hc | hc := List.mem_append.1 hc
    · exact hf.branches c hc
    · exact List.mem_singleton.1 hc ▸ hb

theorem close_faultless (hf : f.Inside g) (originToNext : Bool) (stop : Option BlockId)
    {next : BlockId} (hnext : next < g.size) :
    Faultless (f.close originToNext stop next) g fun _ _ => True := by
  intro hg
  obtain ⟨ends, -, hclose⟩ :=
    exists_close_eq_ok hg.checked hf.origin hf.branches originToNext stop next
  exact ⟨(), _, hclose, sound_joined hg hnext _, le_joined _ _ _, trivial⟩

end Fork

end CobolFlow
