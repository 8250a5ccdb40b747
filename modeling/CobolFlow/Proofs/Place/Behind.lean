import CobolFlow.Proofs.Writing.Desk

/-!
# What is left behind

While a division is read, edges are added to few blocks: to the one that is current, to those at
which open decisions began, to the tests of open loops, and to blocks that lead nowhere yet and are
found by a join. A block that is none of these is *left behind*. It stays as it is, and so do the
places to which it leads.

`Scope.Aside` says of a block that nothing is begun at it any more. It has the rule of each step,
and is stated for the current block as well, which stands aside as long as nothing is put into it.

## Main definitions

* `Graph.Spares` — an edit leaves a block and its edges as they are
* `Scope.Aside` — no open decision begins at a block, and nothing waits at it

## Main results

* `Fork.close_spares` — a join leaves alone what leads somewhere
* `Scope.Aside.openBranch`, `Scope.Aside.joinFork` and others — one for each step
-/

namespace CobolFlow

/-- A look at each of some elements that changes nothing keeps only those that pass. -/
theorem Ensures.filterM_sound {σ α : Type} {s : σ} {l : List α}
    {f : α → StateT σ (Except Fault) Bool} {p : α → Prop}
    (hf : ∀ a ∈ l, Ensures (f a) s fun r s' => s' = s ∧ (r = true → p a)) :
    Ensures (l.filterM f) s fun kept s' => s' = s ∧ ∀ a ∈ kept, p a := by
  suffices haux : ∀ (rest kept : List α), (∀ a ∈ rest, a ∈ l) → (∀ a ∈ kept, p a) →
      Ensures (rest.filterAuxM f kept) s fun kept s' => s' = s ∧ ∀ a ∈ kept, p a from
    .bind (haux l [] (fun _ h => h) (by simp)) fun kept s' h =>
      .pure ⟨h.1, fun a ha => h.2 a (List.mem_reverse.1 ha)⟩
  intro rest
  induction rest with
  | nil => exact fun kept _ hkept => .pure ⟨rfl, hkept⟩
  | cons a rest ih =>
    intro kept hrest hkept
    refine .bind (hf a (hrest a (by simp))) ?_
    rintro r _ ⟨rfl, hr⟩
    refine ih _ (fun c hc => hrest c (by simp [hc])) fun c hc => ?_
    cases r with
    | false => exact hkept c hc
    | true => exact (List.mem_cons.1 hc).elim (fun h => h ▸ hr rfl) (hkept c)

/-! ### Edits of other blocks -/

namespace Graph

/-- The block stands as it stood, every edge leads where it led, and the block makes no call that it
did not make. -/
structure Spares (b : BlockId) (g g' : Graph) : Prop where
  block : ∀ {block : Block}, g.blocks[b]? = some block → g'.blocks[b]? = some block
  slots : ∀ {k : SlotId} {c : BlockId}, g.slots[k]? = some c → g'.slots[k]? = some c
  calls : b ∈ g'.groups.toList.map (·.callSite) → b ∈ g.groups.toList.map (·.callSite)

/-- The block leads somewhere, or ends the program. -/
def Settled (b : BlockId) (g : Graph) : Prop :=
  ∃ block, g.blocks[b]? = some block ∧ (block.successors ≠ [] ∨ block.flags.ending = true)

variable {g g' g₁ g₂ : Graph} {b c d : BlockId} {k : SlotId} {α : Type}

namespace Spares

theorem refl (b : BlockId) (g : Graph) : g.Spares b g := ⟨id, id, id⟩

theorem trans (h : g.Spares b g₁) (h' : g₁.Spares b g₂) : g.Spares b g₂ where
  block hb := h'.block (h.block hb)
  slots hk := h'.slots (h.slots hk)
  calls hb := h.calls (h'.calls hb)

theorem of_blocks (hblocks : g'.blocks = g.blocks) (hslots : g'.slots = g.slots)
    (hgroups : g'.groups = g.groups) : g.Spares b g' where
  block h := hblocks ▸ h
  slots h := hslots ▸ h
  calls h := hgroups ▸ h

theorem settled (h : g.Spares b g') (hb : g.Settled b) : g'.Settled b := by
  obtain ⟨block, hblock, hsettled⟩ := hb
  exact ⟨block, h.block hblock, hsettled⟩

/-- Where no slot is missing, the chart shows that the block is as it was. -/
theorem chart_eq (h : g.Spares b g') (hg : Sound g) (hb : b < g.size) :
    g'.chart b = g.chart b := by
  obtain ⟨block, hblock⟩ := getElem?_eq_some_of_lt hb
  rw [chart_of_getElem? hblock, chart_of_getElem? (h.block hblock)]
  simp only [Block.spot, Spot.mk.injEq, true_and]
  refine ⟨List.filterMap_congr fun k hk => ?_, trivial⟩
  obtain ⟨c, hc⟩ : ∃ c, g.slots[k]? = some c :=
    ⟨_, Array.getElem?_eq_getElem (hg.slot_lt hblock k hk)⟩
  rw [hc, h.slots hc]

end Spares

section Ensures

theorem modifyBlock_spares (hc : c ≠ b) (f : Block → Block) :
    Ensures (modifyBlock c f) g fun _ g' => g.Spares b g' := by
  rintro ⟨⟩ g' h
  obtain ⟨-, rfl⟩ := (modifyBlock_eq_ok_iff c f g g').1 h
  refine ⟨fun hb => ?_, id, id⟩
  simpa [Array.getElem?_modify, hc] using hb

theorem newSlot_spares (d : BlockId) : Ensures (newSlot d) g fun _ g' => g.Spares b g' := by
  refine .modifyGet ⟨id, fun {k c} hk => ?_, id⟩
  have hlt := (Array.getElem?_eq_some_iff.1 hk).1
  rw [Array.getElem?_push, if_neg hlt.ne, hk]

theorem addEdge_spares (hc : c ≠ b) (d : BlockId) :
    Ensures (addEdge c d) g fun _ g' => g.Spares b g' :=
  .bind (newSlot_spares d) fun _ _ h₁ => .bind (modifyBlock_spares hc _) fun _ _ h₂ =>
    .pure (h₁.trans h₂)

theorem link_spares (hc : c ≠ b) (k : SlotId) : Ensures (link c k) g fun _ g' => g.Spares b g' := by
  refine .get_bind (.lift_bind fun block _ => ?_)
  split
  · exact .pure (.refl b g)
  · exact .bind (modifyBlock_spares hc _) fun _ _ h => .pure h

theorem markBlock_spares (hc : c ≠ b) (f : BlockFlags) :
    Ensures (markBlock c f) g fun _ g' => g.Spares b g' := modifyBlock_spares hc _

theorem setBlockFor_spares (n : NodeId) (c : BlockId) :
    Ensures (setBlockFor n c) g fun _ g' => g.Spares b g' :=
  .modify (.of_blocks rfl rfl rfl)

theorem appendInstruction_spares (hc : c ≠ b) (i : Instruction) :
    Ensures (appendInstruction c i) g fun _ g' => g.Spares b g' :=
  .bind (modifyBlock_spares hc _) fun _ _ h₁ =>
    (setBlockFor_spares i.node c).mono fun _ _ h₂ => h₁.trans h₂

theorem recordNode_spares (n : Node) : Ensures (recordNode n) g fun _ g' => g.Spares b g' :=
  .modify (.of_blocks rfl rfl rfl)

theorem addRoot_spares (c : BlockId) : Ensures (addRoot c) g fun _ g' => g.Spares b g' := by
  refine .modify ?_
  split
  · exact .refl b g
  · exact .of_blocks rfl rfl rfl

theorem markCompound_spares : Ensures markCompound g fun _ g' => g.Spares b g' :=
  .modify (.of_blocks rfl rfl rfl)

/-- A new block is another one. -/
theorem addBlock_spares (hb : b < g.size) :
    Ensures addBlock g fun c g' => c = g.size ∧ c ≠ b ∧ g.Spares b g' := by
  refine .modifyGet ⟨rfl, hb.ne', fun {block} hblock => ?_, id, id⟩
  have hlt : b ≠ g.blocks.size := hb.ne
  rw [Array.getElem?_push, if_neg hlt, hblock]

theorem addGroup_spares (hc : c ≠ b) (n : NodeId) (range : String) :
    Ensures (addGroup c n range) g fun _ g' => g.Spares b g' := by
  refine .bind (P := fun _ g' => g.Spares b g') (.modifyGet ⟨id, id, fun hb => ?_⟩) fun i g₁ h₁ =>
    .bind (modifyBlock_spares hc _) fun _ _ h₂ => .pure (h₁.trans h₂)
  simpa [hc.symm] using hb

/-- Something is done to each of some other blocks. -/
theorem forIn_spares {l : List α} {e : α → PUnit → Edit (ForInStep PUnit)}
    (h : ∀ a ∈ l, ∀ g, Ensures (e a ⟨⟩) g fun _ g' => g.Spares b g') :
    Ensures (ForIn.forIn l ⟨⟩ e) g fun _ g' => g.Spares b g' :=
  .forIn (P := fun _ g' => g.Spares b g') (.refl b g) fun a ha _ _ hg =>
    (h a ha _).mono fun _ _ h => hg.trans h

end Ensures

/-! ### Open ends -/

/-- A block that leads nowhere. -/
def IsDead (g : Graph) (b : BlockId) : Prop :=
  ∃ block, g.blocks[b]? = some block ∧ block.successors = []

/-- A walk collects blocks that lead nowhere. -/
theorem isDead_of_collectTerminals {stop : Option BlockId} {stack : List BlockId} {seen : Seen}
    {found ends : List BlockId} (h : g.collectTerminals stop stack seen found = .ok ends)
    (hfound : ∀ t ∈ found, g.IsDead t) : ∀ t ∈ ends, g.IsDead t := by
  induction stack, seen, found using collectTerminals.induct stop with
  | case1 seen found =>
    rw [collectTerminals] at h
    cases h
    simpa using hfound
  | case2 seen found b rest hlt hmet ih =>
    rw [collectTerminals, dif_pos hlt, dif_pos hmet] at h
    exact ih h hfound
  | case3 seen found b rest hlt hmet ihend ihgo =>
    rw [collectTerminals, dif_pos hlt, dif_neg hmet] at h
    cases hblock : g.block b with
    | error fault =>
      rw [hblock] at h
      exact nomatch h
    | ok block =>
      rw [hblock, ok_bind] at h
      dsimp only at h
      split at h
      · next hnil =>
        refine ihend h fun t ht => ?_
        obtain rfl | ht := List.mem_cons.1 ht
        · exact ⟨block, (block_eq_ok_iff g t block).1 hblock, List.isEmpty_iff.1 hnil⟩
        · exact hfound t ht
      · cases htargets : block.successors.mapM g.target with
        | error fault =>
          rw [htargets] at h
          exact nomatch h
        | ok targets =>
          rw [htargets, ok_bind] at h
          exact ihgo targets h hfound
  | case4 seen found b rest hlt =>
    rw [collectTerminals, dif_neg hlt] at h
    exact nomatch h

theorem isDead_of_terminals {start : BlockId} {stop : Option BlockId} {ends : List BlockId}
    (h : g.terminals start stop = .ok ends) : ∀ t ∈ ends, g.IsDead t :=
  isDead_of_collectTerminals h (by simp)

theorem IsDead.not_settled (h : g.IsDead b) {block : Block} (hblock : g.blocks[b]? = some block)
    (hending : block.flags.ending = false) : ¬ g.Settled b := by
  rintro ⟨block', hblock', hsettled⟩
  obtain ⟨block₀, hblock₀, hnil⟩ := h
  obtain rfl := Option.some.inj (hblock.symm.trans hblock')
  obtain rfl := Option.some.inj (hblock.symm.trans hblock₀)
  simp [hnil, hending] at hsettled

end Graph

namespace Fork

open Graph (Spares Settled)

variable {f : Fork} {g : Graph} {b : BlockId}

theorem isDead_of_terminals {stop : Option BlockId} {ends : List BlockId}
    (h : f.terminals g stop = .ok ends) : ∀ t ∈ ends, g.IsDead t := by
  rw [terminals] at h
  suffices haux : ∀ (branches found ends : List BlockId), (∀ t ∈ found, g.IsDead t) →
      branches.foldlM (fun found branch => do
        return found ++ (← g.terminals branch stop).filter (!found.contains ·)) found =
          (.ok ends : Except Fault (List BlockId)) → ∀ t ∈ ends, g.IsDead t from
    haux f.branches [] ends (by simp) h
  intro branches
  induction branches with
  | nil =>
    rintro found ends hfound ⟨⟩
    exact hfound
  | cons branch rest ih =>
    intro found ends hfound hrun
    rw [List.foldlM_cons] at hrun
    cases hmore : g.terminals branch stop with
    | error fault =>
      rw [hmore] at hrun
      exact nomatch hrun
    | ok more =>
      rw [hmore] at hrun
      refine ih _ ends (fun t ht => ?_) hrun
      obtain ht | ht := List.mem_append.1 ht
      · exact hfound t ht
      · exact Graph.isDead_of_terminals hmore t (List.mem_filter.1 ht).1

/-- **A join** leaves alone what leads somewhere, and also the block that it leads to. -/
theorem close_spares (horigin : f.origin ≠ some b) (originToNext : Bool) (stop : Option BlockId)
    {next : BlockId} (hb : b = next ∨ g.Settled b) :
    Ensures (f.close originToNext stop next) g fun _ g' => g.Spares b g' := by
  refine .get_bind (.lift_bind fun found hfound => ?_)
  have hdead := isDead_of_terminals hfound
  refine .bind (P := fun unjoined g' => g' = g ∧ b ∉ unjoined) ?_ ?_
  · refine Ensures.mono (Ensures.filterM_sound (p := (· ≠ b)) fun c hc => ?_)
      fun unjoined g' h => ⟨h.1, fun hmem => h.2 b hmem rfl⟩
    refine .lift_bind fun block hblock => .pure ⟨rfl, fun hr => ?_⟩
    have hblock := (Graph.block_eq_ok_iff g c block).1 hblock
    simp only [Bool.and_eq_true, bne_iff_ne, ne_eq, Bool.not_eq_true'] at hr
    rintro rfl
    exact hb.elim hr.1 ((hdead c hc).not_settled hblock hr.2)
  · rintro unjoined _ ⟨rfl, hnot⟩
    dsimp only
    have hsources : b ∉ unjoined ++ (if originToNext = true then f.origin.toList else []) := by
      rw [List.mem_append, not_or]
      refine ⟨hnot, fun hmem => ?_⟩
      split at hmem
      · exact horigin (Option.mem_def.1 (Option.mem_toList.1 hmem))
      · simp at hmem
    revert hsources
    generalize unjoined ++ (if originToNext = true then f.origin.toList else []) = sources
    intro hsources
    split
    · exact .pure (.refl b _)
    · refine .bind (Graph.newSlot_spares (b := b) next) fun k g₁ h₁ => ?_
      refine .bind (Graph.forIn_spares fun c hc g₂ => ?_) fun _ _ h₂ => .pure (h₁.trans h₂)
      have hne : c ≠ b := fun h => hsources (h ▸ hc)
      exact .bind (Graph.link_spares hne k) fun _ _ h => .pure h

end Fork

/-! ### Scopes -/

/-- The fork was opened by an in-line PERFORM. -/
def Fork.IsLoop (f : Fork) : Prop := f.opener.any (·.tag == .loop) = true

/-- Nothing that closes the fork is done at the block. A loop has a block for its test and one for
its body, and goes on after its test. -/
structure Fork.Spares (f : Fork) (b : BlockId) : Prop where
  origin : f.origin ≠ some b
  test : f.IsLoop → ∃ test body rest, f.branches = test :: body :: rest ∧ test ≠ b

theorem Fork.spares_openedBy {i : Instruction} {origin b : BlockId} (hi : i.tag ≠ .loop)
    (horigin : origin ≠ b) : (Fork.openedBy i origin).Spares b where
  origin h := horigin (Option.some.inj h)
  test h := absurd (beq_iff_eq.1 h) hi

/-- More branches, and other phrases. -/
theorem Fork.Spares.grow {f f' : Fork} {b : BlockId} (h : f.Spares b)
    (hopener : f'.opener = f.opener) (horigin : f'.origin = f.origin) (more : List BlockId)
    (hbranches : f'.branches = f.branches ++ more) : f'.Spares b where
  origin := horigin ▸ h.origin
  test hloop := by
    obtain ⟨test, body, rest, hf, hne⟩ := h.test (by rwa [IsLoop, hopener] at hloop)
    exact ⟨test, body, rest ++ more, by rw [hbranches, hf]; rfl, hne⟩

/-- Since the scope was `s₀` the block `b` has been left alone. No fork is open at it and nothing
has been put aside at it, and `here` is the block that is current. -/
structure Scope.Aside (s s₀ : Scope) (b : BlockId) (here : Option BlockId) : Prop where
  lt : b < s₀.graph.size
  spares : s₀.graph.Spares b s.graph
  here : s.currentBlock = here
  forks : ∀ f ∈ s.forks, f.Spares b
  awaiting : b ∈ s.awaiting → b ∈ s₀.awaiting
  declaratives : s.declaratives ≠ some b

namespace Scope.Aside

open Graph (Spares Settled)

variable {s₀ s s' : Scope} {b c : BlockId} {here : Option BlockId} {f : Fork} {α : Type}

theorem lt_size (h : s.Aside s₀ b here) : b < s.graph.size := by
  obtain ⟨block, hblock⟩ := Graph.getElem?_eq_some_of_lt h.lt
  exact (Array.getElem?_eq_some_iff.1 (h.spares.block hblock)).1

theorem of_desk (h : s.Aside s₀ b here) (hdesk : s'.desk = s.desk)
    (hspares : s.graph.Spares b s'.graph) : s'.Aside s₀ b here := by
  simp only [desk, stage, Prod.mk.injEq] at hdesk
  obtain ⟨⟨-, hdeclaratives, -⟩, hhere, hforks, hpending⟩ := hdesk
  refine ⟨h.lt, h.spares.trans hspares, hhere.trans h.here, hforks ▸ h.forks, fun hb => ?_,
    hdeclaratives ▸ h.declaratives⟩
  simp only [Scope.awaiting, List.mem_append, hpending] at hb
  refine h.awaiting ?_
  simp only [Scope.awaiting, List.mem_append]
  exact hb.imp_right hspares.calls

theorem editGraph (h : s.Aside s₀ b here) {e : Graph.Edit α} {P : α → Graph → Prop}
    (he : Ensures e s.graph fun a g' => s.graph.Spares b g' ∧ P a g') :
    Ensures (Build.editGraph e) s fun a s' => s'.Aside s₀ b here ∧ P a s'.graph :=
  (Build.editGraph_ensures he).mono fun _ _ h' => ⟨h.of_desk h'.1 h'.2.1, h'.2.2⟩

theorem edit (h : s.Aside s₀ b here) {e : Graph.Edit α}
    (he : Ensures e s.graph fun _ g' => s.graph.Spares b g') :
    Ensures (Build.editGraph e) s fun _ s' => s'.Aside s₀ b here :=
  (Build.editGraph_ensures he).mono fun _ _ h' => h.of_desk h'.1 h'.2

theorem editProcedures (h : s.Aside s₀ b here) (e : Procedures.Edit α) :
    Ensures (Build.editProcedures e) s fun _ s' => s'.Aside s₀ b here :=
  (Build.editProcedures_ensures e).mono fun _ _ h' => h.of_desk h'.1 (h'.2 ▸ .refl b _)

/-- A change of what has nothing to do with blocks. -/
theorem congr (h : s.Aside s₀ b here) (hgraph : s'.graph = s.graph)
    (hhere : s'.currentBlock = s.currentBlock) (hforks : s'.forks = s.forks)
    (hpending : s'.pending = s.pending) (hdeclaratives : s'.declaratives = s.declaratives) :
    s'.Aside s₀ b here where
  lt := h.lt
  spares := hgraph ▸ h.spares
  here := hhere.trans h.here
  forks := hforks ▸ h.forks
  awaiting := by rw [Scope.awaiting, hpending, hgraph]; exact h.awaiting
  declaratives := hdeclaratives ▸ h.declaratives

theorem violate (h : s.Aside s₀ b here) (v : Violation) :
    Ensures (Build.violate v) s fun _ s' => s'.Aside s₀ b here :=
  .modify (h.congr rfl rfl rfl rfl rfl)

theorem setCurrent (h : s.Aside s₀ b here) (c : BlockId) :
    Ensures (Build.setCurrent c) s fun _ s' => s'.Aside s₀ b (some c) :=
  .modify { h with here := rfl }

/-- The block that is current is asked for. -/
theorem current? (h : s.Aside s₀ b here) :
    Ensures Build.current? s fun c? s' => c? = here ∧ s'.Aside s₀ b here := by
  refine .get_bind ?_
  dsimp only
  split
  · exact .bind (h.violate _) fun _ _ h' => .pure ⟨h.here, h'⟩
  · exact .pure ⟨h.here, h⟩

theorem addInstruction (h : s.Aside s₀ b here) (hne : here ≠ some b) (i : Instruction) :
    Ensures (Build.addInstruction i) s fun _ s' => s'.Aside s₀ b here := by
  refine .bind h.current? ?_
  rintro c? s₁ ⟨rfl, h₁⟩
  split
  · exact h₁.edit (Graph.appendInstruction_spares (fun hc => hne (congrArg some hc)) i)
  · exact .pure h₁

theorem markCurrent (h : s.Aside s₀ b here) (hne : here ≠ some b) (m : BlockFlags) :
    Ensures (Build.markCurrent m) s fun _ s' => s'.Aside s₀ b here := by
  refine .bind h.current? ?_
  rintro c? s₁ ⟨rfl, h₁⟩
  split
  · exact h₁.edit (Graph.markBlock_spares (fun hc => hne (congrArg some hc)) m)
  · exact .pure h₁

/-- **A new block** is another one. -/
theorem newBlock (h : s.Aside s₀ b here) (leading : Option Instruction) :
    Ensures (Build.newBlock leading) s fun c s' => s'.Aside s₀ b here ∧ c ≠ b := by
  refine .bind (h.editGraph ((Graph.addBlock_spares h.lt_size).mono fun _ _ h' => h'.2.symm)) ?_
  rintro c s₁ ⟨h₁, hc⟩
  refine .bind Build.currentTag_ensures ?_
  rintro tag _ rfl
  refine .get_bind (.bind (h₁.edit (Graph.modifyBlock_spares hc _)) fun _ s₂ h₂ => ?_)
  have hlisted : ∀ s₃ : Scope, s₃.Aside s₀ b here →
      Ensures (Build.enlist c) s₃ fun c s' => s'.Aside s₀ b here ∧ c ≠ b := fun s₃ h₃ => by
    refine .get_bind ?_
    split
    · exact .bind (h₃.editProcedures _) fun _ _ h₄ => .pure ⟨h₄, hc⟩
    · exact .pure ⟨h₃, hc⟩
  cases leading with
  | none => exact hlisted s₂ h₂
  | some i =>
    exact .bind (h₂.edit (Graph.appendInstruction_spares hc i)) fun _ s₃ h₃ => hlisted s₃ h₃

theorem breakBlock (h : s.Aside s₀ b here) : Ensures Build.breakBlock s fun c s' =>
    s'.Aside s₀ b (some c) ∧ c ≠ b :=
  .bind (h.newBlock none) fun c _ h₁ => .bind (h₁.1.setCurrent c) fun _ _ h₂ => .pure ⟨h₂, h₁.2⟩

/-! ### Forks -/

theorem pushFork (h : s.Aside s₀ b here) (hf : f.Spares b) :
    Ensures (Build.pushFork f) s fun _ s' => s'.Aside s₀ b here :=
  .modify { h with forks := List.forall_mem_cons.2 ⟨hf, h.forks⟩ }

theorem popFork? (h : s.Aside s₀ b here) : Ensures Build.popFork? s fun f? s' =>
    s'.Aside s₀ b here ∧ ∀ f ∈ f?, f.Spares b := by
  refine .get_bind ?_
  split
  · next f outer hforks =>
    have hall := List.forall_mem_cons.1 (hforks ▸ h.forks)
    exact .modify_bind (.pure ⟨{ h with forks := hall.2 }, by simpa using hall.1⟩)
  · exact .bind (h.violate _) fun _ _ h' => .pure ⟨h', by simp⟩

theorem modifyForks (h : s.Aside s₀ b here) {forks : List Fork} (hforks : ∀ f ∈ forks, f.Spares b) :
    ({ s with forks } : Scope).Aside s₀ b here := { h with forks := hforks }

/-- A branch is opened in another block or in this one. -/
theorem openBranch (h : s.Aside s₀ b here) (c : BlockId) :
    Ensures (Build.openBranch c) s fun _ s' => s'.Aside s₀ b (some c) := by
  refine .get_bind ?_
  split
  · next f outer hforks =>
    have hall := List.forall_mem_cons.1 (hforks ▸ h.forks)
    have hadd : Ensures (f.addBranch c) s.graph fun f' g' => s.graph.Spares b g' ∧ f'.Spares b := by
      rw [Fork.addBranch]
      split
      · next origin horigin =>
        have hne : origin ≠ b := fun he => hall.1.origin (he ▸ horigin)
        exact .bind (Graph.addEdge_spares hne c) fun k _ h₁ =>
          .pure ⟨h₁, hall.1.grow rfl rfl [c] rfl⟩
      · exact .pure ⟨.refl b _, hall.1.grow rfl rfl [c] rfl⟩
    refine .bind (h.editGraph hadd) ?_
    rintro f' s₁ ⟨h₁, hf'⟩
    exact .modify_bind ((h₁.modifyForks (List.forall_mem_cons.2 ⟨hf', hall.2⟩)).setCurrent c)
  · exact h.setCurrent c

theorem takePhrases (h : s.Aside s₀ b here) (depth : Nat) :
    Ensures (Build.takePhrases depth) s fun _ s' => s'.Aside s₀ b here := by
  refine .modifyGet (h.modifyForks fun f hf => ?_)
  obtain ⟨j, hj⟩ := List.mem_iff_getElem?.1 hf
  rw [List.getElem?_modify] at hj
  obtain ⟨f₀, hf₀, rfl⟩ := Option.map_eq_some_iff.1 hj
  have hspares := h.forks f₀ (List.mem_of_getElem? hf₀)
  split
  · exact hspares.grow rfl rfl [] (List.append_nil _).symm
  · exact hspares

theorem deferPhrase (h : s.Aside s₀ b here) (i : Instruction) :
    Ensures (Build.deferPhrase i) s fun _ s' => s'.Aside s₀ b here := by
  refine .get_bind ?_
  split
  · next f outer hforks =>
    have hall := List.forall_mem_cons.1 (hforks ▸ h.forks)
    exact .modify (h.modifyForks (List.forall_mem_cons.2
      ⟨hall.1.grow rfl rfl [] (List.append_nil _).symm, hall.2⟩))
  · exact h.violate _

/-- A fork is joined in a new block. -/
theorem joinFork (h : s.Aside s₀ b here) (hb : s₀.graph.Settled b) (hf : f.Spares b)
    (onward : Bool) : Ensures (Build.joinFork f onward) s fun _ s' =>
      ∃ c, s'.Aside s₀ b (some c) ∧ c ≠ b := by
  refine .bind (h.newBlock none) ?_
  rintro c s₁ ⟨h₁, hc⟩
  refine .bind (h₁.edit (Fork.close_spares hf.origin onward none
    (.inr (h₁.spares.settled hb)))) fun _ s₂ h₂ => ?_
  exact (h₂.setCurrent c).mono fun _ _ h₃ => ⟨c, h₃, hc⟩

end Scope.Aside

end CobolFlow
