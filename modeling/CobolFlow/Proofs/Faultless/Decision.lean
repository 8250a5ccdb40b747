import CobolFlow.Build.Decision
import CobolFlow.Proofs.Faultless.Division

/-!
# Decisions find what they need

A fork may be continued or closed that another statement opened, and a clause may begin where no
fork is open. The handles in a fork are in range whoever put them there, which is all that a step
on it relies on.
-/

namespace CobolFlow.Build

variable {s : Scope} {b : BlockId} {f : Fork}

/-! ### The stack of forks -/

theorem pushFork_faultless (hf : f.Inside s.graph) :
    Faultless (pushFork f) s fun _ _ => True :=
  .modify (fun hs => { hs with forks := by simpa using ⟨hf, hs.forks⟩ })
    (Scope.le_of_extent_eq rfl) trivial

theorem popFork?_faultless :
    Faultless popFork? s fun f? s' => ∀ f ∈ f?, f.Inside s'.graph := by
  refine .get_bind fun hs => ?_
  split
  · next f outer hforks =>
    have hin : ∀ g ∈ f :: outer, g.Inside s.graph := fun g hg => hs.forks g (hforks ▸ hg)
    refine .modify_bind (fun hs => { hs with forks := fun g hg => hin g (by simp [hg]) })
      (Scope.le_of_extent_eq rfl) (.pure fun _ g hg => ?_)
    exact Option.mem_some.1 hg ▸ hin f (by simp)
  · exact .bind (violate_faultless _) fun _ _ _ _ _ => .pure fun _ => by simp

theorem popCascade_faultless :
    Faultless popCascade s fun r s' =>
      (∀ f ∈ r.1, f.Inside s'.graph) ∧ ∀ f ∈ r.2, f.Inside s'.graph := by
  refine .get_bind fun hs => ?_
  refine .set_bind (fun hs => { hs with
    forks := fun f hf => hs.forks f ((List.dropWhile_sublist _).mem hf) })
    (Scope.le_of_extent_eq rfl) ?_
  refine .bind popFork?_faultless fun f? s₁ _ h₁ hf => ?_
  exact .pure fun _ => ⟨fun g hg =>
    (hs.forks g ((List.takeWhile_sublist _).mem hg)).mono h₁.1, hf⟩

theorem openBranch_faultless (hb : b < s.graph.size) :
    Faultless (openBranch b) s fun _ _ => True := by
  refine .get_bind fun hs => ?_
  dsimp only
  split
  · next f outer hforks =>
    have hf : f.Inside s.graph := hs.forks f (by simp [hforks])
    refine .bind (editGraph_faultless (Fork.addBranch_faultless hf hb)) fun f' s₁ _ h₁ hf' => ?_
    refine .modify_bind (fun hs₁ => { hs₁ with forks := fun g hg => ?_ })
      (Scope.le_of_extent_eq rfl) (setCurrent_faultless (hb.trans_le h₁.1.1))
    obtain rfl | hg := List.mem_cons.1 hg
    · exact hf'.2
    · exact (hs.forks g (by simp [hforks, hg])).mono h₁.1
  · exact setCurrent_faultless hb

theorem joinFork_faultless (hf : f.Inside s.graph) (originToNext : Bool) :
    Faultless (joinFork f originToNext) s fun _ _ => True := by
  refine .bind (newBlock_faultless none) fun next s₁ _ h₁ hnext => ?_
  refine .bind (editGraph_faultless (Fork.close_faultless (hf.mono h₁.1) _ _ hnext.1))
    fun _ s₂ _ h₂ _ => ?_
  exact setCurrent_faultless (hnext.1.trans_le h₂.1.1)

theorem takePhrases_faultless (depth : ℕ) : Faultless (takePhrases depth) s fun _ s' =>
    s'.graph = s.graph := by
  refine .modifyGet (fun hs => { hs with forks := fun f hf => ?_ }) (Scope.le_of_extent_eq rfl) rfl
  obtain ⟨k, hk⟩ := List.mem_iff_getElem?.1 hf
  rw [List.getElem?_modify] at hk
  obtain ⟨old, hold, hf⟩ := Option.map_eq_some_iff.1 hk
  have hin := hs.forks old (List.mem_iff_getElem?.2 ⟨k, hold⟩)
  subst hf
  split
  · exact { hin with }
  · exact hin

theorem deferPhrase_faultless (i : Instruction) : Faultless (deferPhrase i) s fun _ _ => True := by
  refine .get_bind fun hs => ?_
  split
  · next f outer hforks =>
    refine .modify (fun hs => { hs with forks := fun g hg => ?_ })
      (Scope.le_of_extent_eq rfl) trivial
    obtain rfl | hg := List.mem_cons.1 hg
    · exact { hs.forks f (by simp [hforks]) with }
    · exact hs.forks g (by simp [hforks, hg])
  · exact (violate_faultless _).runs

theorem isDefault_faultless {branch : Option BlockId} (h : ∀ b ∈ branch, b < s.graph.size) :
    Faultless (isDefault branch) s fun _ s' => s' = s := by
  unfold isDefault
  split
  · next b =>
    refine .get_bind fun _ => ?_
    obtain ⟨block, hok, -⟩ := Graph.exists_block_eq_ok (h b rfl)
    exact .lift_bind hok (.pure fun _ => rfl)
  · exact .pure fun _ => rfl

theorem inside_openedBy (i : Instruction) (hb : b < s.graph.size) :
    (Fork.openedBy i b).Inside s.graph where
  origin c hc := Option.mem_some.1 hc ▸ hb
  branches := by simp [Fork.openedBy]
  branchSlots := by simp [Fork.openedBy]
  root := by simp [Fork.openedBy]
  rootSlot := by simp [Fork.openedBy]

/-! ### IF -/

theorem enterElse_faultless (i : Option Instruction) :
    Faultless (enterElse i) s fun _ _ => True :=
  .bind (newBlock_faultless i) fun _ _ _ _ hb => openBranch_faultless hb.1

theorem enterIf_faultless (i : Instruction) : Faultless (enterIf i) s fun _ _ => True := by
  refine .bind current?_faultless fun b? s₁ _ _ hb => ?_
  split
  · next origin =>
    refine .bind (pushFork_faultless (inside_openedBy i (hb.2 origin rfl))) fun _ s₂ _ _ _ => ?_
    refine .bind (addInstruction_faultless i) fun _ s₃ _ _ _ => ?_
    exact enterElse_faultless none
  · exact .pure fun _ => trivial

theorem leaveIf_faultless : Faultless leaveIf s fun _ _ => True := by
  refine .bind popFork?_faultless fun f? s₁ _ _ hf => ?_
  split
  · exact joinFork_faultless (hf _ rfl) _
  · exact .pure fun _ => trivial

/-! ### EVALUATE -/

theorem enterEvaluate_faultless (i : Instruction) :
    Faultless (enterEvaluate i) s fun _ _ => True := by
  refine .bind current?_faultless fun b? s₁ _ _ hb => ?_
  split
  · next origin =>
    exact .bind (pushFork_faultless (inside_openedBy i (hb.2 origin rfl))) fun _ _ _ _ _ =>
      addInstruction_faultless i
  · exact .pure fun _ => trivial

theorem pushLevel_faultless : Faultless pushLevel s fun _ _ => True := by
  refine .bind current?_faultless fun b? s₁ _ _ hb => ?_
  split
  · next origin =>
    refine .get_bind fun hs₁ => ?_
    have hbelow : ∀ f ∈ s₁.forks.head?, f.Inside s₁.graph := fun f hf =>
      hs₁.forks f (List.mem_of_head? hf)
    refine .bind (pushFork_faultless ?_) fun _ s₂ _ _ _ => ?_
    · refine ⟨fun c hc => Option.mem_some.1 hc ▸ hb.2 origin rfl, by simp, by simp, ?_, ?_⟩
      · intro c hc
        obtain ⟨f, hf, hroot⟩ := Option.bind_eq_some_iff.1 hc
        exact (hbelow f hf).root c hroot
      · intro t ht
        obtain ⟨f, hf, hroot⟩ := Option.bind_eq_some_iff.1 ht
        exact (hbelow f hf).rootSlot t hroot
    refine .bind (takePhrases_faultless 1) fun phrases s₃ _ _ _ => ?_
    refine .bind (P := fun _ _ => True) (.forIn (fun _ => trivial) ?_) fun _ s₄ _ _ _ => ?_
    · exact fun phrase _ _ s₄ _ _ _ => .bind (addInstruction_faultless phrase)
        fun _ _ _ _ _ => .pure fun _ => trivial
    · exact enterElse_faultless none
  · exact .pure fun _ => trivial

theorem openPhraseBranch_faultless (flags : BlockFlags) :
    Faultless (openPhraseBranch flags) s fun _ _ => True := by
  refine .bind (takePhrases_faultless 0) fun phrases s₁ _ _ _ => ?_
  refine .bind (newBlock_faultless none) fun b s₂ _ _ hb => ?_
  refine .bind (editGraph_faultless (Graph.markBlock_faultless hb.1 flags)) fun _ s₃ _ h₃ _ => ?_
  refine .bind (P := fun _ _ => True) (.forIn (fun _ => trivial) ?_) fun _ s₄ _ h₄ _ => ?_
  · intro phrase _ _ s₄ _ h₄ _
    refine .bind (editGraph_faultless (Graph.appendInstruction_faultless
      (hb.1.trans_le (h₃.1.1.trans h₄.1.1)) phrase)) fun _ _ _ _ _ => .pure fun _ => trivial
  · exact openBranch_faultless (hb.1.trans_le (h₃.1.1.trans h₄.1.1))

theorem startWhen_faultless (o : Options) : Faultless (startWhen o) s fun _ _ => True := by
  refine .get_bind fun _ => ?_
  split
  · exact (violate_faultless _).runs
  · next top =>
    dsimp only
    split
    · split
      · exact pushLevel_faultless
      · exact .bind (enterElse_faultless none) fun _ _ _ _ _ => pushLevel_faultless
    · exact openPhraseBranch_faultless _

theorem startWhenOther_faultless : Faultless startWhenOther s fun _ _ => True := by
  refine .get_bind fun _ => ?_
  split
  · exact (violate_faultless _).runs
  · refine .bind (takePhrases_faultless 0) fun phrases s₁ _ _ _ => ?_
    refine .bind (newBlock_faultless none) fun b s₂ _ _ hb => ?_
    refine .bind (editGraph_faultless (Graph.markBlock_faultless hb.1 _)) fun _ s₃ _ h₃ _ => ?_
    refine .bind (P := fun _ _ => True) (.forIn (fun _ => trivial) ?_) fun _ s₄ _ h₄ _ => ?_
    · intro phrase _ _ s₄ _ _ _
      exact .bind (editGraph_faultless (Graph.setBlockFor_faultless _)) fun _ _ _ _ _ =>
        .pure fun _ => trivial
    · exact openBranch_faultless (hb.1.trans_le (h₃.1.1.trans h₄.1.1))

theorem joinLevels_faultless {levels : List Fork} (h : ∀ f ∈ levels, f.Inside s.graph) :
    Faultless (forIn levels PUnit.unit fun level _ => do
      joinFork level (level.branches.length == 1)
      pure (ForInStep.yield PUnit.unit) : Build PUnit) s fun _ _ => True := by
  refine .forIn (fun _ => trivial) fun level hlevel _ s₁ _ h₁ _ => ?_
  exact .bind (joinFork_faultless ((h level hlevel).mono h₁.1) _) fun _ _ _ _ _ =>
    .pure fun _ => trivial

theorem lastBranch?_lt (hf : f.Inside s.graph) : ∀ b ∈ f.lastBranch?, b < s.graph.size :=
  fun b hb => hf.branches b (List.mem_of_getLast? hb)

theorem leaveEvaluate_faultless (o : Options) :
    Faultless (leaveEvaluate o) s fun _ _ => True := by
  have hjoin : ∀ (f : Fork) (s₁ : Scope), f.Inside s₁.graph →
      Faultless (do joinFork f !(← isDefault f.lastBranch?)) s₁ fun _ _ => True :=
    fun f s₁ hf => .bind (isDefault_faultless (lastBranch?_lt hf)) fun _ _ _ _ h =>
      joinFork_faultless (h ▸ hf) _
  unfold leaveEvaluate
  split
  · refine .bind popCascade_faultless fun ⟨levels, statement?⟩ s₁ _ _ hin => ?_
    refine .bind (joinLevels_faultless hin.1) fun _ s₂ _ h₂ _ => ?_
    split
    · next f =>
      split
      · exact .pure fun _ => trivial
      · exact hjoin f s₂ ((hin.2 f rfl).mono h₂.1)
    · exact .pure fun _ => trivial
  · refine .bind popFork?_faultless fun f? s₁ _ _ hf => ?_
    split
    · exact hjoin _ s₁ (hf _ rfl)
    · exact .pure fun _ => trivial

/-! ### SEARCH -/

theorem enterSearch_faultless (o : Options) (i : Instruction) :
    Faultless (enterSearch o i) s fun _ _ => True := by
  refine .bind current?_faultless fun b? s₁ _ _ hb => ?_
  split
  · next here =>
    have hhere := hb.2 here rfl
    split
    · refine .get_bind fun _ => ?_
      obtain ⟨block, hok, -⟩ := Graph.exists_block_eq_ok hhere
      refine .lift_bind hok ?_
      have hbody : ∀ (s₂ : Scope) (root : BlockId) (rootSlot : Option SlotId),
          root < s₂.graph.size → (∀ t ∈ rootSlot, t < s₂.graph.slots.size) → Faultless (do
            let body ← newBlock none
            let _ ← editGraph (Graph.addEdge root body)
            pushFork { Fork.openedBy i body with root := some root, rootSlot }
            setCurrent body) s₂ fun _ _ => True := fun s₂ root rootSlot hroot hslot => by
        refine .bind (newBlock_faultless none) fun body s₃ _ h₃ hbody => ?_
        refine .bind (editGraph_faultless (Graph.addEdge_faultless (hroot.trans_le h₃.1.1)
          hbody.1)) fun _ s₄ _ h₄ _ => ?_
        have hbody₄ := hbody.1.trans_le h₄.1.1
        refine .bind (pushFork_faultless { inside_openedBy i hbody₄ with
            root := fun c hc => ?_, rootSlot := fun t ht => ?_ }) fun _ s₅ _ h₅ _ => ?_
        · exact Option.mem_some.1 hc ▸ hroot.trans_le (h₃.1.1.trans h₄.1.1)
        · exact (hslot t ht).trans_le (h₃.1.2.1.trans h₄.1.2.1)
        · exact setCurrent_faultless (hbody₄.trans_le h₅.1.1)
      simp only [pure_bind]
      split
      · refine .bind (addInstruction_faultless i) fun _ s₂ _ h₂ _ => ?_
        exact hbody s₂ here none (hhere.trans_le h₂.1.1) (by simp)
      · refine .bind (newBlock_faultless _) fun b s₂ _ h₂ hb => ?_
        refine .bind (editGraph_faultless (Graph.addEdge_faultless (hhere.trans_le h₂.1.1) hb.1))
          fun slot s₃ _ h₃ hslot => ?_
        refine hbody s₃ b (some slot) (hb.1.trans_le h₃.1.1) fun t ht => ?_
        exact Option.mem_some.1 ht ▸ hslot.2.1
    · exact .bind (pushFork_faultless (inside_openedBy i hhere)) fun _ _ _ _ _ =>
        addInstruction_faultless i
  · exact .pure fun _ => trivial

theorem startSearchWhen_faultless (o : Options) (atEnd : Bool) :
    Faultless (startSearchWhen o atEnd) s fun _ _ => True := by
  refine .get_bind fun hs => ?_
  split
  · exact (violate_faultless _).runs
  · next top htop =>
    have htop : top.Inside s.graph := hs.forks top (List.mem_of_head? htop)
    split
    · exact openPhraseBranch_faultless _
    · split
      · split
        · split
          · next origin horigin =>
            exact .bind (setCurrent_faultless (htop.origin origin horigin)) fun _ _ _ _ _ =>
              pushLevel_faultless
          · exact pushLevel_faultless
        · exact pushLevel_faultless
      · exact .bind (enterElse_faultless none) fun _ _ _ _ _ => pushLevel_faultless

theorem closeSearchLevels_faultless {levels : List Fork} (h : ∀ f ∈ levels, f.Inside s.graph) :
    Faultless (closeSearchLevels levels) s fun b? s' => ∀ b ∈ b?, b < s'.graph.size := by
  unfold closeSearchLevels
  split
  · exact .pure fun _ => by simp
  · next last outer =>
    have hlast := h last (by simp)
    refine .bind (newBlock_faultless none) fun next s₁ _ h₁ hnext => ?_
    refine .bind (editGraph_faultless (Fork.close_faultless (hlast.mono h₁.1) _ _ hnext.1))
      fun _ s₂ _ h₂ _ => ?_
    have hle₂ : s ≤ s₂ := h₁.trans h₂
    have hrest : ∀ s₃ : Scope, s₂ ≤ s₃ → Faultless (do
        setCurrent next
        for level in outer do
          joinFork level (level.branches.length == 1)
        return (← get).currentBlock) s₃ fun b? s' => ∀ b ∈ b?, b < s'.graph.size :=
      fun s₃ h₃ => by
        refine .bind (setCurrent_faultless (hnext.1.trans_le (h₂.1.1.trans h₃.1.1)))
          fun _ s₄ _ h₄ _ => ?_
        have hle₄ : s ≤ s₄ := hle₂.trans (h₃.trans h₄)
        refine .bind (joinLevels_faultless fun f hf => (h f (by simp [hf])).mono hle₄.1)
          fun _ s₅ _ _ _ => ?_
        exact .get_bind fun hs₅ => .pure fun _ => hs₅.currentBlock
    split
    · next origin root hboth =>
      obtain ⟨horigin, hroot⟩ := Prod.mk.inj hboth
      have hlast₂ := hlast.mono hle₂.1
      have hlink : ∀ (s₃ : Scope) (slot : SlotId), s₂ ≤ s₃ → slot < s₃.graph.slots.size →
          Faultless (do
            let _ ← editGraph (Graph.link origin slot)
            setCurrent next
            for level in outer do
              joinFork level (level.branches.length == 1)
            return (← get).currentBlock) s₃ fun b? s' => ∀ b ∈ b?, b < s'.graph.size :=
        fun s₃ slot h₃ hslot => .bind (editGraph_faultless (Graph.link_faultless
          ((hlast₂.origin origin horigin).trans_le h₃.1.1) hslot)) fun _ s₄ _ h₄ _ =>
            hrest s₄ (h₃.trans h₄)
      split
      · next slot hslot => exact hlink s₂ slot le_rfl (hlast₂.rootSlot slot hslot)
      · refine .bind (editGraph_faultless (Graph.newSlot_faultless (hlast₂.root root hroot)))
          fun slot s₃ _ h₃ hslot => hlink s₃ slot h₃ hslot.2.1
    · exact hrest s₂ le_rfl

theorem leaveSearch_faultless (o : Options) :
    Faultless (leaveSearch o) s fun _ _ => True := by
  unfold leaveSearch
  split
  · refine .bind popCascade_faultless fun ⟨levels, statement?⟩ s₁ _ _ hin => ?_
    refine .bind (closeSearchLevels_faultless hin.1) fun continuation s₂ _ h₂ hcont => ?_
    split
    · next f =>
      have hf₂ := (hin.2 f rfl).mono h₂.1
      have hclose : ∀ (stop : Option BlockId) (next : BlockId) (s₃ : Scope), s₂ ≤ s₃ →
          next < s₃.graph.size →
          Faultless (editGraph (f.close f.branches.isEmpty stop next)) s₃ fun _ _ => True :=
        fun _ _ _ h₃ hnext =>
          (editGraph_faultless (Fork.close_faultless (hf₂.mono h₃.1) _ _ hnext)).runs
      simp only [pure_bind]
      cases continuation with
      | some b =>
        dsimp only
        split <;> exact hclose _ b s₂ le_rfl (hcont b rfl)
      | none =>
        refine .bind breakBlock_faultless fun next s₃ _ h₃ hnext => ?_
        split <;> exact hclose _ next s₃ h₃ hnext
    · exact .pure fun _ => trivial
  · refine .bind popFork?_faultless fun f? s₁ _ _ hf => ?_
    split
    · next f =>
      have hhead : ∀ b ∈ f.branches.head?, b < s₁.graph.size := fun b hb =>
        (hf f rfl).branches b (List.mem_of_head? hb)
      exact .bind (isDefault_faultless hhead) fun _ _ _ _ h => joinFork_faultless (h ▸ hf f rfl) _
    · exact .pure fun _ => trivial

/-! ### In-line PERFORM -/

theorem Inside.trackBranch {slot : SlotId} (hf : f.Inside s.graph) (hb : b < s.graph.size)
    (hslot : slot < s.graph.slots.size) : (f.trackBranch b slot).Inside s.graph :=
  { hf with
    branches := fun c hc => (List.mem_append.1 hc).elim (hf.branches c) fun h =>
      List.mem_singleton.1 h ▸ hb
    branchSlots := fun t ht => (List.mem_append.1 ht).elim (hf.branchSlots t) fun h =>
      List.mem_singleton.1 h ▸ hslot }

theorem enterLoop_faultless (i : Instruction) (testAfter : Bool) :
    Faultless (enterLoop i testAfter) s fun _ _ => True := by
  refine .bind current?_faultless fun b? s₁ _ _ hb => ?_
  split
  · next origin =>
    refine .bind (newBlock_faultless _) fun test s₂ _ h₂ htest => ?_
    refine .bind (newBlock_faultless none) fun body s₃ _ h₃ hbody => ?_
    have horigin₃ := (hb.2 origin rfl).trans_le (h₂.1.1.trans h₃.1.1)
    have htest₃ := htest.1.trans_le h₃.1.1
    have hopen : ∀ (s₄ : Scope) (testSlot bodySlot : SlotId), s₃ ≤ s₄ →
        testSlot < s₄.graph.slots.size → bodySlot < s₄.graph.slots.size → Faultless (do
          let _ ← editGraph (Graph.link test bodySlot)
          pushFork (((Fork.openedBy i origin).trackBranch test testSlot).trackBranch body bodySlot)
          setCurrent body) s₄ fun _ _ => True := fun s₄ testSlot bodySlot h₄ ht hb => by
      refine .bind (editGraph_faultless (Graph.link_faultless (htest₃.trans_le h₄.1.1) hb))
        fun _ s₅ _ h₅ _ => ?_
      have hle₅ : s₃ ≤ s₅ := h₄.trans h₅
      refine .bind (pushFork_faultless (Inside.trackBranch (Inside.trackBranch
        (inside_openedBy i (horigin₃.trans_le hle₅.1.1)) (htest₃.trans_le hle₅.1.1)
        (ht.trans_le h₅.1.2.1)) (hbody.1.trans_le hle₅.1.1) (hb.trans_le h₅.1.2.1)))
        fun _ s₆ _ h₆ _ => ?_
      exact setCurrent_faultless (hbody.1.trans_le (hle₅.1.1.trans h₆.1.1))
    simp only [pure_bind]
    split
    · refine .bind (editGraph_faultless (Graph.addEdge_faultless horigin₃ hbody.1))
        fun bodySlot s₄ _ h₄ hbodySlot => ?_
      refine .bind (editGraph_faultless (Graph.newSlot_faultless (htest₃.trans_le h₄.1.1)))
        fun testSlot s₅ _ h₅ htestSlot => ?_
      exact hopen s₅ testSlot bodySlot (h₄.trans h₅) htestSlot.2.1
        (hbodySlot.2.1.trans_le h₅.1.2.1)
    · refine .bind (editGraph_faultless (Graph.addEdge_faultless horigin₃ htest₃))
        fun testSlot s₄ _ h₄ htestSlot => ?_
      refine .bind (editGraph_faultless (Graph.newSlot_faultless (hbody.1.trans_le h₄.1.1)))
        fun bodySlot s₅ _ h₅ hbodySlot => ?_
      exact hopen s₅ testSlot bodySlot (h₄.trans h₅) (htestSlot.2.1.trans_le h₅.1.2.1)
        hbodySlot.2.1
  · exact .pure fun _ => trivial

theorem leaveLoop_faultless (repetition : Repetition) :
    Faultless (leaveLoop repetition) s fun _ _ => True := by
  refine .bind popFork?_faultless fun f? s₁ _ _ hf => ?_
  split
  · next f =>
    have hf := hf f rfl
    split
    · next test body _ testSlot _ hbranches hslots =>
      refine .get_bind fun hs₁ => ?_
      have htest := hf.branches test (by simp [hbranches])
      have hbody := hf.branches body (by simp [hbranches])
      have htestSlot := hf.branchSlots testSlot (by simp [hslots])
      obtain ⟨unjoined, hunjoined, hmem⟩ :=
        Graph.exists_terminals_eq_ok hs₁.graph.checked hbody none
      have hlt : ∀ b ∈ unjoined, b < s₁.graph.size := fun b hb =>
        ((hmem b).1 hb).2.lt_size hs₁.graph.checked hbody
      refine .lift_bind hunjoined ?_
      refine .bind (newBlock_faultless none) fun next s₂ _ h₂ hnext => ?_
      refine .bind (editGraph_faultless (Graph.newSlot_faultless hnext.1))
        fun nextSlot s₃ _ h₃ hnextSlot => ?_
      have hback : ∀ (s₄ : Scope) (back : SlotId), s₃ ≤ s₄ → back < s₄.graph.slots.size →
          Faultless (do
            for b in unjoined do
              unless (← (← get).graph.block b).flags.ending do
                let _ ← editGraph (Graph.link b back)
            setCurrent next) s₄ fun _ _ => True := fun s₄ back h₄ hback => by
        have hle₄ : s₁ ≤ s₄ := h₂.trans (h₃.trans h₄)
        refine .bind (P := fun _ _ => True) (.forIn (fun _ => trivial) ?_) fun _ s₅ _ h₅ _ =>
          setCurrent_faultless (hnext.1.trans_le (h₃.1.1.trans (h₄.1.1.trans h₅.1.1)))
        intro b hb _ s₅ _ h₅ _
        have hb₅ := (hlt b hb).trans_le (hle₄.1.1.trans h₅.1.1)
        refine .get_bind fun _ => ?_
        obtain ⟨block, hok, -⟩ := Graph.exists_block_eq_ok hb₅
        refine .lift_bind hok ?_
        split
        · exact .pure fun _ => trivial
        · exact .bind (editGraph_faultless (Graph.link_faultless hb₅ (hback.trans_le h₅.1.2.1)))
            fun _ _ _ _ _ => .pure fun _ => trivial
      have hle₃ : s₁ ≤ s₃ := h₂.trans h₃
      dsimp only
      split
      · refine .bind (editGraph_faultless (Graph.link_faultless (htest.trans_le hle₃.1.1)
          hnextSlot.2.1)) fun _ s₄ _ h₄ _ => ?_
        exact hback s₄ testSlot h₄ (htestSlot.trans_le (hle₃.1.2.1.trans h₄.1.2.1))
      · exact hback s₃ nextSlot le_rfl hnextSlot.2.1
    · exact (violate_faultless _).runs
  · exact .pure fun _ => trivial

/-! ### Exception phrases -/

theorem isSearchAtEnd_faultless (phrase : ExceptionPhrase) :
    Faultless (isSearchAtEnd phrase) s fun _ s' => s' = s :=
  .get_bind fun _ => .pure fun _ => rfl

theorem enterException_faultless (o : Options) (i : Instruction) (phrase : ExceptionPhrase) :
    Faultless (enterException o i phrase) s fun _ _ => True := by
  refine .bind (isSearchAtEnd_faultless phrase) fun isAtEnd s₁ _ _ _ => ?_
  split
  · exact .bind (deferPhrase_faultless i) fun _ _ _ _ _ => startSearchWhen_faultless o true
  · refine .bind current?_faultless fun b? s₂ _ _ hb => ?_
    split
    · next origin =>
      refine .bind (pushFork_faultless (inside_openedBy i (hb.2 origin rfl))) fun _ _ _ _ _ => ?_
      exact enterElse_faultless (some i)
    · exact .pure fun _ => trivial

theorem leaveException_faultless (phrase : ExceptionPhrase) :
    Faultless (leaveException phrase) s fun _ _ => True := by
  refine .bind (isSearchAtEnd_faultless phrase) fun isAtEnd s₁ _ _ _ => ?_
  split
  · exact .pure fun _ => trivial
  · refine .bind popFork?_faultless fun f? s₂ _ _ hf => ?_
    split
    · exact joinFork_faultless (hf _ rfl) true
    · exact .pure fun _ => trivial

end CobolFlow.Build
