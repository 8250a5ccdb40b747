import CobolFlow.Build.Replay
import CobolFlow.Proofs.Place.Behind
import CobolFlow.Proofs.Trace.Advance

/-!
# What is left behind stays

A block that is left behind and leads somewhere, or ends the program, is not touched by any further
notification inside of the division. The only other thing that has to be known of the notifications
is that a loop is left while its own fork is the innermost: the fork of a loop goes on after its
first branch, which for other forks is where their first alternative begins.

## Main definitions

* `Scope.Behind` — a block that is left behind
* `Notification.Meets` — the division goes on, and a loop is left where its fork is

## Main results

* `Build.take_behind` — what is left behind stays behind
-/

namespace CobolFlow

open Graph (Settled)

/-- Since the scope was `s₀` the block has been left alone, and another one is current. -/
def Scope.Behind (s s₀ : Scope) (b : BlockId) : Prop :=
  ∃ here, s.Aside s₀ b here ∧ here ≠ some b

namespace Scope.Behind

variable {s₀ s : Scope} {b c : BlockId} {o : Options} {i : Instruction} {f : Fork}

theorem of_aside (h : s.Aside s₀ b (some c)) (hc : c ≠ b) : s.Behind s₀ b :=
  ⟨some c, h, fun he => hc (Option.some.inj he)⟩

/-! ### Statements without parts -/

theorem addInstruction (h : s.Behind s₀ b) (i : Instruction) :
    Ensures (Build.addInstruction i) s fun _ s' => s'.Behind s₀ b := by
  obtain ⟨here, h, hne⟩ := h
  exact (h.addInstruction hne i).mono fun _ _ h' => ⟨here, h', hne⟩

theorem breakBlock (h : s.Behind s₀ b) : Ensures Build.breakBlock s fun c s' =>
    s'.Behind s₀ b ∧ s'.Aside s₀ b (some c) ∧ c ≠ b := by
  obtain ⟨here, h, hne⟩ := h
  exact h.breakBlock.mono fun _ _ h' => ⟨of_aside h'.1 h'.2, h'⟩

theorem enterEnding (h : s.Behind s₀ b) (i : Instruction) :
    Ensures (Build.enterEnding i) s fun _ s' => s'.Behind s₀ b := by
  obtain ⟨here, h, hne⟩ := h
  refine .bind (h.addInstruction hne i) fun _ s₁ h₁ => ?_
  refine .bind (h₁.markCurrent hne _) fun _ s₂ h₂ => ?_
  exact .bind h₂.breakBlock fun _ _ h₃ => .pure (of_aside h₃.1 h₃.2)


/-- More is put aside, but not at this block. -/
theorem withPending {here : Option BlockId} (h : s.Aside s₀ b here) {pending : Pending}
    (hb : b ∈ ({ s with pending } : Scope).awaiting → b ∈ s.awaiting) :
    ({ s with pending } : Scope).Aside s₀ b here :=
  { h with awaiting := fun hmem => h.awaiting (hb hmem) }

theorem enterJump (h : s.Behind s₀ b) (i : Instruction) (span : Span) (jump : Jump) :
    Ensures (Build.enterJump i span jump) s fun _ s' => s'.Behind s₀ b := by
  obtain ⟨here, h, hne⟩ := h
  refine .bind h.current? ?_
  rintro c? s₁ ⟨rfl, h₁⟩
  split
  · next c =>
    have hc : c ≠ b := fun he => hne (congrArg some he)
    have h₂ : ({ s₁ with pending := { s₁.pending with
        jumps := s₁.pending.jumps ++ [{ node := i.node, span, jump, block := c }] } } : Scope).Aside
          s₀ b (some c) := withPending h₁ (by
      simp only [Scope.awaiting, List.mem_append, List.map_append, List.map_cons, List.map_nil,
        List.mem_singleton, hc.symm, or_false]
      exact id)
    refine .modify_bind (.bind (h₂.addInstruction hne i) fun _ s₃ h₃ => ?_)
    split
    · refine .bind (h₃.markCurrent hne _) fun _ s₄ h₄ => ?_
      exact .bind h₄.breakBlock fun _ _ h₅ => .pure (of_aside h₅.1 h₅.2)
    · refine .bind h₃.breakBlock fun next s₄ h₄ => ?_
      exact .bind (h₄.1.edit (Graph.addEdge_spares hc next)) fun _ _ h₅ =>
        .pure (of_aside h₅ h₄.2)
  · exact .pure ⟨_, h₁, hne⟩

theorem enterNextSentence (h : s.Behind s₀ b) (i : Instruction) :
    Ensures (Build.enterNextSentence i) s fun _ s' => s'.Behind s₀ b := by
  obtain ⟨here, h, hne⟩ := h
  refine .bind h.current? ?_
  rintro c? s₁ ⟨rfl, h₁⟩
  split
  · next c =>
    have hc : c ≠ b := fun he => hne (congrArg some he)
    refine .bind (h₁.addInstruction hne i) fun _ s₂ h₂ => ?_
    refine .bind (h₂.markCurrent hne _) fun _ s₃ h₃ => .get_bind ?_
    have hbreak : ∀ s₄ : Scope, s₄.Aside s₀ b (some c) → Ensures (do
        let _ ← Build.breakBlock
        pure () : Build Unit) s₄ fun _ s' => s'.Behind s₀ b := fun s₄ h₄ =>
      .bind h₄.breakBlock fun _ _ h₅ => .pure (of_aside h₅.1 h₅.2)
    split
    · refine .modify_bind (hbreak _ (withPending h₃ ?_))
      simp only [Scope.awaiting, List.mem_append, List.map_append, List.map_cons, List.map_nil,
        List.mem_singleton, hc.symm, or_false]
      exact id
    · exact hbreak s₃ h₃
  · exact .pure ⟨_, h₁, hne⟩

theorem enterAlter (h : s.Behind s₀ b) (i : Instruction) (span : Span)
    (clauses : List AlterClause) :
    Ensures (Build.enterAlter i span clauses) s fun _ s' => s'.Behind s₀ b := by
  obtain ⟨here, h, hne⟩ := h
  exact .bind (h.addInstruction hne i) fun _ s₁ h₁ =>
    .modify ⟨here, withPending h₁ id, hne⟩

theorem enterPerform (h : s.Behind s₀ b) (i : Instruction) (span : Span) (range : PerformRange) :
    Ensures (Build.enterPerform i span range) s fun _ s' => s'.Behind s₀ b := by
  obtain ⟨here, h, hne⟩ := h
  refine .bind h.current? ?_
  rintro c? s₁ ⟨rfl, h₁⟩
  split
  · next c =>
    have hc : c ≠ b := fun he => hne (congrArg some he)
    refine .bind (h₁.newBlock _) fun site s₂ ⟨h₂, hsite⟩ => ?_
    refine .bind (h₂.edit (Graph.addGroup_spares hsite _ _)) fun group s₃ h₃ => ?_
    refine .bind (h₃.edit Graph.markCompound_spares) fun _ s₄ h₄ => ?_
    refine .bind (h₄.edit (Graph.addEdge_spares hc site)) fun _ s₅ h₅ => ?_
    refine .bind h₅.breakBlock fun next s₆ ⟨h₆, hnext⟩ => ?_
    refine .bind (h₆.edit (Graph.addEdge_spares hsite next)) fun _ s₇ h₇ => ?_
    exact .modify (of_aside (withPending h₇ id) hnext)
  · exact .pure ⟨_, h₁, hne⟩

/-! ### Decisions -/

/-- A decision begins at the block that is current. -/
theorem pushFork {here : Option BlockId} (h : s.Aside s₀ b here) (hne : here ≠ some b) {c : BlockId}
    (hc : here = some c) (hi : i.tag ≠ .loop) :
    Ensures (Build.pushFork (.openedBy i c)) s fun _ s' => s'.Aside s₀ b here :=
  h.pushFork (Fork.spares_openedBy hi fun he => hne (he ▸ hc))

/-- A branch is opened in a new block. -/
theorem openNew {here : Option BlockId} (h : s.Aside s₀ b here) (leading : Option Instruction) :
    Ensures (Build.newBlock leading >>= Build.openBranch) s fun _ s' => s'.Behind s₀ b :=
  .bind (h.newBlock leading) fun c _ h₁ => (h₁.1.openBranch c).mono fun _ _ h₂ => of_aside h₂ h₁.2

theorem enterIf (h : s.Behind s₀ b) (hi : i.tag ≠ .loop) :
    Ensures (Build.enterIf i) s fun _ s' => s'.Behind s₀ b := by
  obtain ⟨here, h, hne⟩ := h
  refine .bind h.current? ?_
  rintro c? s₁ ⟨rfl, h₁⟩
  split
  · refine .bind (pushFork h₁ hne rfl hi) fun _ s₂ h₂ => ?_
    exact .bind (h₂.addInstruction hne i) fun _ s₃ h₃ => openNew h₃ none
  · exact .pure ⟨_, h₁, hne⟩

theorem enterElse (h : s.Behind s₀ b) (i : Option Instruction) :
    Ensures (Build.enterElse i) s fun _ s' => s'.Behind s₀ b := by
  obtain ⟨here, h, -⟩ := h
  exact openNew h i

theorem enterEvaluate (h : s.Behind s₀ b) (hi : i.tag ≠ .loop) :
    Ensures (Build.enterEvaluate i) s fun _ s' => s'.Behind s₀ b := by
  obtain ⟨here, h, hne⟩ := h
  refine .bind h.current? ?_
  rintro c? s₁ ⟨rfl, h₁⟩
  split
  · refine .bind (pushFork h₁ hne rfl hi) fun _ s₂ h₂ => ?_
    exact (h₂.addInstruction hne i).mono fun _ _ h₃ => ⟨_, h₃, hne⟩
  · exact .pure ⟨_, h₁, hne⟩

theorem deferPhrase (h : s.Behind s₀ b) (i : Instruction) :
    Ensures (Build.deferPhrase i) s fun _ s' => s'.Behind s₀ b := by
  obtain ⟨here, h, hne⟩ := h
  exact (h.deferPhrase i).mono fun _ _ h' => ⟨here, h', hne⟩

theorem pushLevel (h : s.Behind s₀ b) : Ensures Build.pushLevel s fun _ s' => s'.Behind s₀ b := by
  obtain ⟨here, h, hne⟩ := h
  refine .bind h.current? ?_
  rintro c? s₁ ⟨rfl, h₁⟩
  split
  · next c =>
    have hc : c ≠ b := fun he => hne (congrArg some he)
    refine .get_bind (.bind (h₁.pushFork ⟨fun he => hc (Option.some.inj he), by simp [Fork.IsLoop]⟩)
      fun _ s₂ h₂ => ?_)
    refine .bind (h₂.takePhrases 1) fun phrases s₃ h₃ => ?_
    refine .bind (.forIn (P := fun _ (s' : Scope) => s'.Aside s₀ b (some c)) h₃
      fun phrase _ _ s₄ h₄ => ?_)
      fun _ s₄ h₄ => openNew h₄ none
    exact .bind (h₄.addInstruction hne phrase) fun _ _ h₅ => .pure h₅
  · exact .pure ⟨_, h₁, hne⟩

theorem openPhraseBranch (h : s.Behind s₀ b) (flags : BlockFlags) :
    Ensures (Build.openPhraseBranch flags) s fun _ s' => s'.Behind s₀ b := by
  obtain ⟨here, h, hne⟩ := h
  refine .bind (h.takePhrases 0) fun phrases s₁ h₁ => ?_
  refine .bind (h₁.newBlock none) fun c s₂ ⟨h₂, hc⟩ => ?_
  refine .bind (h₂.edit (Graph.markBlock_spares hc flags)) fun _ s₃ h₃ => ?_
  refine .bind (.forIn (P := fun _ (s' : Scope) => s'.Aside s₀ b here) h₃
    fun phrase _ _ s₄ h₄ => ?_)
    fun _ s₄ h₄ => (h₄.openBranch c).mono fun _ _ h₅ => of_aside h₅ hc
  exact .bind (h₄.edit (Graph.appendInstruction_spares hc phrase)) fun _ _ h₅ => .pure h₅

theorem violate (h : s.Behind s₀ b) (v : Violation) :
    Ensures (Build.violate v) s fun _ s' => s'.Behind s₀ b := by
  obtain ⟨here, h, hne⟩ := h
  exact (h.violate v).mono fun _ _ h' => ⟨here, h', hne⟩

theorem startWhen (h : s.Behind s₀ b) :
    Ensures (Build.startWhen o) s fun _ s' => s'.Behind s₀ b := by
  refine .get_bind ?_
  split
  · exact h.violate _
  · split
    · split
      · exact h.pushLevel
      · exact .bind (h.enterElse none) fun _ _ h' => h'.pushLevel
    · exact h.openPhraseBranch _

theorem startWhenOther (h : s.Behind s₀ b) :
    Ensures Build.startWhenOther s fun _ s' => s'.Behind s₀ b := by
  refine .get_bind ?_
  split
  · exact h.violate _
  · obtain ⟨here, h, hne⟩ := h
    refine .bind (h.takePhrases 0) fun phrases s₁ h₁ => ?_
    refine .bind (h₁.newBlock none) fun c s₂ ⟨h₂, hc⟩ => ?_
    refine .bind (h₂.edit (Graph.markBlock_spares hc _)) fun _ s₃ h₃ => ?_
    refine .bind (.forIn (P := fun _ (s' : Scope) => s'.Aside s₀ b here) h₃
      fun phrase _ _ s₄ h₄ => ?_)
      fun _ s₄ h₄ => (h₄.openBranch c).mono fun _ _ h₅ => of_aside h₅ hc
    exact .bind (h₄.edit (Graph.setBlockFor_spares phrase.node c)) fun _ _ h₅ => .pure h₅

theorem startSearchWhen (h : s.Behind s₀ b) (atEnd : Bool) :
    Ensures (Build.startSearchWhen o atEnd) s fun _ s' => s'.Behind s₀ b := by
  refine .get_bind ?_
  split
  · exact h.violate _
  · next top hhead =>
    split
    · exact h.openPhraseBranch _
    · split
      · dsimp only
        split
        · split
          · next origin horigin =>
            obtain ⟨here, h, -⟩ := h
            have htop := h.forks top (List.mem_of_mem_head? hhead)
            have hne : origin ≠ b := fun he => htop.origin (he ▸ horigin)
            exact .bind (h.setCurrent origin) fun _ _ h' => (of_aside h' hne).pushLevel
          · exact h.pushLevel
        · exact h.pushLevel
      · exact .bind (h.enterElse none) fun _ _ h' => h'.pushLevel

theorem enterSearch (h : s.Behind s₀ b) (hi : i.tag ≠ .loop) :
    Ensures (Build.enterSearch o i) s fun _ s' => s'.Behind s₀ b := by
  obtain ⟨here, h, hne⟩ := h
  refine .bind h.current? ?_
  rintro c? s₁ ⟨rfl, h₁⟩
  split
  · next c =>
    have hc : c ≠ b := fun he => hne (congrArg some he)
    split
    · refine .get_bind (.lift_bind fun block hblock => ?_)
      dsimp only
      have hbegin : ∀ (root : BlockId) (slot : Option SlotId) (s₂ : Scope), root ≠ b →
          s₂.Aside s₀ b (some c) → Ensures (do
            let body ← Build.newBlock none
            let _ ← Build.editGraph (Graph.addEdge root body)
            Build.pushFork { Fork.openedBy i body with root := some root, rootSlot := slot }
            Build.setCurrent body : Build Unit) s₂ fun _ s' => s'.Behind s₀ b := by
        intro root slot s₂ hroot h₂
        refine .bind (h₂.newBlock none) fun body s₃ ⟨h₃, hbody⟩ => ?_
        refine .bind (h₃.edit (Graph.addEdge_spares hroot body)) fun _ s₄ h₄ => ?_
        have hfork := Fork.spares_openedBy hi hbody
        refine .bind (h₄.pushFork (hfork.grow rfl rfl [] rfl)) fun _ s₅ h₅ => ?_
        exact (h₅.setCurrent body).mono fun _ _ h₆ => of_aside h₆ hbody
      split
      · exact .bind (h₁.addInstruction hne i) fun _ s₂ h₂ => hbegin c none s₂ hc h₂
      · refine .bind (h₁.newBlock (some i)) fun root s₂ ⟨h₂, hroot⟩ => ?_
        exact .bind (h₂.edit (Graph.addEdge_spares hc root)) fun slot s₃ h₃ =>
          hbegin root (some slot) s₃ hroot h₃
    · refine .bind (pushFork h₁ hne rfl hi) fun _ s₂ h₂ => ?_
      exact (h₂.addInstruction hne i).mono fun _ _ h₃ => ⟨_, h₃, hne⟩
  · exact .pure ⟨_, h₁, hne⟩

theorem enterLoop (h : s.Behind s₀ b) (i : Instruction) (testAfter : Bool) :
    Ensures (Build.enterLoop i testAfter) s fun _ s' => s'.Behind s₀ b := by
  obtain ⟨here, h, hne⟩ := h
  refine .bind h.current? ?_
  rintro c? s₁ ⟨rfl, h₁⟩
  split
  · next c =>
    have hc : c ≠ b := fun he => hne (congrArg some he)
    refine .bind (h₁.newBlock (some i)) fun test s₂ ⟨h₂, htest⟩ => ?_
    refine .bind (h₂.newBlock none) fun body s₃ ⟨h₃, hbody⟩ => ?_
    have hbegin : ∀ (testSlot bodySlot : SlotId) (s₄ : Scope), s₄.Aside s₀ b (some c) → Ensures (do
        let _ ← Build.editGraph (Graph.link test bodySlot)
        Build.pushFork (((Fork.openedBy i c).trackBranch test testSlot).trackBranch body bodySlot)
        Build.setCurrent body : Build Unit) s₄ fun _ s' => s'.Behind s₀ b := by
      intro testSlot bodySlot s₄ h₄
      refine .bind (h₄.edit (Graph.link_spares htest bodySlot)) fun _ s₅ h₅ => ?_
      refine .bind (h₅.pushFork ⟨fun he => hc (Option.some.inj he), fun _ =>
        ⟨test, body, [], rfl, htest⟩⟩) fun _ s₆ h₆ => ?_
      exact (h₆.setCurrent body).mono fun _ _ h₇ => of_aside h₇ hbody
    split
    · refine .bind (h₃.edit (Graph.addEdge_spares hc body)) fun bodySlot s₄ h₄ => ?_
      exact .bind (h₄.edit (Graph.newSlot_spares test)) fun testSlot s₅ h₅ =>
        hbegin testSlot bodySlot s₅ h₅
    · refine .bind (h₃.edit (Graph.addEdge_spares hc test)) fun testSlot s₄ h₄ => ?_
      exact .bind (h₄.edit (Graph.newSlot_spares body)) fun bodySlot s₅ h₅ =>
        hbegin testSlot bodySlot s₅ h₅
  · exact .pure ⟨_, h₁, hne⟩

theorem isSearchAtEnd (phrase : ExceptionPhrase) :
    Ensures (Build.isSearchAtEnd phrase) s fun _ s' => s' = s := .get_bind (.pure rfl)

theorem enterException (h : s.Behind s₀ b) (hi : i.tag ≠ .loop) (phrase : ExceptionPhrase) :
    Ensures (Build.enterException o i phrase) s fun _ s' => s'.Behind s₀ b := by
  refine .bind (isSearchAtEnd phrase) ?_
  rintro r _ rfl
  split
  · exact .bind (h.deferPhrase i) fun _ _ h' => h'.startSearchWhen true
  · obtain ⟨here, h, hne⟩ := h
    refine .bind h.current? ?_
    rintro c? s₁ ⟨rfl, h₁⟩
    split
    · exact .bind (pushFork h₁ hne rfl hi) fun _ s₂ h₂ => openNew h₂ (some i)
    · exact .pure ⟨_, h₁, hne⟩

/-! ### The ends of decisions -/

section Settled

variable (hb : s₀.graph.Settled b)

include hb

theorem joinFork (h : s.Behind s₀ b) (hf : f.Spares b) (onward : Bool) :
    Ensures (Build.joinFork f onward) s fun _ s' => s'.Behind s₀ b := by
  obtain ⟨here, h, -⟩ := h
  exact (h.joinFork hb hf onward).mono fun _ _ ⟨c, h', hc⟩ => of_aside h' hc

omit hb in
theorem popFork? (h : s.Behind s₀ b) : Ensures Build.popFork? s fun f? s' =>
    s'.Behind s₀ b ∧ ∀ f ∈ f?, f.Spares b := by
  obtain ⟨here, h, hne⟩ := h
  exact h.popFork?.mono fun _ _ h' => ⟨⟨here, h'.1, hne⟩, h'.2⟩

/-- The innermost fork is closed. -/
theorem popJoin (h : s.Behind s₀ b) (onward : Fork → Bool) :
    Ensures (do
      if let some f ← Build.popFork? then
        Build.joinFork f (onward f)) s fun _ s' => s'.Behind s₀ b := by
  refine .bind h.popFork? fun f? s₁ ⟨h₁, hf⟩ => ?_
  split
  · exact h₁.joinFork hb (hf _ rfl) _
  · exact .pure h₁

omit hb in
theorem popCascade (h : s.Behind s₀ b) : Ensures Build.popCascade s fun r s' =>
    s'.Behind s₀ b ∧ (∀ f ∈ r.1, f.Spares b) ∧ ∀ f ∈ r.2, f.Spares b := by
  obtain ⟨here, h, hne⟩ := h
  refine .get_bind (.set_bind (.bind (h.modifyForks fun f hf =>
    h.forks f ((List.dropWhile_sublist _).subset hf)).popFork? fun f? s₁ ⟨h₁, hf⟩ => .pure ?_))
  exact ⟨⟨here, h₁, hne⟩, fun f hf => h.forks f ((List.takeWhile_sublist _).subset hf), hf⟩

theorem joinLevels (h : s.Behind s₀ b) {levels : List Fork} (hlevels : ∀ f ∈ levels, f.Spares b) :
    Ensures (ForIn.forIn levels PUnit.unit fun level _ => do
        Build.joinFork level (level.branches.length == 1)
        pure (ForInStep.yield PUnit.unit) : Build PUnit) s fun _ s' => s'.Behind s₀ b :=
  .forIn (P := fun _ (s' : Scope) => s'.Behind s₀ b) h fun level hlevel _ _ h' =>
    .bind (h'.joinFork hb (hlevels level hlevel) _) fun _ _ h'' => .pure h''

/-- A fork is closed, unless its only branch is one that is always taken. -/
theorem joinDefault (h : s.Behind s₀ b) (hf : f.Spares b) (branch : Option BlockId) :
    Ensures (do
      Build.joinFork f !(← Build.isDefault branch)) s fun _ s' => s'.Behind s₀ b :=
  .bind (Scope.Wrote.isDefault (P := fun _ (s' : Scope) => s'.Behind s₀ b) branch fun _ => h)
    fun _ _ h' => h'.joinFork hb hf _

theorem leaveEvaluate (h : s.Behind s₀ b) :
    Ensures (Build.leaveEvaluate o) s fun _ s' => s'.Behind s₀ b := by
  rw [Build.leaveEvaluate]
  split
  · refine .bind h.popCascade fun r s₁ ⟨h₁, hlevels, hf⟩ => ?_
    refine .bind (h₁.joinLevels hb hlevels) fun _ s₂ h₂ => ?_
    split
    · next f hr =>
      split
      · exact .pure h₂
      · exact h₂.joinDefault hb (hf f hr) _
    · exact .pure h₂
  · refine .bind h.popFork? fun f? s₁ ⟨h₁, hf⟩ => ?_
    split
    · exact h₁.joinDefault hb (hf _ rfl) _
    · exact .pure h₁

theorem closeSearchLevels (h : s.Behind s₀ b) {levels : List Fork}
    (hlevels : ∀ f ∈ levels, f.Spares b) :
    Ensures (Build.closeSearchLevels levels) s fun c? s' => s'.Behind s₀ b ∧
      ∀ c ∈ c?, s'.currentBlock = some c := by
  cases levels with
  | nil => exact .pure ⟨h, by simp⟩
  | cons last outer =>
    obtain ⟨hlast, houter⟩ := List.forall_mem_cons.1 hlevels
    obtain ⟨here, h, -⟩ := h
    refine .bind (h.newBlock none) fun next s₁ ⟨h₁, hnext⟩ => ?_
    refine .bind (h₁.edit (Fork.close_spares hlast.origin false none
      (.inr (h₁.spares.settled hb)))) fun _ s₂ h₂ => ?_
    have hrest : ∀ s₃ : Scope, s₃.Aside s₀ b here → Ensures (do
        Build.setCurrent next
        for level in outer do
          Build.joinFork level (level.branches.length == 1)
        return (← get).currentBlock : Build (Option BlockId)) s₃ fun c? s' => s'.Behind s₀ b ∧
          ∀ c ∈ c?, s'.currentBlock = some c := fun s₃ h₃ => by
      refine .bind (h₃.setCurrent next) fun _ s₄ h₄ => ?_
      refine .bind ((of_aside h₄ hnext).joinLevels hb houter) fun _ s₅ h₅ => ?_
      exact .get_bind (.pure ⟨h₅, fun c hc => hc⟩)
    dsimp only
    split
    · next _ origin root horigin =>
      have hne : origin ≠ b := fun he => hlast.origin (he ▸ (Prod.mk.inj horigin).1)
      split
      · exact .pure_bind <| .bind (h₂.edit (Graph.link_spares hne _)) fun _ s₃ h₃ => hrest s₃ h₃
      · refine .bind (h₂.edit (Graph.newSlot_spares root)) fun slot s₃ h₃ => ?_
        exact .bind (h₃.edit (Graph.link_spares hne slot)) fun _ s₄ h₄ => hrest s₄ h₄
    · exact hrest s₂ h₂

theorem leaveSearch (h : s.Behind s₀ b) :
    Ensures (Build.leaveSearch o) s fun _ s' => s'.Behind s₀ b := by
  rw [Build.leaveSearch]
  split
  · refine .bind h.popCascade fun r s₁ ⟨h₁, hlevels, hf⟩ => ?_
    refine .bind (h₁.closeSearchLevels hb hlevels) fun c? s₂ ⟨h₂, hhere⟩ => ?_
    split
    · next f hr =>
      have hclose : ∀ (stop : Option BlockId) (next : BlockId) (s₃ : Scope), s₃.Behind s₀ b →
          Ensures (Build.editGraph (f.close f.branches.isEmpty stop next)) s₃
            fun _ s' => s'.Behind s₀ b := by
        rintro stop next s₃ ⟨here, h₃, hne⟩
        have hsettled := Or.inr (a := b = next) (h₃.spares.settled hb)
        exact (h₃.edit (Fork.close_spares (hf f hr).origin _ _ hsettled)).mono
          fun _ _ h₄ => ⟨here, h₄, hne⟩
      dsimp only
      split
      · split <;> exact hclose _ _ s₂ h₂
      · refine .bind h₂.breakBlock fun next s₃ h₃ => ?_
        split <;> exact hclose _ next s₃ h₃.1
    · exact .pure h₂
  · refine .bind h.popFork? fun f? s₁ ⟨h₁, hf⟩ => ?_
    split
    · exact h₁.joinDefault hb (hf _ rfl) _
    · exact .pure h₁

/-- A block that is left behind ends the program if it is an open end. -/
theorem ending_of_isDead {here : Option BlockId} (h : s.Aside s₀ b here)
    (hdead : s.graph.IsDead b) {block : Block} (hblock : s₀.graph.blocks[b]? = some block) :
    block.flags.ending = true := by
  obtain ⟨block₁, hblock₁, hnil⟩ := hdead
  obtain rfl := Option.some.inj ((h.spares.block hblock).symm.trans hblock₁)
  obtain ⟨block₂, hblock₂, hsettled⟩ := hb
  obtain rfl := Option.some.inj (hblock.symm.trans hblock₂)
  exact hsettled.resolve_left fun hne => hne hnil

/-- The fork of a loop goes on after its test, which is not left behind. -/
theorem leaveLoop (h : s.Behind s₀ b) (hloop : ∀ f ∈ s.forks.head?, f.IsLoop)
    (repetition : Repetition) :
    Ensures (Build.leaveLoop repetition) s fun _ s' => s'.Behind s₀ b := by
  have hpop : Ensures Build.popFork? s fun f? s' => (s'.Behind s₀ b ∧ ∀ f ∈ f?, f.Spares b) ∧
      ∀ f ∈ f?, f.IsLoop := by
    refine h.popFork?.and (.get_bind ?_)
    split
    · next f outer hforks => exact .modify_bind (.pure (by simpa [hforks] using hloop))
    · exact .modify_bind (.pure (by simp))
  refine .bind hpop fun f? s₁ ⟨⟨⟨here, h₁, hne⟩, hf⟩, hf'⟩ => ?_
  split
  · next f _ =>
    split
    · next test body more testSlot slots hbranches hslots =>
      have htest : test ≠ b := by
        obtain ⟨_, _, _, hshape, hne⟩ := (hf f rfl).test (hf' f rfl)
        exact (List.cons.inj (hbranches.symm.trans hshape)).1 ▸ hne
      refine .get_bind (.lift_bind fun unjoined hunjoined => ?_)
      have hdead := Graph.isDead_of_terminals hunjoined
      refine .bind (h₁.newBlock none) fun next s₂ ⟨h₂, hnext⟩ => ?_
      refine .bind (h₂.edit (Graph.newSlot_spares next)) fun nextSlot s₃ h₃ => ?_
      have hrest : ∀ (back : SlotId) (s₄ : Scope), s₄.Aside s₀ b here → Ensures (do
          for c in unjoined do
            unless (← (← get).graph.block c).flags.ending do
              let _ ← Build.editGraph (Graph.link c back)
          Build.setCurrent next : Build Unit) s₄ fun _ s' => s'.Behind s₀ b := fun back s₄ h₄ => by
        refine .bind (.forIn (P := fun _ (s' : Scope) => s'.Aside s₀ b here) h₄
          fun c hc _ s₅ h₅ => ?_)
          fun _ s₅ h₅ => (h₅.setCurrent next).mono fun _ _ h₆ => of_aside h₆ hnext
        refine .get_bind (.lift_bind fun block hblock => ?_)
        split
        · exact .pure h₅
        · next hending =>
          refine .bind (h₅.edit (Graph.link_spares (fun he => ?_) _)) fun _ _ h₆ => .pure h₆
          subst he
          obtain ⟨block₀, hblock₀, -⟩ := id hb
          have hsame := Option.some.inj ((h₅.spares.block hblock₀).symm.trans
            ((Graph.block_eq_ok_iff _ _ _).1 hblock))
          exact hending (hsame ▸ ending_of_isDead hb h₁ (hdead c hc) hblock₀)
      dsimp only
      split
      · exact .bind (h₃.edit (Graph.link_spares htest _)) fun _ s₄ h₄ => hrest _ s₄ h₄
      · exact hrest _ s₃ h₃
    · exact (h₁.violate _).mono fun _ _ h₂ => ⟨here, h₂, hne⟩
  · exact .pure ⟨here, h₁, hne⟩

theorem leaveException (h : s.Behind s₀ b) (phrase : ExceptionPhrase) :
    Ensures (Build.leaveException phrase) s fun _ s' => s'.Behind s₀ b := by
  refine .bind (isSearchAtEnd phrase) ?_
  rintro r _ rfl
  split
  · exact .pure h
  · exact h.popJoin hb fun _ => true

end Settled

/-! ### Sentences and headings -/

theorem startSentence (h : s.Behind s₀ b) :
    Ensures Build.startSentence s fun _ s' => s'.Behind s₀ b := by
  obtain ⟨here, h, hne⟩ := h
  refine .get_bind (.bind (h.editProcedures _) fun sentence s₁ h₁ => .modify_bind ?_)
  have h₁ : ({ s₁ with currentSentence := some sentence } : Scope).Aside s₀ b here :=
    h₁.congr rfl rfl rfl rfl rfl
  refine .bind (h₁.newBlock none) fun c s₂ ⟨h₂, hc⟩ => ?_
  refine .get_bind (.set_bind ?_)
  have h₃ : ({ s₂ with declarativeEntry := false } : Scope).Aside s₀ b here :=
    h₂.congr rfl rfl rfl rfl rfl
  have hgo : ∀ s₄ : Scope, s₄.Aside s₀ b here →
      Ensures (Build.setCurrent c) s₄ fun _ s' => s'.Behind s₀ b := fun s₄ h₄ =>
    (h₄.setCurrent c).mono fun _ _ h₅ => of_aside h₅ hc
  dsimp only
  split
  · exact .bind (h₃.edit (Graph.addRoot_spares c)) fun _ s₄ h₄ => hgo s₄ h₄
  · split
    · next previous hprevious =>
      have hprevious : previous ≠ b := fun he => hne (he ▸ h₂.here.symm.trans hprevious)
      refine .bind (h₃.edit (Graph.addEdge_spares hprevious c)) fun slot s₄ h₄ => ?_
      exact .bind (h₄.editProcedures _) fun _ s₅ h₅ => hgo s₅ h₅
    · exact hgo _ h₃

theorem ensureSentence (h : s.Behind s₀ b) :
    Ensures Build.ensureSentence s fun _ s' => s'.Behind s₀ b := by
  refine .get_bind ?_
  split
  · exact h.startSentence
  · exact .pure h

/-- A change of what has nothing to do with blocks. -/
theorem congr {s' : Scope} (h : s.Behind s₀ b) (hgraph : s'.graph = s.graph)
    (hhere : s'.currentBlock = s.currentBlock) (hforks : s'.forks = s.forks)
    (hpending : s'.pending = s.pending) (hdeclaratives : s'.declaratives = s.declaratives) :
    s'.Behind s₀ b := by
  obtain ⟨here, h, hne⟩ := h
  exact ⟨here, h.congr hgraph hhere hforks hpending hdeclaratives, hne⟩

theorem endSentence (h : s.Behind s₀ b) :
    Ensures Build.endSentence s fun _ s' => s'.Behind s₀ b := by
  refine .get_bind ?_
  split
  · exact .bind h.ensureSentence fun _ _ h' => .modify (h'.congr rfl rfl rfl rfl rfl)
  · exact .pure h

theorem editProcedures {α : Type} (h : s.Behind s₀ b) (e : Procedures.Edit α) :
    Ensures (Build.editProcedures e) s fun _ s' => s'.Behind s₀ b := by
  obtain ⟨here, h, hne⟩ := h
  exact (h.editProcedures e).mono fun _ _ h' => ⟨here, h', hne⟩

theorem enterSection (h : s.Behind s₀ b) (name : String) (span : Span) :
    Ensures (Build.enterSection name span) s fun _ s' => s'.Behind s₀ b :=
  .get_bind (.bind (h.editProcedures _) fun _ _ h' => .modify (h'.congr rfl rfl rfl rfl rfl))

theorem enterParagraph (h : s.Behind s₀ b) (name : String) (span : Span) :
    Ensures (Build.enterParagraph name span) s fun _ s' => s'.Behind s₀ b :=
  .get_bind (.bind (h.editProcedures _) fun _ _ h' => .modify (h'.congr rfl rfl rfl rfl rfl))

theorem enterDeclaratives (h : s.Behind s₀ b) :
    Ensures Build.enterDeclaratives s fun _ s' => s'.Behind s₀ b := by
  refine .get_bind ?_
  cases horigin : s.currentBlock with
  | none =>
    dsimp only
    split
    · exact .modify_bind (.pure (h.congr rfl rfl rfl rfl rfl))
    · exact .pure h
  | some origin =>
    have hset : ∀ s' : Scope, s'.Behind s₀ b → s'.currentBlock = s.currentBlock →
        Ensures (modify fun s => { s with declaratives := some origin } : Build Unit) s'
          fun _ s' => s'.Behind s₀ b := by
      rintro s' ⟨here, h', hne⟩ hhere
      refine .modify ⟨here, { h' with declaratives := fun he => ?_ }, hne⟩
      exact hne (h'.here.symm.trans (hhere.trans (horigin.trans he)))
    dsimp only
    split
    · exact .modify_bind (hset _ (h.congr rfl rfl rfl rfl rfl) rfl)
    · exact hset s h rfl

theorem leaveDeclaratives (h : s.Behind s₀ b) :
    Ensures Build.leaveDeclaratives s fun _ s' => s'.Behind s₀ b := by
  obtain ⟨here, h, hne⟩ := h
  refine .bind (h.editProcedures _) fun root s₁ h₁ => .get_bind (.modify_bind ?_)
  have h₂ : ({ s₁ with
      declarativeEntry := false, currentSection := some root, currentParagraph := none
      declaratives := none } : Scope).Aside s₀ b here :=
    { h₁ with declaratives := by simp }
  split
  · next origin horigin =>
    have hne : origin ≠ b := fun he => h₁.declaratives (he ▸ horigin)
    refine .bind (h₂.newBlock none) fun next s₃ ⟨h₃, hnext⟩ => ?_
    refine .bind (h₃.edit (.bind (Graph.addEdge_spares hne next) fun _ _ h₄ => .pure h₄))
      fun _ s₄ h₄ => ?_
    exact (h₄.setCurrent next).mono fun _ _ h₅ => of_aside h₅ hnext
  · exact .pure ⟨here, h₂, hne⟩

theorem finishBlocks (h : s.Behind s₀ b) :
    Ensures Build.finishBlocks s fun _ s' => s'.Behind s₀ b := by
  obtain ⟨here, h, hne⟩ := h
  have h₀ : ({ s with currentSentence := none } : Scope).Aside s₀ b here :=
    h.congr rfl rfl rfl rfl rfl
  refine .modify_bind (.bind (h₀.editGraph ((Graph.addBlock_spares h₀.lt_size).mono
    fun _ _ h' => h'.2.symm)) fun c s₁ ⟨h₁, hc⟩ => ?_)
  refine .bind (h₁.edit (Graph.markBlock_spares hc _)) fun _ s₂ h₂ => .get_bind ?_
  dsimp only
  split
  · next last hlast =>
    have hlast : last ≠ b := fun he => hne (he ▸ h₂.here.symm.trans hlast)
    refine .bind (h₂.edit (Graph.addEdge_spares hlast c)) fun _ s₃ h₃ => ?_
    exact (h₃.setCurrent c).mono fun _ _ h₄ => of_aside h₄ hc
  · exact (h₂.setCurrent c).mono fun _ _ h₃ => of_aside h₃ hc

end Scope.Behind

/-! ### Notifications -/

/-- No division begins or ends, and a loop is left while its own fork is the innermost. -/
def Notification.Meets : Notification → Scope → Prop
  | .enter n, _ => n.tag ≠ .procedureDivision
  | .leave n, s => n.tag ≠ .procedureDivision ∧ (n.tag = .loop → ∀ f ∈ s.forks.head?, f.IsLoop)
  | _, _ => True

namespace Build

variable {s₀ s : Scope} {b : BlockId} {o : Options} {n : Node} {e : Notification}

theorem enterKind_behind (h : s.Behind s₀ b) :
    Ensures (enterKind o n) s fun _ s' => s'.Behind s₀ b := by
  rw [enterKind]
  have htag : ∀ kind, n.kind = kind → n.tag = kind.tag := fun kind hkind => congrArg _ hkind
  cases hkind : n.kind with
  | program _ => exact .pure h
  | function _ => exact .pure h
  | procedureDivision => exact .pure h
  | declaratives => exact h.enterDeclaratives
  | sectionHeader name => exact h.enterSection name _
  | paragraphHeader name => exact h.enterParagraph name _
  | ifThen => exact h.enterIf (by simp [htag _ hkind, NodeKind.tag])
  | elsePart => exact h.enterElse _
  | evaluate => exact h.enterEvaluate (by simp [htag _ hkind, NodeKind.tag])
  | whenPhrase => exact h.deferPhrase _
  | whenOther => exact h.deferPhrase _
  | searchWhen => exact h.deferPhrase _
  | search => exact h.enterSearch (by simp [htag _ hkind, NodeKind.tag])
  | alter clauses => exact h.enterAlter _ _ clauses
  | goTo jump => exact h.enterJump _ _ jump
  | nextSentence => exact h.enterNextSentence _
  | perform range => exact h.enterPerform _ _ range
  | loop repetition testAfter => exact h.enterLoop _ testAfter
  | terminate ending => exact h.enterEnding _
  | exception phrase => exact h.enterException (by simp [htag _ hkind, NodeKind.tag]) phrase
  | exit => exact h.addInstruction _
  | call _ => exact h.addInstruction _
  | ordinary _ => exact h.addInstruction _

theorem enterInside_behind (h : s.Behind s₀ b) :
    Ensures (enterInside o n) s fun _ s' => s'.Behind s₀ b := by
  obtain ⟨here, h, hne⟩ := h
  refine .bind (h.edit (Graph.recordNode_spares n)) fun _ s₁ h₁ => ?_
  have h₁ : s₁.Behind s₀ b := ⟨here, h₁, hne⟩
  split
  · exact .bind h₁.ensureSentence fun _ _ h₂ => enterKind_behind h₂
  · exact enterKind_behind h₁

theorem leaveInside_behind (hb : s₀.graph.Settled b) (h : s.Behind s₀ b)
    (hmeets : Notification.Meets (.leave n) s) :
    Ensures (leaveInside o n) s fun _ s' => s'.Behind s₀ b := by
  rw [leaveInside]
  split
  · next hkind => exact absurd (congrArg NodeKind.tag hkind) hmeets.1
  · exact h.leaveDeclaratives
  · exact h.popJoin hb _
  · exact h.leaveEvaluate hb
  · exact h.leaveSearch hb
  · next repetition _ hkind =>
    exact h.leaveLoop hb (hmeets.2 (congrArg NodeKind.tag hkind)) repetition
  · exact h.leaveException hb _
  · exact .pure h

/-- **What is left behind stays behind**, whatever comes next in the division. -/
theorem take_behind (hb : s₀.graph.Settled b) (h : s.Behind s₀ b) (hmeets : e.Meets s) :
    Ensures (take o e) s fun _ s' => s'.Behind s₀ b := by
  cases e with
  | enter n =>
    rw [take, enterNode, if_neg hmeets]
    refine .get_bind ?_
    split
    · exact .bind (enterInside_behind h) fun _ _ h₁ => .modify (h₁.congr rfl rfl rfl rfl rfl)
    · exact .modify (h.congr rfl rfl rfl rfl rfl)
  | leave n =>
    refine .modify_bind (.get_bind ?_)
    have h₁ : ({ s with enclosing := s.enclosing.tail } : Scope).Behind s₀ b :=
      h.congr rfl rfl rfl rfl rfl
    split
    · exact leaveInside_behind hb h₁ hmeets
    · exact .pure h₁
  | sentenceEnd => exact h.endSentence
  | whenClause => exact h.startWhen
  | whenOtherClause => exact h.startWhenOther
  | searchClause atEnd => exact h.startSearchWhen atEnd

end Build

end CobolFlow
