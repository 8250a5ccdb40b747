import CobolFlow.Build.Division
import CobolFlow.Proofs.Faultless.Scope

/-!
# Sections, sentences and jumps find what they need

Headers and periods may come in any order and any number, before a division or after its end, and
statements that leave may come where there is no block to leave from.
-/

namespace CobolFlow.Build

variable {s : Scope} {b : BlockId}

/-! ### Sentences -/

theorem startSentence_faultless : Faultless startSentence s fun _ _ => True := by
  refine .get_bind fun hs => ?_
  have howner : ∀ p ∈ s.currentParagraph.or s.currentSection, p < s.procedures.procedures.size :=
    fun p hp => (Option.or_eq_some_iff.1 hp).elim (hs.currentParagraph p)
      fun h => hs.currentSection p h.2
  refine .bind (editProcedures_faultless (Procedures.addSentence_faultless howner _) ?_) ?_
  · rintro _ i c ⟨-, -, hpush⟩ j t ht
    rw [hpush, Array.getElem?_push] at ht
    split at ht
    · obtain rfl := Option.some.inj ht
      exact ⟨by simp, by simp⟩
    · exact hs.sentence ht
  rintro sentence s₁ - h₁ ⟨-, -, hlt, -⟩
  refine .modify_bind (fun hs₁ => { hs₁ with currentSentence := ?_ })
    (Scope.le_of_extent_eq rfl) ?_
  · exact fun i hi => Option.mem_some.1 hi ▸ hlt
  refine .bind (newBlock_faultless none) fun b s₂ _ h₂ hb => ?_
  refine .get_bind fun hs₂ => ?_
  refine .set_bind (fun hs₂ => { hs₂ with }) (Scope.le_of_extent_eq rfl) ?_
  dsimp only
  split
  · exact .bind (editGraph_faultless (Graph.addRoot_faultless hb.1)) fun _ s₃ _ h₃ _ =>
      setCurrent_faultless (hb.1.trans_le h₃.1.1)
  split
  · next previous hprevious =>
    refine .bind (editGraph_faultless (Graph.addEdge_faultless
      (hs₂.currentBlock previous hprevious) hb.1)) fun slot s₃ _ h₃ hslot => ?_
    refine .bind (modifySentence_faultless ((hlt.trans_le h₂.2.2).trans_le h₃.2.2) ?_) ?_
    · intro hs₃ t ht
      exact { hs₃.sentence ht with entry := fun e he => Option.mem_some.1 he ▸ hslot.2.1 }
    · exact fun _ s₄ _ h₄ _ => setCurrent_faultless (hb.1.trans_le (h₃.1.1.trans h₄.1.1))
  · exact setCurrent_faultless hb.1

theorem ensureSentence_faultless : Faultless ensureSentence s fun _ _ => True := by
  refine .get_bind fun _ => ?_
  split
  · exact startSentence_faultless
  · exact .pure fun _ => trivial

theorem endSentence_faultless : Faultless endSentence s fun _ _ => True := by
  refine .get_bind fun _ => ?_
  split
  · refine .bind ensureSentence_faultless fun _ s₁ _ _ _ => ?_
    exact .modify (fun hs₁ => { hs₁ with currentSentence := by simp })
      (Scope.le_of_extent_eq rfl) trivial
  · exact .pure fun _ => trivial

/-! ### The division and its headers -/

theorem startDivision_faultless (n : Node) : Faultless (startDivision n) s fun _ _ => True := by
  refine .modify_bind (fun hs => { hs with }) (Scope.le_of_extent_eq rfl) ?_
  refine .bind (editGraph_faultless (Graph.openDivision_faultless _)) fun _ s₁ _ _ _ => ?_
  refine .bind (editGraph_faultless (Graph.recordNode_faultless _)) fun _ s₂ _ _ _ => ?_
  refine .bind (editProcedures_faultless_of_sentences_eq Procedures.rootSection_faultless)
    fun root s₃ _ _ hroot => ?_
  refine .modify_bind (fun hs₃ => { hs₃ with currentSection := ?_ })
    (Scope.le_of_extent_eq rfl) ?_
  · exact fun p hp => Option.mem_some.1 hp ▸ hroot.2
  refine .bind startSentence_faultless fun _ s₄ _ _ _ => ?_
  refine .get_bind fun hs₄ => ?_
  split
  · next b hb =>
    have hlt := hs₄.currentBlock b hb
    refine .bind (editGraph_faultless (Graph.markBlock_faultless hlt _)) fun _ s₅ _ h₅ _ => ?_
    refine .bind (editGraph_faultless (Graph.addRoot_faultless (hlt.trans_le h₅.1.1)))
      fun _ s₆ _ _ _ => ?_
    exact (editGraph_faultless (Graph.setBlockFor_faultless _)).runs
  · exact .pure fun _ => trivial

theorem finishBlocks_faultless : Faultless finishBlocks s fun _ _ => True := by
  refine .modify_bind (fun hs => { hs with currentSentence := by simp })
    (Scope.le_of_extent_eq rfl) ?_
  refine .bind (editGraph_faultless Graph.addBlock_faultless) ?_
  rintro b s₁ - - ⟨-, -, hb, -⟩
  refine .bind (editGraph_faultless (Graph.markBlock_faultless hb _)) fun _ s₂ _ h₂ _ => ?_
  refine .get_bind fun hs₂ => ?_
  split
  · next last hlast =>
    refine .bind (editGraph_faultless (Graph.addEdge_faultless (hs₂.currentBlock last hlast)
      (hb.trans_le h₂.1.1))) fun _ s₃ _ h₃ _ => ?_
    exact setCurrent_faultless (hb.trans_le (h₂.1.1.trans h₃.1.1))
  · exact setCurrent_faultless (hb.trans_le h₂.1.1)

theorem enterSection_faultless (name : String) (span : Span) :
    Faultless (enterSection name span) s fun _ _ => True := by
  refine .get_bind fun _ => ?_
  refine .bind (editProcedures_faultless_of_sentences_eq
    (Procedures.addSection_faultless name _ span)) fun p s₁ _ _ hp => ?_
  refine .modify (fun hs₁ => { hs₁ with
    currentSection := ?_, currentParagraph := by simp, currentSentence := by simp })
    (Scope.le_of_extent_eq rfl) trivial
  exact fun q hq => Option.mem_some.1 hq ▸ hp.2

theorem enterParagraph_faultless (name : String) (span : Span) :
    Faultless (enterParagraph name span) s fun _ _ => True := by
  refine .get_bind fun hs => ?_
  refine .bind (editProcedures_faultless_of_sentences_eq
    (Procedures.addParagraph_faultless name hs.currentSection _ span)) fun p s₁ _ _ hp => ?_
  refine .modify (fun hs₁ => { hs₁ with currentParagraph := ?_, currentSentence := by simp })
    (Scope.le_of_extent_eq rfl) trivial
  exact fun q hq => Option.mem_some.1 hq ▸ hp.2

theorem enterDeclaratives_faultless : Faultless enterDeclaratives s fun _ _ => True := by
  refine .get_bind fun hs => ?_
  cases horigin : s.currentBlock with
  | none =>
    dsimp only
    split
    · exact .bind (violate_faultless _) fun _ _ _ _ _ => .pure fun _ => trivial
    · exact .pure fun _ => trivial
  | some origin =>
    have hmark : ∀ s₁ : Scope, s ≤ s₁ →
        Faultless (modify fun s => { s with declaratives := some origin } : Build Unit) s₁
          fun _ _ => True := fun s₁ h₁ => by
      refine .modify (fun hs₁ => { hs₁ with declaratives := ?_ })
        (Scope.le_of_extent_eq rfl) trivial
      exact fun b hb => Option.mem_some.1 hb ▸ (hs.currentBlock origin horigin).trans_le h₁.1.1
    dsimp only
    split
    · exact .bind (violate_faultless _) fun _ s₁ _ h₁ _ => hmark s₁ h₁
    · exact hmark s le_rfl

/-- What is left of `leaveDeclaratives` once the section is over: the program goes on in a new
block. -/
theorem resume_faultless {origin : BlockId} (hlt : origin < s.graph.size) :
    Faultless (do
      let next ← newBlock none
      editGraph (resumeAfterDeclaratives origin next)
      setCurrent next) s fun _ _ => True := by
  refine .bind (newBlock_faultless none) fun next s₂ _ h₂ hnext => ?_
  have hresume : Faultless (resumeAfterDeclaratives origin next) s₂.graph fun _ _ => True :=
    .bind (Graph.addEdge_faultless (hlt.trans_le h₂.1.1) hnext.1) fun _ _ _ _ _ =>
      .pure fun _ => trivial
  refine .bind (editGraph_faultless hresume) fun _ s₃ _ h₃ _ => ?_
  exact setCurrent_faultless (hnext.1.trans_le h₃.1.1)

theorem leaveDeclaratives_faultless : Faultless leaveDeclaratives s fun _ _ => True := by
  refine .bind (editProcedures_faultless_of_sentences_eq Procedures.rootSection_faultless)
    fun root s₁ _ _ hroot => ?_
  refine .get_bind fun hs₁ => ?_
  refine .modify_bind (fun hs₁ => { hs₁ with
    currentSection := ?_, currentParagraph := by simp, declaratives := by simp })
    (Scope.le_of_extent_eq rfl) ?_
  · exact fun p hp => Option.mem_some.1 hp ▸ hroot.2
  split
  · next origin horigin => exact resume_faultless (hs₁.declaratives origin horigin)
  · exact .pure fun _ => trivial

/-! ### Statements that leave -/

theorem breakBlock_faultless :
    Faultless breakBlock s fun b s' => b < s'.graph.size := by
  refine .bind (newBlock_faultless none) fun b s₁ _ _ hb => ?_
  refine .bind (setCurrent_faultless hb.1) fun _ s₂ _ h₂ _ => ?_
  exact .pure fun _ => hb.1.trans_le h₂.1.1

theorem enterJump_faultless (i : Instruction) (span : Span) (jump : Jump) :
    Faultless (enterJump i span jump) s fun _ _ => True := by
  refine .bind current?_faultless fun b? s₁ _ _ hb => ?_
  split
  · next block =>
    have hblock := hb.2 block rfl
    refine .modify_bind (fun hs₁ => { hs₁ with jumps := ?_ }) (Scope.le_of_extent_eq rfl) ?_
    · intro w hw
      obtain hw | hw := List.mem_append.1 hw
      · exact hs₁.jumps w hw
      · obtain rfl := List.mem_singleton.1 hw
        exact hblock
    refine .bind (addInstruction_faultless i) fun _ s₂ _ h₂ _ => ?_
    split
    · refine .bind (markCurrent_faultless _) fun _ s₃ _ _ _ => ?_
      exact .bind breakBlock_faultless fun _ _ _ _ _ => .pure fun _ => trivial
    · refine .bind breakBlock_faultless fun next s₃ _ h₃ hnext => ?_
      refine .bind (editGraph_faultless (Graph.addEdge_faultless
        (hblock.trans_le (h₂.1.1.trans h₃.1.1)) hnext)) fun _ _ _ _ _ => .pure fun _ => trivial
  · exact .pure fun _ => trivial

theorem enterEnding_faultless (i : Instruction) :
    Faultless (enterEnding i) s fun _ _ => True := by
  refine .bind (addInstruction_faultless i) fun _ s₁ _ _ _ => ?_
  refine .bind (markCurrent_faultless _) fun _ s₂ _ _ _ => ?_
  exact .bind breakBlock_faultless fun _ _ _ _ _ => .pure fun _ => trivial

theorem enterNextSentence_faultless (i : Instruction) :
    Faultless (enterNextSentence i) s fun _ _ => True := by
  have hbreak : ∀ s₁ : Scope,
      Faultless (do let _ ← breakBlock : Build Unit) s₁ fun _ _ => True := fun s₁ =>
    .bind breakBlock_faultless fun _ _ _ _ _ => .pure fun _ => trivial
  refine .bind current?_faultless fun b? s₁ _ _ hb => ?_
  split
  · next block =>
    refine .bind (addInstruction_faultless i) fun _ s₂ _ h₂ _ => ?_
    refine .bind (markCurrent_faultless _) fun _ s₃ _ h₃ _ => ?_
    refine .get_bind fun hs₃ => ?_
    dsimp only
    split
    · refine .modify_bind (fun hs₃ => { hs₃ with nextSentences := ?_ })
        (Scope.le_of_extent_eq rfl) (hbreak _)
      intro w hw
      obtain hw | hw := List.mem_append.1 hw
      · exact hs₃.nextSentences w hw
      · obtain rfl := List.mem_singleton.1 hw
        exact (hb.2 block rfl).trans_le (h₂.1.1.trans h₃.1.1)
    · exact hbreak _
  · exact .pure fun _ => trivial

theorem enterAlter_faultless (i : Instruction) (span : Span) (clauses : List AlterClause) :
    Faultless (enterAlter i span clauses) s fun _ _ => True := by
  refine .bind (addInstruction_faultless i) fun _ s₁ _ _ _ => ?_
  exact .modify (fun hs₁ => { hs₁ with }) (Scope.le_of_extent_eq rfl) trivial

theorem enterPerform_faultless (i : Instruction) (span : Span) (range : PerformRange) :
    Faultless (enterPerform i span range) s fun _ _ => True := by
  refine .bind current?_faultless fun b? s₁ _ _ hb => ?_
  split
  · next origin =>
    refine .bind (newBlock_faultless _) fun callSite s₂ _ h₂ hsite => ?_
    refine .bind (editGraph_faultless (Graph.addGroup_faultless hsite.1 hsite.2 _ _))
      fun group s₃ _ h₃ hgroup => ?_
    refine .bind (editGraph_faultless Graph.markCompound_faultless) fun _ s₄ _ h₄ _ => ?_
    have horigin₄ := (hb.2 origin rfl).trans_le (h₂.1.1.trans (h₃.1.1.trans h₄.1.1))
    have hsite₄ := hsite.1.trans_le (h₃.1.1.trans h₄.1.1)
    refine .bind (editGraph_faultless (Graph.addEdge_faultless horigin₄ hsite₄))
      fun _ s₅ _ h₅ _ => ?_
    refine .bind breakBlock_faultless fun next s₆ _ h₆ hnext => ?_
    refine .bind (editGraph_faultless (Graph.addEdge_faultless
      (hsite₄.trans_le (h₅.1.1.trans h₆.1.1)) hnext)) fun _ s₇ _ h₇ _ => ?_
    have hgroup₇ := hgroup.2.1.trans_le
      (h₄.1.2.2.trans (h₅.1.2.2.trans (h₆.1.2.2.trans h₇.1.2.2)))
    refine .modify (fun hs₇ => { hs₇ with performs := fun w hw => ?_ })
      (Scope.le_of_extent_eq rfl) trivial
    obtain hw | hw := List.mem_append.1 hw
    · exact hs₇.performs w hw
    · obtain rfl := List.mem_singleton.1 hw
      exact hgroup₇
  · exact .pure fun _ => trivial

end CobolFlow.Build
