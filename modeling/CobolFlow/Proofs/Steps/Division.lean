import CobolFlow.Build.Division
import CobolFlow.Proofs.Steps

/-!
# Sections, sentences and jumps in small steps

A sentence becomes current in the very step that puts it into the catalog, and the last block is
marked in the step that adds it. Everything else is taken apart as it is written.
-/

namespace CobolFlow.Build

open Scope (Step)

variable {α : Type}

/-! ### The catalog -/

theorem addPart_sentences (p : ProcedureId) (part : Part) (c : Procedures) :
    Ensures (Procedures.addPart p part) c fun _ c' => c'.sentences = c.sentences := by
  intro _ c' h
  unfold Procedures.addPart Procedures.modifyProcedure at h
  split at h
  · cases h
    rfl
  · exact nomatch h

theorem rootSection_sentences (c : Procedures) :
    Ensures Procedures.rootSection c fun _ c' => c'.sentences = c.sentences := by
  refine .get_bind ?_
  split
  · exact .pure rfl
  · exact .modifyGet rfl

theorem addSection_sentences (name : String) (declaratives : Bool) (span : Span)
    (c : Procedures) : Ensures (Procedures.addSection name declaratives span) c
      fun _ c' => c'.sentences = c.sentences := by
  refine .bind (P := fun _ c' => c'.sentences = c.sentences) (.modifyGet rfl) fun p c₁ h₁ => ?_
  exact .bind (P := fun _ c' => c'.sentences = c.sentences) (.modify h₁) fun _ _ h => .pure h

theorem addParagraph_sentences (name : String) (owner : Option ProcedureId) (declaratives : Bool)
    (span : Span) (c : Procedures) :
    Ensures (Procedures.addParagraph name owner declaratives span) c
      fun _ c' => c'.sentences = c.sentences := by
  refine .bind (P := fun _ c' => c'.sentences = c.sentences) (.modifyGet rfl) fun p c₁ h₁ => ?_
  have hlisted : ∀ c₂ : Procedures, c₂.sentences = c.sentences → Ensures (do
      Procedures.listName name p
      return p) c₂ fun _ c' => c'.sentences = c.sentences := fun c₂ h₂ =>
    .bind (P := fun _ c' => c'.sentences = c.sentences) (.modify h₂) fun _ _ h => .pure h
  cases owner with
  | none => exact hlisted c₁ h₁
  | some q =>
    exact .bind ((addPart_sentences q _ c₁).mono fun _ _ h => h.trans h₁) fun _ => hlisted

theorem addSentence_sentences (owner : Option ProcedureId) (declaratives : Bool)
    (c : Procedures) : Ensures (Procedures.addSentence owner declaratives) c fun i c' =>
      i = c.sentences.size ∧
      c'.sentences = c.sentences.push { id := c.sentences.size, owner, declaratives } := by
  refine .bind (P := fun i (c' : Procedures) => i = c.sentences.size ∧
    c'.sentences = c.sentences.push { id := c.sentences.size, owner, declaratives })
    (.modifyGet ⟨rfl, rfl⟩) ?_
  rintro _ c₁ ⟨rfl, h₁⟩
  split
  · exact .bind (addPart_sentences _ _ c₁) fun _ _ h => .pure ⟨rfl, h.trans h₁⟩
  · exact .pure ⟨rfl, h₁⟩

/-- A sentence becomes current as soon as it is in the catalog. -/
theorem openSentence_steps {f : SentenceId → Build α} (hf : ∀ i, Within Step (f i)) (s : Scope)
    (owner : Option ProcedureId) : Ensures (do
      let sentence ← editProcedures (Procedures.addSentence owner s.declaratives.isSome)
      modify fun s => { s with currentSentence := some sentence }
      f sentence) s fun _ s' => Relation.ReflTransGen Step s s' := by
  refine .bind (P := fun i s' => i = s.procedures.sentences.size ∧ ∃ c : Procedures,
    c.sentences = s.procedures.sentences.push
      { id := s.procedures.sentences.size, owner, declaratives := s.declaratives.isSome } ∧
    s' = { s with procedures := c }) ?_ ?_
  · intro i s' hrun
    obtain ⟨c, hc, rfl⟩ := exists_of_editProcedures_eq_ok hrun
    obtain ⟨hi, hsentences⟩ := addSentence_sentences _ _ _ i c hc
    exact ⟨hi, c, hsentences, rfl⟩
  · rintro _ _ ⟨rfl, c, hc, rfl⟩
    exact .modify_bind ((hf _).ensures (.single (.openSentence hc)))

theorem startSentence_steps : Within Step startSentence := by
  refine fun s => .get_bind (openSentence_steps (fun i => ?_) s _)
  refine .bind (newBlock_steps none) fun b => .get_set_bind (f := fun s : Scope =>
    { s with declarativeEntry := false }) (fun s => .aside rfl rfl rfl (.inl rfl)) fun s => ?_
  split
  · exact .bind (editGraph_steps (Graph.addRoot_steps b)) fun _ => setCurrent_steps b
  · split
    · refine .bind (editGraph_steps (Graph.addEdge_steps _ b)) fun k => .bind ?_ fun _ =>
        setCurrent_steps b
      intro s _ s' hrun
      obtain ⟨c, hc, rfl⟩ := exists_of_editProcedures_eq_ok hrun
      rw [eq_of_modifySentence_eq_ok hc]
      exact .single (.entry i k)
    · exact setCurrent_steps b

theorem ensureSentence_steps : Within Step ensureSentence := by
  refine .bind .get fun s => ?_
  split
  · exact startSentence_steps
  · exact .pure _

theorem endSentence_steps : Within Step endSentence := by
  refine .bind .get fun s => ?_
  split
  · exact .bind ensureSentence_steps fun _ =>
      modify_steps (fun _ => rfl) (fun _ => rfl) (fun _ => rfl) fun _ => .inr rfl
  · exact .pure _

/-- The last block is marked as soon as it has been added. -/
theorem addFinish_steps {f : BlockId → Build α} (hf : ∀ b, Within Step (f b)) :
    Within Step (do
      let b ← editGraph Graph.addBlock
      editGraph (Graph.markBlock b { finish := true })
      f b) := by
  refine fun s => .bind (P := fun b s' => b = s.graph.size ∧ s' = { s with graph := { s.graph with
    blocks := s.graph.blocks.push { id := s.graph.blocks.size } } }) ?_ ?_
  · rintro _ _ ⟨⟩
    exact ⟨rfl, rfl⟩
  rintro _ _ ⟨rfl, rfl⟩
  refine .bind (P := fun _ s' => s' = { s with graph := s.graph.grow { finish := true } none })
    ?_ ?_
  · intro _ s' hrun
    rw [editGraph_eq_ok (Graph.modifyBlock_addBlock s.graph rfl)] at hrun
    cases hrun
    rfl
  · rintro _ _ rfl
    exact (hf _).ensures (.single (.graph .finish))

theorem finishBlocks_steps : Within Step finishBlocks := by
  refine .bind (modify_steps (fun _ => rfl) (fun _ => rfl) (fun _ => rfl) fun _ => .inr rfl)
    fun _ => addFinish_steps fun b => .bind .get fun s => ?_
  split
  · exact .bind (editGraph_steps (Graph.addEdge_steps _ _)) fun _ => setCurrent_steps _
  · exact setCurrent_steps _

theorem enterSection_steps (name : String) (span : Span) :
    Within Step (enterSection name span) := by
  refine .bind .get fun s => .bind (editProcedures_steps (addSection_sentences _ _ _)) fun p => ?_
  exact modify_steps (fun _ => rfl) (fun _ => rfl) (fun _ => rfl) fun _ => .inr rfl

theorem enterParagraph_steps (name : String) (span : Span) :
    Within Step (enterParagraph name span) := by
  refine .bind .get fun s =>
    .bind (editProcedures_steps (addParagraph_sentences _ _ _ _)) fun p => ?_
  exact modify_steps (fun _ => rfl) (fun _ => rfl) (fun _ => rfl) fun _ => .inr rfl

theorem enterDeclaratives_steps : Within Step enterDeclaratives := by
  refine .bind .get fun s => ?_
  cases s.currentBlock with
  | none =>
    dsimp only
    split
    · exact .bind (violate_steps _) fun _ => .pure _
    · exact .pure _
  | some origin =>
    have hopen :
        Within Step (modify fun s => { s with declaratives := some origin } : Build Unit) :=
      .modify fun _ => .enterDeclaratives _
    dsimp only
    split
    · exact .bind (violate_steps _) fun _ => hopen
    · exact hopen

theorem breakBlock_steps : Within Step breakBlock :=
  .bind (newBlock_steps none) fun _ => .bind (setCurrent_steps _) fun _ => .pure _

theorem enterJump_steps (i : Instruction) (span : Span) (jump : Jump) :
    Within Step (enterJump i span jump) := by
  refine .bind current?_steps fun b? => ?_
  split
  · refine .bind (modify_steps (fun _ => rfl) (fun _ => rfl) (fun _ => rfl) fun _ => .inl rfl)
      fun _ => .bind (addInstruction_steps i) fun _ => ?_
    split
    · exact .bind (markCurrent_steps ⟨rfl, rfl, rfl, rfl⟩) fun _ =>
        .bind breakBlock_steps fun _ => .pure _
    · exact .bind breakBlock_steps fun _ =>
        .bind (editGraph_steps (Graph.addEdge_steps _ _)) fun _ => .pure _
  · exact .pure _

theorem enterEnding_steps (i : Instruction) : Within Step (enterEnding i) :=
  .bind (addInstruction_steps i) fun _ => .bind (markCurrent_steps ⟨rfl, rfl, rfl, rfl⟩) fun _ =>
    .bind breakBlock_steps fun _ => .pure _

theorem enterNextSentence_steps (i : Instruction) : Within Step (enterNextSentence i) := by
  refine .bind current?_steps fun b? => ?_
  split
  · refine .bind (addInstruction_steps i) fun _ => .bind (markCurrent_steps ⟨rfl, rfl, rfl, rfl⟩)
      fun _ => .bind .get fun s => ?_
    split
    · exact .bind (modify_steps (fun _ => rfl) (fun _ => rfl) (fun _ => rfl) fun _ => .inl rfl)
        fun _ => .bind breakBlock_steps fun _ => .pure _
    · exact .bind breakBlock_steps fun _ => .pure _
  · exact .pure _

theorem enterAlter_steps (i : Instruction) (span : Span) (clauses : List AlterClause) :
    Within Step (enterAlter i span clauses) :=
  .bind (addInstruction_steps i) fun _ =>
    modify_steps (fun _ => rfl) (fun _ => rfl) (fun _ => rfl) fun _ => .inl rfl

theorem enterPerform_steps {i : Instruction} (hi : i.tag = .perform) (span : Span)
    (range : PerformRange) : Within Step (enterPerform i span range) := by
  refine .bind current?_steps fun b? => ?_
  split
  · -- the group is opened at a block that has just been made
    refine fun s => .bind (newBlock_ensures_steps (some i) s) ?_
    rintro callSite s₁ ⟨h₁, block, hb, hblock⟩
    refine .bind (P := fun _ s₂ => Relation.ReflTransGen Step s s₂) ?_ fun _ s₂ h₂ => ?_
    · intro _ s₂ hrun
      obtain ⟨g, hg, rfl⟩ := exists_of_editGraph_eq_ok hrun
      exact h₁.trans (s₁.steps_graph
        (Graph.addGroup_steps ⟨block, hb, i, by simp [hblock], hi⟩ _ _ _ _ hg))
    refine Within.ensures (f := fun _ => _) (a := ()) ?_ h₂
    refine .bind (editGraph_steps Graph.markCompound_steps) fun _ => ?_
    refine .bind (editGraph_steps (Graph.addEdge_steps _ _)) fun _ => ?_
    refine .bind breakBlock_steps fun _ => ?_
    refine .bind (editGraph_steps (Graph.addEdge_steps _ _)) fun _ => ?_
    exact modify_steps (fun _ => rfl) (fun _ => rfl) (fun _ => rfl) fun _ => .inl rfl
  · exact .pure _

end CobolFlow.Build
