import CobolFlow.Build.Perform
import CobolFlow.Proofs.Faultless.Scope

/-!
# Resolving what waits finds what it needs

What a name stands for is declared, and so are the sentences of what it stands for; the blocks of
a sentence were in range when they were listed. A captured range may hold call sites, of which it
is only known that their groups are in range, whoever opened them.

## Main results

* `Build.resolveJumps_faultless`, `Build.resolvePerforms_faultless`
-/

namespace CobolFlow.Build

variable {s : Scope} {b : BlockId}

/-! ### Names and sentences -/

theorem lookup_faultless (n : QualifiedName) (span : Span) :
    Faultless (lookup n span) s fun p? s' => ∀ p ∈ p?, p < s'.procedures.procedures.size := by
  refine .get_bind fun hs => ?_
  obtain ⟨r, hok, hr⟩ := Procedures.exists_resolve_eq_ok hs.procedures n
  refine .lift_bind hok ?_
  cases r with
  | unique p =>
    exact .pure fun _ q hq => Option.mem_some.1 hq ▸ hs.procedures.index_lt _ p (hr p rfl)
  | absent => exact .bind (report_faultless _) fun _ _ _ _ _ => .pure fun _ => by simp
  | ambiguous n => exact .bind (report_faultless _) fun _ _ _ _ _ => .pure fun _ => by simp

theorem sentenceEntry_faultless {i : SentenceId} (h : i < s.procedures.sentences.size) :
    Faultless (sentenceEntry i) s fun slot? s' =>
      ∀ slot ∈ slot?, slot < s'.graph.slots.size := by
  refine .get_bind fun hs => ?_
  obtain ⟨t, hok, ht⟩ := Procedures.exists_sentence_eq_ok h
  have hin := hs.sentence ht
  refine .lift_bind hok ?_
  split
  · next slot hslot => exact .pure fun _ e he => hin.entry e (hslot ▸ he)
  · exact .pure fun _ => by simp
  · next first _ hfirst =>
    have hlt := hin.blocks first (List.mem_of_head? hfirst)
    refine .bind (editGraph_faultless (Graph.newSlot_faultless hlt)) fun slot s₁ _ h₁ hslot => ?_
    refine .bind (modifySentence_faultless (h.trans_le h₁.2.2) fun hs₁ t ht => ?_)
      fun _ s₂ _ h₂ _ => .pure fun _ e he => ?_
    · exact { hs₁.sentence ht with entry := fun e he => Option.mem_some.1 he ▸ hslot.2.1 }
    · exact Option.mem_some.1 he ▸ hslot.2.1.trans_le h₂.1.2.1

theorem linkToSentence_faultless {i : SentenceId} (hb : b < s.graph.size)
    (hi : i < s.procedures.sentences.size) :
    Faultless (linkToSentence b i) s fun _ _ => True := by
  refine .bind (sentenceEntry_faultless hi) fun slot? s₁ _ h₁ hslot => ?_
  split
  · exact .bind (editGraph_faultless (Graph.link_faultless (hb.trans_le h₁.1.1) (hslot _ rfl)))
      fun _ _ _ _ _ => .pure fun _ => trivial
  · exact .pure fun _ => trivial

theorem resolveNextSentences_faultless {waiting : List PendingNextSentence}
    (h : ∀ w ∈ waiting, w.block < s.graph.size) :
    Faultless (resolveNextSentences waiting) s fun _ _ => True := by
  refine .bind (P := fun _ _ => True) (.forIn (fun _ => trivial) ?_) fun _ _ _ _ _ =>
    .pure fun _ => trivial
  intro w hw _ s₁ _ h₁ _
  refine .get_bind fun _ => ?_
  split
  · next i hi =>
    have hlt : i < s₁.procedures.sentences.size := by
      unfold Procedures.sentenceAfter at hi
      split at hi
      · exact Option.some.inj hi ▸ ‹_›
      · simp at hi
    exact .bind (linkToSentence_faultless ((h w hw).trans_le h₁.1.1) hlt) fun _ _ _ _ _ =>
      .pure fun _ => trivial
  · exact .pure fun _ => trivial

/-! ### ALTER and GO TO -/

theorem leadingJump_faultless {p : ProcedureId} (h : p < s.procedures.procedures.size) :
    Faultless (leadingJump p) s fun _ s' => s' = s := by
  refine .get_bind fun hs => ?_
  obtain ⟨first?, hok, hfirst⟩ := Procedures.exists_firstSentence_eq_ok hs.procedures h
  refine .lift_bind hok ?_
  split
  · next i =>
    obtain ⟨t, hok, ht⟩ := Procedures.exists_sentence_eq_ok (hfirst i rfl)
    refine .lift_bind hok ?_
    split
    · next b hb =>
      have hlt := (hs.sentence ht).blocks b (List.mem_of_head? hb)
      obtain ⟨block, hok, -⟩ := Graph.exists_block_eq_ok hlt
      refine .lift_bind hok ?_
      split <;> exact .pure fun _ => rfl
    · exact .pure fun _ => rfl
  · exact .pure fun _ => rfl

theorem resolveAlterClause_faultless (span : Span) (known : Alterations) (clause : AlterClause) :
    Faultless (resolveAlterClause span known clause) s fun _ _ => True := by
  refine .bind (lookup_faultless _ _) fun altered? s₁ _ _ haltered => ?_
  split
  · next altered =>
    refine .bind (lookup_faultless _ _) fun target? s₂ _ h₂ _ => ?_
    split
    · have hlt := (haltered altered rfl).trans_le h₂.2.1
      refine .bind (leadingJump_faultless hlt) ?_
      rintro jump? _ - - rfl
      split
      · exact .pure fun _ => trivial
      · refine .get_bind fun _ => ?_
        obtain ⟨procedure, hok, -⟩ := Procedures.exists_procedure_eq_ok hlt
        refine .lift_bind hok ?_
        exact .bind (report_faultless _) fun _ _ _ _ _ => .pure fun _ => trivial
    · exact .pure fun _ => trivial
  · exact .pure fun _ => trivial

theorem resolveAlters_faultless (waiting : List PendingAlter) :
    Faultless (resolveAlters waiting) s fun _ _ => True :=
  .foldlM (fun _ => trivial) fun _ _ _ _ _ _ _ =>
    .foldlM (fun _ => trivial) fun _ _ _ _ _ _ _ => resolveAlterClause_faultless _ _ _

theorem resolveJump_faultless (a : Alterations) {w : PendingJump} (h : w.block < s.graph.size) :
    Faultless (resolveJump a w) s fun _ _ => True := by
  refine .bind (P := fun _ _ => True) (.foldlM (fun _ => trivial) ?_) fun _ _ _ _ _ =>
    .pure fun _ => trivial
  intro target _ reached s₁ _ h₁ _
  refine .bind (lookup_faultless _ _) fun p? s₂ _ h₂ hp => ?_
  split
  · next p =>
    split
    · exact .pure fun _ => trivial
    · refine .get_bind fun hs₂ => ?_
      obtain ⟨first?, hok, hfirst⟩ := Procedures.exists_firstSentence_eq_ok hs₂.procedures
        (hp p rfl)
      refine .lift_bind hok ?_
      dsimp only
      split
      · next i =>
        refine .bind (linkToSentence_faultless (h.trans_le (h₁.1.1.trans h₂.1.1)) (hfirst i rfl))
          fun _ _ _ _ _ => .pure fun _ => trivial
      · exact .pure fun _ => trivial
  · exact .pure fun _ => trivial

theorem resolveJumps_faultless (a : Alterations) {waiting : List PendingJump}
    (h : ∀ w ∈ waiting, w.block < s.graph.size) :
    Faultless (resolveJumps a waiting) s fun _ _ => True :=
  .forM (I := fun _ => True) (fun _ => trivial) fun w hw _ _ h₁ _ =>
    resolveJump_faultless a ((h w hw).trans_le h₁.1.1)

/-! ### Performed ranges -/

theorem proceduresBetween_le {c : Procedures} {first last p : ProcedureId}
    (h : p ∈ proceduresBetween c first last) : p ≤ last := by
  have := List.mem_range'_1.1 (List.mem_filter.1 h).1
  lia

theorem exists_capturedBlocks_eq_ok (hs : Sound s) {first last : ProcedureId}
    (h : last < s.procedures.procedures.size) :
    ∃ blocks, capturedBlocks s.procedures first last = .ok blocks ∧
      ∀ b ∈ blocks, b < s.graph.size := by
  refine exists_bind_eq_ok (P := fun found => ∀ l ∈ found, ∀ i ∈ l,
      i < s.procedures.sentences.size) (exists_mapM_eq_ok fun p hp => ?_) fun found hfound => ?_
  · exact Procedures.exists_sentencesOf_eq_ok hs.procedures
      (Nat.lt_of_le_of_lt (proceduresBetween_le hp) h)
  refine exists_bind_eq_ok (P := fun blocks => ∀ l ∈ blocks, ∀ b ∈ l, b < s.graph.size)
    (exists_mapM_eq_ok fun i hi => ?_) fun blocks hblocks => ⟨blocks.flatten, rfl, fun b hb => ?_⟩
  · obtain ⟨l, hl, hi⟩ := List.mem_flatten.1 hi
    obtain ⟨t, hok, ht⟩ := Procedures.exists_sentence_eq_ok (hfound l hl i hi)
    exact ⟨t.blocks, by rw [hok]; rfl, (hs.sentence ht).blocks⟩
  · obtain ⟨l, hl, hb⟩ := List.mem_flatten.1 hb
    exact hblocks l hl b hb

theorem performedRange_faultless (w : PendingPerform) :
    Faultless (performedRange w) s fun range? s' =>
      ∀ range ∈ range?, range.2 < s'.procedures.procedures.size := by
  have hrange : ∀ (s₁ : Scope) (first last : ProcedureId),
      first < s₁.procedures.procedures.size → last < s₁.procedures.procedures.size →
      Faultless (do
        if last < first then
          let c := (← get).procedures
          report
            { kind := .invalidPerformRange (← c.procedure first).name (← c.procedure last).name
              span := w.span }
          return none
        else
          return some (first, last)) s₁ fun range? s' =>
        ∀ range ∈ range?, range.2 < s'.procedures.procedures.size :=
    fun s₁ first last hfirst hlast => by
      split
      · refine .get_bind fun _ => ?_
        obtain ⟨_, hok₁, -⟩ := Procedures.exists_procedure_eq_ok hfirst
        obtain ⟨_, hok₂, -⟩ := Procedures.exists_procedure_eq_ok hlast
        refine .lift_bind hok₁ (.lift_bind hok₂ ?_)
        exact .bind (report_faultless _) fun _ _ _ _ _ => .pure fun _ => by simp
      · exact .pure fun _ range hr => Option.mem_some.1 hr ▸ hlast
  refine .bind (lookup_faultless _ _) fun first? s₁ _ _ hfirst => ?_
  split
  · next first =>
    simp only [pure_bind]
    split
    · refine .bind (lookup_faultless _ _) fun last? s₂ _ h₂ hlast => ?_
      split
      · next last =>
        exact hrange s₂ first last ((hfirst first rfl).trans_le h₂.2.1) (hlast last rfl)
      · exact .pure fun _ => by simp
    · exact hrange s₁ first first (hfirst first rfl) (hfirst first rfl)
  · exact .pure fun _ => by simp

/-! ### Copies of a range -/

section Relocate

variable {copies : Copies} {moves : Moves}

theorem relocateSlots_faultless (w : PendingPerform) (range : String) {block : Block}
    (b : BlockId) (isLast : Bool) (hcopies : ∀ p ∈ copies, p.2 < s.graph.size)
    (hmoves : Moved moves s.graph) (hslots : ∀ t ∈ block.successors, t < s.graph.slots.size) :
    Faultless (relocateSlots w range copies block b isLast moves) s fun r s' =>
      (∀ t ∈ r.1, t < s'.graph.slots.size) ∧ Moved r.2 s'.graph := by
  refine .foldlM (fun _ => ⟨by simp, hmoves⟩) ?_
  rintro slot hslot ⟨kept, moves⟩ s₁ - h₁ ⟨hkept, hmoves₁⟩
  have hslot₁ := (hslots slot hslot).trans_le h₁.1.2.1
  refine .bind (editGraph_faultless (moveSlot_faultless (fun p hp =>
    (hcopies p hp).trans_le h₁.1.1) hmoves₁ hslot₁)) ?_
  rintro ⟨moved?, moves⟩ s₂ - h₂ ⟨-, hmoved, hmoves₂, -⟩
  have hkept₂ : ∀ t ∈ kept, t < s₂.graph.slots.size := fun t ht =>
    (hkept t ht).trans_le h₂.1.2.1
  have happend (t : SlotId) (ht : t < s₂.graph.slots.size) :
      ∀ u ∈ kept ++ [t], u < s₂.graph.slots.size := fun u hu => by
    obtain hu | hu := List.mem_append.1 hu
    · exact hkept₂ u hu
    · exact List.mem_singleton.1 hu ▸ ht
  cases moved? with
  | some moved => exact .pure fun _ => ⟨happend moved (hmoved moved rfl), hmoves₂⟩
  | none =>
    dsimp only
    split
    · exact .pure fun _ => ⟨hkept₂, hmoves₂⟩
    · refine .bind (report_faultless _) fun _ s₃ _ h₃ _ => .pure fun _ => ⟨fun t ht => ?_, ?_⟩
      · exact (happend slot (hslot₁.trans_le h₂.1.2.1) t ht).trans_le h₃.1.2.1
      · exact hmoves₂.mono h₃.1

theorem relocate_faultless {w : PendingPerform} (range : String) {captured : List BlockId}
    (hw : w.group < s.graph.groups.size) (h : ∀ b ∈ captured, b < s.graph.size) :
    Faultless (relocate w range captured) s fun _ _ => True := by
  refine .bind (editGraph_faultless (copyBlocks_faultless h)) ?_
  rintro members s₁ - h₁ ⟨-, -, -, hmembers⟩
  have hcopies : ∀ p ∈ captured.zip members, p.2 < s₁.graph.size := fun p hp =>
    (hmembers _ (List.of_mem_zip hp).2).2
  refine .bind (P := fun moves s' => Moved moves s'.graph) (.foldlM ?_ ?_) ?_
  · exact fun _ => by simp [Moved]
  · rintro ⟨b, copy⟩ hp moves s₂ - h₂ hmoves
    have hb := (h b (List.of_mem_zip hp).1).trans_le (h₁.1.1.trans h₂.1.1)
    refine .get_bind fun hs₂ => ?_
    obtain ⟨block, hok, hblock⟩ := Graph.exists_block_eq_ok hb
    refine .lift_bind hok ?_
    refine .bind (relocateSlots_faultless w range b _ (fun p hp =>
      (hcopies p hp).trans_le h₂.1.1) hmoves (hs₂.graph.slot_lt hblock)) ?_
    rintro ⟨slots, moves⟩ s₃ - h₃ ⟨hslots, hmoves₃⟩
    have hcopy := (hcopies _ hp).trans_le (h₂.1.1.trans h₃.1.1)
    refine .bind (editGraph_faultless (Graph.setSuccessors_faultless hcopy hslots)) ?_
    exact fun _ s₄ _ h₄ _ => .pure fun _ => hmoves₃.mono h₄.1
  · intro moves s₂ _ h₂ _
    refine .get_bind fun hs₂ => ?_
    have hmembers₂ : ∀ c ∈ members, c < s₂.graph.size := fun c hc =>
      (hmembers c hc).2.trans_le h₂.1.1
    obtain ⟨terminals, hok, -⟩ := Graph.exists_terminalsWithin_eq_ok hs₂.graph.checked hmembers₂
    refine .lift_bind hok ?_
    refine (editGraph_faultless (Graph.modifyGroup_faultless
      (f := fun old => { old with members := members, terminals := terminals })
      (hw.trans_le (h₁.1.2.2.trans h₂.1.2.2)) (fun _ => rfl) (fun _ => rfl) ?_)).runs
    exact fun _ _ _ => hmembers₂

end Relocate

/-! ### The order of capture -/

/-- The groups of the PERFORMs are in range. -/
def Capture.Inside (c : Capture) (s : Scope) : Prop :=
  ∀ w ∈ c.performs, w.group < s.graph.groups.size

theorem Capture.Inside.mono {c : Capture} {s' : Scope} (h : c.Inside s) (hle : s ≤ s') :
    c.Inside s' := fun w hw => (h w hw).trans_le hle.1.2.2

theorem visitCallSite_faultless {capture : ℕ → Capture → Build Capture}
    (hcapture : ∀ (j : ℕ) {c : Capture} {s : Scope}, c.Inside s →
      Faultless (capture j c) s Capture.Inside)
    (w : PendingPerform) (range : String) (hb : b < s.graph.size) {c : Capture}
    (hc : c.Inside s) : Faultless (visitCallSite capture w range b c) s Capture.Inside := by
  refine .get_bind fun hs => ?_
  obtain ⟨block, hok, hblock⟩ := Graph.exists_block_eq_ok hb
  refine .lift_bind hok ?_
  split
  · next nested hnested =>
    have hlt := hs.graph.group_lt hblock hnested
    split
    · split
      · exact hcapture _ hc
      · refine .bind (report_faultless _) fun _ s₁ _ h₁ _ => ?_
        refine .bind (editGraph_faultless (Graph.modifyGroup_faultless
          (f := fun old => { old with recursive := true }) (hlt.trans_le h₁.1.2.2)
          (fun _ => rfl) (fun _ => rfl) fun hs₁ _ hgroup b hb => hs₁.member_lt hgroup b hb)) ?_
        exact fun _ s₂ _ h₂ _ => .pure fun _ => hc.mono (h₁.trans h₂)
      · exact .pure fun _ => hc
    · exact .pure fun _ => hc
  · exact .pure fun _ => hc

theorem collect_faultless {capture : ℕ → Capture → Build Capture}
    (hcapture : ∀ (j : ℕ) {c : Capture} {s : Scope}, c.Inside s →
      Faultless (capture j c) s Capture.Inside)
    (w : PendingPerform) (range : String) {blocks : List BlockId}
    (h : ∀ b ∈ blocks, b < s.graph.size) {c : Capture} (hc : c.Inside s) :
    Faultless (collect capture w range blocks c) s fun r s' =>
      (∀ b ∈ r.1, b ∈ blocks) ∧ r.2.Inside s' := by
  refine .foldlM (fun _ => ⟨by simp, hc⟩) ?_
  rintro b hb ⟨collected, c⟩ s₁ - h₁ ⟨hcollected, hc₁⟩
  dsimp only
  split
  · refine .bind (report_faultless _) fun _ s₂ _ h₂ _ => ?_
    exact .pure fun _ => ⟨hcollected, hc₁.mono h₂⟩
  · refine .bind (visitCallSite_faultless hcapture w range ((h b hb).trans_le h₁.1.1) hc₁)
      fun c s₂ _ _ hc₂ => .pure fun _ => ⟨fun d hd => ?_, hc₂⟩
    obtain hd | hd := List.mem_append.1 hd
    · exact hcollected d hd
    · exact List.mem_singleton.1 hd ▸ hb

/-- The induction is on the bound of the nesting, which is never asked to be large enough. -/
theorem resolvePerform_faultless (depth k : ℕ) {c : Capture} (hc : c.Inside s) :
    Faultless (resolvePerform depth k c) s Capture.Inside := by
  induction depth generalizing k c s with
  | zero => exact .pure fun _ => hc
  | succ depth ih =>
    unfold resolvePerform
    split
    · next w hw =>
      have hmem : w ∈ c.performs := Array.mem_of_getElem? hw
      split
      · refine .bind (performedRange_faultless w) fun range? s₁ _ h₁ hrange => ?_
        split
        · exact .pure fun _ => hc.mono h₁
        · next first last =>
          refine .get_bind fun hs₁ => ?_
          obtain ⟨group, hok, -⟩ := Graph.exists_group_eq_ok ((hc w hmem).trans_le h₁.1.2.2)
          refine .lift_bind hok (.get_bind fun _ => ?_)
          obtain ⟨blocks, hblocks, hlt⟩ :=
            exists_capturedBlocks_eq_ok (s := s₁) hs₁ (hrange (first, last) rfl)
          refine .lift_bind hblocks ?_
          refine .bind (collect_faultless (fun j {c s} hc => ih j hc) w group.range hlt
            (c := c.set k .underway) (hc.mono h₁)) ?_
          rintro ⟨collected, c₂⟩ s₂ - h₂ ⟨hcollected, hc₂⟩
          refine .bind (relocate_faultless group.range
            ((hc w hmem).trans_le (h₁.1.2.2.trans h₂.1.2.2))
            fun b hb => (hlt b (hcollected b hb)).trans_le h₂.1.1) fun _ s₃ _ h₃ _ => ?_
          exact .pure fun _ => hc₂.mono h₃
      · exact .pure fun _ => hc
    · exact .pure fun _ => hc

theorem resolvePerforms_faultless {waiting : List PendingPerform}
    (h : ∀ w ∈ waiting, w.group < s.graph.groups.size) :
    Faultless (resolvePerforms waiting) s fun _ _ => True := by
  refine .bind (P := Capture.Inside) (.foldlM (fun _ => ?_) ?_) fun _ _ _ _ _ =>
    .pure fun _ => trivial
  · exact fun w hw => h w (by simpa [Capture.start] using hw)
  · exact fun k _ c s₁ _ _ hc => resolvePerform_faultless _ k hc

end CobolFlow.Build
