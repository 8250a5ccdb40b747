import CobolFlow.Proofs.Division.Ledger

/-!
# Where the jumps lead

The end of a division draws the jumps before it captures any range, and nothing that is read on the
way is changed by an edge. So the edges and the problems of all jumps can be read off the draft.

## Main definitions

* `Scope.alterations` — the targets that ALTER statements add
* `Scope.Jumps` — the edges of all jumps
* `Scope.InOrder` — the edges of each GO TO are in the order of its targets

## Main results

* `Draft.exists_linked` — the jumps are drawn, in order, and then the ranges are captured
-/

namespace CobolFlow

open Scope

namespace Scope

variable (s : Scope)

/-- The targets that ALTER statements add to the GO TOs of a division. -/
def alterations : Build.Alterations :=
  s.pending.alters.flatMap fun w => w.clauses.filterMap (Build.alteration? s)

/-- Where the jumps of a division lead. -/
def Jumps (b c : ℕ) : Prop :=
  (∃ w ∈ s.pending.nextSentences, b = w.block ∧
    s.procedures.firstBlock? (w.sentence + 1) = some c) ∨
  ∃ w ∈ s.pending.jumps, b = w.block ∧ ∃ n ∈ Build.jumpTargets s.alterations w,
    s.procedures.entrance? n = some c

/-- The block of each GO TO that led nowhere twice leads on to where the targets begin, in this
order, but to none of them twice. -/
def InOrder (s' : Scope) : Prop :=
  ∀ w ∈ s.pending.jumps, s.LeadsOnce w.block → (s'.graph.chart w.block).next =
    ((s.graph.chart w.block).next ++ (Build.jumpTargets s.alterations w).filterMap
      s.procedures.entrance?).eraseDups

/-- What is reported when the jumps are drawn. -/
def jumpComplaints : List Problem :=
  (s.pending.alters.flatMap fun w => w.clauses.flatMap (Build.alterComplaints s w.span)) ++
    s.pending.jumps.flatMap fun w =>
      (Build.jumpTargets s.alterations w).flatMap (s.procedures.complaints · w.span)

end Scope

namespace Scope.Links

variable {s s' : Scope} {E : ℕ → ℕ → Prop} {ps : List Problem}

/-- Drawing edges changes nothing of what ALTER looks at. -/
theorem leading?_eq (h : Links s s' E ps) : Build.leading? s' = Build.leading? s := by
  funext p
  rw [Build.leading?, Build.leading?, (Procedures.SameNames.of_bare h.bare).opening?_eq,
    Procedures.firstBlock?_eq h.bare]
  simp only [h.nodes]

end Scope.Links

namespace Draft

variable {o : Options} {s : Scope} {p : Plan} {chs : List Chapter}

/-- Every sentence is a chapter. -/
theorem exists_chapter (h : Draft o s p chs) {j : SentenceId} {t : Sentence}
    (ht : s.procedures.sentences[j]? = some t) : ∃ c ∈ chs, c.sentence = some j ∧
      t.blocks = c.blocks ∧ ∀ k ∈ t.entry, s.graph.slots[k]? = some c.start := by
  have hj : j ∈ chs.filterMap (·.sentence) := by
    rw [h.numbers, List.mem_range]
    exact (Array.getElem?_eq_some_iff.1 ht).1
  obtain ⟨c, hc, hcj⟩ := List.mem_filterMap.1 hj
  obtain ⟨t', ht', hblocks, hentry⟩ := h.sentence c hc j hcj
  obtain rfl : t = t' := Option.some.inj (ht.symm.trans ht')
  exact ⟨c, hc, hcj, hblocks, hentry⟩

/-- A sentence begins with the first block of its chapter. -/
theorem firstBlock?_eq (h : Draft o s p chs) {c : Chapter} (hc : c ∈ chs) {j : SentenceId}
    (hj : c.sentence = some j) : s.procedures.firstBlock? j = some c.start := by
  obtain ⟨t, ht, hblocks, -⟩ := h.sentence c hc j hj
  rw [Procedures.firstBlock?, ht, Option.bind_some, Sentence.firstBlock?, hblocks]
  exact (h.drawn c hc).head?_blocks

theorem entered (h : Draft o s p chs) : s.Entered := by
  intro j t k ht hk
  obtain ⟨c, hc, hj, -, hentry⟩ := h.exists_chapter ht
  have hfirst := h.firstBlock?_eq hc hj
  rw [Procedures.firstBlock?, ht] at hfirst
  exact ⟨c.start, hfirst, hentry k hk⟩

/-- No two sentences begin in the same block. -/
theorem beginApart (h : Draft o s p chs) : s.procedures.BeginApart := by
  intro i j b hi hj
  obtain ⟨t, ht, -⟩ := Option.bind_eq_some_iff.1 hi
  obtain ⟨t', ht', -⟩ := Option.bind_eq_some_iff.1 hj
  obtain ⟨c, hc, hci, -⟩ := h.exists_chapter ht
  obtain ⟨c', hc', hcj, -⟩ := h.exists_chapter ht'
  have hstart := (h.firstBlock?_eq hc hci).symm.trans hi
  have hstart' := (h.firstBlock?_eq hc' hcj).symm.trans hj
  obtain rfl := h.eq_of_mem_of_has hc hc' (h.drawn c hc).has_start
    (Option.some.inj (hstart'.trans hstart.symm) ▸ (h.drawn c' hc').has_start)
  exact Option.some.inj (hci.symm.trans hcj)

/-- Each GO TO has a block to itself. -/
theorem nodup_jumps (h : Draft o s p chs) : (s.pending.jumps.map (·.block)).Nodup := by
  have hjumps : s.pending.jumps = (Chapter.allMarks chs).filterMap Landmark.jump? := h.holds.jumps
  have hlast : ∀ {e : ℕ × Landmark} {w : PendingJump}, Landmark.jump? e = some w →
      e.2.isLast = true ∧ w.block = e.1 := by
    rintro ⟨b, m⟩ w hw
    cases m <;> simp [Landmark.jump?, Landmark.isLast] at hw ⊢
    exact hw ▸ rfl
  rw [hjumps, List.Nodup, List.pairwise_map, List.pairwise_filterMap]
  refine (Landmarks.pairwise_blocks_iff.1 h.pairwise_allMarks).imp fun hlt w hw w' hw' => ?_
  obtain ⟨he, hb⟩ := hlast hw
  obtain ⟨he', hb'⟩ := hlast hw'
  rw [hb, hb']
  exact (hlt he he').ne

/-- No jump is made but at a landmark. -/
theorem exists_mark_of_jumps (h : Draft o s p chs) {b x : ℕ} (hjump : s.Jumps b x) :
    ∃ c ∈ chs, ∃ m e, (b, m) ∈ c.marks ∧ m.exit = some e := by
  obtain ⟨w, hw, rfl, -⟩ | ⟨w, hw, rfl, -⟩ := hjump
  · obtain ⟨c, hc, hm, -⟩ := h.mem_nextSentences.1 hw
    exact ⟨c, hc, _, _, hm, rfl⟩
  · obtain ⟨c, hc, hm⟩ := h.mem_jumps.1 hw
    exact ⟨c, hc, _, _, hm, rfl⟩

/-- No NEXT SENTENCE stands in the block of a GO TO. -/
theorem nextSentence_block_ne (h : Draft o s p chs) {w : PendingJump} (hw : w ∈ s.pending.jumps)
    {w' : PendingNextSentence} (hw' : w' ∈ s.pending.nextSentences) : w'.block ≠ w.block := by
  intro heq
  obtain ⟨c, hc, hm⟩ := h.mem_jumps.1 hw
  obtain ⟨c', hc', hm', -⟩ := h.mem_nextSentences.1 hw'
  have hmem : ∀ {c m} {b : ℕ}, c ∈ chs → (b, m) ∈ c.marks → (b, m) ∈ Chapter.allMarks chs :=
    fun hc hm => List.mem_flatMap.2 ⟨_, hc, hm⟩
  rw [heq] at hm'
  have hsame : Landmark.jump w.node w.span w.jump = .nextSentence :=
    Landmarks.eq_of_isLast h.pairwise_allMarks (hmem hc hm) (hmem hc' hm') rfl rfl
  exact nomatch hsame

/-- **The jumps** are drawn, and then the ranges of the PERFORMs are captured. -/
theorem exists_linked (h : Draft o s p chs) : ∃ s', Links s s' s.Jumps s.jumpComplaints ∧
    s.InOrder s' ∧ Build.resolvePending o s = (do
      Build.resolvePerforms s.pending.performs
      if o.isExtended then Build.editGraph (Build.graftGroups o) : Build Unit) s' := by
  set s₀ : Scope := { s with pending := {} } with hs₀
  have hsound : Sound s₀ :=
    { h.sound with
      jumps := List.forall_mem_nil _
      nextSentences := List.forall_mem_nil _
      performs := List.forall_mem_nil _ }
  have h₀ : Links s s₀ (fun _ _ => False) [] :=
    { Links.refl h.sound h.entered with sound := hsound }
  obtain ⟨s₁, hrun₁, h₁⟩ := Build.exists_resolveNextSentences hsound h.entered
    s.pending.nextSentences h.sound.nextSentences
  have h₀₁ := h₀.trans h₁
  have hrun₂ := Build.resolveAlters_eq_ok h₁.sound s.pending.alters
  rw [Build.alteration?_congr (.of_bare h₀₁.bare) h₀₁.leading?_eq,
    Build.alterComplaints_congr (.of_bare h₀₁.bare) h₀₁.leading?_eq] at hrun₂
  have h₂ := Links.report h₁.sound h₁.entered
    (s.pending.alters.flatMap fun w => w.clauses.flatMap (Build.alterComplaints s w.span))
  have h₀₂ := h₀₁.trans h₂
  obtain ⟨s₃, hrun₃, h₃, hnext⟩ := Build.exists_resolveJumps h₂.sound h₂.entered s.alterations
    s.pending.jumps fun w hw => (h.sound.jumps w hw).trans_eq h₀₂.size.symm
  rw [Procedures.entrance?_eq h₀₂.bare, (Procedures.SameNames.of_bare h₀₂.bare).complaints_eq] at h₃
  rw [Procedures.entrance?_eq h₀₂.bare, Procedures.BeginApart,
    Procedures.firstBlock?_eq h₀₂.bare] at hnext
  refine ⟨s₃, (h₀₂.trans h₃).congr fun b c => ?_, fun w hw honce => ?_, ?_⟩
  · simp [Scope.Jumps, s₀]
  · -- the passes before leave the block alone
    rw [hnext h.beginApart h.nodup_jumps w hw (h₀₂.leadsOnce h.sound h.beginApart honce),
      h₀₂.chart_eq]
    rintro c ((hfalse | ⟨w', hw', heq, -⟩) | hfalse)
    · exact hfalse
    · exact h.nextSentence_block_ne hw hw' heq.symm
    · exact hfalse
  · rw [Build.resolvePending, run_bind (a := s) (t := s) rfl, run_bind (a := ⟨⟩) (t := s₀) rfl,
      run_bind hrun₁, run_bind hrun₂]
    exact run_bind hrun₃ _

end Draft

end CobolFlow
