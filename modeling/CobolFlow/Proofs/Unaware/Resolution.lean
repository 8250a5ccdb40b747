import CobolFlow.Build.Graft
import CobolFlow.Proofs.Division.Jumps
import CobolFlow.Proofs.Unaware.Replay

/-!
# Jumps and calls, whatever has been reported

What waits is taken out before it is resolved, so from then on a build is unaware of it; and it
never looks at what has been reported, only adds to it.

A target of a GO TO that stands for nothing does nothing but report, and a clause of an ALTER that
is reported adds nothing. So when less waits at the end of a division because such references are
missing, the jumps are drawn alike, through the same slots and in the same order; and what comes
afterwards does not look at what has been reported.

## Main results

* `Build.resolveCalls_unaware` — calls are captured and spliced in whatever has been reported
* `Build.resolveJumps_pruned` — GO TOs are drawn alike without targets that stand for nothing
* `Draft.exists_resolved_pruned` — the end of a division
-/

namespace CobolFlow

open Scope

namespace Build

variable {f : Pending → Pending} {ps : List Problem}

/-! ### Drawing the jumps -/

theorem lookup_unaware (n : QualifiedName) (span : Span) : Unaware f ps (lookup n span) := by
  refine .get_bind (fun _ => rfl) fun s => .bind (.lift _) fun r => ?_
  split
  · exact .pure _
  · exact .bind (report_unaware _) fun _ => .pure _
  · exact .bind (report_unaware _) fun _ => .pure _

theorem sentenceEntry_unaware (i : SentenceId) : Unaware f ps (sentenceEntry i) := by
  refine .get_bind (fun _ => rfl) fun s => .bind (.lift _) fun t => ?_
  split
  · exact .pure _
  · exact .pure _
  · exact .bind (.editGraph _) fun k => .bind (.editProcedures _) fun _ => .pure _

theorem linkToSentence_unaware (b : BlockId) (i : SentenceId) :
    Unaware f ps (linkToSentence b i) := by
  refine .bind (sentenceEntry_unaware i) fun k? => ?_
  split
  · exact .bind (.editGraph _) fun _ => .pure _
  · exact .pure _

theorem reachTarget_unaware (w : PendingJump) (reached : List ProcedureId) (n : QualifiedName) :
    Unaware f ps (reachTarget w reached n) := by
  refine .bind (lookup_unaware n w.span) fun p? => ?_
  split
  · split
    · exact .pure _
    · refine .get_bind (fun _ => rfl) fun s => .bind (.lift _) fun sentence? => ?_
      split
      · exact .bind (linkToSentence_unaware _ _) fun _ => .pure _
      · exact .pure _
  · exact .pure _

/-! ### Capturing ranges -/

theorem performedRange_unaware (w : PendingPerform) : Unaware f ps (performedRange w) := by
  refine .bind (lookup_unaware _ _) fun first? => ?_
  split
  · next first =>
    have hordered : ∀ last : ProcedureId, Unaware f ps (do
        if last < first then
          let c := (← get).procedures
          report
            { kind := .invalidPerformRange (← c.procedure first).name (← c.procedure last).name
              span := w.span }
          return none
        else
          return some (first, last)) := by
      intro last
      split
      · exact .get_bind (fun _ => rfl) fun s => .bind (.lift _) fun _ => .bind (.lift _) fun _ =>
          .bind (report_unaware _) fun _ => .pure _
      · exact .pure _
    simp only [pure_bind]
    split
    · refine .bind (lookup_unaware _ _) fun last? => ?_
      cases last? with
      | none => exact .pure _
      | some last => exact hordered last
    · exact hordered first
  · exact .pure _

theorem relocateSlots_unaware (w : PendingPerform) (range : String) (copies : Copies)
    (block : Block) (b : BlockId) (isLast : Bool) (moves : Moves) :
    Unaware f ps (relocateSlots w range copies block b isLast moves) := by
  refine .foldlM fun (kept, moves) slot _ => .bind (.editGraph _) fun r => ?_
  split
  · exact .pure _
  · split
    · exact .pure _
    · exact .bind (report_unaware _) fun _ => .pure _

theorem relocate_unaware (w : PendingPerform) (range : String) (captured : List BlockId) :
    Unaware f ps (relocate w range captured) := by
  refine .bind (.editGraph _) fun members => .bind (.foldlM fun moves (b, copy) _ => ?_) fun _ =>
    .get_bind (fun _ => rfl) fun s => .bind (.lift _) fun _ => .editGraph _
  exact .get_bind (fun _ => rfl) fun s => .bind (.lift _) fun block =>
    .bind (relocateSlots_unaware w range _ block b _ moves) fun _ =>
    .bind (.editGraph _) fun _ => .pure _

section Captures

variable {capture : ℕ → Capture → Build Capture} (hcapture : ∀ j c, Unaware f ps (capture j c))
include hcapture

theorem visitCallSite_unaware (w : PendingPerform) (range : String) (b : BlockId) (c : Capture) :
    Unaware f ps (visitCallSite capture w range b c) := by
  refine .get_bind (fun _ => rfl) fun s => .bind (.lift _) fun block => ?_
  split
  · split
    · split
      · exact hcapture _ _
      · exact .bind (report_unaware _) fun _ => .bind (.editGraph _) fun _ => .pure _
      · exact .pure _
    · exact .pure _
  · exact .pure _

theorem collect_unaware (w : PendingPerform) (range : String) (blocks : List BlockId)
    (c : Capture) : Unaware f ps (collect capture w range blocks c) := by
  refine .foldlM fun (collected, c) b _ => ?_
  dsimp only
  split
  · exact .bind (report_unaware _) fun _ => .pure _
  · exact .bind (visitCallSite_unaware hcapture w range b c) fun _ => .pure _

end Captures

theorem resolvePerform_unaware (depth k : ℕ) (c : Capture) :
    Unaware f ps (resolvePerform depth k c) := by
  induction depth generalizing k c with
  | zero => exact .pure c
  | succ depth ih =>
    unfold resolvePerform
    split
    · next w _ =>
      split
      · refine .bind (performedRange_unaware w) fun range? => ?_
        split
        · exact .pure _
        · exact .get_bind (fun _ => rfl) fun s => .bind (.lift _) fun group =>
            .get_bind (fun _ => rfl) fun s' => .bind (.lift _) fun blocks =>
            .bind (collect_unaware ih w _ blocks _) fun r =>
            .bind (relocate_unaware w _ _) fun _ => .pure _
      · exact .pure c
    · exact .pure c

theorem resolvePerforms_unaware (waiting : List PendingPerform) :
    Unaware f ps (resolvePerforms waiting) :=
  .bind (.foldlM fun c k _ => resolvePerform_unaware _ k c) fun _ => .pure _

/-- What is left to do when the jumps have been drawn. -/
def resolveCalls (o : Options) (waiting : List PendingPerform) : Build Unit := do
  resolvePerforms waiting
  if o.isExtended then editGraph (graftGroups o)

theorem resolveCalls_unaware (o : Options) (waiting : List PendingPerform) :
    Unaware f ps (resolveCalls o waiting) := by
  refine .bind (resolvePerforms_unaware waiting) fun _ => ?_
  split
  · exact .editGraph _
  · exact .pure _

/-! ### Without the references that stand for nothing -/

variable {s s' : Scope} {keep : Reference → Bool} {a : Alterations}

/-- Targets that stand for nothing may be left out. What has been reported before does not matter
either. -/
theorem foldlM_reachTarget_filter {w : PendingJump} {targets : List QualifiedName}
    {p : QualifiedName → Bool} {reached reached' : List ProcedureId} (hs : Sound s) (he : s.Entered)
    (hw : w.block < s.graph.size) (hreached : Reaches s w.block reached)
    (hp : ∀ n, p n = false → s.procedures.find? n = none)
    (hrun : targets.foldlM (reachTarget w) reached s = .ok (reached', s')) (qs : List Problem) :
    (targets.filter p).foldlM (reachTarget w) reached (s.withProblems qs) =
      .ok (reached', s'.withProblems
        (qs ++ (targets.filter p).flatMap (s.procedures.complaints · w.span))) := by
  induction targets generalizing s reached qs with
  | nil =>
    obtain ⟨rfl, rfl⟩ := Prod.mk.inj (Except.ok.inj hrun)
    rw [List.filter_nil, List.flatMap_nil, List.append_nil]
    rfl
  | cons n targets ih =>
    obtain ⟨reached₁, s₁, hstep, hreached₁, h₁⟩ := exists_reachTarget hs he hw hreached n
    rw [List.foldlM_cons, run_bind hstep] at hrun
    have hnames := Procedures.SameNames.of_bare h₁.bare
    have hrest := ih h₁.sound h₁.entered (hw.trans_eq h₁.size.symm) hreached₁
      (by rwa [hnames.find?_eq]) hrun
    rw [hnames.complaints_eq] at hrest
    by_cases hn : p n
    · obtain ⟨more, hmore, hstep'⟩ :=
        Unaware.exists_reported (fun ps => reachTarget_unaware w reached n) hstep
      obtain rfl := List.append_cancel_left (hmore.symm.trans h₁.problems)
      rw [List.filter_cons_of_pos hn, List.foldlM_cons, run_bind (hstep' qs), hrest,
        List.flatMap_cons, List.append_assoc]
    · -- nothing happens but that the name is reported
      have hskip : reachTarget w reached n s =
          .ok (reached, s.reporting (s.procedures.complaints n w.span)) := by
        have hlookup := lookup_eq_ok hs n w.span
        rw [hp n (by simpa using hn)] at hlookup
        exact (run_bind hlookup _).trans rfl
      obtain ⟨rfl, rfl⟩ := Prod.mk.inj (Except.ok.inj (hskip.symm.trans hstep))
      rw [List.filter_cons_of_neg hn]
      exact hrest qs

/-- Of the targets of a GO TO those are left that are kept. -/
theorem exists_jumpTargets_pruned (keep : Reference → Bool) (a : Alterations) (w : PendingJump) :
    ∃ p, jumpTargets a (w.pruned keep) = (jumpTargets a w).filter p ∧
      ∀ n, p n = false → keep (.choice n w.span) = false := by
  obtain ⟨node, span, j, block⟩ := w
  cases j with
  | simple target => exact ⟨fun _ => true, (List.filter_eq_self.2 fun _ _ => rfl).symm, nofun⟩
  | conditional targets => exact ⟨fun n => keep (.choice n span), rfl, fun _ hn => hn⟩

/-- GO TOs are drawn alike without targets that stand for nothing. -/
theorem resolveJumps_pruned (keep : Reference → Bool) {waiting : List PendingJump}
    (hs : Sound s) (he : s.Entered) (hw : ∀ w ∈ waiting, w.block < s.graph.size)
    (hkeep : ∀ n span, keep (.choice n span) = false → s.procedures.find? n = none)
    (hrun : resolveJumps a waiting s = .ok ((), s')) (qs : List Problem) :
    resolveJumps a (waiting.map (·.pruned keep)) (s.withProblems qs) =
      .ok ((), s'.withProblems (qs ++ (waiting.map (·.pruned keep)).flatMap fun w =>
        (jumpTargets a w).flatMap (s.procedures.complaints · w.span))) := by
  induction waiting generalizing s qs with
  | nil =>
    obtain ⟨-, rfl⟩ := Prod.mk.inj (Except.ok.inj hrun)
    rw [List.map_nil, List.flatMap_nil, List.append_nil]
    rfl
  | cons w rest ih =>
    obtain ⟨s₁, hjump, h₁, -⟩ := exists_resolveJump hs he a (hw w (by simp))
    have hrun : resolveJumps a rest s₁ = .ok ((), s') := (run_bind hjump _).symm.trans hrun
    have hnames := Procedures.SameNames.of_bare h₁.bare
    have hrest := ih h₁.sound h₁.entered
      (fun w' hw' => (hw w' (by simp [hw'])).trans_eq h₁.size.symm) (by rwa [hnames.find?_eq]) hrun
    rw [hnames.complaints_eq] at hrest
    -- the targets of this one
    obtain ⟨reached, s₂, hfold, hpure⟩ := exists_of_run_bind_eq_ok hjump
    obtain ⟨-, rfl⟩ := Prod.mk.inj (Except.ok.inj hpure)
    obtain ⟨p, htargets, hp⟩ := exists_jumpTargets_pruned keep a w
    have hfold' := foldlM_reachTarget_filter hs he (hw w (by simp)) (by simp [Reaches])
      (fun n hn => hkeep n w.span (hp n hn)) hfold qs
    rw [← htargets] at hfold'
    have hjump' : resolveJump a (w.pruned keep) (s.withProblems qs) = .ok ((), _) :=
      (run_bind hfold' _).trans rfl
    rw [List.map_cons, List.flatMap_cons, ← List.append_assoc]
    exact (run_bind hjump' _).trans (hrest _)

/-- Clauses that add nothing may be left out. -/
theorem alterations_pruned
    (hkeep : ∀ c span, keep (.clause c span) = false → alteration? s c = none)
    (waiting : List PendingAlter) :
    ((waiting.map (·.pruned keep)).flatMap fun w => w.clauses.filterMap (alteration? s)) =
      waiting.flatMap fun w => w.clauses.filterMap (alteration? s) := by
  rw [List.flatMap_map]
  refine List.flatMap_congr fun w _ => ?_
  rw [PendingAlter.pruned, List.filterMap_filter]
  refine List.filterMap_congr fun c _ => ?_
  split
  · rfl
  · next hc => exact (hkeep c w.span (by simpa using hc)).symm

/-- The end of a division, when its jumps have been drawn. -/
theorem resolvePending_eq_resolveCalls {s₁ s₂ s₃ : Scope} (o : Options)
    (hsentences : resolveNextSentences s.pending.nextSentences { s with pending := {} } =
      .ok ((), s₁))
    (halters : resolveAlters s.pending.alters s₁ = .ok (a, s₂))
    (hjumps : resolveJumps a s.pending.jumps s₂ = .ok ((), s₃)) :
    resolvePending o s = resolveCalls o s.pending.performs s₃ := by
  rw [resolvePending, run_bind (a := s) (t := s) rfl,
    run_bind (a := ⟨⟩) (t := { s with pending := {} }) rfl, run_bind hsentences, run_bind halters]
  exact run_bind hjumps _

end Build

/-- **The end of a division** is the same without references that stand for nothing, but for what is
reported of them. -/
theorem Draft.exists_resolved_pruned {o : Options} {s s' : Scope} {p : Plan} {chs : List Chapter}
    {keep : Reference → Bool} (h : Draft o s p chs)
    (hchoice : ∀ n span, keep (.choice n span) = false → s.procedures.find? n = none)
    (hclause : ∀ c span, keep (.clause c span) = false → Build.alteration? s c = none)
    (hrun : Build.resolvePending o s = .ok ((), s')) : ∃ s'' rest,
      Build.resolvePending o (s.revised (Pending.pruned keep) []) = .ok ((), s'') ∧
      s''.graph = s'.graph ∧ s''.procedures = s'.procedures ∧
      s'.problems = s.jumpComplaints ++ rest ∧
      s''.problems = (s.revised (Pending.pruned keep) []).jumpComplaints ++ rest := by
  set t := s.revised (Pending.pruned keep) []
  have hsound : Sound ({ s with pending := {} } : Scope) :=
    { h.sound with
      jumps := List.forall_mem_nil _
      nextSentences := List.forall_mem_nil _
      performs := List.forall_mem_nil _ }
  have h₀ : Links s { s with pending := {} } (fun _ _ => False) [] :=
    { Links.refl h.sound h.entered with sound := hsound }
  -- NEXT SENTENCE is drawn in the same scope
  obtain ⟨s₁, hrun₁, h₁⟩ := Build.exists_resolveNextSentences hsound h.entered
    s.pending.nextSentences h.sound.nextSentences
  have h₀₁ := h₀.trans h₁
  have hnames₁ := Procedures.SameNames.of_bare h₀₁.bare
  -- the same is added by ALTERs
  have hrun₂ (waiting : List PendingAlter) := Build.resolveAlters_eq_ok h₁.sound waiting
  rw [Build.alteration?_congr hnames₁ h₀₁.leading?_eq,
    Build.alterComplaints_congr hnames₁ h₀₁.leading?_eq] at hrun₂
  have hadded : t.alterations = s.alterations := Build.alterations_pruned hclause s.pending.alters
  set complaints := s.pending.alters.flatMap fun w =>
    w.clauses.flatMap (Build.alterComplaints s w.span)
  set complaints' := t.pending.alters.flatMap fun w =>
    w.clauses.flatMap (Build.alterComplaints s w.span)
  have h₀₂ := h₀₁.trans (Links.report h₁.sound h₁.entered complaints)
  have hstart : s₁.reporting complaints' = (s₁.reporting complaints).withProblems complaints' := by
    rw [reporting, h₀₁.problems, h.problems]
    rfl
  have hrun₂' : Build.resolveAlters t.pending.alters s₁ =
      .ok (s.alterations, (s₁.reporting complaints).withProblems complaints') :=
    hstart ▸ hadded ▸ hrun₂ t.pending.alters
  -- GO TOs are drawn alike
  have hnames₂ := Procedures.SameNames.of_bare h₀₂.bare
  have hblocks : ∀ w ∈ s.pending.jumps, w.block < s₁.graph.size :=
    fun w hw => (h.sound.jumps w hw).trans_eq h₀₁.size.symm
  obtain ⟨s₃, hrun₃, h₃, -⟩ := Build.exists_resolveJumps h₀₂.sound h₀₂.entered s.alterations
    s.pending.jumps hblocks
  have hrun₃' := Build.resolveJumps_pruned keep h₀₂.sound h₀₂.entered hblocks
    (by rwa [hnames₂.find?_eq]) hrun₃ complaints'
  rw [hnames₂.complaints_eq] at h₃ hrun₃'
  -- and calls are resolved alike
  rw [Build.resolvePending_eq_resolveCalls o hrun₁ (hrun₂ _) hrun₃] at hrun
  obtain ⟨rest, hrest, hrun'⟩ :=
    Unaware.exists_reported (fun ps => Build.resolveCalls_unaware o s.pending.performs) hrun
  refine ⟨s'.withProblems (t.jumpComplaints ++ rest), rest, ?_, rfl, rfl, ?_, rfl⟩
  · rw [Build.resolvePending_eq_resolveCalls o (s := t) hrun₁ hrun₂' hrun₃', jumpComplaints, hadded]
    exact hrun' _
  · rw [hrest, (h₀₂.trans h₃).problems, h.problems]
    rfl

end CobolFlow
