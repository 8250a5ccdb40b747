import CobolFlow.Proofs.Division.Links

/-!
# The three passes

NEXT SENTENCE, ALTER and GO TO are resolved one after the other. Which edges and which problems come
of it depends on the catalog of procedures and on the first statements of procedures alone. Both are
there before the first edge is drawn, so the edges may be described all at once; those of a GO TO
are drawn in the order of its targets.

## Main results

* `Build.exists_resolveNextSentences`, `Build.resolveAlters_eq_ok`, `Build.exists_resolveJumps` —
  one for each pass
* `Build.exists_resolveJump` — the edges of one GO TO, in order
-/

namespace CobolFlow

namespace Build

open Scope

variable {s : Scope}

/-- NEXT SENTENCE leads to the sentence after. -/
theorem exists_resolveNextSentences (hs : Sound s) (he : s.Entered)
    (waiting : List PendingNextSentence) (h : ∀ w ∈ waiting, w.block < s.graph.size) :
    ∃ s', resolveNextSentences waiting s = .ok ((), s') ∧
      Links s s' (fun b c => ∃ w ∈ waiting, b = w.block ∧
        s.procedures.firstBlock? (w.sentence + 1) = some c) [] := by
  rw [resolveNextSentences]
  refine (Links.forIn (E := fun w b c => b = w.block ∧
    s.procedures.firstBlock? (w.sentence + 1) = some c) (P := fun _ => []) hs he ?_).imp
      fun s' h' => ⟨(run_bind h'.1 _).trans rfl, ?_⟩
  · intro w hw s₁ F qs h₁
    have hsize := Procedures.size_eq_of_bare h₁.bare
    rw [run_bind (a := s₁) (t := s₁) rfl, Procedures.sentenceAfter]
    by_cases hlt : w.sentence + 1 < s₁.procedures.sentences.size
    · obtain ⟨s₂, hlink, h₂⟩ := exists_linkToSentence h₁.sound h₁.entered
        ((h w hw).trans_eq h₁.size.symm) hlt
      rw [Procedures.firstBlock?_eq h₁.bare] at h₂
      rw [if_pos hlt]
      exact ⟨s₂, (run_bind hlink _).trans rfl, h₂⟩
    · rw [if_neg hlt]
      refine ⟨s₁, rfl, (Links.refl h₁.sound h₁.entered).congr fun b c => ?_⟩
      have hle : s.procedures.sentences.size ≤ w.sentence + 1 := hsize ▸ not_lt.1 hlt
      simp [Procedures.firstBlock?, Array.getElem?_eq_none hle]
  · have hlinks := h'.2
    rwa [List.flatMap_eq_nil_iff.2 fun _ _ => rfl] at hlinks

/-- The simple GO TO with which a procedure begins. -/
def leading? (s : Scope) (p : ProcedureId) : Option NodeId :=
  (((s.procedures.opening? p).bind s.procedures.firstBlock?).bind fun b =>
    (s.graph.chart b).nodes.head?).bind fun i => if i.tag = .goToSimple then some i.node else none

theorem leadingJump_eq_ok (hs : Sound s) {p : ProcedureId}
    (hp : p < s.procedures.procedures.size) : leadingJump p s = .ok (leading? s p, s) := by
  obtain ⟨j?, hok, hj⟩ := Procedures.exists_firstSentence_eq_ok hs.procedures hp
  have hopening : s.procedures.opening? p = j? := by rw [Procedures.opening?, hok]
  rw [leadingJump, run_bind (a := s) (t := s) rfl, run_bind (run_lift hok s), leading?, hopening]
  cases j? with
  | none => rfl
  | some j =>
    obtain ⟨t, hsentence, ht⟩ := Procedures.exists_sentence_eq_ok (hj j rfl)
    have hfirst : s.procedures.firstBlock? j = t.firstBlock? := by
      rw [Procedures.firstBlock?, ht]
      rfl
    rw [Option.bind_some, hfirst]
    refine (run_bind (run_lift hsentence s) _).trans ?_
    cases hb : t.firstBlock? with
    | none => rfl
    | some b =>
      obtain ⟨block, hblock, hget⟩ :=
        Graph.exists_block_eq_ok ((hs.sentence ht).blocks b (List.mem_of_head? hb))
      rw [Option.bind_some, Graph.chart_of_getElem? hget]
      refine (run_bind (run_lift hblock s) _).trans ?_
      change _ = Except.ok (block.instructions.head?.bind _, s)
      cases block.instructions.head? with
      | none => rfl
      | some i => rfl

/-- What an ALTER clause adds to a GO TO. -/
def alteration? (s : Scope) (clause : AlterClause) : Option (NodeId × QualifiedName) :=
  (s.procedures.find? clause.altered).bind fun p => (s.procedures.find? clause.target).bind fun _ =>
    (leading? s p).map fun n => (n, clause.target)

/-- What is reported of an ALTER clause. -/
def alterComplaints (s : Scope) (span : Span) (clause : AlterClause) : List Problem :=
  s.procedures.complaints clause.altered span ++
    match s.procedures.find? clause.altered with
    | none => []
    | some p =>
      s.procedures.complaints clause.target span ++
        if (s.procedures.find? clause.target).isSome ∧ leading? s p = none then
          (s.procedures.procedures[p]?.map fun procedure =>
            { kind := .malformedAlter procedure.name, span }).toList
        else []

section Congr

variable {s' : Scope} (hnames : Procedures.SameNames s.procedures s'.procedures)
  (hleading : leading? s' = leading? s)
include hnames hleading

/-- What ALTER adds depends on names and on how procedures begin. -/
theorem alteration?_congr : alteration? s' = alteration? s := by
  funext clause
  rw [alteration?, alteration?, hnames.find?_eq, hleading]

theorem alterComplaints_congr : alterComplaints s' = alterComplaints s := by
  have hprocedures : s'.procedures.procedures = s.procedures.procedures :=
    congrArg (·.procedures) hnames
  funext span clause
  rw [alterComplaints, alterComplaints, hnames.find?_eq, hnames.complaints_eq, hleading,
    hprocedures]

end Congr

theorem resolveAlterClause_eq_ok (hs : Sound s) (span : Span) (known : Alterations)
    (clause : AlterClause) : resolveAlterClause span known clause s =
      .ok (known ++ (alteration? s clause).toList,
        s.reporting (alterComplaints s span clause)) := by
  rw [resolveAlterClause, run_bind (lookup_eq_ok hs clause.altered span), alteration?,
    alterComplaints]
  cases hp : s.procedures.find? clause.altered with
  | none =>
    rw [Option.bind_none, Option.toList_none, List.append_nil, List.append_nil]
    rfl
  | some p =>
    set s₁ := s.reporting (s.procedures.complaints clause.altered span)
    have hlt := Procedures.find?_lt hs.procedures hp
    set s₂ := s₁.reporting (s.procedures.complaints clause.target span)
    have hlookup : lookup clause.target span s₁ = .ok (s.procedures.find? clause.target, s₂) :=
      lookup_eq_ok (hs.reporting _) clause.target span
    refine (run_bind hlookup _).trans ?_
    have hboth : s₂ = s.reporting (s.procedures.complaints clause.altered span ++
        s.procedures.complaints clause.target span) := reporting_reporting _ _ _
    cases s.procedures.find? clause.target with
    | none =>
      dsimp only [Option.bind_some]
      rw [if_neg (by simp), List.append_nil, ← hboth]
      exact congrArg (fun known => Except.ok (known, s₂)) (List.append_nil known).symm
    | some q =>
      have hjump : leadingJump p s₂ = .ok (leading? s p, s₂) :=
        leadingJump_eq_ok ((hs.reporting _).reporting _) hlt
      refine (run_bind hjump _).trans ?_
      cases hleading : leading? s p with
      | some n =>
        dsimp only [Option.bind_some]
        rw [hleading, if_neg (by simp), List.append_nil, ← hboth]
        rfl
      | none =>
        obtain ⟨procedure, hok, hget⟩ := Procedures.exists_procedure_eq_ok hlt
        refine (run_bind (a := s₂) (t := s₂) rfl _).trans ?_
        refine (run_bind (run_lift hok s₂) _).trans ?_
        dsimp only [Option.bind_some]
        rw [hleading, if_pos ⟨rfl, rfl⟩, hget, ← List.append_assoc, ← reporting_reporting, ← hboth]
        exact congrArg (fun known => Except.ok (known, s₂.reporting
          [{ kind := .malformedAlter procedure.name, span }])) (List.append_nil known).symm

theorem foldlM_resolveAlterClause (hs : Sound s) (span : Span) (known : Alterations)
    (clauses : List AlterClause) : clauses.foldlM (resolveAlterClause span) known s =
      .ok (known ++ clauses.filterMap (alteration? s),
        s.reporting (clauses.flatMap (alterComplaints s span))) := by
  suffices h : ∀ ps, clauses.foldlM (resolveAlterClause span) known (s.reporting ps) =
      .ok (known ++ clauses.filterMap (alteration? s),
        s.reporting (ps ++ clauses.flatMap (alterComplaints s span))) by
    simpa using h []
  induction clauses generalizing known with
  | nil =>
    intro ps
    rw [List.filterMap_nil, List.flatMap_nil, List.append_nil, List.append_nil]
    rfl
  | cons clause rest ih =>
    intro ps
    have hclause := resolveAlterClause_eq_ok (hs.reporting ps) span known clause
    rw [reporting_reporting] at hclause
    rw [List.foldlM_cons, run_bind hclause, ih, List.flatMap_cons, ← List.append_assoc ps]
    refine congrArg (fun known => Except.ok (known, _)) ?_
    change known ++ (alteration? s clause).toList ++ _ = _
    cases h : alteration? s clause <;> simp [h]

/-- All that ALTER statements add, and all that is reported of them. -/
theorem resolveAlters_eq_ok (hs : Sound s) (waiting : List PendingAlter) :
    resolveAlters waiting s = .ok (waiting.flatMap fun w => w.clauses.filterMap (alteration? s),
      s.reporting (waiting.flatMap fun w => w.clauses.flatMap (alterComplaints s w.span))) := by
  suffices h : ∀ known ps, waiting.foldlM (fun known w =>
      w.clauses.foldlM (resolveAlterClause w.span) known) known (s.reporting ps) =
        .ok (known ++ waiting.flatMap fun w => w.clauses.filterMap (alteration? s),
          s.reporting (ps ++
            waiting.flatMap fun w => w.clauses.flatMap (alterComplaints s w.span))) by
    have hall := h [] []
    rwa [reporting_nil, List.nil_append, List.nil_append] at hall
  induction waiting with
  | nil =>
    intro known ps
    rw [List.flatMap_nil, List.flatMap_nil, List.append_nil, List.append_nil]
    rfl
  | cons w rest ih =>
    intro known ps
    have hclauses := foldlM_resolveAlterClause (hs.reporting ps) w.span known w.clauses
    rw [reporting_reporting] at hclauses
    rw [List.foldlM_cons, run_bind hclauses, ih, List.flatMap_cons, List.flatMap_cons,
      List.append_assoc, List.append_assoc]
    rfl

/-- Leads a GO TO to one of its targets, unless it has reached that procedure already. -/
def reachTarget (w : PendingJump) (reached : List ProcedureId) (target : QualifiedName) :
    Build (List ProcedureId) := do
  let some p ← lookup target w.span | return reached
  if reached.contains p then
    return reached
  else
    if let some sentence ← (← get).procedures.firstSentence p then
      linkToSentence w.block sentence
    return p :: reached

theorem resolveJump_eq (a : Alterations) (w : PendingJump) : resolveJump a w =
    (jumpTargets a w).foldlM (reachTarget w) [] >>= fun _ => pure () := rfl

/-- The block leads to where the procedures begin that have been reached. -/
def Reaches (s : Scope) (b : BlockId) (reached : List ProcedureId) : Prop :=
  ∀ p ∈ reached, ∀ c, (s.procedures.opening? p).bind s.procedures.firstBlock? = some c →
    c ∈ (s.graph.chart b).next

/-- What has been reached is still reached when edges have been added. -/
theorem Reaches.mono {s' : Scope} {E : ℕ → ℕ → Prop} {ps : List Problem}
    {reached : List ProcedureId} (h : Reaches s b reached) (hlinks : Links s s' E ps) :
    Reaches s' b reached := by
  intro p hp c hc
  rw [(Procedures.SameNames.of_bare hlinks.bare).opening?_eq,
    Procedures.firstBlock?_eq hlinks.bare] at hc
  exact hlinks.mem_next.2 (.inl (h p hp c hc))

/-- **One target** of a GO TO. If its procedure has been reached before, the block leads there
already. -/
theorem exists_reachTarget (hs : Sound s) (he : s.Entered) {w : PendingJump}
    (hw : w.block < s.graph.size) {reached : List ProcedureId}
    (hreached : Reaches s w.block reached) (n : QualifiedName) :
    ∃ reached' s', reachTarget w reached n s = .ok (reached', s') ∧ Reaches s' w.block reached' ∧
      Links s s' (fun b c => b = w.block ∧ s.procedures.entrance? n = some c)
        (s.procedures.complaints n w.span) := by
  have hlookup := lookup_eq_ok hs n w.span
  have h₁ : Links s (s.reporting (s.procedures.complaints n w.span)) (fun _ _ => False) _ :=
    .report hs he _
  set s₁ := s.reporting (s.procedures.complaints n w.span)
  cases hp : s.procedures.find? n with
  | none =>
    rw [hp] at hlookup
    refine ⟨reached, s₁, (run_bind hlookup _).trans rfl, hreached, h₁.congr fun b c => ?_⟩
    simp [Procedures.entrance?, hp]
  | some p =>
    rw [hp] at hlookup
    have hentrance : s.procedures.entrance? n =
        (s.procedures.opening? p).bind s.procedures.firstBlock? := by
      rw [Procedures.entrance?, hp, Option.bind_some]
    by_cases hmem : reached.contains p = true
    · refine ⟨reached, s₁, (run_bind hlookup _).trans ?_, hreached, h₁.of_mem ?_⟩
      · simp only [hmem, if_true]
        rfl
      · rintro _ c ⟨rfl, hc⟩
        exact hreached p (List.contains_iff_mem.1 hmem) c (hentrance ▸ hc)
    · obtain ⟨j?, hok, hj⟩ := Procedures.exists_firstSentence_eq_ok h₁.sound.procedures
        (Procedures.find?_lt hs.procedures hp)
      have hopening : s.procedures.opening? p = j? := by rw [Procedures.opening?]; exact hok ▸ rfl
      obtain ⟨s₂, hlink, h₂⟩ : ∃ s₂, (do
          if let some sentence := j? then
            linkToSentence w.block sentence
          return p :: reached : Build (List ProcedureId)) s₁ = .ok (p :: reached, s₂) ∧
          Links s₁ s₂ (fun b c => b = w.block ∧ s.procedures.entrance? n = some c) [] := by
        rw [hentrance, hopening]
        cases j? with
        | none => exact ⟨s₁, rfl, (Links.refl h₁.sound h₁.entered).congr (by simp)⟩
        | some j =>
          obtain ⟨s₂, hlink, h₂⟩ := exists_linkToSentence h₁.sound h₁.entered hw (hj j rfl)
          exact ⟨s₂, (run_bind hlink _).trans rfl, h₂⟩
      have hall := h₁.trans h₂
      rw [List.append_nil] at hall
      refine ⟨p :: reached, s₂, (run_bind hlookup _).trans ?_, fun q hq c hc => ?_,
        hall.congr fun b c => by rw [false_or]⟩
      · simp only [hmem]
        refine (run_bind (a := s₁) (t := s₁) rfl _).trans ?_
        exact (run_bind (run_lift hok s₁) _).trans hlink
      · obtain rfl | hq := List.mem_cons.1 hq
        · rw [(Procedures.SameNames.of_bare h₂.bare).opening?_eq,
            Procedures.firstBlock?_eq h₂.bare] at hc
          exact h₂.next _ c ⟨rfl, hentrance.trans hc⟩
        · exact (hreached.mono h₁).mono h₂ q hq c hc

/-- **A GO TO** leads to everything that its targets stand for, in this order. -/
theorem exists_resolveJump (hs : Sound s) (he : s.Entered) (a : Alterations) {w : PendingJump}
    (hw : w.block < s.graph.size) : ∃ s', resolveJump a w s = .ok ((), s') ∧
      Links s s' (fun b c => b = w.block ∧ ∃ n ∈ jumpTargets a w, s.procedures.entrance? n = some c)
        ((jumpTargets a w).flatMap (s.procedures.complaints · w.span)) ∧
      (s.procedures.BeginApart → s.LeadsOnce w.block → (s'.graph.chart w.block).next =
        ((s.graph.chart w.block).next ++
          (jumpTargets a w).filterMap s.procedures.entrance?).eraseDups) := by
  suffices h : ∃ reached s', (jumpTargets a w).foldlM (reachTarget w) [] s = .ok (reached, s') ∧
      Reaches s' w.block reached ∧
      Links s s' (fun b c => b = w.block ∧ ∃ n ∈ jumpTargets a w, s.procedures.entrance? n = some c)
        ((jumpTargets a w).flatMap (s.procedures.complaints · w.span)) ∧
      (s.procedures.BeginApart → s.LeadsOnce w.block → (s'.graph.chart w.block).next =
        ((s.graph.chart w.block).next ++
          (jumpTargets a w).filterMap s.procedures.entrance?).eraseDups) by
    obtain ⟨reached, s', hrun, -, h'⟩ := h
    exact ⟨s', (run_bind hrun _).trans rfl, h'⟩
  induction jumpTargets a w using List.reverseRecOn with
  | nil =>
    refine ⟨[], s, rfl, by simp [Reaches], (Links.refl hs he).congr (by simp), fun _ honce => ?_⟩
    rw [List.filterMap_nil, List.append_nil, eraseDups_of_nodup honce.nodup]
  | append_singleton pre n ih =>
    obtain ⟨reached, s₁, hrun, hreached, h₁, hnext⟩ := ih
    obtain ⟨reached', s₂, htarget, hreached', h₂⟩ := exists_reachTarget h₁.sound h₁.entered
      (hw.trans_eq h₁.size.symm) hreached n
    rw [Procedures.entrance?_eq h₁.bare, (Procedures.SameNames.of_bare h₁.bare).complaints_eq] at h₂
    refine ⟨reached', s₂, ?_, hreached', ?_, fun hapart honce => ?_⟩
    · rw [List.foldlM_append, run_bind hrun, List.foldlM_cons, run_bind htarget]
      rfl
    · rw [List.flatMap_append, List.flatMap_singleton]
      refine (h₁.trans h₂).congr fun b c => ?_
      simp only [List.mem_append, List.mem_singleton, or_and_right, exists_or, exists_eq_left,
        and_or_left]
    · have hfirst := Procedures.firstBlock?_eq h₁.bare
      have honce₁ := h₁.leadsOnce hs hapart honce
      have honce₂ := h₂.leadsOnce h₁.sound (by rwa [Procedures.BeginApart, hfirst]) honce₁
      rw [h₂.next_eq honce₂.nodup (hnext hapart honce), List.filterMap_append, List.append_assoc]
      cases hn : s.procedures.entrance? n <;> simp [hn]

/-- Everything that GO TOs lead to. Each of them has a block to itself, so its edges are drawn as if
it were the only one. -/
theorem exists_resolveJumps (hs : Sound s) (he : s.Entered) (a : Alterations)
    (waiting : List PendingJump) (h : ∀ w ∈ waiting, w.block < s.graph.size) :
    ∃ s', resolveJumps a waiting s = .ok ((), s') ∧
      Links s s' (fun b c => ∃ w ∈ waiting, b = w.block ∧ ∃ n ∈ jumpTargets a w,
        s.procedures.entrance? n = some c)
      (waiting.flatMap fun w => (jumpTargets a w).flatMap (s.procedures.complaints · w.span)) ∧
      (s.procedures.BeginApart → (waiting.map (·.block)).Nodup → ∀ w ∈ waiting,
        s.LeadsOnce w.block → (s'.graph.chart w.block).next =
          ((s.graph.chart w.block).next ++
            (jumpTargets a w).filterMap s.procedures.entrance?).eraseDups) := by
  induction waiting generalizing s with
  | nil => exact ⟨s, rfl, (Links.refl hs he).congr (by simp), by simp⟩
  | cons w rest ih =>
    obtain ⟨s₁, hrun₁, h₁, hnext₁⟩ := exists_resolveJump hs he a (h w (by simp))
    obtain ⟨s₂, hrun₂, h₂, hnext₂⟩ := ih h₁.sound h₁.entered fun w' hw' =>
      (h w' (by simp [hw'])).trans_eq h₁.size.symm
    rw [Procedures.entrance?_eq h₁.bare, (Procedures.SameNames.of_bare h₁.bare).complaints_eq] at h₂
    rw [Procedures.entrance?_eq h₁.bare, Procedures.BeginApart,
      Procedures.firstBlock?_eq h₁.bare] at hnext₂
    refine ⟨s₂, (run_bind hrun₁ _).trans hrun₂, (h₁.trans h₂).congr fun b c => by simp, ?_⟩
    intro hapart hnodup w' hw' honce
    obtain ⟨hfirst, hrest⟩ := List.nodup_cons.1 hnodup
    obtain rfl | hw' := List.mem_cons.1 hw'
    · rw [h₂.chart_eq, hnext₁ hapart honce]
      rintro c ⟨w', hw', heq, -⟩
      exact hfirst (List.mem_map.2 ⟨w', hw', heq.symm⟩)
    · rw [hnext₂ hapart hrest w' hw' (h₁.leadsOnce hs hapart honce), h₁.chart_eq]
      rintro c ⟨heq, -⟩
      exact hfirst (List.mem_map.2 ⟨w', hw', heq⟩)

end Build

end CobolFlow
