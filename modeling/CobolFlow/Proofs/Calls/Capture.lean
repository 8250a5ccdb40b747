import CobolFlow.Proofs.Calls.Filing
import CobolFlow.Proofs.Calls.Tour

/-!
# The capture as a tour

The capture of the ranges follows the tour of the errands. What a range lists, which calls are made
from its blocks and which of its edges leave it can be read off the graph before the first range is
captured, because capturing one only adds to the graph.

## Main definitions

* `Procedures.performed?`, `Procedures.covered?`, `Procedures.captured?` — the procedures, the
  sentences and the blocks of a range
* `Scope.errand` — a PERFORM, as far as the tour is concerned
* `Follows` — the capture has come as far as a tour

## Main results

* `Build.resolvePerforms_follows` — the capture of all ranges is the tour of all errands
-/

namespace CobolFlow

open Scope

namespace Procedures

variable (c : Procedures)

/-- The procedure with which a range ends that begins with `first`. -/
def through? (r : PerformRange) (first : ProcedureId) : Option ProcedureId :=
  match r.through with
  | some through => c.find? through
  | none => some first

/-- The first and the last procedure of a range, where both are known and stand in order. -/
def performed? (r : PerformRange) : Option (ProcedureId × ProcedureId) :=
  (c.find? r.first).bind fun first => (c.through? r first).bind fun last =>
    if last < first then none else some (first, last)

/-- What is reported of a range that ends before it begins. -/
def orderComplaints (span : Span) (first : ProcedureId) (last? : Option ProcedureId) :
    List Problem :=
  match last? with
  | none => []
  | some last =>
    if last < first then
      match c.procedures[first]?, c.procedures[last]? with
      | some p, some q => [{ kind := .invalidPerformRange p.name q.name, span }]
      | _, _ => []
    else []

/-- What is reported of the names of a range. -/
def rangeComplaints (r : PerformRange) (span : Span) : List Problem :=
  c.complaints r.first span ++
    match c.find? r.first with
    | none => []
    | some first => (r.through.map (c.complaints · span)).getD [] ++
      c.orderComplaints span first (c.through? r first)

/-- The sentences of a range. -/
def covered? (r : PerformRange) : Option (List SentenceId) :=
  (c.performed? r).bind fun range =>
    ((Build.proceduresBetween c range.1 range.2).mapM c.sentencesOf).toOption.map List.flatten

/-- The blocks of a range. -/
def captured? (r : PerformRange) : Option (List BlockId) :=
  (c.performed? r).bind fun range => (Build.capturedBlocks c range.1 range.2).toOption

variable {c} {r : PerformRange} {l : List SentenceId} {blocks : List BlockId}

theorem captured?_eq_some_iff : c.captured? r = some blocks ↔ ∃ first last,
    c.performed? r = some (first, last) ∧ Build.capturedBlocks c first last = .ok blocks := by
  simp only [captured?, Option.bind_eq_some_iff, Prod.exists, toOption_eq_some_iff]

theorem covered?_eq_some_iff : c.covered? r = some l ↔ ∃ first last,
    c.performed? r = some (first, last) ∧ ∃ found,
      (Build.proceduresBetween c first last).mapM c.sentencesOf = .ok found ∧
        found.flatten = l := by
  simp only [covered?, Option.bind_eq_some_iff, Prod.exists, Option.map_eq_some_iff,
    toOption_eq_some_iff]

/-- The blocks of a range are those of its sentences. -/
theorem exists_covered? (h : c.captured? r = some blocks) : ∃ l, c.covered? r = some l ∧
    blocks = l.flatMap fun j => (c.sentences[j]?.map (·.blocks)).getD [] := by
  obtain ⟨first, last, hrange, hblocks⟩ := captured?_eq_some_iff.1 h
  obtain ⟨found, hfound, rfl⟩ := exists_of_capturedBlocks_eq_ok hblocks
  exact ⟨_, covered?_eq_some_iff.2 ⟨first, last, hrange, found, hfound, rfl⟩, rfl⟩

end Procedures

/-- A PERFORM, as far as the tour is concerned. -/
def Scope.errand (s : Scope) (w : PendingPerform) : Errand where
  complaints := s.procedures.rangeComplaints w.range w.span
  sites := (s.procedures.captured? w.range).map fun blocks =>
    blocks.filterMap fun b => (s.graph.chart b).group.map (b, ·)
  warning b := { kind := .recursivePerform w.range.display b, span := w.span }
  leavings := Build.leavings w w.range.display s.graph.chart
    ((s.procedures.captured? w.range).getD [])

/-- The PERFORMs of a scope in which no range has been captured. -/
structure Scope.Awaits (s : Scope) (W : List PendingPerform) : Prop where
  sound : Sound s
  size : s.graph.groups.size = W.length
  group : ∀ {k : ℕ} {w : PendingPerform}, W[k]? = some w → w.group = k ∧
    ∃ callSite node, s.graph.groups[k]? =
      some { id := k, callSite, node, range := w.range.display }
  nodup : ∀ {first last : ProcedureId} {blocks : List BlockId},
    Build.capturedBlocks s.procedures first last = .ok blocks → blocks.Nodup

/-- The members of a group are copies of its range once this has been captured, and before there are
none. -/
structure Fills (s : Scope) (W : List PendingPerform) (p? : Option Build.Progress) (g : Graph)
    (k : ℕ) (members terminals : List BlockId) : Prop where
  captured : p? = some .captured → ∃ w blocks, W[k]? = some w ∧
    s.procedures.captured? w.range = some blocks ∧ Graph.AreCopies s.graph g blocks members ∧
      Build.Transcribes s.graph.chart g blocks members terminals
  empty : p? ≠ some .captured → members = []

/-- From the scope `s₀` the capture has come to `s`, as far as the tour `t`. -/
structure Follows (s₀ : Scope) (W : List PendingPerform) (c : Build.Capture) (s : Scope)
    (t : Tour) : Prop where
  performs : c.performs = W.toArray
  progress : c.progress = t.progress
  length : t.progress.size = W.length
  procedures : s.procedures = s₀.procedures
  keeps : s₀.graph.Keeps s₀.graph.size s.graph
  size : s.graph.groups.size = s₀.graph.groups.size
  group : ∀ {k : ℕ} {group : Group}, s₀.graph.groups[k]? = some group → ∃ members terminals,
    s.graph.groups[k]? =
      some { group with members, terminals, recursive := decide (k ∈ t.flagged) } ∧
    Fills s₀ W t.progress[k]? s.graph k members terminals
  problems : s.problems = s₀.problems ++ t.problems

namespace Build

variable {s s₀ : Scope} {W : List PendingPerform} {c : Capture} {t : Tour} {w : PendingPerform}

/-- What is made of the two ends of a range once they have been looked up. -/
theorem orderedRange_eq_ok (w : PendingPerform) {first : ProcedureId}
    (hfirst : first < s.procedures.procedures.size) {last? : Option ProcedureId}
    (hlast : ∀ last ∈ last?, last < s.procedures.procedures.size) (ps : List Problem) :
    (do
      let some last := last? | return none
      if last < first then
        let c := (← get).procedures
        report
          { kind := .invalidPerformRange (← c.procedure first).name (← c.procedure last).name
            span := w.span }
        return none
      else
        return some (first, last) : Build (Option (ProcedureId × ProcedureId))) (s.reporting ps) =
    .ok (last?.bind fun last => if last < first then none else some (first, last),
      s.reporting (ps ++ s.procedures.orderComplaints w.span first last?)) := by
  cases last? with
  | none =>
    rw [Procedures.orderComplaints, List.append_nil]
    rfl
  | some last =>
    rw [Procedures.orderComplaints]
    dsimp only [Option.bind_some]
    split
    · obtain ⟨p, hp, hp'⟩ := Procedures.exists_procedure_eq_ok hfirst
      obtain ⟨q, hq, hq'⟩ := Procedures.exists_procedure_eq_ok (hlast last rfl)
      refine (run_bind (a := s.reporting ps) (t := s.reporting ps) rfl _).trans ?_
      refine (run_bind (run_lift hp _) _).trans ((run_bind (run_lift hq _) _).trans ?_)
      rw [hp', hq', ← reporting_reporting]
      rfl
    · rw [List.append_nil]
      rfl

theorem through?_lt (hs : Sound s) {r : PerformRange} {first : ProcedureId}
    (hfirst : first < s.procedures.procedures.size) :
    ∀ last ∈ s.procedures.through? r first, last < s.procedures.procedures.size := by
  intro last hlast
  rw [Procedures.through?] at hlast
  split at hlast
  · exact Procedures.find?_lt hs.procedures hlast
  · exact Option.some.inj hlast ▸ hfirst

theorem performedRange_eq_ok (hs : Sound s) (w : PendingPerform) : performedRange w s =
    .ok (s.procedures.performed? w.range,
      s.reporting (s.procedures.rangeComplaints w.range w.span)) := by
  rw [performedRange, run_bind (lookup_eq_ok hs w.range.first w.span), Procedures.performed?,
    Procedures.rangeComplaints]
  cases hfirst : s.procedures.find? w.range.first with
  | none =>
    rw [List.append_nil]
    rfl
  | some first =>
    have hlt := Procedures.find?_lt hs.procedures hfirst
    have hrest := fun ps => orderedRange_eq_ok w hlt (through?_lt (r := w.range) hs hlt) ps
    rw [Option.bind_some]
    dsimp only
    rw [← List.append_assoc]
    cases hthrough : w.range.through with
    | none =>
      have hlast : s.procedures.through? w.range first = some first := by
        rw [Procedures.through?, hthrough]
      rw [hlast] at hrest
      rw [hlast, Option.map_none, Option.getD_none, List.append_nil]
      exact hrest _
    | some through =>
      have hlast : s.procedures.through? w.range first = s.procedures.find? through := by
        rw [Procedures.through?, hthrough]
      rw [hlast] at hrest
      rw [hlast]
      refine (run_bind (lookup_eq_ok (hs.reporting _) through w.span) _).trans ?_
      rw [reporting_reporting]
      exact hrest _

theorem performed?_lt (hs : Sound s) {r : PerformRange} {range : ProcedureId × ProcedureId}
    (h : s.procedures.performed? r = some range) : range.2 < s.procedures.procedures.size := by
  obtain ⟨first, hfirst, h⟩ := Option.bind_eq_some_iff.1 h
  obtain ⟨last, hlast, h⟩ := Option.bind_eq_some_iff.1 h
  split at h
  · exact nomatch h
  · obtain rfl := Option.some.inj h
    exact through?_lt hs (Procedures.find?_lt hs.procedures hfirst) last hlast

/-- In a sound catalog a range has blocks if it has sentences. -/
theorem captured?_eq (hs : Sound s) (r : PerformRange) : s.procedures.captured? r =
    (s.procedures.covered? r).map fun l =>
      l.flatMap fun j => (s.procedures.sentences[j]?.map (·.blocks)).getD [] := by
  cases hcaptured : s.procedures.captured? r with
  | some blocks =>
    obtain ⟨l, hl, rfl⟩ := Procedures.exists_covered? hcaptured
    rw [hl]
    rfl
  | none =>
    rw [Procedures.covered?]
    cases hperformed : s.procedures.performed? r with
    | none => rfl
    | some range =>
      obtain ⟨blocks, hblocks, -⟩ := exists_capturedBlocks_eq_ok hs (performed?_lt hs hperformed)
      have hsome := Procedures.captured?_eq_some_iff.2 ⟨_, _, hperformed, hblocks⟩
      exact nomatch hcaptured.symm.trans hsome

theorem find?_eq_some (hA : s₀.Awaits W) (hc : c.performs = W.toArray) {k : ℕ}
    (hk : k < W.length) : c.find? k = some k := by
  rw [Capture.find?, hc, List.findIdx?_toArray, List.findIdx?_eq_some_iff_getElem]
  refine ⟨hk, ?_, fun j hj => ?_⟩
  · simp [(hA.group (List.getElem?_eq_getElem hk)).1]
  · have hj' := (hA.group (List.getElem?_eq_getElem (hj.trans hk))).1
    simpa [hj'] using hj.ne

end Build

namespace Fills

variable {s : Scope} {W : List PendingPerform} {p? : Option Build.Progress} {g g' : Graph} {k : ℕ}
  {members terminals : List BlockId}

theorem mono (h : Fills s W p? g k members terminals) (hkeep : g.Keeps g.size g') :
    Fills s W p? g' k members terminals where
  captured heq := by
    obtain ⟨w, blocks, hw, hblocks, hcopies, htranscribes⟩ := h.captured heq
    exact ⟨w, blocks, hw, hblocks, hcopies.mono hkeep.toKeepsCalls, htranscribes.mono hkeep⟩
  empty := h.empty

/-- The members of a group are copies of the blocks of its range. -/
theorem exists_copies (h : Fills s W p? g k members terminals) (hne : members ≠ []) :
    ∃ w blocks, W[k]? = some w ∧ s.procedures.captured? w.range = some blocks ∧
      Graph.AreCopies s.graph g blocks members := by
  obtain ⟨w, blocks, hw, hblocks, hcopies, -⟩ :=
    h.captured (of_not_not fun hnot => hne (h.empty hnot))
  exact ⟨w, blocks, hw, hblocks, hcopies⟩

end Fills

namespace Follows

variable {s s' s₀ : Scope} {W : List PendingPerform} {c : Build.Capture} {t : Tour} {k : ℕ}

theorem report (h : Follows s₀ W c s t) (ps : List Problem) :
    Follows s₀ W c (s.reporting ps) (t.report ps) :=
  { h with problems := by rw [reporting, h.problems, List.append_assoc]; rfl }

/-- A PERFORM whose range is not captured yet gets another state, in which it is not either. -/
theorem set (h : Follows s₀ W c s t) (hk : t.progress[k]? ≠ some .captured) {p : Build.Progress}
    (hp : p ≠ .captured) : Follows s₀ W (c.set k p) s (t.set k p) :=
  { h with
    progress := by rw [Build.Capture.set, Tour.set, h.progress]
    length := by simpa [Tour.set] using h.length
    group := fun {j group} hj => by
      obtain ⟨members, terminals, hget, hfills⟩ := h.group hj
      refine ⟨members, terminals, hget, ?_⟩
      by_cases hjk : j = k
      · subst hjk
        have hnot : (t.set j p).progress[j]? ≠ some .captured := fun heq => by
          rw [Tour.set, Array.getElem?_setIfInBounds, if_pos rfl] at heq
          split at heq
          · exact hp (Option.some.inj heq)
          · cases heq
        exact ⟨fun heq => absurd heq hnot, fun _ => hfills.empty hk⟩
      · have hsame : (t.set k p).progress[j]? = t.progress[j]? := by
          rw [Tour.set, Array.getElem?_setIfInBounds, if_neg (Ne.symm hjk)]
        exact ⟨fun heq => hfills.captured (hsame ▸ heq), fun heq => hfills.empty (hsame ▸ heq)⟩ }

/-- A group is marked. -/
theorem flag (h : Follows s₀ W c s t) (hprocedures : s'.procedures = s.procedures)
    (hproblems : s'.problems = s.problems)
    (hgroups : s'.graph.groups =
      s.graph.groups.modify k fun group => { group with recursive := true })
    (hkeeps : ∀ n, s.graph.Keeps n s'.graph) :
    Follows s₀ W c s' { t with flagged := t.flagged ++ [k] } :=
  { h with
    procedures := hprocedures.trans h.procedures
    keeps := h.keeps.trans (hkeeps _)
    size := by rw [hgroups, Array.size_modify, h.size]
    group := fun {j group} hj => by
      obtain ⟨members, terminals, hget, hfills⟩ := h.group hj
      refine ⟨members, terminals, ?_, hfills.mono (hkeeps _)⟩
      rw [hgroups, Array.getElem?_modify, hget]
      by_cases hjk : j = k
      · simp [hjk]
      · simp [hjk, Ne.symm hjk]
    problems := hproblems.trans h.problems }

/-- A group is filled, and its range captured. -/
theorem fill (h : Follows s₀ W c s t) {members terminals : List BlockId}
    (hprocedures : s'.procedures = s.procedures) {ps : List Problem}
    (hproblems : s'.problems = s.problems ++ ps)
    (hgroups : s'.graph.groups =
      s.graph.groups.modify k fun group => { group with members, terminals })
    (hkeeps : s.graph.Keeps s.graph.size s'.graph) {w : PendingPerform} {blocks : List BlockId}
    (hw : W[k]? = some w) (hblocks : s₀.procedures.captured? w.range = some blocks)
    (hcopies : Graph.AreCopies s₀.graph s'.graph blocks members)
    (htranscribes : Build.Transcribes s₀.graph.chart s'.graph blocks members terminals) :
    Follows s₀ W (c.set k .captured) s' ((t.report ps).set k .captured) :=
  { h with
    progress := by
      rw [Build.Capture.set, h.progress]
      rfl
    length := by simpa [Tour.set, Tour.report] using h.length
    procedures := hprocedures.trans h.procedures
    keeps := h.keeps.trans (hkeeps.mono h.keeps.size_le)
    size := by rw [hgroups, Array.size_modify, h.size]
    group := fun {j group} hj => by
      obtain ⟨members', terminals', hget, hfills'⟩ := h.group hj
      have hlt : k < (t.report ps).progress.size := h.length ▸ (List.getElem?_eq_some_iff.1 hw).1
      have hprogress := Tour.getElem?_set (p := .captured) hlt j
      rw [hgroups, Array.getElem?_modify, hget]
      by_cases hjk : k = j
      · subst hjk
        refine ⟨members, terminals, by rw [if_pos rfl]; rfl, fun _ => ⟨w, blocks, hw, hblocks,
          hcopies, htranscribes⟩, fun hnot => absurd (hprogress.trans (if_pos rfl)) hnot⟩
      · rw [if_neg (Ne.symm hjk)] at hprogress
        have hold := hfills'.mono hkeeps
        exact ⟨members', terminals', by rw [if_neg hjk]; rfl,
          fun heq => hold.captured (hprogress.symm.trans heq),
          fun hnot => hold.empty fun heq => hnot (hprogress.trans heq)⟩
    problems := by rw [hproblems, h.problems, List.append_assoc]; rfl }

end Follows

namespace Build

variable {s s₀ : Scope} {W : List PendingPerform} {c : Capture} {t : Tour} {w : PendingPerform}

section Capture

variable (hA : s₀.Awaits W) {capture : ℕ → Capture → Build Capture} {visit : ℕ → Tour → Tour}
  (hcapture : ∀ (j : ℕ) {c : Capture} {s : Scope} {t : Tour}, Follows s₀ W c s t →
    Faultless (capture j c) s fun c' s' => Follows s₀ W c' s' (visit j t))
include hA hcapture

/-- What is done at a captured block is what the tour does at the call in it. -/
theorem visitCallSite_follows (w : PendingPerform) {b : BlockId} (hb : b < s₀.graph.size)
    (h : Follows s₀ W c s t) :
    Faultless (visitCallSite capture w w.range.display b c) s fun c' s' => Follows s₀ W c' s'
      (((s₀.graph.chart b).group.map (b, ·)).toList.foldl (Tour.call visit (s₀.errand w)) t) := by
  refine .get_bind fun hs => ?_
  obtain ⟨block, hok, hblock⟩ := Graph.exists_block_eq_ok (hb.trans_le h.keeps.size_le)
  refine .lift_bind hok ?_
  have hgroup : block.group = (s₀.graph.chart b).group := by
    rw [← h.keeps.group b hb, Graph.chart_of_getElem? hblock]
    rfl
  rw [← hgroup]
  cases hnested : block.group with
  | none => exact .pure fun _ => h
  | some nested =>
    have hlt : nested < W.length := by
      rw [← hA.size, ← h.size]
      exact hs.graph.group_lt hblock hnested
    have hfind := find?_eq_some hA h.performs hlt
    dsimp only
    rw [hfind, h.progress]
    simp only [Option.map_some, Option.toList_some, List.foldl_cons, List.foldl_nil, Tour.call]
    rcases t.progress[nested]? with _ | _ | _ | _ | _
    · exact .pure fun _ => h
    · exact hcapture nested h
    · set q := (s₀.errand w).warning b
      refine .bind ((report_faultless q).of_run (Q := fun _ s' => s' = s.reporting [q]) rfl
        fun _ _ _ _ => rfl) ?_
      rintro - s₁ - h₁ rfl
      refine .bind (editGraph_faultless (Graph.modifyGroup_keeps
        (f := fun group => { group with recursive := true }) (hs.graph.group_lt hblock hnested)
        (fun _ => rfl) (fun _ => rfl) fun hg _ hgroup b hb => hg.member_lt hgroup b hb)) ?_
      rintro - s₂ - h₂ ⟨hs₂, hgroups, hkeeps⟩
      exact .pure fun _ => (h.report [q]).flag (by rw [hs₂]) (by rw [hs₂]) hgroups hkeeps
    · exact .pure fun _ => h
    · exact .pure fun _ => h

/-- What is done at the blocks of a range is what the tour does at its call sites. -/
theorem collect_follows (w : PendingPerform) {blocks : List BlockId}
    (hblocks : ∀ b ∈ blocks, b < s₀.graph.size) (hnodup : blocks.Nodup) (h : Follows s₀ W c s t) :
    Faultless (collect capture w w.range.display blocks c) s fun r s' => r.1 = blocks ∧
      Follows s₀ W r.2 s' ((blocks.filterMap fun b => (s₀.graph.chart b).group.map (b, ·)).foldl
        (Tour.call visit (s₀.errand w)) t) := by
  refine .foldlM_progress (I := fun pre (r : List BlockId × Capture) s' => r.1 = pre ∧
    Follows s₀ W r.2 s' ((pre.filterMap fun b => (s₀.graph.chart b).group.map (b, ·)).foldl
      (Tour.call visit (s₀.errand w)) t)) (fun _ => ⟨rfl, h⟩) ?_
  rintro pre b rest rfl ⟨collected, c₁⟩ s₁ - h₁ ⟨rfl, hfollows⟩
  have hnot : b ∉ collected := fun hb =>
    (List.nodup_append.1 hnodup).2.2 b hb b (by simp) rfl
  have hcontains : collected.contains b = false := by simpa using hnot
  dsimp only
  rw [hcontains, List.filterMap_append, List.foldl_append]
  refine .bind (visitCallSite_follows hA hcapture w (hblocks b (by simp)) hfollows)
    fun c₂ s₂ _ _ hfollows₂ => .pure fun _ => ⟨rfl, ?_⟩
  have hone : [b].filterMap (fun b => (s₀.graph.chart b).group.map (b, ·)) =
      ((s₀.graph.chart b).group.map (b, ·)).toList := by
    cases h : (s₀.graph.chart b).group <;> simp [h]
  rw [hone]
  exact hfollows₂

end Capture

/-- **The capture of a range** is the visit of an errand. -/
theorem resolvePerform_follows (hA : s₀.Awaits W) (depth k : ℕ) {c : Capture} {s : Scope}
    {t : Tour} (h : Follows s₀ W c s t) : Faultless (resolvePerform depth k c) s fun c' s' =>
      Follows s₀ W c' s' (t.visit (W.map s₀.errand) depth k) := by
  induction depth generalizing k c s t with
  | zero => exact .pure fun _ => h
  | succ depth ih =>
    rw [resolvePerform, Tour.visit, h.performs, h.progress, List.getElem?_map,
      List.getElem?_toArray]
    cases hw : W[k]? with
    | none => exact .pure fun _ => h
    | some w =>
      obtain ⟨hgroup, callSite, node, hk⟩ := hA.group hw
      dsimp only [Option.map_some]
      split
      swap
      · exact .pure fun _ => h
      next hwaiting =>
      refine fun hs => Faultless.bind ((performedRange_faultless w).of_run
        (Q := fun range? s' => range? = s.procedures.performed? w.range ∧
          s' = s.reporting (s.procedures.rangeComplaints w.range w.span))
        (performedRange_eq_ok hs w) fun _ _ _ _ => ⟨rfl, rfl⟩) ?_ hs
      rintro _ _ hs₁ h₁ ⟨rfl, rfl⟩
      rw [h.procedures] at hs₁ ⊢
      set s₁ := s.reporting (s₀.procedures.rangeComplaints w.range w.span)
      have hbegun : Follows s₀ W (c.set k .underway) s₁
          ((t.set k .underway).report (s₀.errand w).complaints) :=
        (h.set (by rw [hwaiting]; simp) (by simp)).report _
      have hunderway : (t.set k .underway).progress[k]? = some .underway := by
        rw [Tour.getElem?_set (Array.getElem?_eq_some_iff.1 hwaiting).1, if_pos rfl]
      cases hperformed : s₀.procedures.performed? w.range with
      | none =>
        have hsites : (s₀.errand w).sites = none := by
          rw [Scope.errand, Procedures.captured?, hperformed]
          rfl
        rw [hsites]
        refine .pure fun _ => hbegun.set (fun heq => ?_) (by simp)
        cases hunderway.symm.trans heq
      | some range =>
        obtain ⟨first, last⟩ := range
        obtain ⟨blocks, hblocks, hlt⟩ :=
          exists_capturedBlocks_eq_ok hA.sound (performed?_lt hA.sound hperformed)
        have hcaptured : s₀.procedures.captured? w.range = some blocks :=
          Procedures.captured?_eq_some_iff.2 ⟨first, last, hperformed, hblocks⟩
        have hsites : (s₀.errand w).sites =
            some (blocks.filterMap fun b => (s₀.graph.chart b).group.map (b, ·)) := by
          rw [Scope.errand, hcaptured]
          rfl
        obtain ⟨_, _, hget, -⟩ := hbegun.group hk
        refine .get_bind fun _ => .lift_bind
          ((Graph.group_eq_ok_iff _ _ _).2 (hgroup.symm ▸ hget)) (.get_bind fun _ => ?_)
        refine .lift_bind ((congrArg (capturedBlocks · first last) hbegun.procedures).trans
          hblocks) ?_
        dsimp only
        rw [hsites]
        refine .bind (collect_follows hA (fun j {c s t} h => ih j h) w hlt (hA.nodup hblocks)
          hbegun) ?_
        rintro ⟨collected, c₂⟩ s₂ - h₂ ⟨hcollected, hfollows⟩
        obtain rfl : blocks = collected := hcollected.symm
        refine .bind (relocate_copies w.range.display (by
          rw [hgroup, hfollows.size]
          exact (Array.getElem?_eq_some_iff.1 hk).1) fun b hb =>
            (hlt b hb).trans_le hfollows.keeps.size_le) ?_
        rintro - s₃ - h₃
          ⟨members, terminals, hcopies, hkeeps, hgroups, hprocedures, hproblems, htranscribes⟩
        have hleavings : leavings w w.range.display s₂.graph.chart blocks =
            (s₀.errand w).leavings := by
          rw [Scope.errand, hcaptured]
          exact leavings_congr fun b hb => hfollows.keeps.chart b (hlt b hb)
        rw [hleavings] at hproblems
        rw [hgroup] at hgroups
        exact .pure fun _ => hfollows.fill hprocedures hproblems hgroups hkeeps hw hcaptured
          (hcopies.of_keeps hfollows.keeps hlt)
          (htranscribes.congr fun b hb => hfollows.keeps.chart b (hlt b hb))

/-- **The capture of all ranges** is the tour of all errands. -/
theorem resolvePerforms_follows (hA : s₀.Awaits W) : Faultless (resolvePerforms W) s₀ fun _ s' =>
    ∃ c, Follows s₀ W c s' (Tour.all (W.map s₀.errand)) := by
  have hstart : Follows s₀ W (Capture.start W) s₀ (Tour.start W.length) :=
    { performs := rfl
      progress := rfl
      length := by simp [Tour.start]
      procedures := rfl
      keeps := .refl _ _
      size := rfl
      group := fun {k group} hk => by
        have hlt : k < W.length := hA.size ▸ (Array.getElem?_eq_some_iff.1 hk).1
        obtain ⟨-, callSite, node, hk'⟩ := hA.group (List.getElem?_eq_getElem hlt)
        obtain rfl := Option.some.inj (hk.symm.trans hk')
        refine ⟨[], [], by simp [hk, Tour.start], fun heq => ?_, fun _ => rfl⟩
        rw [Tour.start, Array.getElem?_replicate, if_pos hlt] at heq
        cases heq
      problems := by simp [Tour.start] }
  rw [Tour.all, List.length_map]
  refine .bind (P := fun c s' => Follows s₀ W c s' _) (.foldlM_progress
    (I := fun pre c s' => Follows s₀ W c s' (pre.foldl
      (fun t k => t.visit (W.map s₀.errand) (W.length + 1) k) (Tour.start W.length)))
    (fun _ => hstart) ?_) fun c _ _ _ h => .pure fun _ => ⟨c, h⟩
  intro pre k rest _ c s₁ _ _ h
  rw [List.foldl_append]
  exact resolvePerform_follows hA _ k h

end Build

end CobolFlow
