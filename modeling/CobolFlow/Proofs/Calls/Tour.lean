import CobolFlow.Build.Perform
import Mathlib.Data.List.Cycle

/-!
# A tour of the calls

In which order ranges are captured, which groups are marked recursive, and what is reported on the
way depends only on which PERFORM calls which. So the capture is first looked at without the graph:
each PERFORM is an *errand*, with the calls that are made from its range, and the capture is a
depth-first *tour* of the errands.

The tour marks an errand when it is met again before it is over. What is known of it at any time is
this: whatever an errand calls that is over is marked, or was over before. So when all are over, an
errand that is not marked has a place in the order that lies behind all it calls, and a cycle of
errands without a mark cannot be.

## Main definitions

* `Errand`, `Errand.Calls` — a PERFORM with the calls made from its range
* `Tour`, `Tour.visit`, `Tour.all` — the capture without the graph
* `Tour.Tracking` — what is known at any time

## Main results

* `Tour.exists_mem_flagged_of_chain` — on every cycle there is a mark
* `Tour.exists_chain_of_mem_flagged` — every mark is on a cycle
* `Tour.exists_rank` — without the marks, the errands can be put in order
-/

namespace CobolFlow

/-- A PERFORM as the order of the capture sees it. -/
structure Errand where
  /-- What is reported of the names of its range. -/
  complaints : List Problem
  /-- The call sites in its range with the PERFORMs they belong to, if the range is known. -/
  sites : Option (List (BlockId × ℕ))
  /-- What is reported of a call site that closes a cycle. -/
  warning : BlockId → Problem
  /-- What is reported of edges that leave its range. -/
  leavings : List Problem

/-- The first errand calls the second. -/
def Errand.Calls (E : List Errand) (i j : ℕ) : Prop :=
  ∃ e, E[i]? = some e ∧ ∃ sites, e.sites = some sites ∧ ∃ b, (b, j) ∈ sites

/-- The edges that are reported when an errand is over: none if its range is not known. -/
def Errand.outcome (e : Errand) : List Problem := if e.sites.isSome then e.leavings else []

/-- How an errand ends. -/
def Errand.verdict (e : Errand) : Build.Progress := if e.sites.isSome then .captured else .failed

theorem Errand.verdict_cases (e : Errand) : e.verdict = .captured ∨ e.verdict = .failed := by
  rw [verdict]
  split
  · exact .inl rfl
  · exact .inr rfl

/-- How far the capture has come. -/
structure Tour where
  progress : Array Build.Progress
  /-- What has been met before it was over. -/
  flagged : List ℕ := []
  problems : List Problem := []

namespace Tour

open Build (Progress)

def start (n : ℕ) : Tour := { progress := Array.replicate n .waiting }

def set (t : Tour) (k : ℕ) (p : Progress) : Tour :=
  { t with progress := t.progress.setIfInBounds k p }

def report (t : Tour) (ps : List Problem) : Tour := { t with problems := t.problems ++ ps }

/-- Sees to a call: an errand that waits is run, one that is underway is marked. -/
def call (visit : ℕ → Tour → Tour) (e : Errand) (t : Tour) (site : BlockId × ℕ) : Tour :=
  match t.progress[site.2]? with
  | some .waiting => visit site.2 t
  | some .underway =>
    { t with problems := t.problems ++ [e.warning site.1], flagged := t.flagged ++ [site.2] }
  | _ => t

/-- Runs an errand if it waits, after all that it calls. -/
def visit (E : List Errand) : ℕ → ℕ → Tour → Tour
  | 0, _, t => t
  | depth + 1, k, t =>
    match E[k]? with
    | none => t
    | some e =>
      if t.progress[k]? = some .waiting then
        let t := (t.set k .underway).report e.complaints
        match e.sites with
        | none => t.set k .failed
        | some sites => ((sites.foldl (call (visit E depth) e) t).report e.leavings).set k .captured
      else
        t

/-- Runs all errands. -/
def all (E : List Errand) : Tour :=
  (List.range E.length).foldl (fun t k => visit E (E.length + 1) k t) (start E.length)

/-- How many errands wait. -/
def waiting (t : Tour) : ℕ := t.progress.count .waiting

end Tour

/-- Nothing but a closed cycle is reported as one, nor anything but an edge that leaves a range, and
all calls are of errands. -/
structure Errand.Fair (n : ℕ) (e : Errand) : Prop where
  complaints : ∀ p ∈ e.complaints, p.code ≠ "CFG004" ∧ p.code ≠ "CFG005"
  warning : ∀ b, (e.warning b).code = "CFG004"
  leavings : ∀ p ∈ e.leavings, p.code = "CFG005"
  sites : ∀ l, e.sites = some l → ∀ site ∈ l, site.2 < n

namespace Tour

open Build (Progress)

variable {E : List Errand} {stack order : List ℕ} {t : Tour} {e : Errand} {i j k : ℕ}
  {p : Progress} {ps : List Problem}

@[simp] theorem report_nil (t : Tour) : t.report [] = t := by simp [report]

theorem getElem?_set (hk : k < t.progress.size) (i : ℕ) :
    (t.set k p).progress[i]? = if i = k then some p else t.progress[i]? := by
  rw [set, Array.getElem?_setIfInBounds]
  by_cases hi : i = k
  · rw [if_pos hi.symm, if_pos (hi ▸ hk), if_pos hi]
  · rw [if_neg (Ne.symm hi), if_neg hi]

theorem waiting_set (hk : k < t.progress.size) (hp : p ≠ .waiting) : (t.set k p).waiting =
    if t.progress[k]? = some .waiting then t.waiting - 1 else t.waiting := by
  have hset : (t.set k p).progress = t.progress.set k p := by
    rw [set, Array.setIfInBounds, dif_pos hk]
  rw [waiting, hset, Array.count_set, Array.getElem?_eq_getElem hk]
  simp only [beq_iff_eq, Option.some.injEq, waiting, hp, if_false]
  split <;> rfl

theorem waiting_pos (h : t.progress[k]? = some .waiting) : 0 < t.waiting := by
  obtain ⟨hlt, hk⟩ := Array.getElem?_eq_some_iff.1 h
  exact Array.count_pos_iff.2 (hk ▸ Array.getElem_mem hlt)

/-- What is known at any time: `stack` is underway, the innermost first, and `order` is over. -/
structure Tracking (E : List Errand) (stack order : List ℕ) (t : Tour) : Prop where
  size : t.progress.size = E.length
  underway : ∀ k, t.progress[k]? = some .underway ↔ k ∈ stack
  finished : ∀ k, t.progress[k]? = some .captured ∨ t.progress[k]? = some .failed ↔ k ∈ order
  verdict : ∀ k ∈ order, t.progress[k]? = E[k]?.map Errand.verdict
  nodup : stack.Nodup
  once : order.Nodup
  /-- Each errand was called by the one around it. -/
  chain : stack.IsChain fun j i => Errand.Calls E i j
  /-- What is called by an errand that is over is marked, or was over before. -/
  settled : ∀ older i newer, order = older ++ i :: newer → ∀ j, Errand.Calls E i j →
    j ∈ t.flagged ∨ j ∈ older
  flagged : ∀ j ∈ t.flagged, Relation.TransGen (Errand.Calls E) j j
  reported : (∃ q ∈ t.problems, q.code = "CFG004") ↔ t.flagged ≠ []
  told : t.problems.filter (·.code = "CFG005") =
    order.flatMap fun k => (E[k]?.map Errand.outcome).getD []

namespace Tracking

theorem start (E : List Errand) : Tracking E [] [] (start E.length) where
  size := by simp [Tour.start]
  underway k := by simp [Tour.start, Array.getElem?_replicate]
  finished k := by simp [Tour.start, Array.getElem?_replicate]
  verdict := by simp
  nodup := .nil
  once := .nil
  chain := .nil
  settled older i newer h := by simp at h
  flagged := by simp [Tour.start]
  reported := by simp [Tour.start]
  told := by simp [Tour.start]

theorem reported_append (h : Tracking E stack order t) (hps : ∀ q ∈ ps, q.code ≠ "CFG004") :
    (∃ q ∈ t.problems ++ ps, q.code = "CFG004") ↔ t.flagged ≠ [] := by
  rw [← h.reported]
  simp only [List.mem_append, or_and_right, exists_or, or_iff_left_iff_imp]
  rintro ⟨q, hq, hcode⟩
  exact absurd hcode (hps q hq)

theorem report (h : Tracking E stack order t)
    (hps : ∀ q ∈ ps, q.code ≠ "CFG004" ∧ q.code ≠ "CFG005") :
    Tracking E stack order (t.report ps) :=
  { h with
    reported := h.reported_append fun q hq => (hps q hq).1
    told := by
      have hnone : ps.filter (·.code = "CFG005") = [] :=
        List.filter_eq_nil_iff.2 fun q hq => by simpa using (hps q hq).2
      rw [Tour.report, List.filter_append, hnone, List.append_nil, h.told] }

/-- An errand is begun. -/
theorem begin (h : Tracking E stack order t) (hk : t.progress[k]? = some .waiting)
    (hcall : ∀ i ∈ stack.head?, Errand.Calls E i k) :
    Tracking E (k :: stack) order (t.set k .underway) := by
  have hlt : k < t.progress.size := (Array.getElem?_eq_some_iff.1 hk).1
  refine { h with
    size := by simpa [set] using h.size
    underway := fun i => ?_
    finished := fun i => ?_
    verdict := fun i hi => ?_
    nodup := List.nodup_cons.2 ⟨fun hmem => ?_, h.nodup⟩
    chain := List.isChain_cons.2 ⟨hcall, h.chain⟩ }
  · rw [getElem?_set hlt, List.mem_cons, ← h.underway]
    split <;> simp [*]
  · rw [getElem?_set hlt, ← h.finished]
    split
    · next hi => simp [hi, hk]
    · rfl
  · rw [getElem?_set hlt, if_neg, h.verdict i hi]
    rintro rfl
    rw [← h.finished, hk] at hi
    simp at hi
  · rw [← h.underway, hk] at hmem
    exact nomatch hmem

/-- An errand is over, and the edges are reported that leave its range. -/
theorem finish (h : Tracking E (k :: stack) order t) (he : E[k]? = some e)
    (hcalls : ∀ j, Errand.Calls E k j → j ∈ t.flagged ∨ j ∈ order)
    (hps : ∀ q ∈ e.outcome, q.code = "CFG005") :
    Tracking E stack (order ++ [k]) ((t.report e.outcome).set k e.verdict) := by
  have hk : t.progress[k]? = some .underway := (h.underway k).2 (by simp)
  have hlt : k < t.progress.size := (Array.getElem?_eq_some_iff.1 hk).1
  have hget := getElem?_set (t := t.report e.outcome) (p := e.verdict) hlt
  have hnew : ∀ i ∈ order, i ≠ k := by
    rintro i hi rfl
    rw [← h.finished, hk] at hi
    simp at hi
  refine { h with
    size := by simpa [set, Tour.report] using h.size
    underway := fun i => ?_
    finished := fun i => ?_
    verdict := fun i hi => ?_
    nodup := h.nodup.of_cons
    once := List.nodup_append.2 ⟨h.once, List.nodup_singleton k, fun i hi j hj => ?_⟩
    chain := h.chain.of_cons
    settled := fun older i newer heq j hj => ?_
    reported := h.reported_append fun q hq => by simp [hps q hq]
    told := ?_ }
  · rw [hget]
    split
    · next hi =>
      subst hi
      refine iff_of_false ?_ (List.nodup_cons.1 h.nodup).1
      obtain hp | hp := e.verdict_cases <;> simp [hp]
    · next hi => exact (h.underway i).trans (by rw [List.mem_cons, or_iff_right hi])
  · rw [hget, List.mem_append, List.mem_singleton, ← h.finished]
    split
    · next hi => simpa [hi] using e.verdict_cases
    · next hi => simp [hi, Tour.report]
  · obtain hi | hi := List.mem_append.1 hi
    · rw [hget, if_neg (hnew i hi)]
      exact h.verdict i hi
    · obtain rfl := List.mem_singleton.1 hi
      rw [hget, if_pos rfl, he]
      rfl
  · exact List.mem_singleton.1 hj ▸ hnew i hi
  · obtain rfl | ⟨newer, last, rfl⟩ := newer.eq_nil_or_concat
    · obtain ⟨rfl, rfl⟩ : order = older ∧ k = i := by simpa using heq
      exact hcalls j hj
    · rw [List.concat_eq_append, ← List.cons_append, ← List.append_assoc] at heq
      obtain ⟨horder, -⟩ := List.append_inj' heq rfl
      exact h.settled older i newer horder j hj
  · have hall : e.outcome.filter (·.code = "CFG005") = e.outcome :=
      List.filter_eq_self.2 fun q hq => by simp [hps q hq]
    change (t.problems ++ e.outcome).filter _ = _
    rw [List.filter_append, hall, h.told, List.flatMap_append, List.flatMap_singleton, he]
    rfl

/-- An errand underway is called from the innermost one. -/
theorem flag (h : Tracking E (k :: stack) order t) (hj : t.progress[j]? = some .underway)
    (hcall : Errand.Calls E k j) {q : Problem} (hq : q.code = "CFG004") :
    Tracking E (k :: stack) order
      { t with problems := t.problems ++ [q], flagged := t.flagged ++ [j] } := by
  refine { h with
    settled := fun older i newer heq j' hj' => ?_
    flagged := fun j' hj' => ?_
    reported := iff_of_true ⟨q, by simp, hq⟩ (by simp)
    told := by simp [h.told, hq] }
  · exact (h.settled older i newer heq j' hj').imp_left (List.mem_append_left _)
  · obtain hj' | hj' := List.mem_append.1 hj'
    · exact h.flagged j' hj'
    · obtain rfl := List.mem_singleton.1 hj'
      exact .tail' (h.chain.induction (Relation.ReflTransGen (Errand.Calls E) · k) _
        (fun _ _ hcalls hreach => .head hcalls hreach) (fun _ => .refl) j'
        ((h.underway j').1 hj)) hcall

end Tracking

/-- What has become of a tour: it went on, and `Q` holds of what is over. -/
def Continues (E : List Errand) (stack order : List ℕ) (t t' : Tour) (Q : List ℕ → Prop) : Prop :=
  ∃ more, Tracking E stack (order ++ more) t' ∧ t'.waiting ≤ t.waiting ∧ t.flagged ⊆ t'.flagged ∧
    Q (order ++ more)

theorem Continues.refl {Q : List ℕ → Prop} (h : Tracking E stack order t) (hQ : Q order) :
    Continues E stack order t t Q :=
  ⟨[], by simpa using h, le_rfl, List.Subset.refl _, by simpa using hQ⟩

theorem Continues.trans {t' t'' : Tour} {Q Q' Q'' : List ℕ → Prop}
    (h : Continues E stack order t t' Q)
    (h' : ∀ order, Tracking E stack order t' → Q order → t'.waiting ≤ t.waiting →
      Continues E stack order t' t'' Q')
    (hQ : ∀ order more, t'.flagged ⊆ t''.flagged → Q order → Q' (order ++ more) →
      Q'' (order ++ more)) : Continues E stack order t t'' Q'' := by
  obtain ⟨more, htrack, hwait, hflagged, hover⟩ := h
  obtain ⟨more', htrack', hwait', hflagged', hover'⟩ := h' _ htrack hover hwait
  refine ⟨more ++ more', by rwa [← List.append_assoc], hwait'.trans hwait,
    List.Subset.trans hflagged hflagged', ?_⟩
  rw [← List.append_assoc]
  exact hQ _ _ hflagged' hover hover'

section Visit

variable (hE : ∀ e ∈ E, e.Fair E.length)
include hE

/-- One call, if errands that wait are run as they should. -/
theorem continues_call {depth : ℕ} (hvisit : ∀ {stack order : List ℕ} {t : Tour} {k : ℕ},
      Tracking E stack order t → t.waiting < depth → (∀ i ∈ stack.head?, Errand.Calls E i k) →
      k < E.length → Continues E stack order t (visit E depth k t) fun order =>
        k ∈ stack ∨ k ∈ order)
    (he : E[k]? = some e) (h : Tracking E (k :: stack) order t) (hwait : t.waiting < depth)
    {site : BlockId × ℕ} (hcall : Errand.Calls E k site.2) :
    Continues E (k :: stack) order t (call (visit E depth) e t site) fun order =>
      site.2 ∈ (call (visit E depth) e t site).flagged ∨ site.2 ∈ order := by
  obtain ⟨b, j⟩ := site
  have hfair := hE e (List.mem_of_getElem? he)
  have hj : j < E.length := by
    obtain ⟨e', he', l, hl, b', hb'⟩ := hcall
    exact (hE e' (List.mem_of_getElem? he')).sites l hl _ hb'
  obtain ⟨p, hprogress⟩ : ∃ p, t.progress[j]? = some p :=
    ⟨_, Array.getElem?_eq_getElem (h.size ▸ hj)⟩
  cases p with
  | waiting =>
    have hnot : j ∉ k :: stack := fun hmem => by
      rw [← h.underway, hprogress] at hmem
      exact nomatch hmem
    have hcont := hvisit h hwait (by simpa using hcall) hj
    simp only [call, hprogress]
    obtain ⟨more, htrack, hle, hsub, hover⟩ := hcont
    exact ⟨more, htrack, hle, hsub, .inr (hover.resolve_left hnot)⟩
  | underway =>
    simp only [call, hprogress]
    exact ⟨[], by simpa using h.flag hprogress hcall (hfair.warning b), le_rfl,
      List.subset_append_left _ _, .inl (by simp)⟩
  | captured =>
    simp only [call, hprogress]
    exact .refl h (.inr ((h.finished j).1 (.inl hprogress)))
  | failed =>
    simp only [call, hprogress]
    exact .refl h (.inr ((h.finished j).1 (.inr hprogress)))

/-- All calls of a range, one after the other. -/
theorem continues_calls {depth : ℕ} (hvisit : ∀ {stack order : List ℕ} {t : Tour} {k : ℕ},
      Tracking E stack order t → t.waiting < depth → (∀ i ∈ stack.head?, Errand.Calls E i k) →
      k < E.length → Continues E stack order t (visit E depth k t) fun order =>
        k ∈ stack ∨ k ∈ order)
    (he : E[k]? = some e) (sites : List (BlockId × ℕ)) (h : Tracking E (k :: stack) order t)
    (hwait : t.waiting < depth) (hcalls : ∀ site ∈ sites, Errand.Calls E k site.2) :
    Continues E (k :: stack) order t (sites.foldl (call (visit E depth) e) t) fun order =>
      ∀ site ∈ sites, site.2 ∈ (sites.foldl (call (visit E depth) e) t).flagged ∨
        site.2 ∈ order := by
  induction sites generalizing order t with
  | nil => exact .refl h (by simp)
  | cons site rest ih =>
    refine (continues_call hE hvisit he h hwait (hcalls site (by simp))).trans
      (fun order' htrack _ hle => ih htrack (hle.trans_lt hwait) fun s hs =>
        hcalls s (by simp [hs])) ?_
    intro order' more hsub hsite hrest s hs
    obtain rfl | hs := List.mem_cons.1 hs
    · exact hsite.imp (@hsub _) (List.mem_append_left _)
    · exact hrest s hs

/-- **A visit** leaves nothing underway that was not, and what it was for is over. -/
theorem continues_visit (depth : ℕ) : ∀ {stack order : List ℕ} {t : Tour} {k : ℕ},
    Tracking E stack order t → t.waiting < depth → (∀ i ∈ stack.head?, Errand.Calls E i k) →
    k < E.length → Continues E stack order t (visit E depth k t) fun order =>
      k ∈ stack ∨ k ∈ order := by
  induction depth with
  | zero => exact fun _ hwait => absurd hwait (Nat.not_lt_zero _)
  | succ depth ih =>
    intro stack order t k h hwait hcall hk
    obtain ⟨e, he⟩ : ∃ e, E[k]? = some e := ⟨_, List.getElem?_eq_getElem hk⟩
    have hfair := hE e (List.mem_of_getElem? he)
    have hlt : k < t.progress.size := h.size ▸ hk
    rw [visit, he]
    dsimp only
    split
    · next hwaiting =>
      have hbegun := (h.begin hwaiting hcall).report hfair.complaints
      have hpos := waiting_pos hwaiting
      have hless : ((t.set k .underway).report e.complaints).waiting = t.waiting - 1 := by
        change (t.set k .underway).waiting = _
        rw [waiting_set hlt (by simp), if_pos hwaiting]
      -- the errand is no longer counted when it is over
      have hfinish : ∀ (t' : Tour) order', Tracking E (k :: stack) order' t' →
          t'.waiting ≤ t.waiting → (t'.set k e.verdict).waiting ≤ t.waiting :=
        fun t' order' htrack hle => by
          have hunderway := (htrack.underway k).2 (by simp)
          rw [waiting_set (htrack.size ▸ hk) (by obtain hp | hp := e.verdict_cases <;> simp [hp]),
            hunderway, if_neg (by simp)]
          exact hle
      cases hsites : e.sites with
      | none =>
        have houtcome : e.outcome = [] := by simp [Errand.outcome, hsites]
        have hverdict : e.verdict = .failed := by simp [Errand.verdict, hsites]
        have hnone : ∀ j, ¬ Errand.Calls E k j := by
          rintro j ⟨e', he', l, hl, -⟩
          obtain rfl := Option.some.inj (he.symm.trans he')
          exact nomatch hsites.symm.trans hl
        have hover := hbegun.finish he (fun j hj => absurd hj (hnone j)) (by simp [houtcome])
        have hwait' := hfinish _ _ hbegun (by omega)
        rw [houtcome, report_nil] at hover
        rw [hverdict] at hover hwait'
        exact ⟨[k], hover, hwait', List.Subset.refl _, .inr (by simp)⟩
      | some sites =>
        dsimp only
        have hcalls : ∀ site ∈ sites, Errand.Calls E k site.2 := fun site hs =>
          ⟨e, he, sites, hsites, site.1, hs⟩
        obtain ⟨more, htrack, hle, hsub, hover⟩ :=
          continues_calls hE ih he sites hbegun (by omega) hcalls
        have houtcome : e.outcome = e.leavings := by simp [Errand.outcome, hsites]
        have hverdict : e.verdict = .captured := by simp [Errand.verdict, hsites]
        have hwait' := hfinish _ _ htrack (by
          change Tour.waiting _ ≤ _ at hle
          exact hle.trans (by omega))
        rw [hverdict] at hwait'
        refine ⟨more ++ [k], ?_, hwait', hsub, .inr (by simp)⟩
        rw [← List.append_assoc, ← houtcome, ← hverdict]
        refine htrack.finish he (fun j hj => ?_) (houtcome ▸ hfair.leavings)
        obtain ⟨e', he', l, hl, b, hb⟩ := hj
        obtain rfl := Option.some.inj (he.symm.trans he')
        obtain rfl := Option.some.inj (hsites.symm.trans hl)
        exact hover _ hb
    · next hwaiting =>
      refine .refl h ?_
      have hprogress : t.progress[k]? = some t.progress[k] := Array.getElem?_eq_getElem hlt
      rw [← h.underway, ← h.finished]
      rw [hprogress] at hwaiting ⊢
      generalize t.progress[k] = p at *
      cases p <;> simp at hwaiting ⊢

/-- When all errands have been run, all are over. -/
theorem tracking_all : ∃ order, Tracking E [] order (all E) ∧ ∀ k < E.length, k ∈ order := by
  suffices h : ∀ n ≤ E.length, Continues E [] [] (start E.length)
      ((List.range n).foldl (fun t k => visit E (E.length + 1) k t) (start E.length))
      fun order => ∀ k < n, k ∈ order by
    obtain ⟨order, htrack, -, -, hover⟩ := h E.length le_rfl
    rw [List.nil_append] at htrack hover
    exact ⟨order, htrack, hover⟩
  have hstart : (start E.length).waiting = E.length := by
    simp [waiting, start]
  intro n hn
  induction n with
  | zero => exact .refl (.start E) (by simp)
  | succ n ih =>
    rw [List.range_succ, List.foldl_append]
    refine (ih (by omega)).trans (fun order htrack _ hle => continues_visit hE _ htrack
      (by omega) (by simp) (by omega)) ?_
    intro order more _ hover hn' k hk
    obtain hk | rfl := Nat.lt_succ_iff_lt_or_eq.1 hk
    · exact List.mem_append_left _ (hover k hk)
    · exact hn'.resolve_left (by simp)

/-- When all errands have been run, each has been over once. -/
theorem exists_order : ∃ order, Tracking E [] order (all E) ∧
    order.Perm (List.range E.length) := by
  obtain ⟨order, htrack, hover⟩ := tracking_all hE
  refine ⟨order, htrack, (List.perm_ext_iff_of_nodup htrack.once List.nodup_range).2 fun k => ?_⟩
  rw [List.mem_range]
  refine ⟨fun hk => ?_, hover k⟩
  rw [← htrack.size]
  exact ((htrack.finished k).2 hk).elim (fun h => (Array.getElem?_eq_some_iff.1 h).1)
    fun h => (Array.getElem?_eq_some_iff.1 h).1

/-! ### What the marks are -/

/-- **Without the marks** the errands can be put in order. -/
theorem exists_rank : ∃ rank : ℕ → ℕ, (∀ i < E.length, rank i < E.length) ∧
    ∀ i j, Errand.Calls E i j → j ∉ (all E).flagged → rank j < rank i := by
  obtain ⟨order, htrack, hperm⟩ := exists_order hE
  have hover : ∀ i < E.length, i ∈ order := fun i hi => hperm.mem_iff.2 (List.mem_range.2 hi)
  have hlength : order.length ≤ E.length := by
    simpa using hperm.length_eq.le
  refine ⟨order.idxOf, fun i hi => (List.idxOf_lt_length_of_mem (hover i hi)).trans_le hlength,
    fun i j hcall hj => ?_⟩
  have hi : i < E.length := by
    obtain ⟨e, he, -⟩ := hcall
    exact (List.getElem?_eq_some_iff.1 he).1
  obtain ⟨older, newer, rfl, hnot⟩ := List.eq_append_cons_of_mem (hover i hi)
  have hmem := (htrack.settled older i newer rfl j hcall).resolve_left hj
  dsimp only
  rw [List.idxOf_append_of_mem hmem, List.idxOf_append_of_notMem hnot, List.idxOf_cons_self]
  simpa using List.idxOf_lt_length_of_mem hmem

/-- **On every cycle** there is a mark. -/
theorem exists_mem_flagged_of_chain {c : Cycle ℕ} (hne : c ≠ Cycle.nil)
    (hc : c.Chain (Errand.Calls E)) : ∃ i ∈ c, i ∈ (all E).flagged := by
  by_contra hnone
  push Not at hnone
  obtain ⟨rank, -, hrank⟩ := exists_rank hE
  have hdown : c.Chain fun i j => rank i > rank j := by
    induction c with
    | nil => trivial
    | cons a l =>
      rw [Cycle.chain_coe_cons] at hc ⊢
      refine hc.imp_of_mem_imp fun i j _ hj hcall => hrank i j hcall (hnone j ?_)
      simpa [or_comm] using hj
  rw [← Cycle.chain_map (r := (· > ·)) rank] at hdown
  exact hne ((Cycle.map_eq_nil _ _).1 hdown.eq_nil_of_irrefl)

/-- **Every mark** is on a cycle. -/
theorem exists_chain_of_mem_flagged {i : ℕ} (hi : i ∈ (all E).flagged) :
    ∃ c : Cycle ℕ, c.Chain (Errand.Calls E) ∧ i ∈ c := by
  obtain ⟨order, htrack, -⟩ := tracking_all hE
  obtain ⟨j, hij, hji⟩ := Relation.TransGen.tail'_iff.1 (htrack.flagged i hi)
  obtain ⟨l, hl, hlast⟩ := List.exists_isChain_cons_of_relationReflTransGen hij
  refine ⟨(i :: l : List ℕ), ?_, by simp⟩
  rw [Cycle.chain_coe_cons, ← List.cons_append, List.isChain_append]
  refine ⟨hl, .singleton _, ?_⟩
  intro x hx y hy
  rw [List.getLast?_eq_getLast_of_ne_nil (List.cons_ne_nil i l), hlast] at hx
  obtain rfl := Option.mem_some.1 hx
  obtain rfl : i = y := by simpa using hy
  exact hji

theorem lt_of_mem_flagged {i : ℕ} (hi : i ∈ (all E).flagged) : i < E.length := by
  obtain ⟨order, htrack, -⟩ := tracking_all hE
  obtain ⟨j, ⟨e, he, -⟩, -⟩ := Relation.TransGen.head'_iff.1 (htrack.flagged i hi)
  exact (List.getElem?_eq_some_iff.1 he).1

/-- **A cycle is reported** exactly if there is one. -/
theorem reported_iff : (∃ q ∈ (all E).problems, q.code = "CFG004") ↔
    ∃ c : Cycle ℕ, c ≠ Cycle.nil ∧ c.Chain (Errand.Calls E) := by
  obtain ⟨order, htrack, -⟩ := tracking_all hE
  rw [htrack.reported]
  constructor
  · intro hne
    obtain ⟨i, hi⟩ := List.exists_mem_of_ne_nil _ hne
    obtain ⟨c, hc, hmem⟩ := exists_chain_of_mem_flagged hE hi
    exact ⟨c, by rintro rfl; exact absurd hmem (Cycle.notMem_nil i), hc⟩
  · rintro ⟨c, hne, hc⟩
    obtain ⟨i, -, hi⟩ := exists_mem_flagged_of_chain hE hne hc
    exact List.ne_nil_of_mem hi

/-- When all errands have been run, each has ended as it should. -/
theorem progress_all (he : E[k]? = some e) : (all E).progress[k]? = some e.verdict := by
  obtain ⟨order, htrack, hover⟩ := tracking_all hE
  rw [htrack.verdict k (hover k (List.getElem?_eq_some_iff.1 he).1), he]
  rfl

/-- **Edges that leave ranges** are reported once for every errand whose range is known. -/
theorem perm_told : ((all E).problems.filter (·.code = "CFG005")).Perm
    (E.flatMap Errand.outcome) := by
  obtain ⟨order, htrack, hperm⟩ := exists_order hE
  have hrange : (List.range E.length).map (fun k => (E[k]?.map Errand.outcome).getD []) =
      E.map Errand.outcome := by
    refine List.ext_getElem (by simp) fun k hk hk' => ?_
    have hlt : k < E.length := by simpa using hk
    simp [List.getElem?_eq_getElem hlt]
  rw [htrack.told, List.flatMap_def, List.flatMap_def, ← hrange]
  exact (hperm.map _).flatten

end Visit

end Tour

end CobolFlow
