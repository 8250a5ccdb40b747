import CobolFlow.Proofs.Calls.Tour

/-!
# Block numbers in reports

The tour of the calls looks at no block number. It hands those of call sites on to what it reports,
and so, but for the numbers in its reports, it is the same whatever the blocks are called.

## Main definitions

* `Problem.unplaced` — a problem without the number of a block
* `Errand.unplaced`, `Tour.unplaced` — errands and tours without these

## Main results

* `Tour.unplaced_all` — a tour of errands without block numbers is the tour without them
-/

namespace CobolFlow

/-- The kind of problem, with the block it names replaced by the first. -/
def ProblemKind.unplaced : ProblemKind → ProblemKind
  | .recursivePerform range _ => .recursivePerform range 0
  | .branchOutOfRange range tag _ => .branchOutOfRange range tag 0
  | kind => kind

/-- A problem without the number of a block. -/
def Problem.unplaced (p : Problem) : Problem := { p with kind := p.kind.unplaced }

namespace Errand

/-- The errand without block numbers. -/
def unplaced (e : Errand) : Errand where
  complaints := e.complaints.map Problem.unplaced
  sites := e.sites.map fun sites => sites.map fun site => (0, site.2)
  warning _ := (e.warning 0).unplaced
  leavings := e.leavings.map Problem.unplaced

/-- A call that closes a cycle is reported alike wherever it is made. -/
def IsSteady (e : Errand) : Prop := ∀ b, (e.warning b).unplaced = (e.warning 0).unplaced

end Errand

namespace Tour

variable {E : List Errand} {e : Errand} {k : ℕ}

/-- The tour without the block numbers in its reports. -/
def unplaced (t : Tour) : Tour := { t with problems := t.problems.map Problem.unplaced }

theorem unplaced_set (t : Tour) (k : ℕ) (p : Build.Progress) :
    (t.set k p).unplaced = t.unplaced.set k p := rfl

theorem unplaced_report (t : Tour) (ps : List Problem) :
    (t.report ps).unplaced = t.unplaced.report (ps.map Problem.unplaced) := by
  simp [unplaced, report]

theorem unplaced_call {visit visit' : ℕ → Tour → Tour} (he : e.IsSteady)
    (hvisit : ∀ k t, (visit k t).unplaced = visit' k t.unplaced) (t : Tour) (site : BlockId × ℕ) :
    (call visit e t site).unplaced = call visit' e.unplaced t.unplaced (0, site.2) := by
  have hprogress : t.unplaced.progress = t.progress := rfl
  rw [call, call, hprogress]
  rcases t.progress[site.2]? with _ | _ | _ | _ | _
  · rfl
  · exact hvisit _ t
  · simp [unplaced, Errand.unplaced, he site.1]
  · rfl
  · rfl

theorem unplaced_calls {visit visit' : ℕ → Tour → Tour} (he : e.IsSteady)
    (hvisit : ∀ k t, (visit k t).unplaced = visit' k t.unplaced) (sites : List (BlockId × ℕ))
    (t : Tour) : (sites.foldl (call visit e) t).unplaced =
      (sites.map fun site => (0, site.2)).foldl (call visit' e.unplaced) t.unplaced := by
  induction sites generalizing t with
  | nil => rfl
  | cons site rest ih =>
    rw [List.foldl_cons, ih, List.map_cons, List.foldl_cons, unplaced_call he hvisit]

theorem unplaced_visit (hE : ∀ e ∈ E, e.IsSteady) (depth k : ℕ) (t : Tour) :
    (visit E depth k t).unplaced = visit (E.map Errand.unplaced) depth k t.unplaced := by
  induction depth generalizing k t with
  | zero => rfl
  | succ depth ih =>
    rw [visit, visit, List.getElem?_map]
    cases he : E[k]? with
    | none => rfl
    | some e =>
      have hprogress : t.unplaced.progress = t.progress := rfl
      have hsteady := hE e (List.mem_of_getElem? he)
      simp only [Option.map_some, hprogress]
      split
      · have hsites : e.unplaced.sites =
            e.sites.map fun sites => sites.map fun site => (0, site.2) := rfl
        rw [hsites]
        cases e.sites with
        | none => rw [Option.map_none, unplaced_set, unplaced_report, unplaced_set]; rfl
        | some sites =>
          simp only [Option.map_some]
          rw [unplaced_set, unplaced_report, unplaced_calls hsteady ih, unplaced_report,
            unplaced_set]
          rfl
      · rfl

/-- **A tour looks at no block number.** -/
theorem unplaced_all (hE : ∀ e ∈ E, e.IsSteady) :
    (all E).unplaced = all (E.map Errand.unplaced) := by
  rw [all, all, List.length_map]
  have hstart : (start E.length).unplaced = start E.length := rfl
  conv_rhs => rw [← hstart]
  induction List.range E.length using List.reverseRecOn with
  | nil => rfl
  | append_singleton ks k ih =>
    rw [List.foldl_append, List.foldl_append, List.foldl_cons, List.foldl_cons, List.foldl_nil,
      List.foldl_nil, unplaced_visit hE, ih]

/-- Errands that differ in block numbers only lead to the same reports, but for these. -/
theorem unplaced_problems_all {E' : List Errand} (hE : ∀ e ∈ E, e.IsSteady)
    (hE' : ∀ e ∈ E', e.IsSteady) (h : E.map Errand.unplaced = E'.map Errand.unplaced) :
    (all E).problems.map Problem.unplaced = (all E').problems.map Problem.unplaced :=
  congrArg Tour.problems ((unplaced_all hE).trans ((congrArg all h).trans (unplaced_all hE').symm))

end Tour

end CobolFlow
