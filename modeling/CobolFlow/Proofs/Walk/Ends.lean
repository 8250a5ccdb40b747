import CobolFlow.Proofs.Continuation

/-!
# Where a walk ends, once each

A walk for the blocks without successors asks of a block whether it has been marked only when it
takes it off its stack, so that a block may lie there any number of times, and it may be told of a
block never to enter. That it misses nothing is the invariant of the walk on what is still to be
found. That it finds nothing twice is another one, on what has been found: it has all been marked.

## Main results

* `Graph.nodup_of_collectTerminals_eq_ok` — nothing is found twice
* `Graph.terminals_exact` — what a whole walk finds
-/

namespace CobolFlow

namespace Graph

variable {g : Graph}

/-- What has been found has been marked, so it is not found again. -/
theorem nodup_of_collectTerminals_eq_ok {stop : Option BlockId} {stack : List BlockId}
    {seen : Seen} {found ends : List BlockId}
    (h : g.collectTerminals stop stack seen found = .ok ends) (hfound : found.Nodup)
    (hmarked : ∀ t ∈ found, seen[t]? = some true) : ends.Nodup := by
  fun_induction collectTerminals g stop stack seen found with
  | case1 seen found =>
    obtain rfl := Except.ok.inj h
    exact List.pairwise_reverse.2 (hfound.imp Ne.symm)
  | case2 seen found b rest hb hclosed ih => exact ih h hfound hmarked
  | case3 seen found b rest hb hopen ih₁ ih₂ =>
    obtain ⟨block, -, h⟩ := exists_of_bind_eq_ok h
    have hfalse : seen[b] = false := by
      rw [Bool.or_eq_true, not_or] at hopen
      exact Bool.eq_false_iff.2 hopen.1
    have hmarked' : ∀ t ∈ found, (Array.set seen b true)[t]? = some true :=
      fun t ht => (Seen.Before.set hb hfalse).met (hmarked t ht)
    split at h
    · have hnew : b ∉ found := fun hmem => by
        have hmet := hmarked b hmem
        rw [Array.getElem?_eq_getElem hb, hfalse] at hmet
        cases hmet
      exact ih₁ h (List.nodup_cons.2 ⟨hnew, hfound⟩)
        (List.forall_mem_cons.2 ⟨by simp [hb], hmarked'⟩)
    · obtain ⟨targets, -, h⟩ := exists_of_bind_eq_ok h
      exact ih₂ targets h hfound hmarked'
  | case4 seen found b rest hb => cases h

/-- **A walk finds its ends exactly, and each of them once.** In a graph without defects it answers
wherever it starts. Its answer lists the blocks without successors that a path leads to, and the
block where to stop is on none of these paths, neither as their first block nor as their last. -/
theorem terminals_exact (hg : g.check = .ok ()) {start : BlockId} (hstart : start < g.size)
    (stop : Option BlockId) : ∃ ends, g.terminals start stop = .ok ends ∧ ends.Nodup ∧
      ∀ t, t ∈ ends ↔ g.successors t = .ok [] ∧ Trail g (fun x => some x ≠ stop) start t := by
  have hg := check_eq_ok_iff.1 hg
  obtain ⟨ends, hends, hmem⟩ := exists_terminals_eq_ok hg hstart stop
  refine ⟨ends, hends, nodup_of_collectTerminals_eq_ok hends .nil (by simp), fun t => ?_⟩
  rw [hmem]
  refine and_congr_left fun htrail => ?_
  rw [hg.successors_eq_ok_nil_iff (htrail.lt_size hg hstart)]

/-- Two ways to one end, a loop, and another end behind the block where to stop. -/
def forkedEnds : Graph where
  blocks := #[{ id := 0, successors := [0, 1, 2] }, { id := 1, successors := [2, 3] },
    { id := 2, successors := [2, 4] }, { id := 3 }, { id := 4, successors := [5] }, { id := 5 }]
  slots := #[1, 2, 3, 0, 4, 5]
  roots := [0]

theorem terminals_exact_forkedEnds : forkedEnds.check = .ok () ∧ 0 < forkedEnds.size ∧
    ∃ ends, forkedEnds.terminals 0 (some 4) = .ok ends ∧ ends.Nodup ∧ ∀ t, t ∈ ends ↔
      forkedEnds.successors t = .ok [] ∧ Trail forkedEnds (fun x => some x ≠ some 4) 0 t :=
  ⟨by rfl, by decide, terminals_exact (by rfl) (by decide) (some 4)⟩

/-- Block 5 is an end, but no path leads there that does not enter block 4. -/
example : forkedEnds.terminals 0 (some 4) = .ok [3] := by cbv

end Graph

end CobolFlow
