import CobolFlow.Proofs.Trace.Bundle

/-!
# Loops

A loop has a block for its test and one for its body, and an edge from the first to the second. It
is entered at either, and when it is closed, the end of the body goes back to the test, or, if the
body runs only once, on to what follows.

What is read from the test and from the body are two unknowns with an equation for each. Where the
loop is iterative, one of them occurs in its own equation, and `Behaviour.eq_into_repeatBefore` and
`Behaviour.eq_into_repeatAfter` solve it.

## Main results

* `Fragment.loop` — a loop does what `Behaviour.loop` says
-/

namespace CobolFlow

namespace Sketch

/-- Opens a loop: a block for the test and one for the body, which becomes the current one. -/
def openLoop (Γ : Sketch) (test body : Spot) (testAfter : Bool) : Sketch :=
  ((((Γ.fresh test).fresh body).edge Γ.here (if testAfter then Γ.size + 1 else Γ.size)).edge
    Γ.size (Γ.size + 1)).goTo (Γ.size + 1)

/-- Closes a loop whose test is at `test`. -/
def closeLoop (Γ : Sketch) (test : ℕ) (s : Spot) (isIterative : Bool) (sources : List ℕ) :
    Sketch where
  chart b :=
    if b = Γ.size then s
    else if b = test then
      { Γ.chart b with next := (Γ.chart b).next ++ if isIterative then [Γ.size] else [] }
    else if b ∈ sources then
      { Γ.chart b with next := (Γ.chart b).next ++ [if isIterative then test else Γ.size] }
    else Γ.chart b
  size := Γ.size + 1
  here := Γ.size

theorem chart_openLoop {Γ : Sketch} {test body : Spot} {testAfter : Bool} (hlt : Γ.here < Γ.size)
    (htest : test.next = []) (b : ℕ) : (Γ.openLoop test body testAfter).chart b =
      if b = Γ.size + 1 then body
      else if b = Γ.size then { test with next := [Γ.size + 1] }
      else if b = Γ.here then
        { Γ.chart b with
          next := (Γ.chart b).next ++ [if testAfter then Γ.size + 1 else Γ.size] }
      else Γ.chart b := by
  have h₁ : Γ.here ≠ Γ.size := hlt.ne
  have h₂ : Γ.here ≠ Γ.size + 1 := (Nat.lt_succ_of_lt hlt).ne
  simp only [openLoop, goTo, edge, fresh]
  by_cases hb₁ : b = Γ.size + 1
  · simp [hb₁, h₂.symm]
  · by_cases hb₂ : b = Γ.size
    · simp [hb₂, h₁.symm, htest]
    · by_cases hb₃ : b = Γ.here <;> simp [hb₁, hb₂, hb₃, h₁, h₂]

end Sketch

namespace Fragment

variable {Γ Γ' : Sketch} {marks : Departures} {B : Behaviour} {i : Instruction}
  {test body s : Spot} {isIterative testAfter : Bool} {sources : List ℕ}

/-- The block after which a round is over. -/
def back (Γ Γ' : Sketch) (isIterative : Bool) : ℕ := if isIterative then Γ.size else Γ'.size

section Loop

variable (h : Γ.Open) (htest : test.nodes = [i] ∧ test.next = []) (hbody : body.Blank)
  (hf : Fragment (Γ.openLoop test body testAfter) Γ' marks B)

include hf in
theorem size_openLoop_le : Γ.size + 2 ≤ Γ'.size := hf.size_le

include hf in
/-- The blocks of the body are the second of the two that the loop began with, and later ones. -/
theorem between_openLoop {b : ℕ} :
    (Γ.openLoop test body testAfter).Between Γ' b ↔ Γ.size < b ∧ b < Γ'.size := by
  have hsize := size_openLoop_le hf
  change b = Γ.size + 1 ∨ Γ.size + 2 ≤ b ∧ b < Γ'.size ↔ _
  omega

include h htest hf in
theorem chart_test : Γ'.chart Γ.size = { test with next := [Γ.size + 1] } := by
  rw [hf.frame Γ.size (by change Γ.size < Γ.size + 2; omega)
    (by change Γ.size ≠ Γ.size + 1; omega), Sketch.chart_openLoop h.here_lt htest.2]
  simp

include h htest hf in
theorem chart_origin : Γ'.chart Γ.here = { Γ.chart Γ.here with
    next := [if testAfter then Γ.size + 1 else Γ.size] } := by
  have hlt := h.here_lt
  rw [hf.frame Γ.here (by change Γ.here < Γ.size + 2; omega)
    (by change Γ.here ≠ Γ.size + 1; omega), Sketch.chart_openLoop hlt htest.2,
    if_neg (by omega), if_neg (by omega), if_pos rfl, h.next, List.nil_append]

variable (hsources : ∀ b, b ∈ sources ↔ Γ'.chart.OpenEnd [Γ.size + 1] b)

variable (s isIterative sources) in
include h htest hf in
theorem chart_closeLoop_test : (Γ'.closeLoop Γ.size s isIterative sources).chart Γ.size =
    { test with next := [Γ.size + 1] ++ if isIterative then [Γ'.size] else [] } := by
  have hsize := size_openLoop_le hf
  have hne : Γ.size ≠ Γ'.size := by omega
  simp [Sketch.closeLoop, hne, chart_test h htest hf]

variable (s isIterative sources) in
include hf in
theorem chart_closeLoop_last : (Γ'.closeLoop Γ.size s isIterative sources).chart Γ'.size = s := by
  have hsize := size_openLoop_le hf
  simp [Sketch.closeLoop]

variable (s isIterative sources) in
include hf in
/-- The blocks of a loop: its origin, its test, what follows it, and the blocks of its body. -/
theorem between_closeLoop {b : ℕ} : Γ.Between (Γ'.closeLoop Γ.size s isIterative sources) b ↔
    b = Γ.here ∨ b = Γ.size ∨ b = Γ'.size ∨ Γ.size < b ∧ b < Γ'.size := by
  have hsize := size_openLoop_le hf
  have hsize' : (Γ'.closeLoop Γ.size s isIterative sources).size = Γ'.size + 1 := rfl
  simp only [Sketch.Between, hsize']
  omega

include hsources in
theorem chart_closeLoop {b : ℕ} (hb : b ≠ Γ.size) (hb' : b ≠ Γ'.size) :
    (Γ'.closeLoop Γ.size s isIterative sources).chart b = if b ∈ sources then
      { Γ'.chart b with next := [back Γ Γ' isIterative] } else Γ'.chart b := by
  simp only [Sketch.closeLoop, hb, hb', if_false]
  split
  · next hmem =>
    rw [((hsources b).1 hmem).1]
    rfl
  · rfl

include hsources in
theorem mem_next_closeLoop {b c : ℕ} (hb : b ≠ Γ.size) (hb' : b ≠ Γ'.size)
    (hc : c ∈ (Γ'.chart b).next) :
    c ∈ ((Γ'.closeLoop Γ.size s isIterative sources).chart b).next := by
  rw [chart_closeLoop hsources hb hb']
  split
  · next hmem =>
    rw [((hsources b).1 hmem).1] at hc
    simp at hc
  · exact hc

include hf hsources

/-- At most the end of the body can be open. -/
theorem eq_here_of_mem_sources {b : ℕ} (hb : b ∈ sources) : b = Γ'.here := by
  obtain ⟨hnil, hending, e, he, hreach⟩ := (hsources b).1 hb
  obtain rfl := List.mem_singleton.1 he
  obtain ⟨S, hentry, hclosed, hends⟩ := hf.ends
  have hbS : b ∈ S := Chart.Reaches.mem (P := (· ∈ S)) hreach hentry hclosed
  obtain hb | hend := hends b hbS hnil
  · exact hb
  · simp [hend] at hending

theorem here_mem_sources (hfalls : B.falls ≠ 0) : Γ'.here ∈ sources :=
  (hsources _).2 ⟨hf.opened.next, hf.opened.ending, _, List.mem_singleton_self _,
    hf.reaches hfalls⟩

theorem chart_closeLoop_of_ne {b : ℕ} (hb : b ≠ Γ.size) (hb' : b ≠ Γ'.size)
    (hne : b ≠ Γ'.here) :
    (Γ'.closeLoop Γ.size s isIterative sources).chart b = Γ'.chart b := by
  rw [chart_closeLoop hsources hb hb', if_neg]
  exact fun hmem => hne (eq_here_of_mem_sources hf hsources hmem)

variable (s isIterative) in
include h htest in
theorem chart_closeLoop_origin : (Γ'.closeLoop Γ.size s isIterative sources).chart Γ.here =
    { Γ.chart Γ.here with next := [if testAfter then Γ.size + 1 else Γ.size] } := by
  have hlt := h.here_lt
  have hsize := size_openLoop_le hf
  have hhere := (between_openLoop hf).1 hf.here_between
  rw [chart_closeLoop_of_ne hf hsources (by omega) (by omega) (by omega),
    chart_origin h htest hf]

variable (s isIterative) in
/-- The end of the body leads back, where it is reached at all. -/
theorem reaches_back (hfalls : B.falls ≠ 0) :
    (Γ'.closeLoop Γ.size s isIterative sources).chart.Reaches (Γ.size + 1)
      (back Γ Γ' isIterative) := by
  have hhere := (between_openLoop hf).1 hf.here_between
  refine Relation.ReflTransGen.tail (b := Γ'.here) ?_ ?_
  · refine (hf.reaches hfalls).transfer (P := (Γ.openLoop test body testAfter).Between Γ')
      (.inl rfl) fun b hb _ c hc => ⟨hf.closed b hb c hc, ?_⟩
    have hb := (between_openLoop hf).1 hb
    exact mem_next_closeLoop hsources (by omega) (by omega) hc
  · rw [chart_closeLoop hsources (by omega) (by omega),
      if_pos (here_mem_sources hf hsources hfalls)]
    exact List.mem_singleton_self _

include h htest hbody in
/-- What is read from the body goes on where the end of the body leads. -/
theorem reading_body {G : Chart} {K : Exit → Language Instruction}
    (hG : G.Settles (Γ'.closeLoop Γ.size s isIterative sources).chart
      (Γ.Between (Γ'.closeLoop Γ.size s isIterative sources)) (· = Γ'.size) marks K) :
    G.reading (Γ.size + 1) = B.into (G.reading (back Γ Γ' isIterative)) K := by
  have hbetween : ∀ b, (Γ.openLoop test body testAfter).Between Γ' b →
      Γ.Between (Γ'.closeLoop Γ.size s isIterative sources) b ∧ b ≠ Γ.size ∧ b ≠ Γ'.size := by
    intro b hb
    obtain ⟨hgt, hlt⟩ := (between_openLoop hf).1 hb
    exact ⟨.inr ⟨hgt.le, Nat.lt_succ_of_lt hlt⟩, hgt.ne', hlt.ne⟩
  obtain ⟨hin, hne, hne'⟩ := hbetween _ hf.here_between
  have hnodes : (G Γ'.here).nodes = (Γ'.chart Γ'.here).nodes := by
    rw [hG.nodes _ hin hne', chart_closeLoop hsources hne hne']
    split <;> rfl
  have hG' : G.Settles Γ'.chart ((Γ.openLoop test body testAfter).Between Γ') (· = Γ'.here)
      marks K := by
    refine hG.restrict (fun b hb hhere => ?_) ?_ fun e b he => ⟨he, ?_⟩
    · obtain ⟨hin, hne, hne'⟩ := hbetween b hb
      exact ⟨⟨hin, hne'⟩, (chart_closeLoop_of_ne hf hsources hne hne' hhere).symm,
        fun _ he => he⟩
    · rintro _ rfl
      rw [hnodes]
    · obtain ⟨hb, hhere⟩ := hf.marked e b he
      obtain ⟨-, hne, hne'⟩ := hbetween b hb
      exact (chart_closeLoop_of_ne hf hsources hne hne' hhere).symm
  have hstart : ((Γ.openLoop test body testAfter).chart (Γ.size + 1)).nodes = [] := by
    rw [Sketch.chart_openLoop h.here_lt htest.2, if_pos rfl, hbody.nodes]
  have hread := hf.reads G K hG'
  change G.rest ((Γ.openLoop test body testAfter).chart (Γ.size + 1)).nodes.length (Γ.size + 1) = _
    at hread
  rw [hstart, List.length_nil, ← Chart.reading_eq_rest] at hread
  rw [hread]
  refine B.into_congr _ _ K fun hfalls => ?_
  have hnext : (G Γ'.here).next = [back Γ Γ' isIterative] := by
    rw [hG.next _ hin hne' fun e he => (hf.marked e _ he).2 rfl,
      chart_closeLoop hsources hne hne', if_pos (here_mem_sources hf hsources hfalls)]
  rw [← hnodes, Chart.rest_length, Chart.onward_of_next_ne_nil (by simp [hnext]), hnext,
    List.map_singleton, List.sum_singleton]

variable (isIterative) in
include h htest in
theorem frame_closeLoop {b : ℕ} (hb : b < Γ.size) (hne : b ≠ Γ.here) :
    (Γ'.closeLoop Γ.size s isIterative sources).chart b = Γ.chart b := by
  have hsize := size_openLoop_le hf
  have hhere := (between_openLoop hf).1 hf.here_between
  rw [chart_closeLoop_of_ne hf hsources (by omega) (by omega) (by omega),
    hf.frame b (by change b < Γ.size + 2; omega) (by change b ≠ Γ.size + 1; omega),
    Sketch.chart_openLoop h.here_lt htest.2, if_neg (by omega), if_neg (by omega), if_neg hne]

include h htest in
/-- No edge leads out of a loop. -/
theorem closed_closeLoop (hs : s.Blank) {b : ℕ}
    (hb : Γ.Between (Γ'.closeLoop Γ.size s isIterative sources) b) {c : ℕ}
    (hc : c ∈ ((Γ'.closeLoop Γ.size s isIterative sources).chart b).next) :
    Γ.Between (Γ'.closeLoop Γ.size s isIterative sources) c := by
  have hsize := size_openLoop_le hf
  rw [between_closeLoop s isIterative sources hf] at hb ⊢
  obtain rfl | rfl | rfl | hb := hb
  · rw [chart_closeLoop_origin s isIterative h htest hf hsources, List.mem_singleton] at hc
    split at hc <;> omega
  · rw [chart_closeLoop_test s isIterative sources h htest hf] at hc
    obtain hc | hc := List.mem_append.1 hc
    · rw [List.mem_singleton] at hc
      omega
    · split at hc <;> simp at hc
      omega
  · simp [chart_closeLoop_last s isIterative sources hf, hs.next] at hc
  · rw [chart_closeLoop hsources hb.1.ne' hb.2.ne] at hc
    split at hc
    · rw [List.mem_singleton] at hc
      unfold back at hc
      split at hc <;> omega
    · have := (between_openLoop hf).1 (hf.closed b ((between_openLoop hf).2 hb) c hc)
      omega

include h htest in
theorem calm_closeLoop (hcalm : test.Calm) (hending : test.flags.ending = false) (hs : s.Blank)
    {b : ℕ} (hb : Γ.Between (Γ'.closeLoop Γ.size s isIterative sources) b) :
    ((Γ'.closeLoop Γ.size s isIterative sources).chart b).Calm := by
  obtain rfl | rfl | rfl | hb := (between_closeLoop s isIterative sources hf).1 hb
  · rw [chart_closeLoop_origin s isIterative h htest hf hsources]
    exact ⟨h.finish, fun hend => absurd hend (by simp [h.ending])⟩
  · rw [chart_closeLoop_test s isIterative sources h htest hf]
    exact ⟨hcalm.finish, fun hend => absurd hend (by simp [hending])⟩
  · rw [chart_closeLoop_last s isIterative sources hf]
    exact hs.calm
  · have hcalm' := hf.calm b ((between_openLoop hf).2 hb)
    rw [chart_closeLoop hsources hb.1.ne' hb.2.ne]
    split
    · next hmem =>
      exact ⟨hcalm'.finish, fun hend => absurd hend (by simp [((hsources b).1 hmem).2.1])⟩
    · exact hcalm'

include h htest in
/-- From a loop one comes to what follows it, or to an end of the program. -/
theorem ends_closeLoop (hs : s.Blank) : ∃ S : Set ℕ, Γ.here ∈ S ∧
    (∀ b ∈ S, ∀ c ∈ ((Γ'.closeLoop Γ.size s isIterative sources).chart b).next, c ∈ S) ∧
    ∀ b ∈ S, ((Γ'.closeLoop Γ.size s isIterative sources).chart b).next = [] →
      b = Γ'.size ∨ ((Γ'.closeLoop Γ.size s isIterative sources).chart b).flags.ending := by
  have hwithin : ∀ {b}, Γ'.chart.Reaches (Γ.size + 1) b → b ≠ Γ.size ∧ b ≠ Γ'.size := fun hreach =>
    have hb := (between_openLoop hf).1 (hreach.mem (.inl rfl) hf.closed)
    ⟨hb.1.ne', hb.2.ne⟩
  refine ⟨{b | b = Γ.here ∨ b = Γ.size ∨ b = Γ'.size ∨ Γ'.chart.Reaches (Γ.size + 1) b},
    .inl rfl, fun b hb c hc => ?_, fun b hb hnil => ?_⟩
  · obtain rfl | rfl | rfl | hreach := hb
    · rw [chart_closeLoop_origin s isIterative h htest hf hsources, List.mem_singleton] at hc
      split at hc
      · exact .inr (.inr (.inr (hc ▸ .refl)))
      · exact .inr (.inl hc)
    · rw [chart_closeLoop_test s isIterative sources h htest hf] at hc
      obtain hc | hc := List.mem_append.1 hc
      · exact .inr (.inr (.inr (List.mem_singleton.1 hc ▸ .refl)))
      · split at hc
        · exact .inr (.inr (.inl (List.mem_singleton.1 hc)))
        · simp at hc
    · simp [chart_closeLoop_last s isIterative sources hf, hs.next] at hc
    · obtain ⟨hne, hne'⟩ := hwithin hreach
      rw [chart_closeLoop hsources hne hne'] at hc
      split at hc
      · rw [List.mem_singleton, back] at hc
        split at hc
        · exact .inr (.inl hc)
        · exact .inr (.inr (.inl hc))
      · exact .inr (.inr (.inr (hreach.tail hc)))
  · obtain rfl | rfl | rfl | hreach := hb
    · simp [chart_closeLoop_origin s isIterative h htest hf hsources] at hnil
    · simp [chart_closeLoop_test s isIterative sources h htest hf] at hnil
    · exact .inl rfl
    · obtain ⟨hne, hne'⟩ := hwithin hreach
      rw [chart_closeLoop hsources hne hne'] at hnil ⊢
      split at hnil
      · simp at hnil
      · next hmem =>
        rw [if_neg hmem]
        refine .inr (Bool.eq_true_of_not_eq_false fun hend => hmem ?_)
        exact (hsources b).2 ⟨hnil, hend, _, List.mem_singleton_self _, hreach⟩

variable (s) in
include h htest in
/-- What follows a loop is reached, if the loop can be left. -/
theorem reaches_closeLoop (hfalls : (B.loop i isIterative testAfter).falls ≠ 0) :
    (Γ'.closeLoop Γ.size s isIterative sources).chart.Reaches Γ.here Γ'.size := by
  have htest' := chart_closeLoop_test s isIterative sources h htest hf
  have hfirst : (if testAfter then Γ.size + 1 else Γ.size) ∈
      ((Γ'.closeLoop Γ.size s isIterative sources).chart Γ.here).next := by
    rw [chart_closeLoop_origin s isIterative h htest hf hsources]
    exact List.mem_singleton_self _
  have hround : Γ.size + 1 ∈ ((Γ'.closeLoop Γ.size s isIterative sources).chart Γ.size).next := by
    simp [htest']
  refine Relation.ReflTransGen.head hfirst ?_
  have hreach := reaches_back s isIterative hf hsources
  cases isIterative <;> cases testAfter
  · exact .head hround (hreach fun hB => hfalls (by simp [Behaviour.loop, Behaviour.saying,
      Behaviour.after, hB]))
  · exact hreach hfalls
  · exact .single (by simp [htest'])
  · refine (hreach fun hB => hfalls ?_).tail (by simp [back, htest'])
    simp [Behaviour.loop, Behaviour.repeatAfter, Behaviour.after, Behaviour.seq, hB]

omit hsources in
include h htest in
/-- What is read from the test: a condition, and then the body or what follows the loop. -/
theorem reading_test {G : Chart} {K : Exit → Language Instruction}
    (hG : G.Settles (Γ'.closeLoop Γ.size s isIterative sources).chart
      (Γ.Between (Γ'.closeLoop Γ.size s isIterative sources)) (· = Γ'.size) marks K) :
    G.reading Γ.size = just [i] *
      (G.reading (Γ.size + 1) + if isIterative then G.reading Γ'.size else 0) := by
  have hsize := size_openLoop_le hf
  have hmark : ∀ e, ¬ marks e Γ.size := fun e he => by
    have := (between_openLoop hf).1 (hf.marked e _ he).1
    omega
  have hbetween := (between_closeLoop s isIterative sources hf).2 (.inr (.inl rfl))
  have hnodes := hG.nodes Γ.size hbetween (by omega)
  have hnext := hG.next Γ.size hbetween (by omega) hmark
  rw [chart_closeLoop_test s isIterative sources h htest hf] at hnodes hnext
  rw [Chart.reading_eq, hnodes, htest.1, Chart.onward_of_next_ne_nil (by simp [hnext]), hnext]
  cases isIterative <;> simp

include h htest hbody in
/-- What is read from where a loop is entered. -/
theorem reading_closeLoop {G : Chart} {K : Exit → Language Instruction}
    (hG : G.Settles (Γ'.closeLoop Γ.size s isIterative sources).chart
      (Γ.Between (Γ'.closeLoop Γ.size s isIterative sources)) (· = Γ'.size) marks K) :
    G.reading (if testAfter then Γ.size + 1 else Γ.size) =
      (B.loop i isIterative testAfter).into (G.reading Γ'.size) K := by
  have htestRead := reading_test h htest hf hG
  have hbodyRead := reading_body h htest hbody hf hsources hG
  cases isIterative <;> cases testAfter
  · simp only [Bool.false_eq_true, if_false, add_zero] at htestRead
    rw [if_neg (by simp), htestRead, hbodyRead]
    simp [back, Behaviour.loop, Behaviour.saying]
  · exact hbodyRead
  · exact B.eq_into_repeatBefore _ K i (by rw [if_neg (by simp)]; rwa [hbodyRead] at htestRead)
  · refine B.eq_into_repeatAfter _ K i ?_
    rw [if_pos rfl]
    exact hbodyRead.trans (by rw [show back Γ Γ' true = Γ.size from rfl, htestRead, if_pos rfl])

end Loop

variable (test isIterative) in
/-- **A loop**, when it is closed: the end of its body goes back to the test, or on. -/
theorem loop (h : Γ.Open) (htest : test.nodes = [i] ∧ test.next = []) (hcalm : test.Calm)
    (hending : test.flags.ending = false) (hbody : body.Blank) (hs : s.Blank)
    (hf : Fragment (Γ.openLoop test body testAfter) Γ' marks B)
    (hsources : ∀ b, b ∈ sources ↔ Γ'.chart.OpenEnd [Γ.size + 1] b) :
    Fragment Γ (Γ'.closeLoop Γ.size s isIterative sources) marks
      (B.loop i isIterative testAfter) := by
  have hlt := h.here_lt
  have hsize := size_openLoop_le hf
  have hhere : (Γ'.closeLoop Γ.size s isIterative sources).here = Γ'.size := rfl
  have hsize' : (Γ'.closeLoop Γ.size s isIterative sources).size = Γ'.size + 1 := rfl
  have hlast := chart_closeLoop_last s isIterative sources hf
  have horigin := chart_closeLoop_origin s isIterative h htest hf hsources
  have hmarked : ∀ {e b}, marks e b → Γ.size < b ∧ b < Γ'.size := fun he =>
    (between_openLoop hf).1 (hf.marked _ _ he).1
  refine
    { size_le := by omega
      opened := ⟨by omega, by rw [hhere, hlast, hs.next], by rw [hhere, hlast, hs.ending],
        by rw [hhere, hlast, hs.finish]⟩
      newest := .inl (by omega)
      frame := fun b hb hne => frame_closeLoop isIterative h htest hf hsources hb hne
      nodes := by rw [horigin]
      closed := fun b hb c hc => closed_closeLoop h htest hf hsources hs hb hc
      calm := fun b hb => calm_closeLoop h htest hf hsources hcalm hending hs hb
      marked := fun e b he => ?marked
      signed := fun e b he => ?signed
      ends := ends_closeLoop h htest hf hsources hs
      reaches := fun hfalls => reaches_closeLoop s h htest hf hsources hfalls
      reads := fun G K hG => ?reads }
  case marked =>
    have hb := hmarked he
    exact ⟨(between_closeLoop s isIterative sources hf).2 (by omega), by omega⟩
  case signed =>
    have hb := hmarked he
    rw [chart_closeLoop_of_ne hf hsources hb.1.ne' hb.2.ne (hf.marked e b he).2]
    exact hf.signed e b he
  case reads =>
    have hnodes := hG.nodes Γ.here (.inl rfl) (by omega)
    have hnext := hG.next Γ.here (.inl rfl) (by omega) fun e he => by
      have := hmarked he
      omega
    rw [horigin] at hnodes hnext
    rw [← congrArg List.length hnodes, Chart.rest_length,
      Chart.onward_of_next_ne_nil (by simp [hnext]), hnext, List.map_singleton, List.sum_singleton,
      hhere, hlast, hs.nodes, List.length_nil, ← Chart.reading_eq_rest]
    exact reading_closeLoop h htest hbody hf hsources hG

end Fragment

end CobolFlow
