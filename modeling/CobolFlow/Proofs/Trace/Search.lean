import CobolFlow.Proofs.Trace.Bundle

/-!
# Searches

A SEARCH in the cascade lowering goes round until a test succeeds. Its root says the SEARCH and
leads to a body, which tests the phrases of the first WHEN. Where a test fails, the next is tried,
and where the last fails, the root is entered again. AT END is a branch of the body.

The tests lie deeper and deeper, and are closed from the innermost outwards, each with a join of
its own. But the innermost test leads back to the root, so that from the second join on *all* open
ends of the search can be reached, and the first such join takes all of them. The levels are
therefore no fragments of their own. What holds throughout is flat: every end of a branch that can
be reached is either open or flows into the latest join, through joins that say nothing.

## Main definitions

* `Behaviour.search` — what a search says
* `Quest` — an open search
* `Chart.Flows` — leading to a block over blocks that say nothing

## Main results

* `Quest.begin`, `Quest.add` — the first and a further WHEN of a search
-/

namespace CobolFlow

open scoped Computability

/-! ### What a search says -/

namespace Behaviour

variable (X y z : Language Instruction) (K : Exit → Language Instruction) (i : Instruction)

/-- Tests one after the other: each says its phrases, and then does its part or goes on. After the
last there is nothing to go on with. -/
def tests : List (List Instruction × Behaviour) → Behaviour
  | [] => 0
  | (phrases, B) :: rest => (B + tests rest).saying phrases

/-- Rounds in which all tests fail, and a last one in which a test succeeds or the table ends. -/
def search (atEnd : Behaviour) : List (List Instruction × Behaviour) → Behaviour
  | [] => atEnd
  | (phrases, B) :: rest =>
    ((atEnd + B + tests rest).saying phrases).after
      (just (phrases ++ (rest.map Prod.fst).flatten ++ [i]))∗

/-- What is read from the head of some tests if `z` is read where all have failed. -/
def ladder : List (List Instruction × Behaviour) → Language Instruction
  | [] => z
  | (phrases, B) :: rest => just phrases * (B.into X K + ladder rest)

theorem ladder_eq (whens : List (List Instruction × Behaviour)) :
    ladder X z K whens = just (whens.map Prod.fst).flatten * z + (tests whens).into X K := by
  induction whens with
  | nil => simp [ladder, tests]
  | cons w rest ih =>
    obtain ⟨phrases, B⟩ := w
    rw [ladder, ih, tests, saying, into_after, into_add, List.map_cons, List.flatten_cons,
      just_append]
    simp only [mul_add, mul_assoc]
    rw [add_left_comm]

/-- A body with a test that leads to the others, which lead back to it. -/
theorem eq_into_search {atEnd B : Behaviour} {phrases : List Instruction}
    {rest : List (List Instruction × Behaviour)}
    (h : y = just phrases * (atEnd.into X K + (B.into X K + ladder X (just [i] * y) K rest))) :
    y = (search i atEnd ((phrases, B) :: rest)).into X K := by
  have harden : y = just (phrases ++ (rest.map Prod.fst).flatten ++ [i]) * y +
      just phrases * (atEnd + B + tests rest).into X K := by
    conv_lhs => rw [h, ladder_eq]
    simp only [just_append, into_add, mul_add, mul_assoc, add_assoc]
    ac_rfl
  have hnil : [] ∉ just (phrases ++ (rest.map Prod.fst).flatten ++ [i]) := by
    rw [mem_just]
    simp
  rw [Language.self_eq_mul_add_iff hnil] at harden
  rw [harden, search, into_after, saying, into_after]

end Behaviour

/-! ### An open search -/

/-- A WHEN of a search after the first: the block that tests it, what is said there, and what is
done. -/
structure Rung where
  head : ℕ
  phrases : List Instruction
  branch : Branch

/-- Where the next of some tests begins, or `last` if there is none. -/
def link (rest : List Rung) (last : List ℕ) : List ℕ :=
  match rest with
  | [] => last
  | r :: _ => [r.head]

/-- Each test leads into its branch and to the next test, the last one to `last`. -/
def Chart.Spine (χ : Chart) (last : List ℕ) : List Rung → Prop
  | [] => True
  | r :: rest => (χ r.head).nodes = r.phrases ∧
    (χ r.head).next = r.branch.entry :: link rest last ∧ Spine χ last rest

/-- The blocks that test the WHENs after the first. -/
def Heads (rest : List Rung) (b : ℕ) : Prop := ∃ r ∈ rest, b = r.head

/-- The block of the last test, if `body` is that of the first. -/
def tail (body : ℕ) : List Rung → ℕ
  | [] => body
  | r :: rest => tail r.head rest

theorem tail_append (body : ℕ) (rest : List Rung) (r : Rung) :
    tail body (rest ++ [r]) = r.head := by
  induction rest generalizing body with
  | nil => rfl
  | cons r' rest ih => exact ih r'.head

theorem heads_tail (body : ℕ) {rest : List Rung} (hne : rest ≠ []) :
    Heads rest (tail body rest) := by
  induction rest generalizing body with
  | nil => exact absurd rfl hne
  | cons r rest ih =>
    by_cases hrest : rest = []
    · subst hrest
      exact ⟨r, by simp, rfl⟩
    · obtain ⟨r', hr', heq⟩ := ih r.head hrest
      exact ⟨r', by simp [hr'], heq⟩

/-- Leading the last test on changes its block only. -/
theorem Chart.Spine.lead {χ χ' : Chart} {c : ℕ} {rest : List Rung} (h : χ.Spine [] rest)
    (body : ℕ)
    (hasc : (rest.map (·.head)).Pairwise (· < ·))
    (hsame : ∀ b, Heads rest b → b ≠ tail body rest → χ' b = χ b)
    (htail : rest ≠ [] → χ' (tail body rest) =
      { χ (tail body rest) with next := (χ (tail body rest)).next ++ [c] }) :
    χ'.Spine [c] rest := by
  induction rest generalizing body with
  | nil => trivial
  | cons r rest ih =>
    obtain ⟨hnodes, hnext, hspine⟩ := h
    rw [List.map_cons, List.pairwise_cons] at hasc
    cases rest with
    | nil =>
      have hr := htail (by simp)
      change χ' r.head = { χ r.head with next := (χ r.head).next ++ [c] } at hr
      refine ⟨by rw [hr, hnodes], ?_, trivial⟩
      rw [hr, hnext]
      rfl
    | cons r' rest =>
      have hlast := heads_tail r.head (List.cons_ne_nil r' rest)
      have hne : r.head ≠ tail r.head (r' :: rest) := by
        obtain ⟨r'', hr'', heq⟩ := hlast
        exact (heq ▸ hasc.1 r''.head (List.mem_map_of_mem hr'')).ne
      have hr := hsame r.head ⟨r, by simp, rfl⟩ hne
      refine ⟨by rw [hr, hnodes], by rw [hr, hnext]; rfl, ?_⟩
      refine ih hspine r.head hasc.2 (fun b hb => hsame b ?_) fun _ => htail (by simp)
      obtain ⟨r'', hr'', heq⟩ := hb
      exact ⟨r'', by simp [hr''], heq⟩

theorem Chart.Spine.next_ne_nil {χ : Chart} {b : ℕ} {last : List ℕ} {rest : List Rung}
    (h : χ.Spine last rest) (hb : Heads rest b) : (χ b).next ≠ [] := by
  induction rest with
  | nil =>
    obtain ⟨r, hr, -⟩ := hb
    simp at hr
  | cons r rest ih =>
    obtain ⟨-, hnext, hspine⟩ := h
    obtain ⟨r', hr', rfl⟩ := hb
    obtain rfl | hr' := List.mem_cons.1 hr'
    · simp [hnext]
    · exact ih hspine ⟨r', hr', rfl⟩

theorem Chart.Spine.append {χ : Chart} {last : List ℕ} {rest : List Rung} {r : Rung}
    (h : χ.Spine [r.head] rest) (hr : χ.Spine last [r]) : χ.Spine last (rest ++ [r]) := by
  induction rest with
  | nil => exact hr
  | cons r' rest ih =>
    obtain ⟨hnodes, hnext, hspine⟩ := h
    refine ⟨hnodes, ?_, ih hspine⟩
    cases rest <;> exact hnext

/-- A search whose body says `phrases` and leads into the branches `pre` and `main`, and to the
tests in `rest`. -/
structure Quest (Γ₀ Γ : Sketch) (phrases : List Instruction) (marks : Departures)
    (pre : List Branch) (main : Branch) (rest : List Rung) : Prop
    extends Brood Γ₀ Γ (Heads rest) marks (pre ++ main :: rest.map (·.branch)) where
  origin : Γ.chart Γ₀.here = { Γ₀.chart Γ₀.here with
    nodes := (Γ₀.chart Γ₀.here).nodes ++ phrases
    next := pre.map (·.entry) ++ main.entry :: link rest [] }
  spine : Γ.chart.Spine [] rest
  heads : ∀ b, Heads rest b → Γ₀.Made Γ b
  ascending : (rest.map (·.head)).Pairwise (· < ·)

namespace Quest

variable {Γ₀ Γ Γ' : Sketch} {phrases phrases' : List Instruction} {marks marks' : Departures}
  {pre : List Branch} {main : Branch} {rest : List Rung} {B : Behaviour} {s t : Spot}

section Begin

variable (h : Bundle Γ₀ Γ [] marks pre) (h₀ : Γ₀.here < Γ₀.size)
include h h₀

theorem chart_begin (phrases : List Instruction) (s : Spot) (b : ℕ) :
    (((Γ.goTo Γ₀.here).say phrases).branch Γ₀.here s).chart b =
      if b = Γ.size then s else if b = Γ₀.here then { Γ.chart b with
        nodes := (Γ.chart b).nodes ++ phrases, next := (Γ.chart b).next ++ [Γ.size] }
      else Γ.chart b := by
  rw [Sketch.chart_branch (Γ := (Γ.goTo Γ₀.here).say phrases) (h₀.trans_le h.size_le).ne]
  by_cases hb : b = Γ₀.here <;> simp [Sketch.say, Sketch.sayAt, Sketch.goTo, hb]

theorem prepared_begin (phrases : List Instruction) (s : Spot) :
    Prepared Γ₀ Γ (((Γ.goTo Γ₀.here).say phrases).branch Γ₀.here s) (fun _ => False)
      (Heads []) := by
  have hhere : (((Γ.goTo Γ₀.here).say phrases).branch Γ₀.here s).here = Γ.size := rfl
  have hnone : ∀ b, ¬ Heads [] b := fun b hb => by simp [Heads] at hb
  refine ⟨le_rfl, rfl, fun b hb hb' => ?_, fun b hb _ => ?_, fun b => ?_, fun _ h => h.elim,
    fun b hb => absurd hb (hnone b), fun b hb => absurd hb (hnone b)⟩
  · rw [chart_begin h h₀, if_neg (hb.trans_le h.size_le).ne, if_neg hb', h.frame b hb hb']
  · rw [chart_begin h h₀, if_neg hb.2.ne, if_neg (h₀.trans_le hb.1).ne']
  · simp only [hnone, false_or, false_iff, not_and, hhere]
    exact fun hle hlt => hlt.not_ge hle

/-- The first WHEN of a search: its body says the phrases, and leads to what is done. -/
theorem begin (hs : s.nodes = [])
    (hf : Fragment (((Γ.goTo Γ₀.here).say phrases).branch Γ₀.here s) Γ' marks' B) :
    Quest Γ₀ Γ' phrases (fun e b => marks e b ∨ marks' e b) pre ⟨Γ.size, Γ'.here, B⟩ [] := by
  have hne : Γ₀.here ≠ Γ.size := (h₀.trans_le h.size_le).ne
  have hlead : ((((Γ.goTo Γ₀.here).say phrases).branch Γ₀.here s).chart Γ.size).nodes = [] := by
    rw [chart_begin h h₀, if_pos rfl, hs]
  have hbrood := h.toBrood.add (prepared_begin h h₀ phrases s) hf hlead
  rw [Behaviour.saying_nil] at hbrood
  refine ⟨hbrood, ?_, trivial, fun b hb => by simp [Heads] at hb, .nil⟩
  rw [hf.frame _ ((h₀.trans_le h.size_le).trans (Nat.lt_succ_self _)) hne, chart_begin h h₀,
    if_neg hne, if_pos rfl, h.origin]
  simp [link]

end Begin

/-- The last test exists, and is the body or was made since. -/
theorem tail_cases (h : Quest Γ₀ Γ phrases marks pre main rest) :
    tail Γ₀.here rest = Γ₀.here ∧ rest = [] ∨
      Heads rest (tail Γ₀.here rest) ∧ Γ₀.Made Γ (tail Γ₀.here rest) := by
  by_cases hrest : rest = []
  · subst hrest
    exact .inl ⟨rfl, rfl⟩
  · have hhead := heads_tail Γ₀.here hrest
    exact .inr ⟨hhead, h.heads _ hhead⟩

section Add

variable (h : Quest Γ₀ Γ phrases marks pre main rest)
include h

theorem heads_lt {b : ℕ} (hb : Heads rest b) : b < Γ.size := (h.heads b hb).2

variable (h₀ : Γ₀.here < Γ₀.size)

include h₀ in
theorem tail_lt : tail Γ₀.here rest < Γ.size := by
  obtain ⟨heq, -⟩ | ⟨-, hmade⟩ := h.tail_cases
  · rw [heq]
    exact h₀.trans_le h.size_le
  · exact hmade.2

include h₀ in
/-- Of the blocks made since, only the last test is led on. -/
theorem ne_tail {b : ℕ} (hb : Γ₀.Made Γ b) (hhead : ¬ Heads rest b) : b ≠ tail Γ₀.here rest := by
  rintro rfl
  obtain ⟨heq, -⟩ | ⟨htail, -⟩ := h.tail_cases
  · exact (heq ▸ hb.1).not_gt h₀
  · exact hhead htail

include h₀ in
theorem chart_add (hs : s.Blank) (phrases' : List Instruction) (t : Spot) (b : ℕ) :
    (((Γ.branch (tail Γ₀.here rest) s).say phrases').branch Γ.size t).chart b =
      if b = Γ.size + 1 then t
      else if b = Γ.size then { s with nodes := phrases', next := [Γ.size + 1] }
      else if b = tail Γ₀.here rest then
        { Γ.chart b with next := (Γ.chart b).next ++ [Γ.size] }
      else Γ.chart b := by
  have htail := h.tail_lt h₀
  have hsucc : (Γ.branch (tail Γ₀.here rest) s).size = Γ.size + 1 := rfl
  rw [Sketch.chart_branch (Γ := (Γ.branch (tail Γ₀.here rest) s).say phrases')
    (show Γ.size ≠ Γ.size + 1 by omega)]
  by_cases hb : b = Γ.size
  · simp [Sketch.say, Sketch.sayAt, Sketch.branch, Sketch.goTo, Sketch.edge, Sketch.fresh, hb,
      htail.ne', hs.nodes, hs.next]
  · simp [Sketch.say, Sketch.sayAt, Sketch.branch, Sketch.goTo, Sketch.edge, Sketch.fresh, hb]

omit h in
theorem heads_append_iff {r : Rung} {b : ℕ} :
    Heads (rest ++ [r]) b ↔ Heads rest b ∨ b = r.head := by
  simp [Heads, or_and_right, exists_or]

include h₀ in
theorem chart_add_of_heads (hs : s.Blank) (phrases' : List Instruction) (t : Spot) {b : ℕ}
    (hb : Heads rest b) :
    (((Γ.branch (tail Γ₀.here rest) s).say phrases').branch Γ.size t).chart b = Γ.chart b ∨
      (((Γ.branch (tail Γ₀.here rest) s).say phrases').branch Γ.size t).chart b =
        { Γ.chart b with next := (Γ.chart b).next ++ [Γ.size] } := by
  have hlt := h.heads_lt hb
  rw [h.chart_add h₀ hs, if_neg (by omega), if_neg (by omega)]
  split
  · exact .inr rfl
  · exact .inl rfl

include h₀ in
/-- Two blocks are made for a further WHEN: one for its test and one for what is done. -/
theorem prepared_add (hs : s.Blank) (phrases' : List Instruction) (t : Spot) {r : Rung}
    (hr : r.head = Γ.size) : Prepared Γ₀ Γ
      (((Γ.branch (tail Γ₀.here rest) s).say phrases').branch Γ.size t) (Heads rest)
      (Heads (rest ++ [r])) := by
  have hsize₀ := h.size_le
  set Γ₁ := ((Γ.branch (tail Γ₀.here rest) s).say phrases').branch Γ.size t
  have hhere : Γ₁.here = Γ.size + 1 := rfl
  have hsize₁ : Γ₁.size = Γ.size + 2 := rfl
  have hchart : ∀ b, Γ₁.chart b = _ := h.chart_add h₀ hs phrases' t
  refine ⟨by omega, rfl, fun b hb hb' => ?_, fun b hb hb' => ?_, fun b => ?_, h.heads,
    fun b hb c hc => ?_, fun b hb => ?_⟩
  · have hne : b ≠ tail Γ₀.here rest := by
      obtain ⟨heq, -⟩ | ⟨-, hmade⟩ := h.tail_cases
      · rwa [heq]
      · exact (hb.trans_le hmade.1).ne
    rw [hchart, if_neg (by omega), if_neg (by omega), if_neg hne, h.frame b hb hb']
  · have hlt := hb.2
    rw [hchart, if_neg (by omega), if_neg (by omega), if_neg (h.ne_tail h₀ hb hb')]
  · rw [heads_append_iff, hr]
    exact or_congr_right (by omega)
  · obtain hb | rfl := heads_append_iff.1 hb
    · have hcases : c ∈ (Γ.chart b).next ∨ c = Γ.size := by
        obtain heq | heq := h.chart_add_of_heads h₀ hs phrases' t hb
        · exact .inl (heq ▸ hc)
        · rw [heq] at hc
          simpa using hc
      obtain hc | rfl := hcases
      · have hmade := h.closed b (h.heads b hb) c hc
        exact ⟨hmade.1, by have := hmade.2; omega⟩
      · exact ⟨by omega, by omega⟩
    · rw [hr, hchart, if_neg (by omega), if_pos rfl] at hc
      have := List.mem_singleton.1 hc
      exact ⟨by omega, by omega⟩
  · obtain hb | rfl := heads_append_iff.1 hb
    · have hcalm := h.calm b (h.heads b hb)
      obtain heq | heq := h.chart_add_of_heads h₀ hs phrases' t hb
      · rwa [heq]
      · rw [heq]
        exact ⟨hcalm.finish, fun hend => absurd (hcalm.next hend) (h.spine.next_ne_nil hb)⟩
    · rw [hr, hchart, if_neg (by omega), if_pos rfl]
      exact ⟨hs.finish, fun hend => absurd hend (by simp [hs.ending])⟩

include h₀ in
/-- A further WHEN: a new block after the last test says its phrases, and leads to what is
done. -/
theorem add (hs : s.Blank) (ht : t.nodes = []) (hf : Fragment
      (((Γ.branch (tail Γ₀.here rest) s).say phrases').branch Γ.size t) Γ' marks' B) :
    Quest Γ₀ Γ' phrases (fun e b => marks e b ∨ marks' e b) pre main
      (rest ++ [⟨Γ.size, phrases', ⟨Γ.size + 1, Γ'.here, B⟩⟩]) := by
  have hsize₀ := h.size_le
  set Γ₁ := ((Γ.branch (tail Γ₀.here rest) s).say phrases').branch Γ.size t
  have hhere : Γ₁.here = Γ.size + 1 := rfl
  have hsize₁ : Γ₁.size = Γ.size + 2 := rfl
  have hsize' := hf.size_le
  have hchart : ∀ b, Γ₁.chart b = _ := h.chart_add h₀ hs phrases' t
  have hframe : ∀ b < Γ.size + 1, Γ'.chart b = Γ₁.chart b := fun b hb =>
    hf.frame b (by omega) (by omega)
  have hlead : (Γ₁.chart Γ₁.here).nodes = [] := by rw [hhere, hchart, if_pos rfl, ht]
  have hspine : Γ'.chart.Spine [Γ.size] rest := by
    refine h.spine.lead Γ₀.here h.ascending (fun b hb hne => ?_) fun hne => ?_
    · have hlt := h.heads_lt hb
      rw [hframe b (by omega), hchart, if_neg (by omega), if_neg (by omega), if_neg hne]
    · have hlt := h.tail_lt h₀
      rw [hframe _ (by omega), hchart, if_neg (by omega), if_neg (by omega), if_pos rfl]
  have hnew : Γ'.chart Γ.size = { s with nodes := phrases', next := [Γ.size + 1] } := by
    rw [hframe _ (by omega), hchart, if_neg (by omega), if_pos rfl]
  refine ⟨?_, ?_, hspine.append ⟨congrArg Spot.nodes hnew, congrArg Spot.next hnew, trivial⟩,
    fun b hb => ?_, ?_⟩
  · have hbrood : Brood Γ₀ Γ' _ _ (pre ++ main :: rest.map (·.branch) ++
        [⟨Γ.size + 1, Γ'.here, B.saying []⟩]) := h.toBrood.add (h.prepared_add h₀ hs phrases' t
      (r := ⟨Γ.size, phrases', ⟨Γ.size + 1, Γ'.here, B⟩⟩) rfl) hf hlead
    simpa using hbrood
  · rw [hframe _ (by omega), hchart, if_neg (by omega), if_neg (by omega)]
    cases rest with
    | nil => simp [tail, h.origin, link]
    | cons r rest =>
      have hne : Γ₀.here ≠ tail Γ₀.here (r :: rest) := by
        obtain ⟨-, hnil⟩ | ⟨-, hmade⟩ := h.tail_cases
        · simp at hnil
        · exact (h₀.trans_le hmade.1).ne
      rw [if_neg hne, h.origin]
      rfl
  · obtain hb | rfl := heads_append_iff.1 hb
    · have hmade := h.heads b hb
      exact ⟨hmade.1, by have := hmade.2; omega⟩
    · exact ⟨hsize₀, show Γ.size < Γ'.size by omega⟩
  · rw [List.map_append, List.pairwise_append]
    refine ⟨h.ascending, by simp, fun b hb c hc => ?_⟩
    obtain ⟨r, hr, rfl⟩ := List.mem_map.1 hb
    obtain rfl : c = Γ.size := by simpa using hc
    exact h.heads_lt ⟨r, hr, rfl⟩

end Add

end Quest

end CobolFlow
