import CobolFlow.Proofs.Division.Units
import CobolFlow.Proofs.Place.Lasting

/-!
# What a SEARCH reads

A SEARCH in the cascade lowering goes round: while all of its tests fail it says itself and all
their phrases, and begins again. In the last round it says itself and the phrases of the first
test, and either the table has ended or one of the tests succeeds, after those before it have
failed. In the direct lowering there are no rounds, and each test stands for itself.

This is what is read in the finished graph on the passages from where the SEARCH begins to where it
goes on, or to where the program ends in between. It holds for every SEARCH in which nothing waits
for the end of the division, wherever it is nested and whatever surrounds it.

## Main definitions

* `searchWords` — what a SEARCH reads
* `ProgramUnit.Searches` — every SEARCH of a program reads that

## Main results

* `StatementTree.build_searches` — for every tree and all options
-/

namespace CobolFlow

open scoped Computability

/-- What is read from where a SEARCH begins on some of its ways out, if `D` is read at AT END, and
behind the phrases of each WHEN what stands beside them. -/
def searchWords (cascade : Bool) (i : Instruction) (D : Language Instruction)
    (clauses : List (List Instruction × Language Instruction)) : Language Instruction :=
  match cascade, clauses with
  | true, (first, _) :: _ => {w | ∃ rounds v,
      w = (List.replicate rounds (i :: clauses.flatMap (·.1))).flatten ++ i :: first ++ v ∧
      (v ∈ D ∨ ∃ k, ∃ h : k < clauses.length, ∃ b ∈ clauses[k].2,
        v = (clauses.take (k + 1)).tail.flatMap (·.1) ++ b)}
  | _, _ => {w | ∃ v, w = i :: v ∧ (v ∈ D ∨ ∃ c ∈ clauses, ∃ b ∈ c.2, v = c.1 ++ b)}

theorem mem_searchWords_false {i : Instruction} {D : Language Instruction}
    {clauses : List (List Instruction × Language Instruction)} {w : List Instruction} :
    w ∈ searchWords false i D clauses ↔
      ∃ v, w = i :: v ∧ (v ∈ D ∨ ∃ c ∈ clauses, ∃ b ∈ c.2, v = c.1 ++ b) := Iff.rfl

/-- The last round of a search, by the test that succeeds. -/
theorem mem_searchWords_cons {i : Instruction} {D B : Language Instruction}
    {first : List Instruction} {rest : List (List Instruction × Language Instruction)}
    {w : List Instruction} : w ∈ searchWords true i D ((first, B) :: rest) ↔ ∃ rounds v,
      w = (List.replicate rounds (i :: (first ++ rest.flatMap (·.1)))).flatten ++ i :: first ++ v ∧
        (v ∈ D ∨ v ∈ B ∨ ∃ k, ∃ h : k < rest.length, ∃ b ∈ rest[k].2,
          v = (rest.take (k + 1)).flatMap (·.1) ++ b) := by
  refine exists_congr fun rounds => exists_congr fun v => and_congr_right' (or_congr_right ?_)
  constructor
  · rintro ⟨_ | k, hk, b, hb, rfl⟩
    · exact .inl hb
    · exact .inr ⟨k, Nat.lt_of_succ_lt_succ hk, b, hb, rfl⟩
  · rintro (hv | ⟨k, hk, b, hb, rfl⟩)
    · exact ⟨0, Nat.succ_pos _, v, hv, rfl⟩
    · exact ⟨k + 1, Nat.succ_lt_succ hk, b, hb, rfl⟩

/-! ### One way out of a behaviour -/

/-- Some of the words that behaviours say, such as those on one of their ways out. -/
structure IsReading (φ : Behaviour → Language Instruction) : Prop where
  zero : φ 0 = 0
  add : ∀ B C, φ (B + C) = φ B + φ C
  after : ∀ (B : Behaviour) L, φ (B.after L) = L * φ B

theorem isReading_falls : IsReading Behaviour.falls := ⟨rfl, fun _ _ => rfl, fun _ _ => rfl⟩

theorem isReading_exits (e : Exit) : IsReading (Behaviour.exits · e) :=
  ⟨rfl, fun _ _ => rfl, fun _ _ => rfl⟩

theorem mem_just_mul {u w : List Instruction} {L : Language Instruction} :
    w ∈ just u * L ↔ ∃ v ∈ L, w = u ++ v := by
  rw [Language.mem_mul]
  constructor
  · rintro ⟨_, rfl, v, hv, rfl⟩
    exact ⟨v, hv, rfl⟩
  · rintro ⟨v, hv, rfl⟩
    exact ⟨u, rfl, v, hv, rfl⟩

theorem mem_kstar_just {u w : List Instruction} :
    w ∈ (just u)∗ ↔ ∃ n, w = (List.replicate n u).flatten := by
  rw [Language.mem_kstar]
  constructor
  · rintro ⟨l, rfl, hl⟩
    exact ⟨l.length, by rw [← List.eq_replicate_iff.2 ⟨rfl, hl⟩]⟩
  · rintro ⟨n, rfl⟩
    exact ⟨_, rfl, fun v hv => List.eq_of_mem_replicate hv⟩

/-- It does not matter where rounds are cut. -/
theorem cons_flatten_replicate (i : Instruction) (u v : List Instruction) (n : ℕ) :
    i :: ((List.replicate n (u ++ [i])).flatten ++ v) =
      (List.replicate n (i :: u)).flatten ++ i :: v := by
  induction n with
  | zero => rfl
  | succ n ih =>
    rw [List.replicate_succ, List.replicate_succ, List.flatten_cons, List.flatten_cons,
      List.append_assoc, List.append_assoc, List.append_assoc, ← ih]
    rfl

namespace IsReading

variable {φ : Behaviour → Language Instruction} (hφ : IsReading φ) {i : Instruction}
  {D B : Behaviour} {clauses : List (List Instruction × Behaviour)} {w : List Instruction}

include hφ

theorem mem_sum_map {α : Type} {l : List α} {f : α → Behaviour} :
    w ∈ φ (l.map f).sum ↔ ∃ a ∈ l, w ∈ φ (f a) := by
  induction l with
  | nil =>
    rw [List.map_nil, List.sum_nil, hφ.zero]
    simp [Language.notMem_zero]
  | cons a l ih =>
    rw [List.map_cons, List.sum_cons, hφ.add, Language.mem_add, ih]
    simp

/-- A test is reached when those before it have failed. -/
theorem mem_tests : w ∈ φ (Behaviour.tests clauses) ↔ ∃ k, ∃ h : k < clauses.length,
    ∃ b ∈ φ clauses[k].2, w = (clauses.take (k + 1)).flatMap (·.1) ++ b := by
  induction clauses generalizing w with
  | nil =>
    rw [Behaviour.tests, hφ.zero]
    simp [Language.notMem_zero]
  | cons c rest ih =>
    obtain ⟨phrases, B⟩ := c
    rw [Behaviour.tests, Behaviour.saying, hφ.after, hφ.add, mem_just_mul]
    simp only [Language.mem_add, ih]
    constructor
    · rintro ⟨v, hv | ⟨k, hk, b, hb, rfl⟩, rfl⟩
      · exact ⟨0, Nat.succ_pos _, v, hv, by simp⟩
      · exact ⟨k + 1, Nat.succ_lt_succ hk, b, hb, by simp⟩
    · rintro ⟨_ | k, hk, b, hb, rfl⟩
      · exact ⟨b, .inl hb, by simp⟩
      · exact ⟨_, .inr ⟨k, Nat.lt_of_succ_lt_succ hk, b, hb, rfl⟩, by simp⟩

theorem mem_direct : w ∈ φ ((Behaviour.direct D clauses).saying [i]) ↔ ∃ v, w = i :: v ∧
    (v ∈ φ D ∨ ∃ c ∈ clauses, ∃ b ∈ φ c.2, v = c.1 ++ b) := by
  have hclause : ∀ (c : List Instruction × Behaviour) v, v ∈ φ (c.2.saying c.1) ↔
      ∃ b ∈ φ c.2, v = c.1 ++ b :=
    fun c v => by rw [Behaviour.saying, hφ.after, mem_just_mul]
  rw [Behaviour.saying, hφ.after, Behaviour.direct, hφ.add, mem_just_mul]
  simp only [Language.mem_add, hφ.mem_sum_map, hclause]
  constructor
  · rintro ⟨v, hv, rfl⟩
    exact ⟨v, rfl, hv.symm⟩
  · rintro ⟨v, rfl, hv⟩
    exact ⟨v, hv.symm, rfl⟩

theorem mem_search {first : List Instruction} :
    w ∈ φ ((Behaviour.search i D ((first, B) :: clauses)).saying [i]) ↔ ∃ rounds v,
      w =
        (List.replicate rounds (i :: (first ++ clauses.flatMap (·.1)))).flatten ++
          i :: first ++ v ∧
        (v ∈ φ D ∨ v ∈ φ B ∨ v ∈ φ (Behaviour.tests clauses)) := by
  have hrounds : ∀ n v,
    [i] ++ ((List.replicate n (first ++ clauses.flatMap (·.1) ++ [i])).flatten ++
      (first ++ v)) =
        (List.replicate n (i :: (first ++ clauses.flatMap (·.1)))).flatten ++ i :: first ++ v :=
    fun n v => by
      rw [List.singleton_append, cons_flatten_replicate, List.append_assoc, List.cons_append]
  rw [Behaviour.saying, hφ.after, Behaviour.search, hφ.after, Behaviour.saying, hφ.after, hφ.add,
    hφ.add, mem_just_mul, ← List.flatMap_def]
  constructor
  · rintro ⟨_, hmem, rfl⟩
    obtain ⟨_, hn, _, hlast, rfl⟩ := Language.mem_mul.1 hmem
    obtain ⟨n, rfl⟩ := mem_kstar_just.1 hn
    obtain ⟨v, hv, rfl⟩ := mem_just_mul.1 hlast
    exact ⟨n, v, hrounds n v, or_assoc.1 hv⟩
  · rintro ⟨n, v, rfl, hv⟩
    refine ⟨_, Language.mem_mul.2 ⟨_, mem_kstar_just.2 ⟨n, rfl⟩, _,
      mem_just_mul.2 ⟨v, or_assoc.2 hv, rfl⟩, rfl⟩, (hrounds n v).symm⟩

/-- **What a SEARCH says** on some of its ways out. -/
theorem searching (o : Options) :
    φ ((Meaning.searching o i D clauses).saying [i]) =
      searchWords o.searchCascade i (φ D) (clauses.map fun c => (c.1, φ c.2)) := by
  ext w
  have hdirect : w ∈ φ ((Behaviour.direct D clauses).saying [i]) ↔
      w ∈ searchWords false i (φ D) (clauses.map fun c => (c.1, φ c.2)) := by
    rw [hφ.mem_direct, mem_searchWords_false]
    simp only [List.mem_map, exists_exists_and_eq_and]
  cases ho : o.searchCascade with
  | false => rwa [Meaning.searching, if_neg (by simp [ho])]
  | true =>
    rw [Meaning.searching, if_pos ho]
    obtain _ | ⟨⟨first, B⟩, rest⟩ := clauses
    · rw [Behaviour.direct, List.map_nil, List.sum_nil, zero_add] at hdirect
      exact hdirect
    · rw [hφ.mem_search, List.map_cons, mem_searchWords_cons, List.flatMap_map]
      simp only [hφ.mem_tests, List.length_map, List.getElem_map, ← List.map_take, List.flatMap_map]

end IsReading

/-! ### Programs -/

namespace Meaning

/-- What is done at AT END, and the phrases and bodies of the WHENs. -/
def searchParts (o : Options) (atEnd : Option (List Statement)) (whens : List WhenClause) :
    Numbered (Behaviour × List (List Instruction × Behaviour)) := do
  let D ← searchAtEnd o atEnd
  return (D, ← whenClauses o .searchWhen whens)

end Meaning

/-- Every SEARCH of the program that stands behind `before` in its replay, and in which no statement
waits for the end of the division, reads what its parts say: on the passages from where it begins to
where it goes on, and on those on which the program ends in between. -/
def ProgramUnit.Searches (o : Options) (u : ProgramUnit) (flow : ProgramFlow) : Prop :=
  ∀ (before after : List Notification) (atEnd : Option (List Statement)) (whens : List WhenClause)
    (text : Option String) (span : Span) (id : NodeId),
    let script := ((Script.statement (.mk (.search atEnd whens) text span)).run id).1
    u.events = before ++ script ++ after → script.filterMap (·.landmark?) = [] →
      let (D, clauses) := ((Meaning.searchParts o atEnd whens).run (id + 1)).1
      u.Does o flow before script
        (searchWords o.searchCascade ⟨id, .search⟩ D.falls (clauses.map fun c => (c.1, c.2.falls)))
        (searchWords o.searchCascade ⟨id, .search⟩ (D.exits .halt)
          (clauses.map fun c => (c.1, c.2.exits .halt)))

theorem ProgramUnit.Yields.searches {o : Options} {u : ProgramUnit} {flow : ProgramFlow}
    (h : u.Yields o flow) : u.Searches o flow := by
  intro before after atEnd whens text span id script hevents hlandmarks
  have hdoes := h.does hevents hlandmarks
  have hmeaning : ((Meaning.statement o (.mk (.search atEnd whens) text span)).run id).1 =
      (Meaning.searching o ⟨id, .search⟩ ((Meaning.searchParts o atEnd whens).run (id + 1)).1.1
        ((Meaning.searchParts o atEnd whens).run (id + 1)).1.2).saying [⟨id, .search⟩] := by
    rw [Meaning.statement]
    rfl
  rw [hmeaning, isReading_falls.searching, (isReading_exits .halt).searching] at hdoes
  exact hdoes

/-- **Searches.** For every tree and all options, what is read in the graph from where a SEARCH
begins to where it goes on, or to where the program ends in it, is what its lowering says: with
WHENs and in the cascade lowering any number of rounds in which all tests fail, and a last one. -/
theorem StatementTree.build_searches (t : StatementTree) (o : Options) :
    ∃ flows, t.build o = .ok flows ∧ List.Forall₂ (ProgramUnit.Searches o) t.units flows := by
  obtain ⟨flows, hbuild, hyields⟩ := t.exists_build o
  exact ⟨flows, hbuild, hyields.imp fun _ _ h => h.searches⟩

/-- A SEARCH with two WHENs in an IF. -/
def searchInIf : Statement × StatementTree :=
  let display : Statement := .mk (.ordinary .display []) none .unknown
  let search : Statement :=
    .mk (.search (some [display]) [.mk ["A"] [display], .mk ["B"] []]) none .unknown
  (search, { programs := [.mk "P" .program (some
    { sentences := [[.mk (.ifThen [search] none) none .unknown]] }) []] })

/-- The SEARCH is a part of the replay, and nothing in it waits for the end of the division. -/
example : ∃ u before after, searchInIf.2.units = [u] ∧
    u.events = before ++ ((Script.statement searchInIf.1).run 3).1 ++ after ∧
      ((Script.statement searchInIf.1).run 3).1.filterMap (·.landmark?) = [] := by
  exact ⟨_, [.enter ⟨1, .procedureDivision, .unknown, none⟩, .enter ⟨2, .ifThen, .unknown, none⟩],
    [.leave ⟨2, .ifThen, .unknown, none⟩, .sentenceEnd,
      .leave ⟨1, .procedureDivision, .unknown, none⟩], rfl, rfl, rfl⟩

/-- One round in which both tests fail, and a last one in which the second succeeds. -/
example (i a b : Instruction) :
    [i, a, b, i, a, b] ∈ searchWords true i 0 [([a], 0), ([b], 1)] :=
  ⟨1, [b], rfl, .inr ⟨1, Nat.lt_succ_self 1, [], rfl, rfl⟩⟩

end CobolFlow
