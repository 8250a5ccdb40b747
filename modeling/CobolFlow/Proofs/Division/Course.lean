import CobolFlow.Proofs.Division.Jumps
import CobolFlow.Proofs.Division.Regions
import CobolFlow.Proofs.Trace.Guarded

/-!
# The course of a plan

Where control goes from a passage of a division can be said of the plan: it falls into other
passages, and the jumps of the passage lead to others. Only which targets the ALTERs add has to be
known besides. In a draft of the plan the jumps lead to the first blocks of these passages.

## Main definitions

* `Plan.targets` — where a landmark of a passage leads
* `Plan.course` — which passages lead to which

## Main results

* `DivisionText.guarded_course` — control falls onwards only
* `Draft.jumps_iff` — the jumps of a draft are those of the course
-/

namespace CobolFlow

open Scope

/-- Whether nothing follows the landmark but what it leads to. -/
def Landmark.leaves : Landmark → Bool
  | .nextSentence => true
  | .jump _ _ j => j.isSimple
  | .call .. | .alter .. => false

/-- The sentence to which a jump to a name leads. -/
def Procedures.target? (c : Procedures) (n : QualifiedName) : Option SentenceId :=
  (c.find? n).bind c.opening?

theorem Procedures.SameNames.target?_eq {c c' : Procedures} (h : SameNames c c') :
    c'.target? = c.target? := by
  funext n
  rw [target?, target?, h.find?_eq, h.opening?_eq]

namespace Passage

/-- What is done. -/
def behaviour (o : Options) (q : Passage) : Behaviour :=
  ((Meaning.statements o q.text).run q.id).1

def landmarks (q : Passage) : List Landmark := q.events.filterMap (·.landmark?)

/-- The simple GO TO with which a passage begins. -/
def leading? (q : Passage) : Option NodeId :=
  match q.events with
  | .enter n :: _ => if n.tag = .goToSimple then some n.id else none
  | _ => none

end Passage

namespace Plan

variable {p : Plan} {a : Build.Alterations} {i k : ℕ} {j : SentenceId}

/-- The passage is the sentence. -/
def IsAt (p : Plan) (j : SentenceId) (k : ℕ) : Prop :=
  ∃ q, p.passages[k]? = some q ∧ q.sentence = some j

theorem IsAt.lt (h : p.IsAt j k) : k < p.passages.length := by
  obtain ⟨q, hq, -⟩ := h
  exact (List.getElem?_eq_some_iff.1 hq).1

/-- The exit is taken at the landmark of the passage. -/
def Takes (p : Plan) (i : ℕ) (e : Exit) (m : Landmark) : Prop :=
  ∃ q, p.passages[i]? = some q ∧ m ∈ q.landmarks ∧ m.exit = some e

/-- Where a landmark of a passage leads. -/
def targets (p : Plan) (a : Build.Alterations) (i : ℕ) : Landmark → Set ℕ
  | .nextSentence => {k | ∃ j, p.IsAt j i ∧ p.IsAt (j + 1) k}
  | .jump node span jump => {k | ∃ n ∈ Build.jumpTargets a { node, span, jump, block := 0 },
      ∃ j ∈ p.catalog.target? n, p.IsAt j k}
  | .call .. | .alter .. => ∅

theorem lt_of_mem_targets {m : Landmark} (h : k ∈ p.targets a i m) : k < p.passages.length := by
  cases m with
  | nextSentence =>
    obtain ⟨_, -, hk⟩ := h
    exact hk.lt
  | jump node span jump =>
    obtain ⟨_, -, _, -, hk⟩ := h
    exact hk.lt
  | call node span range => exact h.elim
  | alter span clauses => exact h.elim

/-- Which passages lead to which. -/
def course (p : Plan) (a : Build.Alterations) : Course where
  falls i := {k | (i, k) ∈ p.falls}
  stops i := ∀ k, (i, k) ∉ p.falls
  jumps i e := {k | ∃ m, p.Takes i e m ∧ k ∈ p.targets a i m}
  rests i e := e = .halt ∨ ∃ m, p.Takes i e m ∧ m.leaves = true ∧ p.targets a i m = ∅

/-- What is done in a passage. -/
def behaviour (p : Plan) (o : Options) (i : ℕ) : Behaviour :=
  (p.passages[i]?.map (·.behaviour o)).getD .skip

/-- A passage sounds alike in both lowerings. -/
theorem alike_behaviour (p : Plan) {o o' : Options} (ho : o.searchCascade = o'.searchCascade)
    (i : ℕ) : (p.behaviour o i).Alike (p.behaviour o' i) := by
  rw [behaviour, behaviour]
  cases p.passages[i]? with
  | none => exact .skip
  | some q => exact (Meaning.alike_statements ho q.text q.id).2

end Plan

/-- **Control falls onwards only**, and jumps stay in the division. -/
theorem DivisionText.guarded_course (d : DivisionText) (program : Option String) (id : NodeId)
    (a : Build.Alterations) :
    ((d.plan program id).course a).Guarded (d.plan program id).passages.length where
  falls i _ k hk := (d.linked_plan program id).lt_of_mem_falls hk
  jumps i _ e k hk := by
    obtain ⟨m, -, hk⟩ := hk
    exact Plan.lt_of_mem_targets hk
  halt i _ := by
    refine Set.eq_empty_of_forall_notMem ?_
    rintro k ⟨m, ⟨_, -, -, hexit⟩, -⟩
    cases m <;> exact nomatch hexit

namespace Draft

variable {o : Options} {s : Scope} {p : Plan} {chs : List Chapter} {c : Chapter} {b i j k x : ℕ}
  {m : Landmark} {e : Exit}

theorem getElem?_passages (h : Draft o s p chs) (hi : chs[i]? = some c) :
    p.passages[i]? = some c.toPassage := by
  rw [← h.passages, List.getElem?_map, hi]
  rfl

theorem isAt_iff (h : Draft o s p chs) :
    p.IsAt j k ↔ ∃ c, chs[k]? = some c ∧ c.sentence = some j := by
  rw [Plan.IsAt, ← h.passages, List.getElem?_map]
  simp [Option.map_eq_some_iff]

theorem sameNames (h : Draft o s p chs) : Procedures.SameNames s.procedures p.catalog :=
  h.catalog ▸ rfl

/-- A sentence begins where its chapter does. -/
theorem firstBlock?_eq_some_iff (h : Draft o s p chs) : s.procedures.firstBlock? j = some x ↔
    ∃ k, p.IsAt j k ∧ ∃ c, chs[k]? = some c ∧ c.start = x := by
  constructor
  · intro hx
    obtain ⟨t, ht, -⟩ := Option.bind_eq_some_iff.1 hx
    obtain ⟨c, hc, hj, -⟩ := h.exists_chapter ht
    obtain ⟨k, hk⟩ := List.mem_iff_getElem?.1 hc
    exact ⟨k, h.isAt_iff.2 ⟨c, hk, hj⟩, c, hk,
      Option.some.inj ((h.firstBlock?_eq hc hj).symm.trans hx)⟩
  · rintro ⟨k, hk, c, hc, rfl⟩
    obtain ⟨c', hc', hj⟩ := h.isAt_iff.1 hk
    obtain rfl := Option.some.inj (hc.symm.trans hc')
    exact h.firstBlock?_eq (List.mem_of_getElem? hc) hj

theorem entrance?_eq_some_iff (h : Draft o s p chs) {n : QualifiedName} :
    s.procedures.entrance? n = some x ↔ ∃ k, (∃ j ∈ p.catalog.target? n, p.IsAt j k) ∧
      ∃ c, chs[k]? = some c ∧ c.start = x := by
  have htarget : s.procedures.entrance? n =
      (p.catalog.target? n).bind s.procedures.firstBlock? := by
    rw [h.sameNames.target?_eq]
    rfl
  rw [htarget, Option.bind_eq_some_iff]
  simp only [h.firstBlock?_eq_some_iff]
  constructor
  · rintro ⟨j, hj, k, hk, hx⟩
    exact ⟨k, ⟨j, hj, hk⟩, hx⟩
  · rintro ⟨k, ⟨j, hj, hk⟩, hx⟩
    exact ⟨j, hj, k, hk, hx⟩

/-- The landmarks of a chapter are those of its passage. -/
theorem map_marks (h : Draft o s p chs) (hc : c ∈ chs) :
    c.marks.map (·.2) = c.toPassage.landmarks := (h.drawn c hc).kinds

theorem takes_of_mark (h : Draft o s p chs) (hi : chs[i]? = some c) (hm : (b, m) ∈ c.marks)
    (he : m.exit = some e) : p.Takes i e m :=
  ⟨c.toPassage, h.getElem?_passages hi,
    h.map_marks (List.mem_of_getElem? hi) ▸ List.mem_map_of_mem hm, he⟩

/-- Two chapters are not left in one block, nor is one of them at two landmarks. -/
theorem mark_unique (h : Draft o s p chs) {c' : Chapter} {m' : Landmark} {e' : Exit}
    (hc : c ∈ chs) (hm : (b, m) ∈ c.marks) (he : m.exit = some e)
    (hc' : c' ∈ chs) (hm' : (b, m') ∈ c'.marks) (he' : m'.exit = some e') : c = c' ∧ m = m' := by
  have hlast := Landmark.isLast_of_exit he
  have hlast' := Landmark.isLast_of_exit he'
  obtain ⟨hb, -⟩ := (h.drawn c hc).has_of_mem_blocks (Landmarks.mem_blocks.2 ⟨m, hm, hlast⟩)
  obtain ⟨hb', -⟩ := (h.drawn c' hc').has_of_mem_blocks (Landmarks.mem_blocks.2 ⟨m', hm', hlast'⟩)
  obtain rfl := h.eq_of_mem_of_has hc hc' hb hb'
  exact ⟨rfl, Landmarks.eq_of_isLast (h.drawn c hc).placed.ascending hm hm' hlast hlast'⟩

/-- **The jumps of a draft** are those of the course. -/
theorem jumps_iff (h : Draft o s p chs) (hi : chs[i]? = some c) (hm : (b, m) ∈ c.marks)
    (he : m.exit = some e) : s.Jumps b x ↔
      ∃ k ∈ p.targets s.alterations i m, ∃ c', chs[k]? = some c' ∧ c'.start = x := by
  have hc := List.mem_of_getElem? hi
  constructor
  · rintro (⟨w, hw, rfl, hx⟩ | ⟨w, hw, rfl, n, hn, hx⟩)
    · obtain ⟨c', hc', hm', hj⟩ := h.mem_nextSentences.1 hw
      obtain ⟨rfl, rfl⟩ := h.mark_unique hc hm he hc' hm' rfl
      obtain ⟨k, hk, hx⟩ := h.firstBlock?_eq_some_iff.1 hx
      exact ⟨k, ⟨w.sentence, h.isAt_iff.2 ⟨c, hi, hj⟩, hk⟩, hx⟩
    · obtain ⟨c', hc', hm'⟩ := h.mem_jumps.1 hw
      obtain ⟨rfl, rfl⟩ := h.mark_unique hc hm he hc' hm' rfl
      obtain ⟨k, hk, hx⟩ := h.entrance?_eq_some_iff.1 hx
      exact ⟨k, ⟨n, hn, hk⟩, hx⟩
  · rintro ⟨k, hk, hx⟩
    cases m with
    | nextSentence =>
      obtain ⟨j, hj, hk⟩ := hk
      obtain ⟨c', hc', hj⟩ := h.isAt_iff.1 hj
      obtain rfl := Option.some.inj (hi.symm.trans hc')
      exact .inl ⟨⟨b, j⟩, h.mem_nextSentences.2 ⟨c, hc, hm, hj⟩, rfl,
        h.firstBlock?_eq_some_iff.2 ⟨k, hk, hx⟩⟩
    | jump node span j =>
      obtain ⟨n, hn, hk⟩ := hk
      exact .inr ⟨⟨node, span, j, b⟩, h.mem_jumps.2 ⟨c, hc, hm⟩, rfl, n, hn,
        h.entrance?_eq_some_iff.2 ⟨k, hk, hx⟩⟩
    | call node span range => exact hk.elim
    | alter span clauses => exact hk.elim

end Draft

end CobolFlow
