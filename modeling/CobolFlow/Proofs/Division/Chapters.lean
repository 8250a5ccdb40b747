import CobolFlow.Proofs.Division.Beginning
import CobolFlow.Proofs.Division.Opening

/-!
# The chapters of a graph

A division is drawn passage by passage, each in blocks of its own that follow one another. A
*chapter* is a passage with the sketches between which it was drawn. What comes later touches a
chapter in one place only: its last block gets edges to the chapters that control falls into.

## Main definitions

* `Chapter` — a passage as it is drawn
* `Laid` — chapters, each drawn in the blocks that follow those of the one before
* `Chapters` — a scope whose graph consists of chapters, as far as it has been drawn

## Main results

* `Laid.size_le_start` — chapters stand in the order in which they were drawn
* `Chapters.push`, `Chapters.read` — a chapter is begun, and filled
-/

namespace CobolFlow

open Scope

/-- A passage as it is drawn. -/
structure Chapter extends Passage where
  /-- As it begins, in its first block. -/
  first : Sketch
  /-- As it ends, in its last block. -/
  last : Sketch
  marks : Landmarks

namespace Chapter

/-- A chapter in which nothing has been read. -/
def blank (q : Passage) (Γ : Sketch) : Chapter :=
  { toPassage := q, first := Γ, last := Γ, marks := [] }

/-- The first block. -/
def start (c : Chapter) : ℕ := c.first.here

/-- The last block. -/
def stop (c : Chapter) : ℕ := c.last.here

/-- Whether a block is one of the chapter's. -/
def Has (c : Chapter) (b : ℕ) : Prop := c.start ≤ b ∧ b < c.last.size

/-- The blocks in the order in which they were made. -/
def blocks (c : Chapter) : List ℕ := List.range' c.start (c.last.size - c.start)

theorem pairwise_blocks (c : Chapter) : c.blocks.Pairwise (· < ·) := List.pairwise_lt_range'

/-- What is replayed. -/
def events (c : Chapter) : List Notification := ((Script.statements c.text).run c.id).1

/-- What is done. -/
def behaviour (o : Options) (c : Chapter) : Behaviour := ((Meaning.statements o c.text).run c.id).1

/-- The chapter begins in an empty block and does what its statements mean. -/
structure Drawn (o : Options) (c : Chapter) : Prop where
  opened : c.first.Open
  single : c.first.size = c.start + 1
  silent : (c.first.chart c.start).nodes = []
  fragment : Fragment c.first c.last c.marks.exits (c.behaviour o)
  placed : c.marks.Placed c.first c.last
  kinds : c.marks.map (·.2) = c.events.filterMap (·.landmark?)
  begins : ∀ n, c.events.head? = some (.enter n) → (c.last.chart c.start).Begins n
  /-- Nothing is read into a chapter that is no sentence. -/
  idle : c.sentence = none → c.last = c.first

namespace Drawn

variable {o : Options} {c : Chapter} {b : ℕ}

theorem blank {q : Passage} (hq : q.text = []) {Γ : Sketch} (hΓ : Γ.Open)
    (hsingle : Γ.size = Γ.here + 1) (hsilent : (Γ.chart Γ.here).nodes = []) :
    (Chapter.blank q Γ).Drawn o := by
  have hnothing : (Chapter.blank q Γ).behaviour o = .skip := by
    rw [behaviour, show (Chapter.blank q Γ).text = [] from hq, Meaning.statements]
    rfl
  have hevents : (Chapter.blank q Γ).events = [] := by
    rw [events, show (Chapter.blank q Γ).text = [] from hq, Script.statements]
    rfl
  refine ⟨hΓ, hsingle, hsilent, ?_, .nil _ _, by rw [hevents]; rfl, fun n hn => ?_, fun _ => rfl⟩
  · rw [hnothing, show (Chapter.blank q Γ).marks = [] from rfl, Landmarks.exits_nil]
    exact .refl hΓ
  · rw [hevents] at hn
    exact nomatch hn

theorem start_lt (h : c.Drawn o) : c.start < c.last.size :=
  (Nat.lt_succ_self _).trans_le (h.single.ge.trans h.fragment.size_le)

theorem stop_lt (h : c.Drawn o) : c.stop < c.last.size := h.fragment.opened.here_lt

/-- The last block is the newest. -/
theorem stop_eq (h : c.Drawn o) : c.stop + 1 = c.last.size := by
  obtain ⟨-, hnew⟩ | ⟨hhere, hsize⟩ := h.fragment.newest
  · exact hnew
  · rw [stop, hhere, hsize, h.single]
    rfl

theorem start_le_stop (h : c.Drawn o) : c.start ≤ c.stop := by
  have := h.start_lt
  have := h.stop_eq
  omega

theorem has_start (h : c.Drawn o) : c.Has c.start := ⟨le_rfl, h.start_lt⟩

theorem has_stop (h : c.Drawn o) : c.Has c.stop := ⟨h.start_le_stop, h.stop_lt⟩

theorem mem_blocks (h : c.Drawn o) : b ∈ c.blocks ↔ c.Has b := by
  have := h.start_lt
  rw [blocks, List.mem_range'_1, Has]
  omega

theorem head?_blocks (h : c.Drawn o) : c.blocks.head? = some c.start := by
  have := h.start_lt
  rw [blocks, List.head?_range', if_neg (by omega)]

theorem getLast?_blocks (h : c.Drawn o) : c.blocks.getLast? = some c.stop := by
  have := h.start_lt
  have := h.stop_eq
  rw [blocks, List.getLast?_range', if_neg (by omega)]
  congr 1
  omega

/-- The chapter's blocks are those that its fragment speaks of. -/
theorem between_iff (h : c.Drawn o) : c.first.Between c.last b ↔ c.Has b := by
  have hlt := h.start_lt
  rw [Sketch.Between, Has, h.single, start]
  rw [start] at hlt
  omega

/-- A block that ends in a landmark is one of the chapter, and not its last. -/
theorem has_of_mem_blocks (h : c.Drawn o) (hb : b ∈ c.marks.blocks) : c.Has b ∧ b < c.stop :=
  (h.placed.between b hb).imp_left h.between_iff.1

/-- What is read from the beginning of a chapter, in a graph that has settled it. -/
theorem reading_start (h : c.Drawn o) {G : Chart} {K : Exit → Language Instruction}
    (hG : G.Settles c.last.chart (c.first.Between c.last) (· = c.stop) c.marks.exits K)
    (hstop : (G c.stop).nodes = (c.last.chart c.stop).nodes) :
    G.reading c.start = (c.behaviour o).into (G.onward c.stop) K := by
  have hreads := h.fragment.reads G K hG
  have hlength : (c.last.chart c.last.here).nodes.length = (G c.stop).nodes.length :=
    congrArg List.length hstop.symm
  rw [show c.first.chart c.first.here = c.first.chart c.start from rfl, h.silent, hlength] at hreads
  rw [Chart.reading_eq_rest, ← G.rest_length c.stop]
  exact hreads

end Drawn

end Chapter

/-- How many blocks there are after some chapters. -/
def Chapter.extent (chs : List Chapter) : ℕ := (chs.getLast?.map (·.last.size)).getD 0

@[simp] theorem Chapter.extent_append (chs : List Chapter) (c : Chapter) :
    Chapter.extent (chs ++ [c]) = c.last.size := by
  simp [extent]

/-- Where control falls to from the end of a chapter. -/
def Chapter.onto (chs : List Chapter) (falls : List (ℕ × ℕ)) (i : ℕ) : List ℕ :=
  falls.filterMap fun e => if e.1 = i then (chs[e.2]?).map Chapter.start else none

/-- A chapter of a list stands before the last one, or is the last one. -/
theorem Chapter.lt_or_eq_of_getElem?_concat {chs : List Chapter} {c d : Chapter} {i : ℕ}
    (hi : (chs ++ [d])[i]? = some c) :
    i < chs.length ∧ chs[i]? = some c ∨ i = chs.length ∧ c = d := by
  rw [List.getElem?_append] at hi
  split at hi
  · next hlt => exact .inl ⟨hlt, hi⟩
  · rw [List.getElem?_singleton] at hi
    split at hi
    · exact .inr ⟨by omega, (Option.some.inj hi).symm⟩
    · exact nomatch hi

/-- Where control falls to depends on where the chapters begin. -/
theorem Chapter.onto_congr {pre : List Chapter} {c d : Chapter} (hstart : d.start = c.start)
    (falls : List (ℕ × ℕ)) (i : ℕ) : onto (pre ++ [d]) falls i = onto (pre ++ [c]) falls i := by
  refine List.filterMap_congr fun e _ => ?_
  rw [List.getElem?_append, List.getElem?_append, List.getElem?_singleton, List.getElem?_singleton]
  split_ifs <;> simp [hstart]

/-- One more chapter, into which control may fall from an earlier one. -/
theorem Chapter.onto_concat {chs : List Chapter} {falls : List (ℕ × ℕ)}
    (hfalls : ∀ e ∈ falls, e.2 < chs.length) (d : Chapter) (origin : Option ℕ) (i : ℕ) :
    onto (chs ++ [d]) (falls ++ (origin.map fun k => (k, chs.length)).toList) i =
      onto chs falls i ++ if origin = some i then [d.start] else [] := by
  rw [onto, List.filterMap_append]
  refine congrArg₂ (· ++ ·) (List.filterMap_congr fun e he => ?_) ?_
  · rw [List.getElem?_append_left (hfalls e he)]
  · cases origin with
    | none => rfl
    | some k => by_cases hk : k = i <;> simp [hk]

/-- What some chapters have put aside. -/
def Chapter.ledger (chs : List Chapter) : Ledger :=
  chs.foldl (fun l c => c.marks.foldl (Ledger.post c.sentence) l) ({}, #[])

/-- Chapters that follow one another. -/
structure Laid (o : Options) (chs : List Chapter) : Prop where
  drawn : ∀ c ∈ chs, c.Drawn o
  contiguous : ∀ {i : ℕ} {c : Chapter}, chs[i]? = some c → c.start = Chapter.extent (chs.take i)

/-- The graph of the scope consists of chapters. -/
structure Chapters (o : Options) (s : Scope) (chs : List Chapter) (falls : List (ℕ × ℕ)) : Prop
    extends Laid o chs where
  size : s.graph.size = Chapter.extent chs
  here : ∀ c ∈ chs.getLast?, s.currentBlock = some c.stop
  falls_lt : ∀ e ∈ falls, e.1 < chs.length ∧ e.2 < chs.length
  chart : ∀ {i : ℕ} {c : Chapter}, chs[i]? = some c → ∀ b, c.Has b → s.graph.chart b =
    if b = c.stop then { c.last.chart b with next := Chapter.onto chs falls i } else c.last.chart b
  tag : ∀ c ∈ chs, ∀ b, c.Has b → (s.graph.chart b).tag = c.tag
  numbers : chs.filterMap (·.sentence) = List.range s.procedures.sentences.size
  sentence : ∀ c ∈ chs, ∀ j ∈ c.sentence, ∃ t, s.procedures.sentences[j]? = some t ∧
    t.blocks = c.blocks ∧ ∀ k ∈ t.entry, s.graph.slots[k]? = some c.start
  roots : s.graph.roots = 0 :: (chs.filter (·.entered)).map (·.start)
  begins : (s.graph.chart 0).flags.start = true
  honest : s.graph.Honest
  ledger : s.ledger = Chapter.ledger chs

namespace Laid

variable {o : Options} {chs : List Chapter} {i j : ℕ} {c c' : Chapter} {b : ℕ}

/-- A chapter begins where the one before ends. -/
theorem start_succ (h : Laid o chs) (hi : chs[i]? = some c) (hj : chs[i + 1]? = some c') :
    c'.start = c.last.size := by
  rw [h.contiguous hj, List.take_add_one, hi]
  exact Chapter.extent_append _ _

/-- Chapters stand in the order in which they were drawn. -/
theorem size_le_start (h : Laid o chs) (hij : i < j) (hi : chs[i]? = some c)
    (hj : chs[j]? = some c') : c.last.size ≤ c'.start := by
  induction hij generalizing c' with
  | refl => exact (h.start_succ hi hj).ge
  | @step k hik ih =>
    obtain ⟨d, hd⟩ : ∃ d, chs[k]? = some d :=
      ⟨_, List.getElem?_eq_getElem ((Nat.lt_succ_self k).trans (List.getElem?_eq_some_iff.1 hj).1)⟩
    have hlt := (h.drawn d (List.mem_of_getElem? hd)).start_lt
    rw [h.start_succ hd hj]
    exact (ih hd).trans hlt.le

/-- No block is in two chapters. -/
theorem eq_of_has (h : Laid o chs) (hi : chs[i]? = some c) (hj : chs[j]? = some c')
    (hb : c.Has b) (hb' : c'.Has b) : i = j := by
  obtain hlt | heq | hlt := Nat.lt_trichotomy i j
  · exact absurd (h.size_le_start hlt hi hj) (by have := hb.2; have := hb'.1; omega)
  · exact heq
  · exact absurd (h.size_le_start hlt hj hi) (by have := hb'.2; have := hb.1; omega)

theorem eq_of_mem_of_has (h : Laid o chs) (hc : c ∈ chs) (hc' : c' ∈ chs) (hb : c.Has b)
    (hb' : c'.Has b) : c = c' := by
  obtain ⟨i, hi⟩ := List.mem_iff_getElem?.1 hc
  obtain ⟨j, hj⟩ := List.mem_iff_getElem?.1 hc'
  obtain rfl := h.eq_of_has hi hj hb hb'
  exact Option.some.inj (hi.symm.trans hj)

/-- No two chapters begin with the same block. -/
theorem eq_of_start_eq (h : Laid o chs) (hi : chs[i]? = some c) (hj : chs[j]? = some c')
    (heq : c.start = c'.start) : i = j :=
  h.eq_of_has hi hj (h.drawn c (List.mem_of_getElem? hi)).has_start
    (heq ▸ (h.drawn c' (List.mem_of_getElem? hj)).has_start)

theorem last_size_le (h : Laid o chs) (hi : chs[i]? = some c) :
    c.last.size ≤ Chapter.extent chs := by
  obtain rfl | ⟨pre, d, rfl⟩ := chs.eq_nil_or_concat
  · simp at hi
  have hd : (pre ++ [d])[pre.length]? = some d := List.getElem?_concat_length
  rw [List.concat_eq_append] at *
  rw [Chapter.extent_append]
  have hlt : i < (pre ++ [d]).length := (List.getElem?_eq_some_iff.1 hi).1
  obtain hlt | rfl := Nat.lt_or_eq_of_le (Nat.le_of_lt_succ (by simpa using hlt))
  · exact (h.size_le_start hlt hi hd).trans (h.drawn d (by simp)).start_lt.le
  · rw [Option.some.inj (hi.symm.trans hd)]

theorem has_lt_extent (h : Laid o chs) (hi : chs[i]? = some c) (hb : c.Has b) :
    b < Chapter.extent chs := hb.2.trans_le (h.last_size_le hi)

/-- The chapters before the last one. -/
theorem init (h : Laid o (chs ++ [c])) : Laid o chs where
  drawn := fun d hd => h.drawn d (by simp [hd])
  contiguous := fun {i d} hi => by
    have hlt : i < chs.length := (List.getElem?_eq_some_iff.1 hi).1
    rw [h.contiguous (by rwa [List.getElem?_append_left hlt]), List.take_append_of_le_length hlt.le]

/-- The last chapter begins where the others end. -/
theorem start_last (h : Laid o (chs ++ [c])) : c.start = Chapter.extent chs := by
  rw [h.contiguous List.getElem?_concat_length, List.take_left]

/-- One more chapter, which begins where the others end. -/
theorem concat (h : Laid o chs) (hc : c.Drawn o) (hstart : c.start = Chapter.extent chs) :
    Laid o (chs ++ [c]) where
  drawn := List.forall_mem_append.2 ⟨h.drawn, by simpa using hc⟩
  contiguous := fun {i d} hi => by
    obtain ⟨hlt, hi⟩ | ⟨rfl, rfl⟩ := Chapter.lt_or_eq_of_getElem?_concat hi
    · rw [List.take_append_of_le_length hlt.le]
      exact h.contiguous hi
    · rw [List.take_left]
      exact hstart

/-- Every block is in a chapter. -/
theorem exists_has (h : Laid o chs) (hb : b < Chapter.extent chs) :
    ∃ (i : ℕ) (c : Chapter), chs[i]? = some c ∧ c.Has b := by
  induction chs using List.reverseRecOn with
  | nil => exact nomatch hb
  | append_singleton pre d ih =>
    have hd : (pre ++ [d])[pre.length]? = some d := List.getElem?_concat_length
    rw [Chapter.extent_append] at hb
    by_cases hlt : b < Chapter.extent pre
    · obtain ⟨i, c, hi, hc⟩ := ih h.init hlt
      have hi' : i < pre.length := (List.getElem?_eq_some_iff.1 hi).1
      exact ⟨i, c, by rwa [List.getElem?_append_left hi'], hc⟩
    · exact ⟨pre.length, d, hd, by rw [h.start_last]; exact not_lt.1 hlt, hb⟩

/-- A block is the last one of a given chapter. -/
theorem bind_stop_eq_some_iff (h : Laid o chs) {origin : Option ℕ}
    (horigin : ∀ k ∈ origin, k < chs.length) (hi : chs[i]? = some c) (hb : c.Has b) :
    (origin.bind fun k => (chs[k]?).map (·.stop)) = some b ↔ origin = some i ∧ b = c.stop := by
  cases origin with
  | none => simp
  | some k =>
    obtain ⟨c', hk⟩ : ∃ c', chs[k]? = some c' := ⟨_, List.getElem?_eq_getElem (horigin k rfl)⟩
    simp only [Option.bind_some, hk, Option.map_some, Option.some.injEq]
    constructor
    · rintro rfl
      obtain rfl := h.eq_of_has hk hi (h.drawn c' (List.mem_of_getElem? hk)).has_stop hb
      exact ⟨rfl, by rw [Option.some.inj (hk.symm.trans hi)]⟩
    · rintro ⟨rfl, rfl⟩
      rw [Option.some.inj (hk.symm.trans hi)]

end Laid

namespace Chapters

variable {o : Options} {s s' : Scope} {chs : List Chapter} {falls : List (ℕ × ℕ)} {i j : ℕ}
  {c c' : Chapter} {b : ℕ}

theorem has_lt (h : Chapters o s chs falls) (hi : chs[i]? = some c) (hb : c.Has b) :
    b < s.graph.size := (h.has_lt_extent hi hb).trans_eq h.size.symm

/-- The chapters are where they are whatever else is known. -/
theorem congr (h : Chapters o s chs falls) (hchart : s'.graph.chart = s.graph.chart)
    (hsize : s'.graph.size = s.graph.size) (hslots : s'.graph.slots = s.graph.slots)
    (hroots : s'.graph.roots = s.graph.roots) (hledger : s'.ledger = s.ledger)
    (hblock : s'.currentBlock = s.currentBlock)
    (hsentences : s'.procedures.sentences = s.procedures.sentences) : Chapters o s' chs falls where
  drawn := h.drawn
  contiguous := h.contiguous
  size := hsize.trans h.size
  here := fun c hc => hblock.trans (h.here c hc)
  falls_lt := h.falls_lt
  chart := by rw [hchart]; exact h.chart
  tag := by rw [hchart]; exact h.tag
  numbers := by rw [hsentences]; exact h.numbers
  sentence := by rw [hsentences, hslots]; exact h.sentence
  roots := hroots.trans h.roots
  begins := by rw [hchart]; exact h.begins
  honest := by
    have hgroups : s'.graph.groups = s.graph.groups := congrArg Prod.snd hledger
    rw [Graph.Honest, hchart, hgroups]
    exact h.honest
  ledger := hledger.trans h.ledger

/-! ### Beginning a chapter -/

/-- What is to be known of a step that begins a chapter in a new block. -/
structure Begins (s s' : Scope) (q : Passage) (origin : Option ℕ) : Prop where
  size : s'.graph.size = s.graph.size + 1
  here : s'.currentBlock = some s.graph.size
  blank : (s'.graph.chart s.graph.size).Blank
  tag : (s'.graph.chart s.graph.size).tag = q.tag
  chart : ∀ b < s.graph.size, s'.graph.chart b =
    if origin = some b then
      { s.graph.chart b with next := (s.graph.chart b).next ++ [s.graph.size] }
    else s.graph.chart b
  roots : s'.graph.roots = s.graph.roots ++ if q.entered then [s.graph.size] else []
  slots : ∀ {k : SlotId} {b : BlockId}, s.graph.slots[k]? = some b → s'.graph.slots[k]? = some b
  group : (s'.graph.chart s.graph.size).group = none
  ledger : s'.ledger = s.ledger
  sentences : match q.sentence with
    | none => s'.procedures.sentences = s.procedures.sentences
    | some j => j = s.procedures.sentences.size ∧ ∃ t,
        s'.procedures.sentences = s.procedures.sentences.push t ∧ t.blocks = [s.graph.size] ∧
        ∀ k ∈ t.entry, s'.graph.slots[k]? = some s.graph.size

namespace Begins

variable {q : Passage} {origin : Option ℕ}

section

variable (hs : Begins s s' q origin)
include hs

theorem sketch : s'.sketch = s'.graph.sketch s.graph.size := by
  rw [Scope.sketch, hs.here]
  rfl

theorem start_blank : (Chapter.blank q s'.sketch).start = s.graph.size := by
  rw [Chapter.start, Chapter.blank, hs.sketch]
  rfl

theorem stop_blank : (Chapter.blank q s'.sketch).stop = s.graph.size := hs.start_blank

theorem last_size_blank : (Chapter.blank q s'.sketch).last.size = s.graph.size + 1 := by
  rw [Chapter.blank, hs.sketch]
  exact hs.size

/-- The new chapter consists of the new block. -/
theorem eq_of_has (hb : (Chapter.blank q s'.sketch).Has b) : b = s.graph.size := by
  have hge := hs.start_blank ▸ hb.1
  have hlt := hs.last_size_blank ▸ hb.2
  omega

theorem blocks_blank : (Chapter.blank q s'.sketch).blocks = [s.graph.size] := by
  rw [Chapter.blocks, hs.start_blank, hs.last_size_blank, Nat.add_sub_cancel_left]
  rfl

theorem drawn_blank (hq : q.text = []) : (Chapter.blank q s'.sketch).Drawn o := by
  rw [hs.sketch]
  exact .blank hq ⟨hs.size.ge, hs.blank.next, hs.blank.ending, hs.blank.finish⟩ hs.size
    hs.blank.nodes

/-- Blocks keep their names. -/
theorem tag_eq (hb : b < s.graph.size) : (s'.graph.chart b).tag = (s.graph.chart b).tag := by
  rw [hs.chart b hb]
  split <;> rfl

theorem honest (h : s.graph.Honest) : s'.graph.Honest := by
  intro b i hi
  have hgroups : s'.graph.groups = s.graph.groups := congrArg Prod.snd hs.ledger
  obtain hb | rfl | hb := Nat.lt_trichotomy b s.graph.size
  · have hsame : (s'.graph.chart b).group = (s.graph.chart b).group := by
      rw [hs.chart b hb]
      split <;> rfl
    rw [hgroups]
    exact h b i (hsame ▸ hi)
  · rw [hs.group] at hi
    exact nomatch hi
  · rw [Graph.chart_of_size_le (by rw [hs.size]; exact hb)] at hi
    exact nomatch hi

/-- The sentences that there were are there still. -/
theorem getElem?_sentences {j : ℕ} {t : Sentence} (ht : s.procedures.sentences[j]? = some t) :
    s'.procedures.sentences[j]? = some t := by
  have hsentences := hs.sentences
  cases hq : q.sentence with
  | none =>
    rw [hq] at hsentences
    rw [show s'.procedures.sentences = _ from hsentences, ht]
  | some j' =>
    rw [hq] at hsentences
    obtain ⟨-, t', hpush, -⟩ := hsentences
    have hlt := (Array.getElem?_eq_some_iff.1 ht).1
    rw [hpush, Array.getElem?_push, if_neg hlt.ne, ht]

/-- The sentence of the new chapter has the number that comes next. -/
theorem range_sentences : List.range s'.procedures.sentences.size =
    List.range s.procedures.sentences.size ++ q.sentence.toList := by
  have hsentences := hs.sentences
  cases hq : q.sentence with
  | none =>
    rw [hq] at hsentences
    rw [show s'.procedures.sentences = _ from hsentences]
    exact (List.append_nil _).symm
  | some j =>
    rw [hq] at hsentences
    obtain ⟨rfl, t, hpush, -⟩ := hsentences
    rw [hpush, Array.size_push, List.range_succ]
    rfl

end

/-- The charts of the chapters that there were: one of them falls into the new chapter. -/
theorem chart_eq (h : Chapters o s chs falls) (horigin : ∀ k ∈ origin, k < chs.length)
    (hs : Begins s s' q (origin.bind fun k => (chs[k]?).map (·.stop))) (hi : chs[i]? = some c)
    (hb : c.Has b) : s'.graph.chart b =
      if b = c.stop then { c.last.chart b with
        next := Chapter.onto chs falls i ++ (if origin = some i then [s.graph.size] else []) }
      else c.last.chart b := by
  have hiff := h.bind_stop_eq_some_iff horigin hi hb
  rw [hs.chart b (h.has_lt hi hb), h.chart hi b hb]
  by_cases hstop : b = c.stop
  · by_cases horigin' : origin = some i
    · rw [if_pos (hiff.2 ⟨horigin', hstop⟩), if_pos hstop, if_pos hstop, if_pos horigin']
    · rw [if_neg fun heq => horigin' (hiff.1 heq).1, if_pos hstop, if_pos hstop,
        if_neg horigin', List.append_nil]
  · rw [if_neg fun heq => hstop (hiff.1 heq).2, if_neg hstop, if_neg hstop]

end Begins

/-- Nothing falls into a chapter that is not there. -/
theorem onto_length (h : Chapters o s chs falls) : Chapter.onto chs falls chs.length = [] :=
  List.filterMap_eq_nil_iff.2 fun e he => if_neg (h.falls_lt e he).1.ne

/-- The program begins in a block that is there. -/
theorem size_pos (h : Chapters o s chs falls) : 0 < s.graph.size := by
  refine Nat.pos_of_ne_zero fun hzero => ?_
  have hbegins := h.begins
  rw [Graph.chart_of_size_le (hzero.le : s.graph.size ≤ 0)] at hbegins
  exact nomatch hbegins

/-- A chapter is begun, into which control falls from the end of an earlier one, if at all. -/
theorem push (h : Chapters o s chs falls) {q : Passage} (hq : q.text = []) (origin : Option ℕ)
    (horigin : ∀ k ∈ origin, k < chs.length)
    (hs : Begins s s' q (origin.bind fun k => (chs[k]?).map (·.stop))) :
    Chapters o s' (chs ++ [Chapter.blank q s'.sketch])
      (falls ++ (origin.map fun k => (k, chs.length)).toList) := by
  have hlaid : Laid o (chs ++ [Chapter.blank q s'.sketch]) :=
    h.toLaid.concat (hs.drawn_blank hq) (hs.start_blank.trans h.size)
  refine
    { toLaid := hlaid
      size := ?size
      here := ?here
      falls_lt := ?falls_lt
      chart := ?chart
      tag := ?tag
      numbers := ?numbers
      sentence := ?sentence
      roots := ?roots
      begins := ?begins
      honest := hs.honest h.honest
      ledger := ?ledger }
  case size => rw [Chapter.extent_append, hs.size, hs.last_size_blank]
  case here =>
    simpa [hs.stop_blank] using hs.here
  case falls_lt =>
    intro e he
    rw [List.length_append, List.length_singleton]
    obtain he | he := List.mem_append.1 he
    · have := h.falls_lt e he
      omega
    · obtain ⟨k, hk, rfl⟩ := Option.map_eq_some_iff.1 (Option.mem_toList.1 he)
      exact ⟨Nat.lt_succ_of_lt (horigin k hk), Nat.lt_succ_self _⟩
  case chart =>
    intro i c hi b hb
    rw [Chapter.onto_concat fun e he => (h.falls_lt e he).2, hs.start_blank]
    obtain ⟨-, hi⟩ | ⟨rfl, rfl⟩ := Chapter.lt_or_eq_of_getElem?_concat hi
    · exact hs.chart_eq h horigin hi hb
    · obtain rfl := hs.eq_of_has hb
      have hnot : origin ≠ some chs.length := fun heq => (horigin _ heq).ne rfl
      have hchart : (Chapter.blank q s'.sketch).last.chart s.graph.size =
          s'.graph.chart s.graph.size := congrArg (fun Γ => Γ.chart s.graph.size) hs.sketch
      rw [if_pos hs.stop_blank.symm, h.onto_length, if_neg hnot, List.append_nil, hchart,
        ← hs.blank.next]
  case tag =>
    intro c hc b hb
    obtain ⟨i, hi⟩ := List.getElem?_of_mem hc
    obtain ⟨-, hi⟩ | ⟨rfl, rfl⟩ := Chapter.lt_or_eq_of_getElem?_concat hi
    · rw [hs.tag_eq (h.has_lt hi hb)]
      exact h.tag c (List.mem_of_getElem? hi) b hb
    · obtain rfl := hs.eq_of_has hb
      exact hs.tag
  case numbers =>
    rw [List.filterMap_append, h.numbers, hs.range_sentences]
    cases hj : q.sentence <;> simp [Chapter.blank, hj]
  case sentence =>
    intro c hc j hj
    obtain hc | hc := List.mem_append.1 hc
    · obtain ⟨t, ht, hblocks, hentry⟩ := h.sentence c hc j hj
      exact ⟨t, hs.getElem?_sentences ht, hblocks, fun k hk => hs.slots (hentry k hk)⟩
    · obtain rfl := List.mem_singleton.1 hc
      have hsentences := hs.sentences
      rw [show q.sentence = some j from hj] at hsentences
      obtain ⟨rfl, t, hpush, hblocks, hentry⟩ := hsentences
      refine ⟨t, by rw [hpush, Array.getElem?_push, if_pos rfl],
        hblocks.trans hs.blocks_blank.symm, ?_⟩
      rw [hs.start_blank]
      exact hentry
  case roots =>
    rw [hs.roots, h.roots, List.filter_append, List.map_append, List.cons_append]
    refine congrArg (fun l => 0 :: (_ ++ l)) ?_
    have hentered : (Chapter.blank q s'.sketch).entered = q.entered := rfl
    cases hq : q.entered <;> simp [hentered, hq, hs.start_blank]
  case begins =>
    rw [hs.chart 0 h.size_pos, ← h.begins]
    split <;> rfl
  case ledger =>
    rw [hs.ledger, h.ledger, Chapter.ledger, Chapter.ledger, List.foldl_append]
    rfl

/-! ### Filling a chapter -/

/-- Nothing falls from the last chapter yet, if it ends where the scope stands. -/
theorem onto_last (h : Chapters o s (chs ++ [c]) falls) (hlast : c.last = s.sketch) :
    Chapter.onto (chs ++ [c]) falls chs.length = [] := by
  have hdrawn := h.drawn c (by simp)
  have hchart := h.chart List.getElem?_concat_length c.stop hdrawn.has_stop
  rw [if_pos rfl] at hchart
  have hnext : (s.graph.chart c.stop).next = [] := by
    rw [show s.graph.chart = c.last.chart from (congrArg Sketch.chart hlast).symm]
    exact hdrawn.fragment.opened.next
  rw [hchart] at hnext
  exact hnext

/-- Only the last chapter has the number that it has. -/
theorem sentence_ne (h : Chapters o s (chs ++ [c]) falls) (hc : c' ∈ chs) {j : SentenceId}
    (hj : c'.sentence = some j) : c.sentence ≠ some j := by
  intro heq
  have hnodup : ((chs ++ [c]).filterMap (·.sentence)).Nodup := h.numbers ▸ List.nodup_range
  rw [List.filterMap_append, List.nodup_append] at hnodup
  exact hnodup.2.2 j (List.mem_filterMap.2 ⟨c', hc, hj⟩) j (by simp [heq]) rfl

/-- The blocks of the last chapter, once more blocks are drawn. -/
theorem range'_start (h : Chapters o s (chs ++ [c]) falls) {n : ℕ} (hn : s.graph.size ≤ n) :
    List.range' c.start (n - c.start) =
      c.blocks ++ List.range' s.graph.size (n - s.graph.size) := by
  have hsize : s.graph.size = c.last.size := h.size.trans (Chapter.extent_append _ _)
  have hlt : c.start < c.last.size := (h.drawn c (by simp)).start_lt
  have hcount : n - c.start = (s.graph.size - c.start) + (n - s.graph.size) := by omega
  have hmid : c.start + (s.graph.size - c.start) = s.graph.size := by omega
  rw [Chapter.blocks, ← hsize, hcount, ← List.range'_append_1, hmid]

/-- The last chapter is filled with what is replayed next. -/
theorem read (h : Chapters o s (chs ++ [c]) falls) (hfirst : c.first = s.sketch)
    (hlast : c.last = s.sketch) (hmarks : c.marks = []) (htag : c.tag = s.tag)
    (hsentence : s.currentSentence = c.sentence) (hsome : c.sentence.isSome) (id : NodeId)
    (text : SentenceText) {L : Landmarks} (ha : Advance s s' ((Script.statements text).run id).1
      ((Meaning.statements o text).run id).1 L)
    (hbegins : ∀ n, ((Script.statements text).run id).1.head? = some (.enter n) →
      (s'.graph.chart s.sketch.here).Begins n) :
    Chapters o s' (chs ++ [{ c with id, text, last := s'.sketch, marks := L }]) falls := by
  set d : Chapter := { c with id, text, last := s'.sketch, marks := L } with hd
  have hc : c ∈ chs ++ [c] := by simp
  have hn : (chs ++ [c])[chs.length]? = some c := List.getElem?_concat_length
  have hbefore : ∀ {i c'}, chs[i]? = some c' → (chs ++ [c])[i]? = some c' := fun hi => by
    rwa [List.getElem?_append_left (List.getElem?_eq_some_iff.1 hi).1]
  have hdrawn := h.drawn c hc
  have hstart : c.start = s.sketch.here := congrArg Sketch.here hfirst
  have hsize : c.last.size = s.graph.size := congrArg Sketch.size hlast
  have hsingle : s.graph.size = c.start + 1 := by
    rw [← hsize, ← hdrawn.single, hlast, hfirst]
  have hd' : d.Drawn o :=
    { opened := hdrawn.opened
      single := hdrawn.single
      silent := hdrawn.silent
      fragment := hfirst ▸ ha.fragment
      placed := hfirst ▸ ha.placed
      kinds := ha.kinds
      begins := fun n hn => (hstart ▸ hbegins n hn : (s'.graph.chart c.start).Begins n)
      idle := fun hnone => nomatch (hnone ▸ hsome : (none : Option SentenceId).isSome) }
  refine
    { toLaid := h.toLaid.init.concat hd' h.toLaid.start_last
      size := by rw [Chapter.extent_append]; rfl
      here := ?here
      falls_lt := by simpa using h.falls_lt
      chart := ?chart
      tag := ?tag
      numbers := ?numbers
      sentence := ?sentence
      roots := ?roots
      begins := (ha.since.draws.starts 0 (by omega)).trans h.begins
      honest := ha.since.draws.honest h.honest
      ledger := ?ledger }
  case here =>
    intro c' hc'
    rw [List.getLast?_append_of_ne_nil _ (by simp)] at hc'
    obtain rfl : d = c' := by simpa using hc'
    exact ha.since.here
  case chart =>
    intro i c' hi b hb
    rw [Chapter.onto_congr (show d.start = c.start from rfl)]
    obtain ⟨hlt, hi⟩ | ⟨rfl, rfl⟩ := Chapter.lt_or_eq_of_getElem?_concat hi
    · have hlt := h.size_le_start hlt (hbefore hi) hn
      have hb' : b < c.start := hb.2.trans_le hlt
      have hframe : s'.graph.chart b = s.graph.chart b := ha.fragment.frame b
        (show b < s.graph.size by omega) (hstart ▸ hb'.ne)
      rw [hframe]
      exact h.chart (hbefore hi) b hb
    · rw [h.onto_last hlast]
      split
      · next hstop =>
        have hnext : (s'.graph.chart b).next = [] := hstop ▸ ha.fragment.opened.next
        exact congrArg (fun next => { s'.graph.chart b with next }) hnext
      · rfl
  case tag =>
    intro c' hc' b hb
    obtain ⟨i, hi⟩ := List.getElem?_of_mem hc'
    have htags := ha.since.draws.tags b
    obtain ⟨-, hi⟩ | ⟨rfl, rfl⟩ := Chapter.lt_or_eq_of_getElem?_concat hi
    · have hb' := h.has_lt (hbefore hi) hb
      rw [htags (hb'.trans_le ha.since.draws.size_le), if_pos hb']
      exact h.tag c' (List.mem_of_getElem? (hbefore hi)) b hb
    · rw [htags hb.2]
      split
      · next hb' => exact h.tag c hc b ⟨hb.1, hb'.trans_eq hsize.symm⟩
      · exact htag.symm
  case numbers =>
    rw [ha.since.procedures, Procedures.size_list, ← h.numbers, List.filterMap_append,
      List.filterMap_append]
    rfl
  case sentence =>
    have hslots : ∀ {k b}, s.graph.slots[k]? = some b → s'.graph.slots[k]? = some b :=
      ha.since.draws.slots
    intro c' hc' j hj
    rw [ha.since.procedures, hsentence, Procedures.getElem?_list]
    obtain hc' | hc' := List.mem_append.1 hc'
    · obtain ⟨t, ht, hblocks, hentry⟩ := h.sentence c' (by simp [hc']) j hj
      refine ⟨t, ?_, hblocks, fun k hk => hslots (hentry k hk)⟩
      rw [ht, Option.map_some, if_neg (h.sentence_ne hc' hj)]
    · obtain rfl := List.mem_singleton.1 hc'
      obtain ⟨t, ht, hblocks, hentry⟩ := h.sentence c hc j hj
      rw [ht, Option.map_some, if_pos (show c.sentence = some j from hj)]
      refine ⟨_, rfl, ?_, fun k hk => hslots (hentry k hk)⟩
      rw [hblocks]
      exact (h.range'_start ha.since.draws.size_le).symm
  case roots =>
    rw [ha.since.draws.roots, h.roots, List.filter_append, List.filter_append]
    cases hentered : c.entered <;> simp [hd, hentered, Chapter.start]
  case ledger =>
    have hblank : Chapter.ledger (chs ++ [c]) = Chapter.ledger chs := by
      rw [Chapter.ledger, List.foldl_append]
      simp [hmarks, Chapter.ledger]
    rw [ha.since.ledger, h.ledger, hblank, hsentence, Chapter.ledger, Chapter.ledger,
      List.foldl_append]
    rfl

end Chapters

end CobolFlow
