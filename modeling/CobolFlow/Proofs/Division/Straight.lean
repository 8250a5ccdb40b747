import CobolFlow.Proofs.Division.Body

/-!
# Divisions without DECLARATIVES

Without DECLARATIVES every passage of a division is a sentence, no block but the first is entered
from outside, and control falls from each sentence into the next and from the last one out of the
division.

## Main definitions

* `Plan.Straight` — what is true of the plan of such a division

## Main results

* `DivisionText.straight_plan` — it is true of it
* `Draft.mem_next` — where the edges of such a division lead before any jump is drawn
-/

namespace CobolFlow

/-- Every passage is a sentence, and control falls from each into the next. -/
structure Plan.Straight (p : Plan) : Prop where
  declaratives : p.declaratives = none
  declarativeEntry : p.declarativeEntry = false
  nonempty : p.passages ≠ []
  sentences : ∀ q ∈ p.passages, q.sentence.isSome ∧ q.entered = false
  falls : ∀ i j, (i, j) ∈ p.falls ↔ j = i + 1 ∧ j < p.passages.length

namespace Plan.Straight

variable {p : Plan} {item : Item} {items : List Item}

theorem start (program : Option String) : (Plan.start program).Straight := by
  rw [Plan.start_eq]
  exact
    { declaratives := rfl
      declarativeEntry := rfl
      nonempty := List.cons_ne_nil _ _
      sentences := by simp
      falls := by simp }

theorem openSentence (h : p.Straight) (id : NodeId) : (p.openSentence id).Straight := by
  refine Plan.edit_cases _ (fun j c => ?_) h
  have hempty : p.passages.isEmpty = false := by simpa using h.nonempty
  have hpos := List.length_pos_iff.2 h.nonempty
  exact
    { declaratives := h.declaratives
      declarativeEntry := rfl
      nonempty := by simp [Plan.add]
      sentences := by
        intro q hq
        obtain hq | hq := List.mem_append.1 hq
        · exact h.sentences q hq
        · rw [List.mem_singleton.1 hq]
          exact ⟨rfl, h.declarativeEntry⟩
      falls := fun i k => by
        simp only [Plan.add, Plan.last?, h.declarativeEntry, hempty, Bool.false_eq_true, if_false,
          Option.map_some, Option.toList_some, List.mem_append, List.mem_singleton, h.falls,
          List.length_append, List.length_singleton, Prod.mk.injEq]
        omega }

theorem readSentence (h : p.Straight) (id : NodeId) (text : SentenceText) :
    (p.readSentence id text).Straight := by
  obtain ⟨pre, q, hpassages⟩ : ∃ pre q, p.passages = pre ++ [q] :=
    ⟨_, _, (List.dropLast_append_getLast h.nonempty).symm⟩
  have hread : (p.readSentence id text).passages = pre ++ [{ q with id, text }] := by
    simp [Plan.readSentence, hpassages]
  have hq := h.sentences q (by simp [hpassages])
  exact
    { declaratives := h.declaratives
      declarativeEntry := h.declarativeEntry
      nonempty := by simp [hread]
      sentences := by
        intro q' hq'
        rw [hread] at hq'
        obtain hq' | hq' := List.mem_append.1 hq'
        · exact h.sentences q' (by simp [hpassages, hq'])
        · rw [List.mem_singleton.1 hq']
          exact hq
      falls := fun i j => by
        rw [hread]
        refine (h.falls i j).trans ?_
        simp [hpassages] }

theorem step (h : p.Straight) (hitem : item.IsPlain) : (p.step item).Straight := by
  cases item with
  | sentence id text =>
    rw [Plan.step]
    split
    · exact h.readSentence id text
    · exact (h.openSentence id).readSentence id text
  | enter heading id =>
    cases heading with
    | declaratives => exact hitem.elim
    | sectionHeader name span =>
      have hentry : (p.declarativeEntry || p.declaratives.isSome) = false := by
        rw [h.declarativeEntry, h.declaratives]
        rfl
      rw [Plan.step]
      refine Plan.edit_cases _ (fun j c => ?_) h
      exact { h with declarativeEntry := hentry }
    | paragraphHeader name span =>
      exact Plan.edit_cases _ (fun j c => { h with }) h
  | leave heading id =>
    cases heading with
    | declaratives => exact hitem.elim
    | sectionHeader name span => exact h
    | paragraphHeader name span => exact h

theorem read (h : p.Straight) (hitems : ∀ item ∈ items, item.IsPlain) :
    (p.read items).Straight := by
  induction items generalizing p with
  | nil => exact h
  | cons item rest ih =>
    obtain ⟨hitem, hrest⟩ := List.forall_mem_cons.1 hitems
    exact ih (h.step hitem) hrest

end Plan.Straight

/-- **Without DECLARATIVES** control falls from sentence to sentence. -/
theorem DivisionText.straight_plan {d : DivisionText} (hd : d.declaratives = [])
    (program : Option String) (id : NodeId) : (d.plan program id).Straight :=
  (Plan.Straight.start program).read fun item hitem => DivisionText.arePlain_items hd id item hitem

namespace Draft

variable {o : Options} {s : Scope} {p : Plan} {chs : List Chapter} {i b x : ℕ} {c : Chapter}

theorem map_sentence (h : Draft o s p chs) (hp : p.Straight) :
    chs.map (·.sentence) = (List.range s.procedures.sentences.size).map some := by
  have hsome : ∀ c ∈ chs, ∃ j, c.sentence = some j := by
    intro c hc
    have hq : c.toPassage ∈ p.passages := h.passages ▸ List.mem_map_of_mem hc
    exact Option.isSome_iff_exists.1 (hp.sentences _ hq).1
  rw [← h.numbers, List.map_filterMap, ← List.filterMap_eq_map]
  refine List.filterMap_congr fun c hc => ?_
  obtain ⟨j, hj⟩ := hsome c hc
  simp [hj]

theorem length_chapters (h : Draft o s p chs) (hp : p.Straight) :
    chs.length = s.procedures.sentences.size := by
  simpa using congrArg List.length (h.map_sentence hp)

/-- The first block is the only root. -/
theorem roots_eq (h : Draft o s p chs) (hp : p.Straight) : s.graph.roots = [0] := by
  rw [h.roots, List.filter_eq_nil_iff.2, List.map_nil]
  intro c hc
  have hq : c.toPassage ∈ p.passages := h.passages ▸ List.mem_map_of_mem hc
  simp [(hp.sentences _ hq).2]

/-- The `i`-th chapter is the `i`-th sentence. -/
theorem sentence_eq (h : Draft o s p chs) (hp : p.Straight) (hi : chs[i]? = some c) :
    c.sentence = some i := by
  have hget : ((List.range s.procedures.sentences.size).map some)[i]? = some c.sentence := by
    rw [← h.map_sentence hp, List.getElem?_map, hi]
    rfl
  rw [List.getElem?_map] at hget
  obtain ⟨j, hj, hsentence⟩ := Option.map_eq_some_iff.1 hget
  obtain ⟨_, rfl⟩ := List.getElem?_eq_some_iff.1 hj
  rw [← hsentence, List.getElem_range]

/-- From its end a sentence falls into the next, or out of the division. -/
theorem mem_ways_iff (h : Draft o s p chs) (hp : p.Straight) : x ∈ Chapter.ways chs p.falls i ↔
    (∃ c', chs[i + 1]? = some c' ∧ x = c'.start) ∨
      i + 1 = chs.length ∧ x = Chapter.extent chs := by
  have hlength : p.passages.length = chs.length := by rw [← h.passages, List.length_map]
  rw [Chapter.mem_ways_iff]
  refine or_congr_left ⟨?_, ?_⟩
  · rintro ⟨k, c', he, hc', rfl⟩
    obtain ⟨rfl, -⟩ := (hp.falls i k).1 he
    exact ⟨c', hc', rfl⟩
  · rintro ⟨c', hc', rfl⟩
    have hlt : i + 1 < chs.length := (List.getElem?_eq_some_iff.1 hc').1
    exact ⟨i + 1, c', (hp.falls _ _).2 ⟨rfl, hlength ▸ hlt⟩, hc', rfl⟩

/-- Where an edge leads before any jump is drawn: it stays in its sentence, or it falls into the
next, or out of the division. -/
theorem mem_next (h : Draft o s p chs) (hp : p.Straight) (hi : chs[i]? = some c) (hb : c.Has b)
    (hx : x ∈ (s.graph.chart b).next) : c.Has x ∨ b = c.stop ∧
      ((∃ c', chs[i + 1]? = some c' ∧ x = c'.start) ∨
        i + 1 = chs.length ∧ x = Chapter.extent chs) := by
  have hdrawn := h.drawn c (List.mem_of_getElem? hi)
  rw [h.chart hi b hb] at hx
  split at hx
  next hstop =>
    exact .inr ⟨hstop, (h.mem_ways_iff hp).1 hx⟩
  next => exact .inl ((hdrawn.between_iff).1
      (hdrawn.fragment.closed b (hdrawn.between_iff.2 hb) x hx))

end Draft

end CobolFlow
