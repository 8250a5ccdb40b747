import CobolFlow.Proofs.Catalog.Ranges
import CobolFlow.Proofs.Registry
import CobolFlow.Proofs.Sentences

/-!
# The DECLARATIVES stand apart

The sections of the DECLARATIVES are entered from outside, each at its first sentence, and their
blocks carry a mark. From the rest of the division nothing leads into them by itself. Control falls
past them, from the one sentence that stands before them to the block behind. In that sentence there
is no statement, so no NEXT SENTENCE leads on from it, and a PERFORM leads nowhere in normal mode.
Only a GO TO can lead in.

## Main definitions

* `Procedures.uses` — the sections of the DECLARATIVES
* `Chapter.Sides` — which chapters are in the DECLARATIVES
* `ProgramUnit.Isolates` — what is said of one program

## Main results

* `StatementTree.build_isolates` — it holds of every program of every tree, in normal mode
-/

namespace CobolFlow

open Scope

/-! ### Sections and their sentences -/

namespace Procedures

variable {c : Procedures} {p s : ProcedureId} {i j : SentenceId}

/-- The sections of the DECLARATIVES, in source order. -/
def uses (c : Procedures) : List ProcedureId := (List.range c.procedures.size).filter c.isUse

theorem getElem?_erase (c : Procedures) (j : SentenceId) :
    c.erase.sentences[j]? = c.sentences[j]?.map fun t =>
      { t with blocks := [], entry := none } := by
  simp [erase]

theorem under_erase : c.erase.Under p j ↔ c.Under p j := by
  simp [Under, getElem?_erase]
  rfl

theorem opensUse_erase : c.erase.OpensUse j ↔ c.OpensUse j := by
  simp only [OpensUse, under_erase]
  rfl

theorem stands_erase {inside : Bool} {sentence : Option SentenceId} :
    c.erase.Stands inside sentence ↔ c.Stands inside sentence := by
  simp [Stands, getElem?_erase]

theorem Agrees.of_erase (h : c.erase.Agrees) : c.Agrees where
  root := h.root
  paragraph := h.paragraph
  sentence {j t q Q} ht howner hQ :=
    h.sentence (t := { t with blocks := [], entry := none })
      (by rw [getElem?_erase, ht]; rfl) howner hQ

theorem mem_uses (hc : c.Shelved) (h : c.Under s j) : s ∈ c.uses ↔ c.isUse s = true := by
  rw [uses, List.mem_filter, List.mem_range]
  exact and_iff_right (Under.lt hc h).2

/-- A sentence stands in the DECLARATIVES if it belongs to one of their sections. -/
theorem stands_iff (hc : c.Shelved) (hagrees : c.Agrees) :
    c.Stands true (some j) ↔ ∃ s, c.isUse s = true ∧ c.Under s j := by
  constructor
  · rintro ⟨j, ⟨⟩, t, ht, hdeclared⟩
    obtain ⟨q, Q, howner, hQ, -⟩ := hc.sentence ht
    have hdeclared := (hagrees.sentence ht howner hQ).trans hdeclared
    cases hkind : Q.kind with
    | sectionProcedure =>
      exact ⟨q, isUse_iff.2 ⟨Q, hQ, hkind, hdeclared⟩, t, ht, q, howner, .inl rfl⟩
    | paragraphProcedure =>
      obtain ⟨s, S, hs, -, hS, hsection, -⟩ := hc.paragraph hQ hkind
      exact ⟨s, isUse_iff.2 ⟨S, hS, hsection, (hagrees.paragraph hQ hkind hs hS).trans hdeclared⟩,
        t, ht, q, howner, .inr ⟨Q, hQ, hkind, hs⟩⟩
  · rintro ⟨s, huse, hs⟩
    obtain ⟨S, hS, -, hdeclared⟩ := isUse_iff.1 huse
    obtain ⟨t, ht, -⟩ := id hs
    exact ⟨j, rfl, t, ht, (hagrees.of_under hS ht hs).trans hdeclared⟩

/-- The first of a procedure's sentences is the one with which it begins. -/
theorem opening?_eq_some_iff (hsound : Sound c) (hc : c.Shelved) :
    c.opening? p = some j ↔ c.Under p j ∧ ∀ i < j, ¬ c.Under p i := by
  by_cases hp : p < c.procedures.size
  · obtain ⟨l, hl, -⟩ := exists_sentencesOf_eq_ok hsound hp
    have hmem := fun j => hc.mem_sentencesOf hl (j := j)
    have hsorted := hc.pairwise_sentencesOf hl
    rw [opening?, firstSentence_eq_ok_head? hl]
    simp only [← hmem]
    cases l with
    | nil => simp
    | cons a l =>
      have hlt := (List.pairwise_cons.1 hsorted).1
      rw [List.head?_cons, Option.some.injEq]
      constructor
      · rintro rfl
        refine ⟨List.mem_cons_self, fun i hi hmem => ?_⟩
        obtain rfl | hmem := List.mem_cons.1 hmem
        · exact hi.false
        · exact (hi.trans (hlt i hmem)).false
      · rintro ⟨hj, hfirst⟩
        obtain rfl | hj := List.mem_cons.1 hj
        · rfl
        · exact absurd List.mem_cons_self (hfirst a (hlt j hj))
  · refine iff_of_false (fun h => ?_) fun h => hp (Under.lt hc h.1).2
    rw [opening?, firstSentence_eq, Array.getElem?_eq_none (not_lt.1 hp)] at h
    cases h

theorem opensUse_iff (hsound : Sound c) (hc : c.Shelved) :
    c.OpensUse j ↔ ∃ s, c.isUse s = true ∧ c.opening? s = some j :=
  exists_congr fun _ => and_congr_right' (opening?_eq_some_iff hsound hc).symm

/-- Later sections of the DECLARATIVES have later sentences. -/
theorem lt_of_isUse (hc : c.Shelved) (hagrees : c.Agrees) {s' : ProcedureId}
    (huse : c.isUse s = true) (huse' : c.isUse s' = true) (hlt : s < s') (hi : c.Under s i)
    (hj : c.Under s' j) : i < j := by
  obtain ⟨S, hS, -, hdeclared⟩ := isUse_iff.1 huse
  obtain ⟨T, hT, hsection, -⟩ := isUse_iff.1 huse'
  refine hc.lt_of_under (fun hzero => ?_) hlt (fun ⟨Q, hQ, hkind, _⟩ => ?_) hi hj
  · rw [hagrees.root (hzero ▸ hS)] at hdeclared
    exact nomatch hdeclared
  · obtain rfl := Option.some.inj (hT.symm.trans hQ)
    exact nomatch hsection.symm.trans hkind

end Procedures

/-! ### Chapters -/

/-- The `n` chapters behind the first are those of the DECLARATIVES. If there are any, nothing is
read into the first, and the one behind them is no sentence. -/
structure Chapter.Sides (c : Procedures) (chs : List Chapter) (n : ℕ) : Prop where
  stands : ∀ {i : ℕ} {k : Chapter}, chs[i]? = some k →
    (c.Stands true k.sentence ↔ 0 < i ∧ i ≤ n)
  silent : 0 < n → ∀ {k : Chapter}, chs[0]? = some k → k.marks = []
  resumed : 0 < n → ∀ {k : Chapter}, chs[n + 1]? = some k → k.sentence = none

namespace Chapter

variable {c : Procedures} {chs : List Chapter}

theorem Sides.of_plain (h : ∀ k ∈ chs, c.Stands false k.sentence) : Sides c chs 0 where
  stands {i k} hi := by
    have hnot : ¬ c.Stands true k.sentence := (h k (List.mem_of_getElem? hi)).not
    exact iff_of_false hnot (by omega)
  silent h := absurd h (lt_irrefl 0)
  resumed h := absurd h (lt_irrefl 0)

theorem Regions.sides {first resumed : Chapter} {inside behind : List Chapter}
    (h : Regions c chs first inside resumed behind) : Sides c chs inside.length where
  stands {i k} hi := by
    have hfirst : ¬ c.Stands true first.sentence := h.first.not
    rw [h.eq] at hi
    cases i with
    | zero =>
      obtain rfl : first = k := Option.some.inj hi
      exact iff_of_false hfirst (by omega)
    | succ i =>
      rw [List.cons_append, List.getElem?_cons_succ] at hi
      obtain hlt | hge := lt_or_ge i inside.length
      · rw [List.getElem?_append_left hlt] at hi
        exact iff_of_true (h.inside k (List.mem_of_getElem? hi)) (by omega)
      · rw [List.getElem?_append_right hge] at hi
        refine iff_of_false (fun hk => ?_) (by omega)
        obtain rfl | hk' := List.mem_cons.1 (List.mem_of_getElem? hi)
        · exact nomatch h.resumed ▸ hk.isSome
        · exact (h.behind k hk').not hk
  silent _ k hk := by
    rw [h.eq] at hk
    obtain rfl : first = k := Option.some.inj hk
    exact h.silent
  resumed _ k hk := by
    rw [h.eq, List.cons_append, List.getElem?_cons_succ, List.getElem?_append_right le_rfl,
      Nat.sub_self] at hk
    obtain rfl : resumed = k := Option.some.inj hk
    exact h.resumed

theorem Sides.of_erase {n : ℕ} (h : Sides c.erase chs n) : Sides c chs n :=
  ⟨fun hi => Procedures.stands_erase.symm.trans (h.stands hi), h.silent, h.resumed⟩

end Chapter

theorem Graph.isDeclared_iff {g : Graph} {b : BlockId} :
    g.IsDeclared b ↔ (g.chart b).flags.declaratives = true := by
  cases h : g.blocks[b]? with
  | none =>
    rw [Graph.chart_of_size_le (Array.getElem?_eq_none_iff.1 h)]
    simp [IsDeclared, h]
  | some block =>
    rw [Graph.chart_of_getElem? h]
    simp [IsDeclared, h, Block.spot]

namespace Draft

variable {o : Options} {s : Scope} {p : Plan} {chs : List Chapter} {i i' j j' : ℕ}
  {c c' : Chapter}

/-- Sentences come in the order of their chapters. -/
theorem lt_of_index_lt (h : Draft o s p chs) (hi : chs[i]? = some c) (hj : c.sentence = some j)
    (hi' : chs[i']? = some c') (hj' : c'.sentence = some j') (hlt : i < i') : j < j' := by
  have hsorted := h.numbers ▸ List.pairwise_lt_range (n := s.procedures.sentences.size)
  obtain ⟨hi, rfl⟩ := List.getElem?_eq_some_iff.1 hi
  obtain ⟨hi', rfl⟩ := List.getElem?_eq_some_iff.1 hi'
  exact List.pairwise_iff_getElem.1 (List.pairwise_filterMap.1 hsorted) i i' _ _ hlt j hj j' hj'

theorem index_lt (h : Draft o s p chs) (hi : chs[i]? = some c) (hj : c.sentence = some j)
    (hi' : chs[i']? = some c') (hj' : c'.sentence = some j') (hlt : j < j') : i < i' := by
  obtain hii | rfl | hii := lt_trichotomy i i'
  · exact hii
  · obtain rfl := Option.some.inj (hi.symm.trans hi')
    obtain rfl := Option.some.inj (hj.symm.trans hj')
    exact absurd hlt (lt_irrefl _)
  · exact absurd hlt (h.lt_of_index_lt hi' hj' hi hj hii).asymm

/-- No sentence is two chapters. -/
theorem eq_of_sentence (h : Draft o s p chs) (hi : chs[i]? = some c) (hj : c.sentence = some j)
    (hi' : chs[i']? = some c') (hj' : c'.sentence = some j) : i = i' := by
  obtain hlt | heq | hlt := lt_trichotomy i i'
  · exact absurd (h.lt_of_index_lt hi hj hi' hj' hlt) (lt_irrefl _)
  · exact heq
  · exact absurd (h.lt_of_index_lt hi' hj' hi hj hlt) (lt_irrefl _)

/-- Where an edge leads before any jump is drawn: it stays in its chapter, or it falls into another
or out of the division. -/
theorem cases_of_mem_next (h : Draft o s p chs) {b x : ℕ} (hi : chs[i]? = some c) (hb : c.Has b)
    (hx : x ∈ (s.graph.chart b).next) : c.Has x ∨ b = c.stop ∧
      (i + 1 = chs.length ∧ x = Chapter.extent chs ∨
        ∃ k c', (i, k) ∈ p.falls ∧ chs[k]? = some c' ∧ x = c'.start) := by
  have hdrawn := h.drawn c (List.mem_of_getElem? hi)
  rw [h.chart hi b hb] at hx
  split at hx
  next hstop =>
    exact .inr ⟨hstop, (Chapter.mem_ways_iff.1 hx).symm⟩
  next =>
    exact .inl (hdrawn.between_iff.1 (hdrawn.fragment.closed b (hdrawn.between_iff.2 hb) x hx))

/-- Jumps are made in chapters. -/
theorem lt_extent_of_jumps (h : Draft o s p chs) {b x : ℕ} (hjump : s.Jumps b x) :
    b < Chapter.extent chs := by
  obtain ⟨c, hc, m, e, hm, he⟩ := h.exists_mark_of_jumps hjump
  obtain ⟨i, hi⟩ := List.mem_iff_getElem?.1 hc
  exact h.has_lt_extent hi (h.signs_of_mark hc hm he).1

end Draft

/-! ### One program -/

namespace ProgramUnit

/-- No GO TO outside of the DECLARATIVES has a target in them, of its own or from an ALTER, in a
graph that the block `last` ends. -/
def StaysOut (u : ProgramUnit) (flow : ProgramFlow) (last : BlockId) : Prop :=
  ∀ b < last, (flow.graph.chart b).flags.declaratives = false →
    ∀ i ∈ (flow.graph.chart b).nodes.getLast?, ∀ n, u.GoesTo flow i.node n →
      ∀ q ∈ flow.procedures.find? n, ∀ Q, flow.procedures.procedures[q]? = some Q →
        Q.declaratives = false

/-- What is said of one program, whose graph the block `last` ends. -/
structure Isolates (u : ProgramUnit) (flow : ProgramFlow) (last : BlockId) : Prop where
  finish : flow.graph.findFlagged { finish := true } = some last
  start : (flow.graph.chart 0).flags.start = true
  /-- Beside the start there is a root for each section of the DECLARATIVES that has a sentence. -/
  roots : flow.graph.roots = 0 :: flow.procedures.uses.filterMap fun s =>
    (flow.procedures.opening? s).bind flow.procedures.firstBlock?
  /-- The marked blocks are those of sentences that belong to a section of the DECLARATIVES. -/
  declared : ∀ b ≤ last, (flow.graph.chart b).flags.declaratives = true ↔ ∃ s j,
    flow.procedures.isUse s = true ∧ flow.procedures.Under s j ∧ flow.procedures.InSentence j b
  isolated : u.StaysOut flow last →
    ∀ b, flow.graph.chart.Reaches 0 b → (flow.graph.chart b).flags.declaratives = false

variable {o : Options} {u : ProgramUnit} {d : DivisionText} {flow : ProgramFlow}
  {s s₁ s₂ : Scope} {chs : List Chapter}

namespace Arises

variable (h : u.Arises o d flow s chs s₁ s₂) {b : BlockId} {j : SentenceId} {c : Chapter}
include h

theorem agrees : flow.procedures.Agrees :=
  .of_erase (h.erase ▸ (d.headed_plan u.program (u.id + 1)).agrees)

theorem sound_procedures : Sound flow.procedures := h.procedures ▸ h.sound₂.procedures

/-- A chapter that is a sentence has the blocks of the sentence. -/
theorem exists_sentence (hc : c ∈ chs) (hj : c.sentence = some j) :
    ∃ t, flow.procedures.sentences[j]? = some t ∧ t.blocks = c.blocks := by
  obtain ⟨t, ht, hblocks, -⟩ := h.draft.sentence c hc j hj
  have hget := flow.procedures.getElem?_bare j
  rw [h.bare, Procedures.getElem?_bare, ht] at hget
  obtain ⟨t', ht', heq⟩ := Option.map_eq_some_iff.1 hget.symm
  exact ⟨t', ht', (congrArg Sentence.blocks heq).trans hblocks⟩

theorem exists_chapter (hj : j < flow.procedures.sentences.size) :
    ∃ c ∈ chs, c.sentence = some j := by
  rw [Procedures.size_eq_of_bare h.bare] at hj
  obtain ⟨c, hc, hsentence, -⟩ := h.draft.exists_chapter (Array.getElem?_eq_getElem hj)
  exact ⟨c, hc, hsentence⟩

theorem firstBlock?_eq (hc : c ∈ chs) (hj : c.sentence = some j) :
    flow.procedures.firstBlock? j = some c.start := by
  rw [Procedures.firstBlock?_eq h.bare, h.draft.firstBlock?_eq hc hj]

theorem inSentence_iff : flow.procedures.InSentence j b ↔
    ∃ c ∈ chs, c.sentence = some j ∧ c.Has b := by
  constructor
  · rintro ⟨t, ht, hb⟩
    obtain ⟨c, hc, hj⟩ := h.exists_chapter (Array.getElem?_eq_some_iff.1 ht).1
    obtain ⟨t', ht', hblocks⟩ := h.exists_sentence hc hj
    obtain rfl := Option.some.inj (ht.symm.trans ht')
    exact ⟨c, hc, hj, (h.draft.drawn c hc).mem_blocks.1 (hblocks ▸ hb)⟩
  · rintro ⟨c, hc, hj, hb⟩
    obtain ⟨t, ht, hblocks⟩ := h.exists_sentence hc hj
    exact ⟨t, ht, hblocks ▸ (h.draft.drawn c hc).mem_blocks.2 hb⟩

/-- A chapter is entered from outside if a section of the DECLARATIVES begins with it. -/
theorem entered_iff (hc : c ∈ chs) : c.entered = true ↔ ∃ j ∈ c.sentence, ∃ s,
    flow.procedures.isUse s = true ∧ flow.procedures.opening? s = some j := by
  have hpassage : c.toPassage ∈ (d.plan u.program (u.id + 1)).passages :=
    h.draft.passages ▸ List.mem_map_of_mem hc
  rw [(d.headed_plan u.program (u.id + 1)).entered _ hpassage, ← h.erase]
  refine exists_congr fun j => and_congr_right' ?_
  rw [Procedures.opensUse_erase, Procedures.opensUse_iff h.sound_procedures h.shelved]

/-- Later sections of the DECLARATIVES begin in later blocks. -/
theorem lt_of_opening? {r r' j' : ℕ} (huse : flow.procedures.isUse r = true)
    (huse' : flow.procedures.isUse r' = true) (hlt : r < r')
    (hj : flow.procedures.opening? r = some j) (hj' : flow.procedures.opening? r' = some j')
    {c' : Chapter} (hc : c ∈ chs) (hcj : c.sentence = some j) (hc' : c' ∈ chs)
    (hcj' : c'.sentence = some j') : c.start < c'.start := by
  have hunder := ((Procedures.opening?_eq_some_iff h.sound_procedures h.shelved).1 hj).1
  have hunder' := ((Procedures.opening?_eq_some_iff h.sound_procedures h.shelved).1 hj').1
  have hjj := Procedures.lt_of_isUse h.shelved h.agrees huse huse' hlt hunder hunder'
  obtain ⟨i, hi⟩ := List.mem_iff_getElem?.1 hc
  obtain ⟨i', hi'⟩ := List.mem_iff_getElem?.1 hc'
  exact (h.draft.drawn c hc).start_lt.trans_le
    (h.draft.size_le_start (h.draft.index_lt hi hcj hi' hcj' hjj) hi hi')

/-- The sections of the DECLARATIVES are entered from outside where they begin. -/
theorem roots_eq : flow.graph.roots = 0 :: flow.procedures.uses.filterMap fun s =>
    (flow.procedures.opening? s).bind flow.procedures.firstBlock? := by
  have hbegins : ∀ {r x : ℕ},
      (flow.procedures.opening? r).bind flow.procedures.firstBlock? = some x →
      ∃ j, flow.procedures.opening? r = some j ∧ ∃ c ∈ chs, c.sentence = some j ∧ c.start = x := by
    intro r x hx
    obtain ⟨j, hj, hx⟩ := Option.bind_eq_some_iff.1 hx
    obtain ⟨t, ht, -⟩ := Option.bind_eq_some_iff.1 hx
    obtain ⟨c, hc, hcj⟩ := h.exists_chapter (Array.getElem?_eq_some_iff.1 ht).1
    exact ⟨j, hj, c, hc, hcj, Option.some.inj ((h.firstBlock?_eq hc hcj).symm.trans hx)⟩
  rw [h.roots, h.draft.roots]
  refine congrArg (0 :: ·) (List.Pairwise.eq_of_mem_iff (r := (· < ·)) ?_ ?_ fun x => ?_)
  · refine List.pairwise_map.2 (List.Pairwise.filter _ (List.pairwise_iff_getElem.2 ?_))
    intro i i' hi hi' hlt
    exact (h.draft.drawn _ (List.getElem_mem hi)).start_lt.trans_le
      (h.draft.size_le_start hlt (List.getElem?_eq_getElem hi) (List.getElem?_eq_getElem hi'))
  · have hsorted : flow.procedures.uses.Pairwise (· < ·) := List.pairwise_lt_range.filter _
    refine List.pairwise_filterMap.2 (hsorted.imp_of_mem fun {r r'} hr hr' hlt x hx x' hx' => ?_)
    obtain ⟨j, hj, c, hc, hcj, rfl⟩ := hbegins hx
    obtain ⟨j', hj', c', hc', hcj', rfl⟩ := hbegins hx'
    exact h.lt_of_opening? (List.mem_filter.1 hr).2 (List.mem_filter.1 hr').2 hlt hj hj' hc hcj hc'
      hcj'
  · rw [List.mem_map, List.mem_filterMap]
    constructor
    · rintro ⟨c, hc, rfl⟩
      obtain ⟨hc, hentered⟩ := List.mem_filter.1 hc
      obtain ⟨j, hj, r, huse, hopening⟩ := (h.entered_iff hc).1 hentered
      have hunder := ((Procedures.opening?_eq_some_iff h.sound_procedures h.shelved).1 hopening).1
      refine ⟨r, (Procedures.mem_uses h.shelved hunder).2 huse, ?_⟩
      rw [hopening, Option.bind_some, h.firstBlock?_eq hc hj]
    · rintro ⟨r, hr, hx⟩
      obtain ⟨j, hj, c, hc, hcj, rfl⟩ := hbegins hx
      have hentered := (h.entered_iff hc).2 ⟨j, hcj, r, (List.mem_filter.1 hr).2, hj⟩
      exact ⟨c, List.mem_filter.2 ⟨hc, hentered⟩, rfl⟩

end Arises

/-- Only the mark of a call site that has been spliced is new. -/
theorem Arises.exists_flags_eq (h : u.Arises o d flow s chs s₁ s₂) {b : BlockId}
    (hb : b < s.graph.size) :
    ∃ m, (flow.graph.chart b).flags = (s.graph.chart b).flags.union { grafted := m } := by
  obtain ⟨m, next, hchart, -⟩ := h.chart_eq hb
  obtain ⟨more, hmore, -⟩ := h.links.chart b
  exact ⟨m, by rw [hchart, hmore]⟩

theorem Arises.declared_eq (h : u.Arises o d flow s chs s₁ s₂) {b : BlockId}
    (hb : b < s.graph.size) :
    (flow.graph.chart b).flags.declaratives = (s.graph.chart b).flags.declaratives := by
  obtain ⟨m, hflags⟩ := h.exists_flags_eq hb
  rw [hflags]
  exact Bool.or_false _

/-- The blocks of the DECLARATIVES are marked, and no others. -/
theorem Yields.exists_sides (h : u.Yields o flow) (hd : u.division = some d) :
    ∃ s chs s₁ s₂ n, u.Arises o d flow s chs s₁ s₂ ∧ Chapter.Sides flow.procedures chs n ∧
      ∀ c ∈ chs, ∀ b, c.Has b → ((flow.graph.chart b).flags.declaratives = true ↔
        flow.procedures.Stands true c.sentence) := by
  obtain ⟨t, chs, hplay, houtline, hdeclared, hregions⟩ := u.exists_outline o hd
  obtain ⟨s, s₁, s₂, -, harises⟩ := h.arises_of_outline hd houtline hplay
  have hmarked := d.marked_items o u.program u.id () t hplay
  rw [← harises.erase] at hdeclared hregions
  simp only [Procedures.stands_erase] at hdeclared
  have hflags : ∀ c ∈ chs, ∀ b, c.Has b →
      ((flow.graph.chart b).flags.declaratives = true ↔ t.graph.IsDeclared b) := by
    intro c hc b hb
    obtain ⟨i, hi⟩ := List.mem_iff_getElem?.1 hc
    have hlt := harises.draft.has_lt_extent hi hb
    rw [harises.declared_eq (harises.draft.lt_size hlt), Graph.isDeclared_iff,
      harises.draft.chart hi b hb, houtline.chapters.chart hi b hb]
    split <;> rfl
  have hsides : ∀ c ∈ chs, ∀ b, c.Has b → ((flow.graph.chart b).flags.declaratives = true ↔
      flow.procedures.Stands true c.sentence) := by
    intro c hc b hb
    rw [hflags c hc b hb]
    constructor
    · intro hb'
      obtain ⟨c', hc', hhas, hstands⟩ := hdeclared b hb'
      obtain rfl := harises.draft.eq_of_mem_of_has hc hc' hb hhas
      exact hstands
    · rintro ⟨j, hj, r, hr, hdeclared⟩
      obtain ⟨r', hr', hblocks, -⟩ := houtline.chapters.sentence c hc j hj
      have hsame : t.procedures.erase = flow.procedures.erase :=
        houtline.catalog.trans harises.erase.symm
      have hget := congrArg (·.sentences[j]?.map (·.declaratives)) hsame
      simp only [Procedures.getElem?_erase, hr, hr', Option.map_some, Option.some.injEq] at hget
      exact hmarked.declared hr' (hget.trans hdeclared) b
        (hblocks ▸ (harises.draft.drawn c hc).mem_blocks.2 hb)
  obtain ⟨n, hn⟩ : ∃ n, Chapter.Sides flow.procedures.erase chs n := by
    obtain ⟨-, hplain⟩ | ⟨-, first, inside, resumed, behind, hregions, -⟩ := hregions
    · exact ⟨0, .of_plain hplain⟩
    · exact ⟨inside.length, hregions.sides⟩
  exact ⟨s, chs, s₁, s₂, n, harises, hn.of_erase, hsides⟩

namespace Arises

variable (h : u.Arises o d flow s chs s₁ s₂) {b x : BlockId} {i n : ℕ} {c : Chapter}
include h

theorem stemsFrom : flow.StemsFrom s where
  bare := h.bare
  nodes b hb := by
    obtain ⟨m, next, hchart, -⟩ := h.chart_eq hb
    rw [hchart, h.links.nodes]

/-- In normal mode nothing is changed of a block once its jumps are drawn. -/
theorem chart_eq_of_normal (ho : o.isExtended = false) (hb : b < s.graph.size) :
    flow.graph.chart b = s₁.graph.chart b := by
  obtain ⟨_, hfollows⟩ := h.follows
  rw [h.unspliced ho, hfollows.keeps.chart b (h.links.size ▸ hb)]

/-- In normal mode no edge is drawn but for jumps. -/
theorem mem_next_iff (ho : o.isExtended = false) (hb : b < s.graph.size) :
    x ∈ (flow.graph.chart b).next ↔ x ∈ (s.graph.chart b).next ∨ s.Jumps b x := by
  rw [h.chart_eq_of_normal ho hb, h.links.mem_next]

/-- The first sentence of the DECLARATIVES is entered from outside. -/
theorem entered_of_first (hsides : Chapter.Sides flow.procedures chs n) (hn : 0 < n)
    (hc : chs[1]? = some c) : c.entered = true := by
  have hstands := (hsides.stands hc).2 ⟨one_pos, hn⟩
  obtain ⟨j, hj⟩ := Option.isSome_iff_exists.1 hstands.isSome
  rw [hj] at hstands
  obtain ⟨r, huse, hunder⟩ := (Procedures.stands_iff h.shelved h.agrees).1 hstands
  refine (h.entered_iff (List.mem_of_getElem? hc)).2 ⟨j, hj, r, huse, ?_⟩
  refine (Procedures.opening?_eq_some_iff h.sound_procedures h.shelved).2
    ⟨hunder, fun k hk hk' => ?_⟩
  -- An earlier sentence would be the one that stands before the DECLARATIVES.
  obtain ⟨c', hc', hj'⟩ := h.exists_chapter (Procedures.Under.lt h.shelved hk').1
  obtain ⟨i, hi⟩ := List.mem_iff_getElem?.1 hc'
  have hstands' := (Procedures.stands_iff h.shelved h.agrees).2 ⟨r, huse, hk'⟩
  have hpos := ((hsides.stands hi).1 (hj' ▸ hstands')).1
  have hlt := h.draft.index_lt hi hj' hc hj hk
  omega

/-- Control falls into the next sentence, unless this is entered from outside, and from the first
chapter into the one that is no sentence. -/
theorem cases_of_falls {k : ℕ} (hfalls : (i, k) ∈ (d.plan u.program (u.id + 1)).falls)
    (hc : chs[k]? = some c) :
    k = i + 1 ∧ (∃ j, c.sentence = some j) ∧ c.entered = false ∨ i = 0 ∧ c.sentence = none := by
  have hhead : (d.plan u.program (u.id + 1)).heads[k]? = some (c.sentence, c.entered) := by
    rw [Plan.heads, ← h.draft.passages, List.map_map, List.getElem?_map, hc]
    rfl
  obtain ⟨hsucc, j, hj⟩ | ⟨⟨hzero, -⟩, entered, hj⟩ :=
    (d.linked_plan u.program (u.id + 1)).falls _ hfalls
  · obtain ⟨hsentence, hentered⟩ := Prod.mk.inj (Option.some.inj (hhead.symm.trans hj))
    exact .inl ⟨hsucc, ⟨j, hsentence⟩, hentered⟩
  · exact .inr ⟨hzero, congrArg Prod.fst (Option.some.inj (hhead.symm.trans hj))⟩

/-- Control does not fall into the DECLARATIVES. -/
theorem falls_outside (hsides : Chapter.Sides flow.procedures chs n) {k : ℕ}
    (hfalls : (i, k) ∈ (d.plan u.program (u.id + 1)).falls) (hi : ¬ (0 < i ∧ i ≤ n)) :
    ¬ (0 < k ∧ k ≤ n) := by
  intro hk
  obtain ⟨c, hc⟩ : ∃ c, chs[k]? = some c :=
    ⟨_, List.getElem?_eq_getElem (h.draft.falls_lt _ hfalls).2⟩
  obtain ⟨rfl, -, hentered⟩ | ⟨-, hnone⟩ := h.cases_of_falls hfalls hc
  · obtain rfl : i = 0 := by omega
    exact nomatch hentered.symm.trans (h.entered_of_first hsides (by omega) hc)
  · have hsome := ((hsides.stands hc).2 hk).isSome
    rw [hnone] at hsome
    exact nomatch hsome

/-- NEXT SENTENCE does not lead into the DECLARATIVES. -/
theorem nextSentence_outside (hsides : Chapter.Sides flow.procedures chs n)
    {w : PendingNextSentence} (hw : w ∈ s.pending.nextSentences)
    (hx : s.procedures.firstBlock? (w.sentence + 1) = some x) (hi : chs[i]? = some c)
    (hb : c.Has w.block) (hout : ¬ (0 < i ∧ i ≤ n)) :
    ∃ k c', chs[k]? = some c' ∧ c'.start = x ∧ ¬ (0 < k ∧ k ≤ n) := by
  obtain ⟨a, ha, hm, hsentence⟩ := h.draft.mem_nextSentences.1 hw
  obtain rfl := h.draft.eq_of_mem_of_has (List.mem_of_getElem? hi) ha hb
    (h.draft.signs_of_mark ha hm rfl).1
  obtain ⟨t, ht, -⟩ := Option.bind_eq_some_iff.1 hx
  obtain ⟨c', hc', hj'⟩ := h.draft.exists_chapter ht
  obtain ⟨k, hk⟩ := List.mem_iff_getElem?.1 hc'
  refine ⟨k, c', hk, Option.some.inj ((h.draft.firstBlock?_eq hc' hj'.1).symm.trans hx), ?_⟩
  have hlt := h.draft.index_lt hi hsentence hk hj'.1 (Nat.lt_succ_self _)
  intro hk'
  -- Nothing is read into the sentence that stands before the DECLARATIVES.
  obtain rfl : i = 0 := by omega
  rw [hsides.silent (by omega) hi] at hm
  exact nomatch hm

/-- A GO TO leads into the DECLARATIVES only if a target is there. -/
theorem jump_outside (hsides : Chapter.Sides flow.procedures chs n) {name : QualifiedName}
    (hx : s.procedures.entrance? name = some x)
    (hname : ∀ q ∈ flow.procedures.find? name, ∀ Q, flow.procedures.procedures[q]? = some Q →
      Q.declaratives = false) :
    ∃ k c', chs[k]? = some c' ∧ c'.start = x ∧ ¬ (0 < k ∧ k ≤ n) := by
  rw [← Procedures.entrance?_eq h.bare] at hx
  obtain ⟨j, hj, hx⟩ := Option.bind_eq_some_iff.1 hx
  obtain ⟨q, hq, hopening⟩ := Option.bind_eq_some_iff.1 hj
  have hunder := ((Procedures.opening?_eq_some_iff h.sound_procedures h.shelved).1 hopening).1
  obtain ⟨hlt, hq'⟩ := Procedures.Under.lt h.shelved hunder
  obtain ⟨c', hc', hcj⟩ := h.exists_chapter hlt
  obtain ⟨k, hk⟩ := List.mem_iff_getElem?.1 hc'
  refine ⟨k, c', hk, Option.some.inj ((h.firstBlock?_eq hc' hcj).symm.trans hx), fun hinside => ?_⟩
  obtain ⟨j', hj', t, ht, hdeclared⟩ := (hsides.stands hk).2 hinside
  obtain rfl := Option.some.inj (hcj.symm.trans hj')
  have hQ := Array.getElem?_eq_getElem hq'
  rw [h.agrees.of_under hQ ht hunder, hname q hq _ hQ] at hdeclared
  exact nomatch hdeclared

/-- From outside of the DECLARATIVES no edge leads into them. -/
theorem next_outside (ho : o.isExtended = false) (hsides : Chapter.Sides flow.procedures chs n)
    (hmarks : ∀ c ∈ chs, ∀ b, c.Has b → ((flow.graph.chart b).flags.declaratives = true ↔
      flow.procedures.Stands true c.sentence))
    (hstays : u.StaysOut flow (Chapter.extent chs)) (hb : b ≤ Chapter.extent chs)
    (hout : (flow.graph.chart b).flags.declaratives = false)
    (hx : x ∈ (flow.graph.chart b).next) :
    x ≤ Chapter.extent chs ∧ (flow.graph.chart x).flags.declaratives = false := by
  have hfinish : (flow.graph.chart (Chapter.extent chs)).flags.declaratives = false := by
    rw [h.declared_eq (h.draft.size ▸ Nat.lt_succ_self _), h.draft.finish]
  have hiff : ∀ {k : ℕ} {c : Chapter} {b : ℕ}, chs[k]? = some c → c.Has b →
      ((flow.graph.chart b).flags.declaratives = false ↔ ¬ (0 < k ∧ k ≤ n)) := by
    intro k c b hk hhas
    rw [← hsides.stands hk, ← hmarks c (List.mem_of_getElem? hk) b hhas, Bool.not_eq_true]
  have hbegins : ∀ {k : ℕ} {c' : Chapter}, chs[k]? = some c' → ¬ (0 < k ∧ k ≤ n) →
      c'.start ≤ Chapter.extent chs ∧ (flow.graph.chart c'.start).flags.declaratives = false := by
    intro k c' hk hk'
    have hhas := (h.draft.drawn c' (List.mem_of_getElem? hk)).has_start
    exact ⟨(h.draft.has_lt_extent hk hhas).le, (hiff hk hhas).2 hk'⟩
  rw [h.mem_next_iff ho (h.draft.size ▸ Nat.lt_succ_of_le hb)] at hx
  -- The block that ends the graph leads nowhere, and makes no jump.
  have hlt : b < Chapter.extent chs := by
    refine hb.lt_of_ne ?_
    rintro rfl
    obtain hx | hjump := hx
    · rw [h.draft.finish] at hx
      exact nomatch hx
    · exact (h.draft.lt_extent_of_jumps hjump).false
  obtain ⟨i, c, hi, hhas⟩ := h.draft.exists_has hlt
  have hi' := (hiff hi hhas).1 hout
  obtain hx | ⟨w, hw, rfl, hx⟩ | ⟨w, hw, rfl, name, hname, hx⟩ := hx
  · obtain hhas' | ⟨-, ⟨-, rfl⟩ | ⟨k, c', hfalls, hk, rfl⟩⟩ := h.draft.cases_of_mem_next hi hhas hx
    · exact ⟨(h.draft.has_lt_extent hi hhas').le, (hiff hi hhas').2 hi'⟩
    · exact ⟨le_rfl, hfinish⟩
    · exact hbegins hk (h.falls_outside hsides hfalls hi')
  · obtain ⟨k, c', hk, rfl, hk'⟩ := h.nextSentence_outside hsides hw hx hi hhas hi'
    exact hbegins hk hk'
  · have hgoes := ProgramUnit.goesTo_of_jumpTargets h.draft h.landmarks h.stemsFrom hw hname
    obtain ⟨a, ha, hm⟩ := h.draft.mem_jumps.1 hw
    obtain ⟨-, -, instr, hlast, hnode⟩ := h.draft.signs_of_mark ha hm rfl
    rw [← h.stemsFrom.nodes _ (h.draft.lt_size hlt)] at hlast
    obtain ⟨k, c', hk, rfl, hk'⟩ := h.jump_outside hsides hx
      (hstays _ hlt hout instr hlast name (hnode ▸ hgoes))
    exact hbegins hk hk'

end Arises

theorem Yields.exists_isolates (h : u.Yields o flow) (ho : o.isExtended = false)
    (hd : u.division = some d) : ∃ last, u.Isolates flow last := by
  obtain ⟨s, chs, s₁, s₂, n, harises, hsides, hmarks⟩ := h.exists_sides hd
  refine ⟨Chapter.extent chs,
    { finish := harises.findFlagged_finish
      start := ?_
      roots := harises.roots_eq
      declared := fun b hb => ?_
      isolated := fun hstays b hreach => ?_ }⟩
  · obtain ⟨m, next, hchart, -⟩ := harises.chart_eq (b := 0)
      (harises.draft.size ▸ Nat.succ_pos _)
    obtain ⟨more, hmore, -⟩ := harises.links.chart 0
    rw [hchart, hmore]
    simp [BlockFlags.union, harises.draft.begins]
  · obtain rfl | hlt := hb.eq_or_lt
    · rw [harises.declared_eq (harises.draft.size ▸ Nat.lt_succ_self _), harises.draft.finish]
      refine iff_of_false Bool.false_ne_true ?_
      rintro ⟨-, j, -, -, hj⟩
      obtain ⟨c, hc, -, hhas⟩ := harises.inSentence_iff.1 hj
      obtain ⟨i, hi⟩ := List.mem_iff_getElem?.1 hc
      exact (harises.draft.has_lt_extent hi hhas).false
    · obtain ⟨i, c, hi, hhas⟩ := harises.draft.exists_has hlt
      rw [hmarks c (List.mem_of_getElem? hi) b hhas]
      constructor
      · intro hstands
        obtain ⟨j, hj⟩ := Option.isSome_iff_exists.1 hstands.isSome
        rw [hj] at hstands
        obtain ⟨r, huse, hunder⟩ := (Procedures.stands_iff harises.shelved harises.agrees).1 hstands
        exact ⟨r, j, huse, hunder,
          harises.inSentence_iff.2 ⟨c, List.mem_of_getElem? hi, hj, hhas⟩⟩
      · rintro ⟨r, j, huse, hunder, hj⟩
        obtain ⟨c', hc', hj', hhas'⟩ := harises.inSentence_iff.1 hj
        obtain rfl := harises.draft.eq_of_mem_of_has (List.mem_of_getElem? hi) hc' hhas hhas'
        rw [hj']
        exact (Procedures.stands_iff harises.shelved harises.agrees).2 ⟨r, huse, hunder⟩
  · have hfirst : (flow.graph.chart 0).flags.declaratives = false := by
      obtain ⟨c, rest, hchs⟩ := List.exists_cons_of_ne_nil harises.draft.nonempty
      have hi : chs[0]? = some c := by rw [hchs]; rfl
      have hstart : c.start = 0 := harises.draft.contiguous hi
      have hhas := (harises.draft.drawn c (List.mem_of_getElem? hi)).has_start
      rw [← Bool.not_eq_true, ← hstart, hmarks c (List.mem_of_getElem? hi) _ hhas, hsides.stands hi]
      exact fun hpos => hpos.1.false
    exact (hreach.mem (P := fun b => b ≤ Chapter.extent chs ∧
      (flow.graph.chart b).flags.declaratives = false) ⟨Nat.zero_le _, hfirst⟩
      fun b hb x hx => harises.next_outside ho hsides hmarks hstays hb.1 hb.2 hx).2

end ProgramUnit

/-- Two sections of the DECLARATIVES, one of which has its only sentence in a paragraph. -/
def twoUses : StatementTree where
  programs := [.mk "A" .program (some
    { declaratives := [
        { name := "U", paragraphs := [{ name := "P", sentences := [[.mk .exit none .unknown]] }] },
        { name := "V", sentences := [[.mk .exit none .unknown]] }]
      sentences := [[.mk .exit none .unknown]] }) []]

example : (twoUses.build {}).toOption.map (·.map (·.graph.roots)) = some [[0, 1, 2]] := by cbv

end CobolFlow
