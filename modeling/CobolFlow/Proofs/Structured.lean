import CobolFlow.Proofs.Calls.Cycles
import CobolFlow.Proofs.Division.Straight

/-!
# Structured programs

A division without DECLARATIVES in which there is no GO TO, no NEXT SENTENCE, no ALTER and no
out-of-line PERFORM has a structured meaning: its sentences are done one after the other until a
statement ends the program. The paths of its graph read just what this meaning says, whatever the
lowerings and the mode.

## Main definitions

* `DivisionText.meaning` — what the sentences of a division do, one after the other
* `Behaviour.traces` — what is said until the program ends

## Main results

* `StatementTree.build_traces` — the paths of the graph read the traces of the meaning
-/

namespace CobolFlow

open Scope

namespace Behaviour

/-- All that can be said until the program ends, by a statement or by itself. -/
def traces (B : Behaviour) : Language Instruction := B.falls + B.exits .halt

/-- One behaviour after the other. -/
def inOrder (l : List Behaviour) : Behaviour := l.foldr seq skip

@[simp] theorem inOrder_nil : inOrder [] = skip := rfl

@[simp] theorem inOrder_cons (B : Behaviour) (l : List Behaviour) :
    inOrder (B :: l) = B.seq (inOrder l) := rfl

/-- What the ways of leaving lead to when only the program can be left. -/
def endings (e : Exit) : Language Instruction := if e = .halt then 1 else 0

theorem into_endings (B : Behaviour) : B.into 1 endings = B.traces := by
  have hsup : ⨆ e, B.exits e * endings e = B.exits .halt := by
    refine le_antisymm (iSup_le fun e => ?_) (le_iSup_of_le .halt ?_)
    · rw [endings]
      split
      next he => rw [he, mul_one]
      next => rw [mul_zero]; exact bot_le
    · rw [endings, if_pos rfl, mul_one]
  rw [into, hsup, mul_one, traces]

end Behaviour

/-- What the sentences of a division do, one after the other, if its first item has the given
number. -/
def DivisionText.meaning (o : Options) (d : DivisionText) (id : NodeId) : Behaviour :=
  .inOrder (((d.items.run id).1.flatMap Item.texts).map fun t =>
    ((Meaning.statements o t.2).run t.1).1)

/-- The program ends here, by a statement or at its end. -/
def Spot.Stops (s : Spot) : Prop := s.flags.finish = true ∨ s.flags.ending = true

/-- No statement of the program waits for the end of its division. -/
structure ProgramUnit.IsStructured (u : ProgramUnit) : Prop where
  /-- There is no GO TO, NEXT SENTENCE, ALTER or out-of-line PERFORM. -/
  landmarks : u.landmarks = []
  declaratives : ∀ d ∈ u.division, d.declaratives = []

/-! ### The blocks that are reached -/

namespace Chapter

/-- A block that may be reached in a chapter: it lies in a set that no edge leaves, and where the
ways end only with the chapter or with the program. -/
def Live (c : Chapter) (b : ℕ) : Prop := c.Has b ∧ ∃ S : Set ℕ, b ∈ S ∧
  (∀ b ∈ S, ∀ x ∈ (c.last.chart b).next, x ∈ S) ∧
  ∀ b ∈ S, (c.last.chart b).next = [] → b = c.stop ∨ (c.last.chart b).flags.ending

variable {o : Options} {c : Chapter} {b x : ℕ}

theorem Drawn.live_start (h : c.Drawn o) : c.Live c.start := by
  obtain ⟨S, hS, hclosed, hends⟩ := h.fragment.ends
  exact ⟨h.has_start, S, hS, hclosed, hends⟩

theorem Drawn.live_next (h : c.Drawn o) (hb : c.Live b) (hx : x ∈ (c.last.chart b).next) :
    c.Live x := by
  obtain ⟨hhas, S, hS, hclosed, hends⟩ := hb
  exact ⟨h.between_iff.1 (h.fragment.closed b (h.between_iff.2 hhas) x hx), S,
    hclosed b hS x hx, hclosed, hends⟩

/-- The ways end only where the program does, or with the chapter. -/
theorem Drawn.stops_iff (h : c.Drawn o) (hb : c.Live b) (hstop : b ≠ c.stop) :
    (c.last.chart b).Stops ↔ Chart.IsSink (c.last.chart b) := by
  obtain ⟨hhas, S, hS, -, hends⟩ := hb
  have hcalm := h.fragment.calm b (h.between_iff.2 hhas)
  constructor
  · rintro (hfinish | hending)
    · exact nomatch hcalm.finish.symm.trans hfinish
    · exact hcalm.next hending
  · exact fun hsink => .inr ((hends b hS hsink).resolve_left hstop)

/-- The last block of a chapter is open. -/
theorem Drawn.not_stops (h : c.Drawn o) : ¬ (c.last.chart c.stop).Stops := by
  rintro (hfinish | hending)
  · exact nomatch h.fragment.opened.finish.symm.trans hfinish
  · exact nomatch h.fragment.opened.ending.symm.trans hending

end Chapter

/-! ### The sentences of a draft, one after the other -/

namespace Draft

variable {o : Options} {s : Scope} {p : Plan} {chs : List Chapter} {i b : ℕ} {c : Chapter}
  {G : Chart}

/-- Sentences without statements do nothing. -/
theorem inOrder_behaviour (h : Draft o s p chs) : Behaviour.inOrder (chs.map (·.behaviour o)) =
    .inOrder (p.texts.map fun t => ((Meaning.statements o t.2).run t.1).1) := by
  rw [Plan.texts, ← h.passages]
  clear h
  induction chs with
  | nil => rfl
  | cons c rest ih =>
    rw [List.map_cons, Behaviour.inOrder_cons, ih, List.map_cons, List.map_cons, List.filter_cons]
    cases htext : c.text with
    | nil =>
      have hskip : c.behaviour o = .skip := by
        rw [Chapter.behaviour, htext, Meaning.statements]
        rfl
      rw [hskip, Behaviour.skip_seq]
      rfl
    | cons st more =>
      rw [Chapter.behaviour, htext]
      rfl

section Reading

variable (h : Draft o s p chs) (hp : p.Straight) (hmarks : ∀ c ∈ chs, c.marks = [])
  (hG : ∀ b ≤ Chapter.extent chs, G b = s.graph.chart b)

include h hmarks hG in
/-- Where no jump waits, a sentence is read as it was drawn. -/
theorem reading_chapter (hi : chs[i]? = some c) :
    G.reading c.start = (c.behaviour o).into (G.onward c.stop) Behaviour.endings := by
  have hdrawn := h.drawn c (List.mem_of_getElem? hi)
  have hnodes : ∀ b, c.Has b → (G b).nodes = (c.last.chart b).nodes := by
    intro b hb
    rw [hG b (h.has_lt_extent hi hb).le, h.chart hi b hb]
    split <;> rfl
  have hnone : ∀ e b, ¬ c.marks.exits e b := by
    intro e b
    rw [hmarks c (List.mem_of_getElem? hi), Landmarks.exits_nil]
    exact id
  refine hdrawn.reading_start ?_ (hnodes _ hdrawn.has_stop)
  exact
    { halt := if_pos rfl
      nodes := fun b hb _ => hnodes b (hdrawn.between_iff.1 hb)
      grows := fun b hb => hb ▸ (hnodes _ hdrawn.has_stop).symm ▸ List.prefix_rfl
      next := fun b hb hne _ => by
        have hhas := hdrawn.between_iff.1 hb
        rw [hG b (h.has_lt_extent hi hhas).le, h.chart hi b hhas, if_neg hne]
      jump := fun e b hb => absurd hb (hnone e b) }

include h hp hG in
/-- From the last block of a sentence an edge leads into the next or out of the division. -/
theorem mem_next_stop (hi : chs[i]? = some c) {x : ℕ} : x ∈ (G c.stop).next ↔
    (∃ c', chs[i + 1]? = some c' ∧ x = c'.start) ∨
      i + 1 = chs.length ∧ x = Chapter.extent chs := by
  have hhas := (h.drawn c (List.mem_of_getElem? hi)).has_stop
  rw [hG _ (h.has_lt_extent hi hhas).le, h.chart hi _ hhas, if_pos rfl]
  exact h.mem_ways_iff hp

include h hp hG in
/-- All that is read after a sentence is what is read from where it leads. -/
theorem onward_stop (hi : chs[i]? = some c) {x : ℕ}
    (hx : (∃ c', chs[i + 1]? = some c' ∧ x = c'.start) ∨
      i + 1 = chs.length ∧ x = Chapter.extent chs) : G.onward c.stop = G.reading x := by
  refine Chart.onward_eq_of_forall
    (List.ne_nil_of_mem ((h.mem_next_stop hp hG hi).2 hx)) fun y hy => ?_
  obtain ⟨c', hc', rfl⟩ | ⟨hlast, rfl⟩ := hx
  · obtain ⟨c'', hc'', rfl⟩ | ⟨hlast, -⟩ := (h.mem_next_stop hp hG hi).1 hy
    · rw [Option.some.inj (hc''.symm.trans hc')]
    · exact absurd (List.getElem?_eq_some_iff.1 hc').1 hlast.not_lt
  · obtain ⟨c'', hc'', -⟩ | ⟨-, rfl⟩ := (h.mem_next_stop hp hG hi).1 hy
    · exact absurd (List.getElem?_eq_some_iff.1 hc'').1 hlast.not_lt
    · rfl

include h hG in
theorem reading_end : G.reading (Chapter.extent chs) = 1 := by
  have hfinish := (hG _ le_rfl).trans h.finish
  rw [Chart.reading_eq, Chart.onward_of_next_eq_nil (by rw [hfinish]), hfinish, just_nil, one_mul]

include h hp hmarks hG in
/-- **The sentences are read** one after the other. -/
theorem reading_chapters (l : List Chapter) : ∀ (pre : List Chapter) (c : Chapter),
    chs = pre ++ c :: l →
      G.reading c.start = (Behaviour.inOrder ((c :: l).map (·.behaviour o))).into 1
        Behaviour.endings := by
  induction l with
  | nil =>
    intro pre c hchs
    have hi : chs[pre.length]? = some c := by simp [hchs]
    have hlength : pre.length + 1 = chs.length := by simp [hchs]
    rw [h.reading_chapter hmarks hG hi, h.onward_stop hp hG hi (.inr ⟨hlength, rfl⟩),
      h.reading_end hG, List.map_singleton, Behaviour.inOrder_cons, Behaviour.inOrder_nil,
      Behaviour.seq_skip]
  | cons c' l ih =>
    intro pre c hchs
    have hi : chs[pre.length]? = some c := by simp [hchs]
    have hi' : chs[pre.length + 1]? = some c' := by simp [hchs]
    rw [h.reading_chapter hmarks hG hi, h.onward_stop hp hG hi (.inl ⟨c', hi', rfl⟩),
      ih (pre ++ [c]) c' (by simp [hchs])]
    simp only [List.map_cons, Behaviour.inOrder_cons, Behaviour.into_seq]

include h in
theorem exists_first : ∃ c rest, chs = c :: rest ∧ c.start = 0 := by
  obtain ⟨c, rest, hchs⟩ := List.exists_cons_of_ne_nil h.nonempty
  refine ⟨c, rest, hchs, ?_⟩
  have hc : chs[0]? = some c := by rw [hchs]; rfl
  exact h.contiguous hc

/-- The blocks that may be reached, in some sentence or where the division ends. -/
def Live (chs : List Chapter) (b : ℕ) : Prop :=
  b = Chapter.extent chs ∨ ∃ (i : ℕ) (c : Chapter), chs[i]? = some c ∧ c.Live b

include h hG in
theorem chart_eq (hi : chs[i]? = some c) (hb : c.Has b) (hne : b ≠ c.stop) :
    G b = c.last.chart b := by
  rw [hG b (h.has_lt_extent hi hb).le, h.chart hi b hb, if_neg hne]

include h hp hG in
theorem live_next (hb : Live chs b) {x : ℕ} (hx : x ∈ (G b).next) : Live chs x := by
  obtain rfl | ⟨i, c, hi, hlive⟩ := hb
  · rw [hG _ le_rfl, h.finish] at hx
    exact absurd hx List.not_mem_nil
  have hdrawn := h.drawn c (List.mem_of_getElem? hi)
  by_cases hstop : b = c.stop
  · obtain ⟨c', hi', rfl⟩ | ⟨-, rfl⟩ := (h.mem_next_stop hp hG hi).1 (hstop ▸ hx)
    · exact .inr ⟨_, c', hi', (h.drawn c' (List.mem_of_getElem? hi')).live_start⟩
    · exact .inl rfl
  · rw [h.chart_eq hG hi hlive.1 hstop] at hx
    exact .inr ⟨i, c, hi, hdrawn.live_next hlive hx⟩

include h hp hG in
/-- Among the blocks that may be reached, those that lead nowhere are where the program ends. -/
theorem stops_iff (hb : Live chs b) : (G b).Stops ↔ Chart.IsSink (G b) := by
  obtain rfl | ⟨i, c, hi, hlive⟩ := hb
  · simp [hG _ le_rfl, h.finish, Spot.Stops, Chart.IsSink]
  have hdrawn := h.drawn c (List.mem_of_getElem? hi)
  by_cases hstop : b = c.stop
  · subst hstop
    have hflags : (G c.stop).flags = (c.last.chart c.stop).flags := by
      rw [hG _ (h.has_lt_extent hi hlive.1).le, h.chart hi _ hlive.1, if_pos rfl]
    obtain ⟨x, hx⟩ : ∃ x, x ∈ (G c.stop).next := by
      obtain hlast | hlt := Nat.eq_or_lt_of_le (List.getElem?_eq_some_iff.1 hi).1
      · exact ⟨_, (h.mem_next_stop hp hG hi).2 (.inr ⟨hlast, rfl⟩)⟩
      · exact ⟨_, (h.mem_next_stop hp hG hi).2 (.inl ⟨_, List.getElem?_eq_getElem hlt, rfl⟩)⟩
    refine iff_of_false ?_ (List.ne_nil_of_mem hx)
    rw [Spot.Stops, hflags]
    exact hdrawn.not_stops
  · rw [h.chart_eq hG hi hlive.1 hstop]
    exact hdrawn.stops_iff hlive hstop

include h hp hmarks hG in
/-- **The paths** from the first block read the traces of the sentences. -/
theorem reads_eq_traces : {w | Chart.Reads G Spot.Stops 0 w} =
    (Behaviour.inOrder (chs.map (·.behaviour o))).traces := by
  obtain ⟨c, rest, hchs, hzero⟩ := h.exists_first
  have hread := h.reading_chapters hp hmarks hG rest [] c hchs
  rw [← hchs, hzero, Behaviour.into_endings] at hread
  have hfirst : Live chs 0 :=
    .inr ⟨0, c, by rw [hchs]; rfl, hzero ▸ (h.drawn c (by simp [hchs])).live_start⟩
  have hnext : ∀ b, Live chs b → ∀ x ∈ (G b).next, Live chs x := fun b hb x => h.live_next hp hG hb
  rw [← hread]
  ext w
  exact ⟨fun hw => hw.mono_stop hfirst hnext fun b hb => (h.stops_iff hp hG hb).1,
    fun hw => Chart.Reads.mono_stop hw hfirst hnext fun b hb => (h.stops_iff hp hG hb).2⟩

end Reading

end Draft

/-! ### Programs -/

/-- Nothing is spliced in where nothing is performed. -/
theorem Build.graftGroups_eq_ok {o : Options} {g : Graph} (hg : g.groups.size = 0) :
    Build.graftGroups o g = .ok ((), g) := by
  rw [Build.graftGroups]
  change
    (do for i in List.range g.groups.size do Build.graft o.maxGraftDepth i : Graph.Edit Unit) g =
    .ok ((), g)
  rw [hg]
  rfl

namespace ProgramUnit

variable {o : Options} {u : ProgramUnit} {flow : ProgramFlow}

theorem Yields.exists_reads (h : u.Yields o flow) (hu : u.IsStructured) {d : DivisionText}
    (hd : u.division = some d) : (flow.graph.chart 0).flags.start = true ∧ flow.graph.roots = [0] ∧
      {w | Chart.Reads flow.graph.chart Spot.Stops 0 w} = (d.meaning o (u.id + 1)).traces := by
  obtain ⟨s, chs, s', hdraft, hlandmarks, hrun, hgraph, -, -⟩ := h.exists_draft hd
  obtain ⟨s₁, c, s₂, hlinks, -, -, -, hfollows, -, hrun'⟩ :=
    hdraft.exists_captured (d.filed_plan u.program (u.id + 1))
  have hp := DivisionText.straight_plan (hu.declaratives d hd) u.program (u.id + 1)
  have hall : Chapter.allMarks chs = [] := by
    rw [← List.map_eq_nil_iff (f := Prod.snd), hdraft.landmarks, hlandmarks, hu.landmarks]
  have hmarks : ∀ c ∈ chs, c.marks = [] := List.flatMap_eq_nil_iff.1 hall
  -- no jump is drawn
  have hjumps : ∀ b c, ¬ s.Jumps b c := by
    rintro b c (⟨w, hw, -⟩ | ⟨w, hw, -⟩)
    · obtain ⟨a, ha, hm, -⟩ := hdraft.mem_nextSentences.1 hw
      exact absurd (hmarks a ha ▸ hm) List.not_mem_nil
    · obtain ⟨a, ha, hm⟩ := hdraft.mem_jumps.1 hw
      exact absurd (hmarks a ha ▸ hm) List.not_mem_nil
  -- and no range is spliced in
  have hperforms : s.pending.performs = [] := by
    rw [hdraft.performs, hall]
    rfl
  have hgroups : s₂.graph.groups.size = 0 := by
    rw [hfollows.size, hlinks.groups, hdraft.size_groups, hperforms]
    rfl
  have hsame : flow.graph = s₂.graph := by
    rw [hgraph]
    rw [hrun'] at hrun
    split at hrun
    · rw [Build.editGraph_eq_ok (Build.graftGroups_eq_ok hgroups)] at hrun
      obtain ⟨-, rfl⟩ := Prod.mk.inj (Except.ok.inj hrun)
      rfl
    · obtain ⟨-, rfl⟩ := Prod.mk.inj (Except.ok.inj hrun)
      rfl
  have hG : ∀ b ≤ Chapter.extent chs, flow.graph.chart b = s.graph.chart b := by
    intro b hb
    have hlt : b < s₁.graph.size := by
      rw [hlinks.size, hdraft.size]
      exact Nat.lt_succ_of_le hb
    rw [hsame, hfollows.keeps.chart b hlt, hlinks.chart_eq (hjumps b)]
  refine ⟨?_, ?_, ?_⟩
  · rw [hG 0 (Nat.zero_le _), hdraft.begins]
  · rw [hsame, hfollows.keeps.roots, hlinks.roots, hdraft.roots_eq hp]
  · rw [hdraft.reads_eq_traces hp hmarks hG, hdraft.inOrder_behaviour, d.texts_plan]
    rfl

end ProgramUnit

/-- **Structured programs.** For every tree in which no statement waits for the end of a division,
and for every options, the words that are read along the paths of a graph from the block that starts
it to one where the program ends are the traces of its sentences. -/
theorem StatementTree.build_traces (t : StatementTree) (o : Options)
    (ht : ∀ u ∈ t.units, u.IsStructured) : ∃ flows, t.build o = .ok flows ∧
      List.Forall₂ (fun u flow => ∀ d ∈ u.division,
        (flow.graph.chart 0).flags.start = true ∧ flow.graph.roots = [0] ∧
          {w | Chart.Reads flow.graph.chart Spot.Stops 0 w} = (d.meaning o (u.id + 1)).traces)
        t.units flows := by
  obtain ⟨flows, hbuild, hflows⟩ := t.exists_build o
  refine ⟨flows, hbuild, List.forall₂_iff_get.2 ⟨hflows.length_eq, fun i hi hi' d hd => ?_⟩⟩
  exact (hflows.get hi hi').exists_reads (ht _ (List.get_mem _ _)) hd

/-- A program that displays something or stops, and displays something else. -/
def displayOrStop : StatementTree :=
  let display : Statement := .mk (.ordinary .display []) none .unknown
  let stop : Statement := .mk (.terminate .stopRun) none .unknown
  { programs := [.mk "A" .program (some
      { sentences := [[.mk (.ifThen [display] (some [stop])) none .unknown], [display]] }) []] }

theorem traces_displayOrStop : (∀ u ∈ displayOrStop.units, u.IsStructured) ∧
    ∃ flows, displayOrStop.build {} = .ok flows ∧ List.Forall₂ (fun u flow => ∀ d ∈ u.division,
      (flow.graph.chart 0).flags.start = true ∧ flow.graph.roots = [0] ∧
        {w | Chart.Reads flow.graph.chart Spot.Stops 0 w} = (d.meaning {} (u.id + 1)).traces)
      displayOrStop.units flows := by
  have hstructured : ∀ u ∈ displayOrStop.units, u.IsStructured := by
    intro u hu
    obtain rfl := List.mem_singleton.1 hu
    exact ⟨rfl, fun d hd => Option.some.inj hd ▸ rfl⟩
  exact ⟨hstructured, displayOrStop.build_traces {} hstructured⟩

end CobolFlow
