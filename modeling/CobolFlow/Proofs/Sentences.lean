import CobolFlow.Proofs.Calls.Cycles
import CobolFlow.Proofs.Division.Straight
import Mathlib

/-!
# Edges between sentences

In a division without DECLARATIVES every block but the last belongs to one sentence, and there are
few ways from one sentence to another: control falls from the end of a sentence into the next, or
out of the division; NEXT SENTENCE leads to the next, and a GO TO to where one of its targets
begins. A GO TO may also lead back to the beginning of its own sentence. Every other edge stays
where it is.

## Main definitions

* `Procedures.InSentence`, `Procedures.Together` — the blocks of a sentence
* `ProgramUnit.GoesTo` — the targets of a GO TO, with those that ALTER adds
* `ProgramUnit.JoinsSentences` — which edges lead from one sentence to another

## Main results

* `StatementTree.build_joinsSentences` — for every tree without DECLARATIVES
-/

namespace CobolFlow

open Scope

/-- The targets that a GO TO names. -/
def Jump.targets : Jump → List QualifiedName
  | .simple target => [target]
  | .conditional targets => targets

namespace Procedures

variable (c : Procedures)

/-- The block with which a sentence ends. -/
def lastBlock? (j : SentenceId) : Option BlockId := c.sentences[j]?.bind (·.blocks.getLast?)

/-- The block is one of the sentence's. -/
def InSentence (j : SentenceId) (b : BlockId) : Prop :=
  ∃ t, c.sentences[j]? = some t ∧ b ∈ t.blocks

/-- The two blocks are of one sentence. -/
def Together (b b' : BlockId) : Prop := ∃ j, c.InSentence j b ∧ c.InSentence j b'

variable {c} {j : SentenceId} {b : BlockId}

theorem inSentence_of_firstBlock? (h : c.firstBlock? j = some b) : c.InSentence j b := by
  obtain ⟨t, ht, hb⟩ := Option.bind_eq_some_iff.1 h
  exact ⟨t, ht, List.mem_of_head? hb⟩

theorem inSentence_of_lastBlock? (h : c.lastBlock? j = some b) : c.InSentence j b := by
  obtain ⟨t, ht, hb⟩ := Option.bind_eq_some_iff.1 h
  exact ⟨t, ht, List.mem_of_getLast? hb⟩

end Procedures

namespace ProgramFlow

variable (flow : ProgramFlow)

/-- A block and the first block of the next sentence, if the block is the last of its own. -/
def Falls (b c : BlockId) : Prop :=
  ∃ j, flow.procedures.lastBlock? j = some b ∧ flow.procedures.firstBlock? (j + 1) = some c

/-- The last block of the last sentence and the block that ends the graph. -/
def Finishes (last b c : BlockId) : Prop :=
  flow.procedures.lastBlock? (flow.procedures.sentences.size - 1) = some b ∧ c = last

/-- A block that ends with NEXT SENTENCE and the first block of the next sentence. -/
def Skips (b c : BlockId) : Prop :=
  ∃ j, flow.procedures.InSentence j b ∧ flow.procedures.firstBlock? (j + 1) = some c ∧
    ∃ i ∈ (flow.graph.chart b).nodes.getLast?, i.tag = .nextSentence

/-- The simple GO TO with which the procedure begins that a name stands for. -/
def leadingJump? (n : QualifiedName) : Option NodeId :=
  ((flow.procedures.entrance? n).bind fun b => (flow.graph.chart b).nodes.head?).bind fun i =>
    if i.tag = .goToSimple then some i.node else none

end ProgramFlow

namespace ProgramUnit

variable (u : ProgramUnit) (flow : ProgramFlow)

/-- The name is a target of the GO TO at the node: the GO TO names it, or an ALTER adds it. -/
inductive GoesTo (node : NodeId) (n : QualifiedName) : Prop
  | named {span : Span} {j : Jump} (h : .jump node span j ∈ u.landmarks) (hn : n ∈ j.targets)
  | altered {span : Span} {target : QualifiedName}
      (h : .jump node span (.simple target) ∈ u.landmarks)
    {span' : Span} {clauses : List AlterClause} (hclauses : .alter span' clauses ∈ u.landmarks)
    {clause : AlterClause} (hclause : clause ∈ clauses) (hn : clause.target = n)
    (hleading : flow.leadingJump? clause.altered = some node)

/-- A block that ends with a GO TO and the block with which one of its targets begins. -/
def Jumps (b c : BlockId) : Prop :=
  ∃ i ∈ (flow.graph.chart b).nodes.getLast?, ∃ n, u.GoesTo flow i.node n ∧
    flow.procedures.entrance? n = some c

/-- Which edges lead from one sentence to another, in a graph that the block `last` ends. -/
structure JoinsSentences (last : BlockId) : Prop where
  finish : (flow.graph.chart last).flags.finish = true
  inSentence : ∀ b < last, ∃! j, flow.procedures.InSentence j b
  outside : ∀ j, ¬ flow.procedures.InSentence j last
  joins : ∀ b ≤ last, ∀ c ≤ last, c ∈ (flow.graph.chart b).next →
    (¬ flow.procedures.Together b c ↔ flow.Falls b c ∨ flow.Finishes last b c ∨ flow.Skips b c ∨
      u.Jumps flow b c ∧ ¬ flow.procedures.Together b c)

end ProgramUnit

/-! ### The sentences of a draft -/

namespace Draft

variable {o : Options} {s : Scope} {p : Plan} {chs : List Chapter} {c' : Procedures} {b b' j : ℕ}
  {c : Chapter}

section Blocks

variable (h : Draft o s p chs) (hp : p.Straight) (hbare : c'.bare = s.procedures.bare)
include h hp hbare

/-- Sentences are chapters, whatever is known of their entries. -/
theorem exists_sentence (hj : chs[j]? = some c) :
    ∃ t, c'.sentences[j]? = some t ∧ t.blocks = c.blocks := by
  obtain ⟨t, ht, hblocks, -⟩ :=
    h.sentence c (List.mem_of_getElem? hj) j (h.sentence_eq hp hj)
  have hget := c'.getElem?_bare j
  rw [hbare, Procedures.getElem?_bare, ht] at hget
  obtain ⟨t', ht', heq⟩ := Option.map_eq_some_iff.1 hget.symm
  exact ⟨t', ht', (congrArg Sentence.blocks heq).trans hblocks⟩

theorem size_sentences : c'.sentences.size = chs.length :=
  (Procedures.size_eq_of_bare hbare).trans (h.length_chapters hp).symm

theorem inSentence_iff : c'.InSentence j b ↔ ∃ c, chs[j]? = some c ∧ c.Has b := by
  constructor
  · rintro ⟨t, ht, hb⟩
    have hj : j < chs.length :=
      h.size_sentences hp hbare ▸ (Array.getElem?_eq_some_iff.1 ht).1
    obtain ⟨t', ht', hblocks⟩ := h.exists_sentence hp hbare (List.getElem?_eq_getElem hj)
    obtain rfl := Option.some.inj (ht.symm.trans ht')
    exact ⟨_, List.getElem?_eq_getElem hj,
      (h.drawn _ (List.getElem_mem hj)).mem_blocks.1 (hblocks ▸ hb)⟩
  · rintro ⟨c, hj, hb⟩
    obtain ⟨t, ht, hblocks⟩ := h.exists_sentence hp hbare hj
    exact ⟨t, ht, hblocks ▸ (h.drawn c (List.mem_of_getElem? hj)).mem_blocks.2 hb⟩

theorem lastBlock?_eq (hj : chs[j]? = some c) : c'.lastBlock? j = some c.stop := by
  obtain ⟨t, ht, hblocks⟩ := h.exists_sentence hp hbare hj
  rw [Procedures.lastBlock?, ht, Option.bind_some, hblocks,
    (h.drawn c (List.mem_of_getElem? hj)).getLast?_blocks]

theorem firstBlock?_of_chapter (hj : chs[j]? = some c) : c'.firstBlock? j = some c.start := by
  obtain ⟨t, ht, hblocks⟩ := h.exists_sentence hp hbare hj
  rw [Procedures.firstBlock?, ht, Option.bind_some, Sentence.firstBlock?, hblocks,
    (h.drawn c (List.mem_of_getElem? hj)).head?_blocks]

/-- Chapters do not overlap, and so neither do sentences. -/
theorem existsUnique_inSentence (hb : b < Chapter.extent chs) : ∃! j, c'.InSentence j b := by
  obtain ⟨j, c, hj, hhas⟩ := h.exists_has hb
  refine ⟨j, (h.inSentence_iff hp hbare).2 ⟨c, hj, hhas⟩, fun k hk => ?_⟩
  obtain ⟨c₁, hk, hhas₁⟩ := (h.inSentence_iff hp hbare).1 hk
  exact h.eq_of_has hk hj hhas₁ hhas

theorem not_together_of_ne {k : ℕ} (hb : c'.InSentence j b) (hb' : c'.InSentence k b')
    (hne : j ≠ k) : ¬ c'.Together b b' := by
  rintro ⟨i, hi, hi'⟩
  obtain ⟨a, hi, hhas⟩ := (h.inSentence_iff hp hbare).1 hi
  obtain ⟨a₁, hj, hhas₁⟩ := (h.inSentence_iff hp hbare).1 hb
  obtain ⟨a', hi', hhas'⟩ := (h.inSentence_iff hp hbare).1 hi'
  obtain ⟨a₂, hk, hhas₂⟩ := (h.inSentence_iff hp hbare).1 hb'
  exact hne ((h.eq_of_has hj hi hhas₁ hhas).trans (h.eq_of_has hi' hk hhas' hhas₂))

theorem together {i : ℕ} (hi : chs[i]? = some c) (hb : c.Has b) (hb' : c.Has b') :
    c'.Together b b' :=
  ⟨i, (h.inSentence_iff hp hbare).2 ⟨c, hi, hb⟩, (h.inSentence_iff hp hbare).2 ⟨c, hi, hb'⟩⟩

end Blocks

/-- The edges between chapters say nothing. -/
theorem nodes_eq (h : Draft o s p chs) {i : ℕ} (hi : chs[i]? = some c) (hb : c.Has b) :
    (s.graph.chart b).nodes = (c.last.chart b).nodes := by
  rw [h.chart hi b hb]
  split <;> rfl

/-- An exit is taken at the end of a block that is not the last of its chapter. -/
theorem signs_of_mark (h : Draft o s p chs) (hc : c ∈ chs) {m : Landmark} (hm : (b, m) ∈ c.marks)
    {e : Exit} (he : m.exit = some e) :
    c.Has b ∧ b < c.stop ∧ e.Signs (s.graph.chart b).nodes := by
  have hdrawn := h.drawn c hc
  obtain ⟨hb, hlt⟩ := hdrawn.has_of_mem_blocks
    (Landmarks.mem_blocks.2 ⟨m, hm, Landmark.isLast_of_exit he⟩)
  obtain ⟨i, hi⟩ := List.mem_iff_getElem?.1 hc
  exact ⟨hb, hlt, h.nodes_eq hi hb ▸ hdrawn.fragment.signed e b ⟨m, hm, he⟩⟩

/-- A jump from a block of a chapter is made at a landmark of the chapter. -/
theorem exists_mark_of_has (h : Draft o s p chs) (hc : c ∈ chs) (hb : c.Has b) {x : ℕ}
    (hjump : s.Jumps b x) : ∃ m e, (b, m) ∈ c.marks ∧ m.exit = some e := by
  obtain ⟨c', hc', m, e, hm, he⟩ := h.exists_mark_of_jumps hjump
  obtain rfl := h.eq_of_mem_of_has hc hc' hb (h.signs_of_mark hc' hm he).1
  exact ⟨m, e, hm, he⟩

end Draft

/-! ### Where the jumps of a program lead -/

namespace Build

theorem mem_jumpTargets_iff {a : Alterations} {w : PendingJump} {n : QualifiedName} :
    n ∈ jumpTargets a w ↔ n ∈ w.jump.targets ∨ (∃ target, w.jump = .simple target) ∧
      (w.node, n) ∈ a := by
  cases hjump : w.jump with
  | simple target => simp [jumpTargets, hjump, Jump.targets, Alterations.of, and_comm]
  | conditional targets => simp [jumpTargets, hjump, Jump.targets]

end Build

/-- What a result has in common with a scope whose jumps are not drawn. -/
structure ProgramFlow.StemsFrom (flow : ProgramFlow) (s : Scope) : Prop where
  bare : flow.procedures.bare = s.procedures.bare
  nodes : ∀ b < s.graph.size, (flow.graph.chart b).nodes = (s.graph.chart b).nodes

namespace ProgramUnit

variable {o : Options} {u : ProgramUnit} {flow : ProgramFlow} {s : Scope} {p : Plan}
  {chs : List Chapter} {b c : ℕ}

theorem alteration?_eq_some (h : flow.StemsFrom s) {clause : AlterClause}
    {node : NodeId} {n : QualifiedName} (ha : Build.alteration? s clause = some (node, n)) :
    clause.target = n ∧ flow.leadingJump? clause.altered = some node := by
  obtain ⟨q, hq, ha⟩ := Option.bind_eq_some_iff.1 ha
  obtain ⟨r, -, ha⟩ := Option.bind_eq_some_iff.1 ha
  obtain ⟨m, hm, heq⟩ := Option.map_eq_some_iff.1 ha
  obtain ⟨rfl, rfl⟩ := Prod.mk.inj heq
  refine ⟨rfl, ?_⟩
  obtain ⟨i, hi, hm⟩ := Option.bind_eq_some_iff.1 hm
  obtain ⟨b, hb, hi⟩ := Option.bind_eq_some_iff.1 hi
  have hentrance : flow.procedures.entrance? clause.altered = some b := by
    rw [Procedures.entrance?_eq h.bare, Procedures.entrance?, hq]
    exact hb
  have hlt : b < s.graph.size := by
    by_contra hge
    rw [Graph.chart_of_size_le (not_lt.1 hge)] at hi
    cases hi
  rw [ProgramFlow.leadingJump?, hentrance, Option.bind_some, h.nodes b hlt, hi]
  exact hm

/-- Everything that a GO TO can go to is named by it, or added by an ALTER. -/
theorem goesTo_of_jumpTargets (hdraft : Draft o s p chs) (hlandmarks : p.landmarks = u.landmarks)
    (h : flow.StemsFrom s) {w : PendingJump} (hw : w ∈ s.pending.jumps) {n : QualifiedName}
    (hn : n ∈ Build.jumpTargets s.alterations w) : u.GoesTo flow w.node n := by
  obtain ⟨a, ha, hm⟩ := hdraft.mem_jumps.1 hw
  have hmark : .jump w.node w.span w.jump ∈ u.landmarks := by
    rw [← hlandmarks, ← hdraft.landmarks]
    exact List.mem_map.2 ⟨_, List.mem_flatMap.2 ⟨a, ha, hm⟩, rfl⟩
  obtain hn | ⟨⟨target, htarget⟩, hn⟩ := Build.mem_jumpTargets_iff.1 hn
  · exact .named hmark hn
  · obtain ⟨alter, halter, hn⟩ := List.mem_flatMap.1 hn
    obtain ⟨clause, hclause, hn⟩ := List.mem_filterMap.1 hn
    obtain ⟨htarget', hleading⟩ := alteration?_eq_some h hn
    rw [hdraft.alters, hlandmarks] at halter
    obtain ⟨m, hm', halter⟩ := List.mem_filterMap.1 halter
    cases m with
    | alter span clauses =>
      obtain rfl := Option.some.inj halter
      exact .altered (htarget ▸ hmark) hm' hclause htarget' hleading
    | jump node span j => exact nomatch halter
    | nextSentence => exact nomatch halter
    | call node span range => exact nomatch halter

/-- A jump that has been drawn is NEXT SENTENCE or a GO TO. -/
theorem cases_of_jumps (hdraft : Draft o s p chs) (hp : p.Straight)
    (hlandmarks : p.landmarks = u.landmarks) (h : flow.StemsFrom s) (hjump : s.Jumps b c) :
    b < Chapter.extent chs ∧ (flow.Skips b c ∨ u.Jumps flow b c) := by
  obtain ⟨w, hw, rfl, hc⟩ | ⟨w, hw, rfl, n, hn, hc⟩ := hjump
  · obtain ⟨a, ha, hm, hsentence⟩ := hdraft.mem_nextSentences.1 hw
    obtain ⟨i, hi⟩ := List.mem_iff_getElem?.1 ha
    obtain rfl : i = w.sentence := Option.some.inj ((hdraft.sentence_eq hp hi).symm.trans hsentence)
    obtain ⟨hb, -, instr, hlast, htag⟩ := hdraft.signs_of_mark ha hm rfl
    have hlt := hdraft.has_lt_extent hi hb
    refine ⟨hlt, .inl ⟨_, (hdraft.inSentence_iff hp h.bare).2 ⟨a, hi, hb⟩, ?_, instr, ?_, htag⟩⟩
    · rwa [Procedures.firstBlock?_eq h.bare]
    · rwa [h.nodes _ (hdraft.lt_size hlt)]
  · obtain ⟨a, ha, hm⟩ := hdraft.mem_jumps.1 hw
    obtain ⟨i, hi⟩ := List.mem_iff_getElem?.1 ha
    obtain ⟨hb, -, instr, hlast, hnode⟩ := hdraft.signs_of_mark ha hm rfl
    have hlt := hdraft.has_lt_extent hi hb
    refine ⟨hlt, .inr ⟨instr, ?_, n, ?_, ?_⟩⟩
    · rwa [h.nodes _ (hdraft.lt_size hlt)]
    · exact hnode ▸ goesTo_of_jumpTargets hdraft hlandmarks h hw hn
    · rwa [Procedures.entrance?_eq h.bare]

/-- In normal mode a graph is its draft with the jumps drawn, before copies. -/
theorem Yields.exists_linked (h : u.Yields o flow) (ho : o.isExtended = false) {d : DivisionText}
    (hd : u.division = some d) : ∃ s chs s₁, Draft o s (d.plan u.program (u.id + 1)) chs ∧
      (d.plan u.program (u.id + 1)).landmarks = u.landmarks ∧ flow.StemsFrom s ∧
      Links s s₁ s.Jumps s.jumpComplaints ∧ s₁.graph.Keeps s₁.graph.size flow.graph := by
  obtain ⟨s, chs, s', hdraft, hlandmarks, hrun, hgraph, hprocedures, -⟩ := h.exists_draft hd
  obtain ⟨s₁, c, s₂, hlinks, -, -, -, hfollows, -, hrun'⟩ :=
    hdraft.exists_captured (d.filed_plan u.program (u.id + 1))
  rw [hrun', ho] at hrun
  obtain ⟨-, rfl⟩ := Prod.mk.inj (Except.ok.inj hrun)
  refine ⟨s, chs, s₁, hdraft, hlandmarks, ⟨?_, fun b hb => ?_⟩, hlinks, hgraph ▸ hfollows.keeps⟩
  · rw [hprocedures, hfollows.procedures, hlinks.bare]
  · rw [hgraph, hfollows.keeps.chart b (hlinks.size ▸ hb), hlinks.nodes]

theorem Yields.exists_joinsSentences (h : u.Yields o flow) (ho : o.isExtended = false)
    {d : DivisionText} (hd : u.division = some d) (hplain : d.declaratives = []) :
    ∃ last, u.JoinsSentences flow last := by
  obtain ⟨s, chs, s₁, hdraft, hlandmarks, hstems, hlinks, hkeeps⟩ := h.exists_linked ho hd
  have hp := DivisionText.straight_plan hplain u.program (u.id + 1)
  have hsize : s₁.graph.size = Chapter.extent chs + 1 := hlinks.size.trans hdraft.size
  have hnext : ∀ b ≤ Chapter.extent chs, ∀ c ∈ (flow.graph.chart b).next,
      c ∈ (s.graph.chart b).next ∨ s.Jumps b c := by
    intro b hb c hc
    rw [hkeeps.chart b (by omega)] at hc
    exact hlinks.mem_next.1 hc
  have houtside : ∀ j, ¬ flow.procedures.InSentence j (Chapter.extent chs) := by
    intro j hj
    obtain ⟨a, hj, hhas⟩ := (hdraft.inSentence_iff hp hstems.bare).1 hj
    exact (hdraft.has_lt_extent hj hhas).false
  refine ⟨Chapter.extent chs,
    { finish := ?_
      inSentence := fun b hb => hdraft.existsUnique_inSentence hp hstems.bare hb
      outside := houtside
      joins := fun b hb c _ hc => ⟨fun happart => ?_, ?_⟩ }⟩
  · obtain ⟨more, hchart, -⟩ := hlinks.chart (Chapter.extent chs)
    rw [hkeeps.chart _ (by omega), hchart, hdraft.finish]
  · obtain hc | hjump := hnext b hb c hc
    · obtain rfl | hlt := hb.eq_or_lt
      · rw [hdraft.finish] at hc
        exact absurd hc List.not_mem_nil
      obtain ⟨i, a, hi, hhas⟩ := hdraft.exists_has hlt
      obtain hhas' | ⟨rfl, ⟨a', hi', rfl⟩ | ⟨hlast, rfl⟩⟩ := hdraft.mem_next hp hi hhas hc
      · exact absurd (hdraft.together hp hstems.bare hi hhas hhas') happart
      · exact .inl ⟨i, hdraft.lastBlock?_eq hp hstems.bare hi,
          hdraft.firstBlock?_of_chapter hp hstems.bare hi'⟩
      · refine .inr (.inl ⟨?_, rfl⟩)
        rw [hdraft.size_sentences hp hstems.bare, ← hlast, Nat.add_sub_cancel]
        exact hdraft.lastBlock?_eq hp hstems.bare hi
    · obtain ⟨-, hskips | hjumps⟩ := cases_of_jumps hdraft hp hlandmarks hstems hjump
      · exact .inr (.inr (.inl hskips))
      · exact .inr (.inr (.inr ⟨hjumps, happart⟩))
  · rintro (⟨j, hb, hc⟩ | ⟨-, rfl⟩ | ⟨j, hb, hc, -⟩ | ⟨-, happart⟩)
    · exact hdraft.not_together_of_ne hp hstems.bare (Procedures.inSentence_of_lastBlock? hb)
        (Procedures.inSentence_of_firstBlock? hc) (Nat.succ_ne_self j).symm
    · exact fun ⟨j, _, hj⟩ => houtside j hj
    · exact hdraft.not_together_of_ne hp hstems.bare hb
        (Procedures.inSentence_of_firstBlock? hc) (Nat.succ_ne_self j).symm
    · exact happart

end ProgramUnit

/-- **Edges between sentences.** Without DECLARATIVES, and in normal mode, an edge among the blocks
that the statements have made leads from one sentence to another if and only if control falls from
the end of a sentence into the next or out of the division, or NEXT SENTENCE leads to the next, or
a GO TO leads to one of its targets and this does not begin in its own sentence. -/
theorem StatementTree.build_joinsSentences (t : StatementTree) (o : Options)
    (ho : o.isExtended = false)
    (ht : ∀ u ∈ t.units, ∀ d ∈ u.division, d.declaratives = []) : ∃ flows, t.build o = .ok flows ∧
      List.Forall₂ (fun u flow => u.division.isSome → ∃ last, u.JoinsSentences flow last)
        t.units flows := by
  obtain ⟨flows, hbuild, hflows⟩ := t.exists_build o
  refine ⟨flows, hbuild, List.forall₂_iff_get.2 ⟨hflows.length_eq, fun i hi hi' hd => ?_⟩⟩
  obtain ⟨d, hd⟩ := Option.isSome_iff_exists.1 hd
  exact (hflows.get hi hi').exists_joinsSentences ho hd (ht _ (List.get_mem _ _) d hd)

/-- A paragraph that consists of a GO TO back to it. -/
def jumpToItself : StatementTree where
  programs := [.mk "A" .program (some { paragraphs := [
    { name := "P", sentences := [[.mk (.goTo [{ name := "P" }] false) none .unknown]] }] }) []]

theorem joinsSentences_jumpToItself : (∀ u ∈ jumpToItself.units, ∀ d ∈ u.division,
      d.declaratives = []) ∧ ∃ flows, jumpToItself.build {} = .ok flows ∧
        List.Forall₂ (fun u flow => u.division.isSome → ∃ last, u.JoinsSentences flow last)
          jumpToItself.units flows := by
  have hplain : ∀ u ∈ jumpToItself.units, ∀ d ∈ u.division, d.declaratives = [] := by
    rintro u hu d hd
    obtain rfl := List.mem_singleton.1 hu
    obtain rfl := Option.some.inj hd
    rfl
  exact ⟨hplain, jumpToItself.build_joinsSentences {} rfl hplain⟩

/-- A GO TO may lead to the beginning of its own sentence: block 1 of `jumpToItself` does, and so
an edge to a target of a GO TO need not lead to another sentence. -/
theorem together_jumpToItself : ∃ u flow, jumpToItself.units = [u] ∧
    jumpToItself.build {} = .ok [flow] ∧ (flow.graph.chart 3).flags.finish = true ∧
    1 ∈ (flow.graph.chart 1).next ∧ ¬ (¬ flow.procedures.Together 1 1 ↔ flow.Falls 1 1 ∨
      flow.Finishes 3 1 1 ∨ flow.Skips 1 1 ∨ u.Jumps flow 1 1) := by
  have hlook : (jumpToItself.build {}).toOption.map (·.map fun flow =>
      ((flow.graph.chart 3).flags.finish, flow.graph.chart 1 |>.next,
        (flow.graph.chart 1).nodes.getLast?, flow.procedures.entrance? { name := "P" },
        flow.procedures.sentences.toList.map (·.blocks))) =
      some [(true, [1], some { node := 3, tag := .goToSimple }, some 1, [[0], [1, 2]])] := by
    cbv
  obtain ⟨flows, hflows, hlook⟩ := Option.map_eq_some_iff.1 hlook
  obtain ⟨flow, rfl, hflow⟩ := List.map_eq_singleton_iff.1 hlook
  simp only [Prod.mk.injEq] at hflow
  obtain ⟨hfinish, hnext, hlast, hentrance, hblocks⟩ := hflow
  have hbuild : jumpToItself.build {} = .ok [flow] := by
    cases h : jumpToItself.build {} with
    | error e => rw [h] at hflows; cases hflows
    | ok flows => rw [h] at hflows; exact congrArg _ (Option.some.inj hflows)
  have htogether : flow.procedures.Together 1 1 := by
    have hsentence : (flow.procedures.sentences.toList.map (·.blocks))[1]? = some [1, 2] := by
      rw [hblocks]
      rfl
    rw [List.getElem?_map, Array.getElem?_toList] at hsentence
    obtain ⟨t, ht, hblocks⟩ := Option.map_eq_some_iff.1 hsentence
    exact ⟨1, ⟨t, ht, by simp [hblocks]⟩, ⟨t, ht, by simp [hblocks]⟩⟩
  have hnamed : ∀ u ∈ jumpToItself.units,
      Landmark.jump 3 .unknown (.simple { name := "P" }) ∈ u.landmarks := by
    decide
  obtain ⟨u, hu⟩ : ∃ u, jumpToItself.units = [u] := ⟨_, rfl⟩
  have hjumps : u.Jumps flow 1 1 :=
    ⟨_, hlast, { name := "P" }, .named (hnamed u (by simp [hu])) (by decide), hentrance⟩
  exact ⟨u, flow, hu, hbuild, hfinish, by simp [hnext],
    fun h => h.2 (.inr (.inr (.inr hjumps))) htogether⟩

end CobolFlow
