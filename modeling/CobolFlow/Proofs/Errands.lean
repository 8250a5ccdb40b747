import CobolFlow.Proofs.Calls.Unplaced
import CobolFlow.Proofs.Passages
import Mathlib.Data.Set.Card

/-!
# What a plan says of its PERFORMs

Which sentences a range has, which calls are made in them and by which jumps control leaves the
range can all be said of the plan of a division. So but for the numbers of blocks the errand of a
PERFORM is known before a block is drawn.

The jumps that leave a range are counted landmark by landmark. Each leads to the first block of a
passage, through the one slot that leads into that sentence, and so to no passage twice.

## Main definitions

* `Plan.callsIn` — the calls that are made in a sentence
* `Plan.strays` — what is reported of jumps that leave a range from one of its sentences
* `Plan.errand` — a PERFORM without block numbers

## Main results

* `ProgramUnit.Arises.unplaced_errand` — every errand is that of the plan
-/

namespace CobolFlow

open Scope

namespace Procedures.SameNames

variable {c c' : Procedures} (h : SameNames c c')
include h

theorem through?_eq : c'.through? = c.through? := by
  funext r first
  rw [through?, through?, h.find?_eq]

theorem performed?_eq : c'.performed? = c.performed? := by
  funext r
  rw [performed?, performed?, h.find?_eq, h.through?_eq]

theorem covered?_eq : c'.covered? = c.covered? := by
  have hbetween : Build.proceduresBetween c' = Build.proceduresBetween c := by
    rw [h]
    rfl
  have hsentences : c'.sentencesOf = c.sentencesOf := funext h.sentencesOf_eq
  funext r
  rw [covered?, covered?, h.performed?_eq, hbetween, hsentences]

theorem rangeComplaints_eq : c'.rangeComplaints = c.rangeComplaints := by
  have horder : c'.orderComplaints = c.orderComplaints := by
    rw [h]
    rfl
  funext r span
  rw [rangeComplaints, rangeComplaints, h.find?_eq, h.complaints_eq, h.through?_eq, horder]

end Procedures.SameNames

/-! ### Errands of a plan -/

namespace Plan

variable (p : Plan)

/-- The passage that is a sentence, with its place. -/
def sentence? (j : SentenceId) : Option (Passage × ℕ) :=
  p.passages.zipIdx.find? fun e => e.1.sentence == some j

/-- The sentences in which the calls are made, in the order of the calls. -/
def callers : List (Option SentenceId) :=
  p.passages.flatMap fun q => (q.landmarks.filterMap Landmark.call?).map fun _ => q.sentence

/-- The calls that are made in a sentence. -/
def callsIn (j : SentenceId) : List ℕ :=
  (List.range p.callers.length).filter fun k => p.callers[k]? == some (some j)

/-- Where a landmark of the `i`-th passage leads outside a range. -/
def outside (a : Build.Alterations) (l : List SentenceId) (i : ℕ) (m : Landmark) : Set ℕ :=
  {k | k ∈ p.targets a i m ∧ ∀ j ∈ l, ¬ p.IsAt j k}

/-- What is reported of it for a procedure of the given name. -/
noncomputable def straysAt (a : Build.Alterations) (call : Call) (l : List SentenceId) (i : ℕ)
    (tag : Option String) (m : Landmark) : List Problem :=
  List.replicate (p.outside a l i m).ncard
    { kind := .branchOutOfRange call.range.display (tag.getD "") 0, span := call.span }

/-- What is reported of the jumps that leave a range from one of its sentences. -/
noncomputable def strays (a : Build.Alterations) (call : Call) (l : List SentenceId)
    (j : SentenceId) : List Problem :=
  ((p.sentence? j).map fun e => e.1.landmarks.flatMap (p.straysAt a call l e.2 e.1.tag)).getD []

variable {p} in
/-- Where control stays, nothing is led to. -/
theorem outside_eq_empty {a : Build.Alterations} {l : List SentenceId} {i : ℕ} {m : Landmark}
    (hm : m.exit = none) : p.outside a l i m = ∅ := by
  refine Set.eq_empty_of_forall_notMem fun k hk => ?_
  cases m with
  | call node span range => exact hk.1
  | alter span clauses => exact hk.1
  | jump node span j => exact nomatch hm
  | nextSentence => exact nomatch hm

/-- A PERFORM without block numbers. -/
noncomputable def errand (a : Build.Alterations) (call : Call) : Errand where
  complaints := (p.catalog.rangeComplaints call.range call.span).map Problem.unplaced
  sites := (p.catalog.covered? call.range).map fun l => (l.flatMap p.callsIn).map (0, ·)
  warning _ := { kind := .recursivePerform call.range.display 0, span := call.span }
  leavings := ((p.catalog.covered? call.range).map fun l => l.flatMap (p.strays a call l)).getD []

end Plan

theorem flatMap_filter {α β : Type} (p : α → Bool) (f : α → List β) (l : List α) :
    (l.filter p).flatMap f = l.flatMap fun a => if p a then f a else [] := by
  induction l with
  | nil => rfl
  | cons a rest ih =>
    rw [List.filter_cons, List.flatMap_cons]
    split
    · rw [List.flatMap_cons, ih]
    · rw [ih, List.nil_append]

/-! ### The calls of a sentence -/

namespace Landmarks

theorem pairwise_calls {L : Landmarks} (h : (blocks L).Pairwise (· < ·)) :
    L.calls.Pairwise fun e e' => e.1 < e'.1 := by
  refine (pairwise_blocks_iff.1 h).filterMap _ fun e e' hlt x hx y hy => ?_
  obtain ⟨call, hcall, rfl⟩ := Option.map_eq_some_iff.1 hx
  obtain ⟨call', hcall', rfl⟩ := Option.map_eq_some_iff.1 hy
  exact hlt (Landmark.isLast_of_call? hcall) (Landmark.isLast_of_call? hcall')

end Landmarks

namespace Draft

variable {o : Options} {s : Scope} {p : Plan} {chs : List Chapter} {c : Chapter} {i j k : ℕ}

theorem sentence?_eq (h : Draft o s p chs) (hi : chs[i]? = some c) (hj : c.sentence = some j) :
    p.sentence? j = some (c.toPassage, i) := by
  have hsome : (p.sentence? j).isSome := List.find?_isSome.2 ⟨(c.toPassage, i),
    List.mem_zipIdx_iff_getElem?.2 (h.getElem?_passages hi), by simp [hj]⟩
  obtain ⟨⟨q, i'⟩, hq⟩ := Option.isSome_iff_exists.1 hsome
  have hmem := List.mem_zipIdx_iff_getElem?.1 (List.mem_of_find?_eq_some hq)
  have hqj : q.sentence = some j := by simpa using List.find?_some hq
  obtain ⟨c', hi', hj'⟩ := h.isAt_iff.1 ⟨q, hmem, hqj⟩
  obtain rfl : i = i' := h.eq_of_sentence hi hj hi' hj'
  obtain rfl : q = c.toPassage := Option.some.inj (hmem.symm.trans (h.getElem?_passages hi))
  exact hq

/-- The caller of a call is the sentence that has its block. -/
theorem getElem?_callers_eq_iff (h : Draft o s p chs) (hi : chs[i]? = some c)
    (hj : c.sentence = some j) :
    p.callers[k]? = some (some j) ↔ ∃ b ∈ c.blocks, (s.graph.chart b).group = some k := by
  have hc := List.mem_of_getElem? hi
  set all : List (Chapter × ℕ × Call) := chs.flatMap fun c => c.marks.calls.map (c, ·) with hall
  have hcalls : (Chapter.allMarks chs).calls[k]? = all[k]?.map (·.2) := by
    rw [← List.getElem?_map, hall, Chapter.allMarks, Landmarks.calls, List.filterMap_flatMap,
      List.map_flatMap]
    simp [Landmarks.calls, Function.comp_def]
  have hcallers : p.callers[k]? = all[k]?.map (·.1.sentence) := by
    rw [← List.getElem?_map, hall, List.map_flatMap, Plan.callers, ← h.passages, List.flatMap_map]
    refine congrArg (·[k]?) (List.flatMap_congr fun c hc => ?_)
    rw [← h.map_marks hc, ← Landmarks.map_calls, List.map_map, List.map_map]
    rfl
  have hhas : ∀ {c' b call}, all[k]? = some (c', b, call) → c' ∈ chs ∧ c'.Has b :=
    fun {c' b call} hk => by
      obtain ⟨c', hc', hmem⟩ := List.mem_flatMap.1 (List.mem_of_getElem? hk)
      obtain ⟨e, he, heq⟩ := List.mem_map.1 hmem
      obtain ⟨rfl, rfl⟩ := Prod.mk.inj heq
      obtain ⟨m, hm, hcall⟩ := Landmarks.mem_calls.1 he
      exact ⟨hc', ((h.drawn c' hc').has_of_mem_blocks
        (Landmarks.mem_blocks.2 ⟨m, hm, Landmark.isLast_of_call? hcall⟩)).1⟩
  simp only [h.group_eq_some_iff, hcalls, hcallers, Option.map_eq_some_iff,
    (h.drawn c hc).mem_blocks]
  constructor
  · rintro ⟨⟨c', b, call⟩, hk, hj'⟩
    obtain ⟨hc', hb⟩ := hhas hk
    obtain ⟨i', hi'⟩ := List.mem_iff_getElem?.1 hc'
    obtain rfl := h.eq_of_sentence hi hj hi' hj'
    obtain rfl := Option.some.inj (hi.symm.trans hi')
    exact ⟨b, hb, call, _, hk, rfl⟩
  · rintro ⟨b, hb, call, ⟨c', e⟩, hk, rfl⟩
    obtain ⟨hc', hb'⟩ := hhas hk
    obtain rfl := h.eq_of_mem_of_has hc hc' hb hb'
    exact ⟨_, hk, hj⟩

/-- The calls of a sentence, in the order of their blocks. -/
theorem filterMap_group (h : Draft o s p chs) (hi : chs[i]? = some c) (hj : c.sentence = some j) :
    c.blocks.filterMap (fun b => (s.graph.chart b).group) = p.callsIn j := by
  have hcalls := Landmarks.pairwise_calls h.pairwise_allMarks
  refine List.Pairwise.eq_of_mem_iff (r := (· < ·)) ?_ (List.pairwise_lt_range.filter _) fun k => ?_
  · refine c.pairwise_blocks.filterMap _ fun b b' hlt k hk k' hk' => ?_
    obtain ⟨call, hk⟩ := h.group_eq_some_iff.1 hk
    obtain ⟨call', hk'⟩ := h.group_eq_some_iff.1 hk'
    obtain ⟨hk, heq⟩ := List.getElem?_eq_some_iff.1 hk
    obtain ⟨hk', heq'⟩ := List.getElem?_eq_some_iff.1 hk'
    obtain hkk | rfl | hkk := lt_trichotomy k k'
    · exact hkk
    · exact absurd hlt (by rw [(Prod.mk.inj (heq.symm.trans heq')).1]; exact lt_irrefl _)
    · have hgt := List.pairwise_iff_getElem.1 hcalls k' k hk' hk hkk
      rw [heq, heq'] at hgt
      exact absurd hlt hgt.asymm
  · rw [List.mem_filterMap, ← h.getElem?_callers_eq_iff hi hj, Plan.callsIn, List.mem_filter,
      List.mem_range, beq_iff_eq]
    exact ⟨fun hk => ⟨(List.getElem?_eq_some_iff.1 hk).1, hk⟩, And.right⟩

/-- What is made of the blocks of a chapter is made at its exits, if nothing is of others. -/
theorem flatMap_blocks {γ : Type} (h : Draft o s p chs) (hc : c ∈ chs) {F : ℕ → List γ}
    (hF : ∀ b, c.Has b → (∀ m e, (b, m) ∈ c.marks → m.exit ≠ some e) → F b = []) :
    c.blocks.flatMap F = c.marks.flatMap fun e => if e.2.exit.isSome then F e.1 else [] := by
  have hdrawn := h.drawn c hc
  set exits : List ℕ := (c.marks.filter (·.2.exit.isSome)).map (·.1) with hexits
  have hmem : ∀ b, b ∈ exits ↔ ∃ m e, (b, m) ∈ c.marks ∧ m.exit = some e := fun b => by
    simp only [hexits, List.mem_map, List.mem_filter, Option.isSome_iff_exists, Prod.exists,
      exists_and_right, exists_eq_right]
    exact ⟨fun ⟨m, hm, e, he⟩ => ⟨m, e, hm, he⟩, fun ⟨m, e, hm, he⟩ => ⟨m, hm, e, he⟩⟩
  have hascending : exits.Pairwise (· < ·) := by
    rw [hexits, List.pairwise_map, List.pairwise_filter]
    refine (Landmarks.pairwise_blocks_iff.1 hdrawn.placed.ascending).imp fun {m m'} hlt he he' => ?_
    obtain ⟨_, he⟩ := Option.isSome_iff_exists.1 he
    obtain ⟨_, he'⟩ := Option.isSome_iff_exists.1 he'
    exact hlt (Landmark.isLast_of_exit he) (Landmark.isLast_of_exit he')
  have hfilter : c.blocks.filter (· ∈ exits) = exits := by
    refine (c.pairwise_blocks.filter _).eq_of_mem_iff hascending fun b => ?_
    rw [List.mem_filter, decide_eq_true_iff, and_iff_right_iff_imp, hmem, hdrawn.mem_blocks]
    rintro ⟨m, e, hm, he⟩
    exact (h.signs_of_mark hc hm he).1
  calc c.blocks.flatMap F = c.blocks.flatMap fun b => if b ∈ exits then F b else [] := by
        refine List.flatMap_congr fun b hb => ?_
        split
        · rfl
        · next hnot =>
          exact hF b (hdrawn.mem_blocks.1 hb) fun m e hm he => hnot ((hmem b).2 ⟨m, e, hm, he⟩)
    _ = exits.flatMap F := by
        conv_rhs => rw [← hfilter]
        rw [flatMap_filter]
        simp only [decide_eq_true_eq]
    _ = _ := by rw [hexits, List.flatMap_map, flatMap_filter]

end Draft

namespace ProgramUnit.Arises

variable {o : Options} {u : ProgramUnit} {d : DivisionText} {flow : ProgramFlow}
  {s s₁ s₂ : Scope} {chs : List Chapter} {log : Log} {l : List SentenceId} {blocks : List BlockId}
  (h : u.Arises o d flow s chs s₁ s₂) (hlog : u.Lists flow (Chapter.extent chs) log)
  (ho : o.isExtended = false) {c : Chapter} {i j b x n : ℕ} {m : Landmark} {e : Exit}
  (hsides : Chapter.Sides flow.procedures chs n) (hl : flow.procedures.Covers l blocks)

section Outside

include h ho hsides hl

/-- From a block that is not the last of a range only jumps leave the range. -/
theorem mem_leaving_iff (hb : b ∈ blocks) (hlast : blocks.getLast? ≠ some b) (hx : x ∉ blocks) :
    x ∈ (flow.graph.chart b).next ↔ s.Jumps b x := by
  obtain ⟨c, hc, -, hhas⟩ := (h.mem_blocks_iff hl).1 hb
  obtain ⟨i, hi⟩ := List.mem_iff_getElem?.1 hc
  rw [h.mem_next_iff ho (h.draft.lt_size (h.draft.has_lt_extent hi hhas)),
    or_iff_right fun hnext => hx (h.next_mem hsides hl hb hlast hnext)]

/-- No two edges leave a range from the same block to the same block. -/
theorem nodup_leaving (hb : b ∈ blocks) (hlast : blocks.getLast? ≠ some b) :
    ((flow.graph.chart b).next.filter fun x => !blocks.contains x).Nodup := by
  obtain ⟨c, hc, -, hhas⟩ := (h.mem_blocks_iff hl).1 hb
  obtain ⟨i, hi⟩ := List.mem_iff_getElem?.1 hc
  have hlt := h.draft.lt_size (h.draft.has_lt_extent hi hhas)
  obtain ⟨more, hslots, hnodup, hentries⟩ := h.links.slotted b
  have hold : ((s.graph.edgeSlots b).filterMap (s₁.graph.slots[·]?)).filter
      (fun x => !blocks.contains x) = [] := by
    refine List.filter_eq_nil_iff.2 fun x hx => ?_
    obtain ⟨k, hk, hx⟩ := List.mem_filterMap.1 hx
    obtain ⟨x', hx'⟩ := h.draft.sound.graph.exists_of_mem_edgeSlots hk
    obtain rfl := Option.some.inj ((h.links.slots hx').symm.trans hx)
    have hmem := h.next_mem hsides hl hb hlast
      (s.graph.next_eq_edgeSlots b ▸ List.mem_filterMap.2 ⟨k, hk, hx'⟩)
    simpa using hmem
  rw [h.chart_eq_of_normal ho hlt, Graph.next_eq_edgeSlots, hslots, List.filterMap_append,
    List.filter_append, hold, List.nil_append]
  refine List.Nodup.filter _ (List.pairwise_filterMap.2 ?_)
  refine hnodup.imp_of_mem fun hk hk' hne b hb b' hb' => ?_
  rintro rfl
  have hapart : s₁.procedures.BeginApart := by
    rw [Procedures.BeginApart, Procedures.firstBlock?_eq h.links.bare]
    exact h.draft.beginApart
  exact hne (Entered.eq_of_isEntry h.links.entered hapart (hentries _ hk).2 (hentries _ hk').2
    hb hb')

omit hsides ho in
/-- A passage begins in a range if it is one of its sentences. -/
theorem start_mem_iff {k : ℕ} (hk : chs[k]? = some c) :
    c.start ∈ blocks ↔ ∃ j ∈ l, (d.plan u.program (u.id + 1)).IsAt j k := by
  have hstart := (h.draft.drawn c (List.mem_of_getElem? hk)).has_start
  simp only [h.mem_blocks_iff hl, h.draft.isAt_iff]
  constructor
  · rintro ⟨c', hc', ⟨j, hj, hj'⟩, hhas⟩
    obtain ⟨k', hk'⟩ := List.mem_iff_getElem?.1 hc'
    obtain rfl := h.draft.eq_of_has hk hk' hstart hhas
    exact ⟨j, hj, c', hk', hj'⟩
  · rintro ⟨j, hj, c', hk', hj'⟩
    obtain rfl := Option.some.inj (hk.symm.trans hk')
    exact ⟨c, List.mem_of_getElem? hk, ⟨j, hj, hj'⟩, hstart⟩

omit ho hsides in
/-- A landmark at which a sentence of a range is left is not in the last block of the range. -/
theorem getLast?_ne_of_mark (hc : c ∈ chs) (hm : (b, m) ∈ c.marks) (he : m.exit = some e) :
    blocks.getLast? ≠ some b := by
  obtain ⟨hhas, -, hne, -⟩ := h.signs_of_mark hc hm he
  intro hlast
  obtain ⟨c', hc', rfl⟩ := h.exists_stop hl hlast
  obtain rfl := h.draft.eq_of_mem_of_has hc hc' hhas (h.draft.drawn c' hc').has_stop
  exact hne rfl

/-- At a landmark a range is left for the first blocks of the passages outside to which the landmark
leads. -/
theorem mem_next_iff_outside (hi : chs[i]? = some c) (hm : (b, m) ∈ c.marks)
    (he : m.exit = some e) (hb : b ∈ blocks) : x ∈ (flow.graph.chart b).next ∧ x ∉ blocks ↔
      ∃ k ∈ (d.plan u.program (u.id + 1)).outside s.alterations l i m,
        ∃ c', chs[k]? = some c' ∧ c'.start = x := by
  have hlast := h.getLast?_ne_of_mark hl (List.mem_of_getElem? hi) hm he
  constructor
  · rintro ⟨hx, hnot⟩
    rw [h.mem_leaving_iff ho hsides hl hb hlast hnot, h.draft.jumps_iff hi hm he] at hx
    obtain ⟨k, hk, c', hc', rfl⟩ := hx
    exact ⟨k, ⟨hk, fun j hj hat => hnot ((h.start_mem_iff hl hc').2 ⟨j, hj, hat⟩)⟩, c', hc', rfl⟩
  · rintro ⟨k, ⟨hk, hout⟩, c', hc', rfl⟩
    have hnot : c'.start ∉ blocks := fun hmem => by
      obtain ⟨j, hj, hat⟩ := (h.start_mem_iff hl hc').1 hmem
      exact hout j hj hat
    rw [h.mem_leaving_iff ho hsides hl hb hlast hnot, h.draft.jumps_iff hi hm he]
    exact ⟨⟨k, hk, c', hc', rfl⟩, hnot⟩

/-- The edges that leave a range at a landmark are as many as the passages outside to which the
landmark leads. -/
theorem length_leaving (hi : chs[i]? = some c) (hm : (b, m) ∈ c.marks) (he : m.exit = some e)
    (hb : b ∈ blocks) : ((flow.graph.chart b).next.filter fun x => !blocks.contains x).length =
      ((d.plan u.program (u.id + 1)).outside s.alterations l i m).ncard := by
  set start : ℕ → ℕ := fun k => (chs[k]?.map Chapter.start).getD 0 with hstart
  have hchapter : ∀ k ∈ (d.plan u.program (u.id + 1)).outside s.alterations l i m,
      ∃ c', chs[k]? = some c' ∧ c'.start = start k := fun k hk => by
    have hlt : k < chs.length := by
      simpa [← h.draft.passages] using Plan.lt_of_mem_targets hk.1
    exact ⟨_, List.getElem?_eq_getElem hlt, by simp [hstart, List.getElem?_eq_getElem hlt]⟩
  have himage : {x | x ∈ (flow.graph.chart b).next.filter fun x => !blocks.contains x} =
      start '' (d.plan u.program (u.id + 1)).outside s.alterations l i m := by
    ext x
    simp only [Set.mem_ofPred_eq, List.mem_filter, Bool.not_eq_true', List.contains_eq_mem,
      decide_eq_false_iff_not, h.mem_next_iff_outside ho hsides hl hi hm he hb, Set.mem_image]
    refine exists_congr fun k => and_congr_right fun hk => ?_
    obtain ⟨c', hc', heq⟩ := hchapter k hk
    simp [hc', heq]
  have hinjective :
      Set.InjOn start ((d.plan u.program (u.id + 1)).outside s.alterations l i m) := by
    intro k hk k' hk' heq
    obtain ⟨c, hc, hck⟩ := hchapter k hk
    obtain ⟨c', hc', hck'⟩ := hchapter k' hk'
    exact h.draft.eq_of_start_eq hc hc' (hck.trans (heq.trans hck'.symm))
  have hnodup := h.nodup_leaving ho hsides hl hb
    (h.getLast?_ne_of_mark hl (List.mem_of_getElem? hi) hm he)
  rw [← List.toFinset_card_of_nodup hnodup, ← Set.ncard_coe_finset, List.coe_toFinset, himage,
    hinjective.ncard_image]

include hlog

/-- What is reported of jumps that leave a range is what the plan says. -/
theorem map_unplaced_departures (call : Call) (hi : chs[i]? = some c) (hcj : c.sentence = some j)
    (hj : j ∈ l) : (c.blocks.flatMap fun b => if (flow.graph.chart b).jumps then
      ((flow.graph.chart b).next.filter fun x => !blocks.contains x).map fun _ =>
        (flow.departure call b).unplaced else []) =
      (d.plan u.program (u.id + 1)).strays s.alterations call l j := by
  have hc := List.mem_of_getElem? hi
  have hmem : ∀ {b}, c.Has b → b ∈ blocks := fun hb =>
    (h.mem_blocks_iff hl).2 ⟨c, hc, ⟨j, hj, hcj⟩, hb⟩
  rw [h.draft.flatMap_blocks hc, Plan.strays, h.draft.sentence?_eq hi hcj, Option.map_some,
    Option.getD_some, ← h.draft.map_marks hc, List.flatMap_map]
  · refine List.flatMap_congr fun ⟨b, m⟩ hm => ?_
    cases he : m.exit with
    | none =>
      rw [Plan.straysAt, Plan.outside_eq_empty he, Set.ncard_empty]
      rfl
    | some e =>
      obtain ⟨hhas, hlt, -, -⟩ := h.signs_of_mark hc hm he
      have htag : (flow.graph.chart b).tag = c.tag := by
        obtain ⟨more, hchart, -⟩ := h.links.chart b
        rw [h.chart_eq_of_normal ho (h.draft.lt_size hlt), hchart, ← h.draft.tag c hc b hhas]
      rw [if_pos (show (some e).isSome = true from rfl), if_pos (h.jumps_of_mark hlog hc hm he),
        List.map_const', h.length_leaving ho hsides hl hi hm he (hmem hhas), Plan.straysAt]
      dsimp only
      rw [← htag]
      rfl
  · intro b hhas hnone
    split
    · next hjumps =>
      have hlast : blocks.getLast? ≠ some b := fun heq => by
        obtain ⟨c', hc', rfl⟩ := h.exists_stop hl heq
        exact nomatch hjumps.symm.trans (h.jumps_stop hlog hc')
      rw [List.filter_eq_nil_iff.2, List.map_nil]
      intro x hx hnot
      rw [h.mem_leaving_iff ho hsides hl (hmem hhas) hlast (by simpa using hnot)] at hx
      -- a jump is made at a landmark, and there is none here
      obtain ⟨m, e, hm, he⟩ := h.draft.exists_mark_of_has hc hhas hx
      exact hnone m e hm he
    · rfl

end Outside

section Errand

include h

/-- The sentences of a range are chapters. -/
theorem exists_chapter_of_mem (hl : flow.procedures.Covers l blocks) (hj : j ∈ l) :
    ∃ (i : ℕ) (c : Chapter), chs[i]? = some c ∧ c.sentence = some j ∧
      (flow.procedures.sentences[j]?.map (·.blocks)).getD [] = c.blocks := by
  obtain ⟨t, ht, -⟩ := hl.owned j hj
  obtain ⟨c, hc, hcj⟩ := h.exists_chapter (Array.getElem?_eq_some_iff.1 ht).1
  obtain ⟨t', ht', hblocks⟩ := h.exists_sentence hc hcj
  obtain ⟨i, hi⟩ := List.mem_iff_getElem?.1 hc
  exact ⟨i, c, hi, hcj, by rw [ht', Option.map_some, Option.getD_some, hblocks]⟩

/-- The calls that are made in a range are those of its sentences. -/
theorem filterMap_group (hl : flow.procedures.Covers l blocks) :
    blocks.filterMap (fun b => (s₁.graph.chart b).group) =
      l.flatMap (d.plan u.program (u.id + 1)).callsIn := by
  rw [hl.blocks, List.filterMap_flatMap]
  refine List.flatMap_congr fun j hj => ?_
  obtain ⟨i, c, hi, hcj, hblocks⟩ := h.exists_chapter_of_mem hl hj
  rw [hblocks, ← h.draft.filterMap_group hi hcj]
  refine List.filterMap_congr fun b _ => ?_
  obtain ⟨more, hchart, -⟩ := h.links.chart b
  rw [hchart]

include hlog ho hsides

/-- What is reported of the jumps that leave a range is what the plan says of its sentences. -/
theorem map_unplaced_leavings (call : Call) (hl : flow.procedures.Covers l blocks)
    (hcaptured : flow.procedures.captured? call.range = some blocks) :
    (flow.leavings call).map (fun e => (flow.departure call e.1).unplaced) =
      l.flatMap ((d.plan u.program (u.id + 1)).strays s.alterations call l) := by
  rw [ProgramFlow.leavings, hcaptured]
  obtain rfl := hl.blocks
  simp only [List.map_flatMap, List.flatMap_assoc]
  refine List.flatMap_congr fun j hj => ?_
  obtain ⟨i, c, hi, hcj, hblocks⟩ := h.exists_chapter_of_mem hl hj
  rw [hblocks, ← h.map_unplaced_departures hlog ho hsides hl call hi hcj hj]
  refine List.flatMap_congr fun b _ => ?_
  split
  · rw [List.map_map]
    rfl
  · rfl

/-- **Every errand** is that of the plan, but for the numbers of blocks. -/
theorem unplaced_errand (call : Call) (k : ℕ) : (s₁.errand (call.pending k)).unplaced =
    (d.plan u.program (u.id + 1)).errand s.alterations call := by
  have hnames : Procedures.SameNames flow.procedures (d.plan u.program (u.id + 1)).catalog :=
    h.erase ▸ rfl
  have hcaptured := Build.captured?_eq h.links.sound call.range
  rw [← h.procedures_eq] at hcaptured
  have hcovers : ∀ {l}, flow.procedures.covered? call.range = some l → flow.procedures.Covers l
      (l.flatMap fun j => (flow.procedures.sentences[j]?.map (·.blocks)).getD []) :=
    Procedures.covers h.shelved h.rooted h.sound_procedures
  simp only [Errand.unplaced, Plan.errand, Errand.mk.injEq, hnames.covered?_eq,
    hnames.rangeComplaints_eq]
  refine ⟨?_, ?_, rfl, ?_⟩
  · rw [h.procedures_eq]
    rfl
  · change ((s₁.procedures.captured? call.range).map _).map _ = _
    rw [← h.procedures_eq, hcaptured, Option.map_map, Option.map_map]
    refine Option.map_congr fun l hl => ?_
    rw [← h.filterMap_group (hcovers hl), List.map_filterMap]
    dsimp only [Function.comp_apply]
    rw [List.map_filterMap]
    refine List.filterMap_congr fun b _ => ?_
    rw [Option.map_map]
    rfl
  · rw [leavings_errand, h.outcome_eq hlog hsides, List.map_map]
    cases hl : flow.procedures.covered? call.range with
    | none =>
      rw [hl] at hcaptured
      rw [ProgramFlow.leavings, hcaptured]
      rfl
    | some l =>
      rw [hl] at hcaptured
      exact h.map_unplaced_leavings hlog ho hsides call (hcovers hl) hcaptured

end Errand

end ProgramUnit.Arises

end CobolFlow
