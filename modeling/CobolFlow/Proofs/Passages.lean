import CobolFlow.Proofs.Division.Course
import CobolFlow.Proofs.Leaving

/-!
# What is read from a passage on

In a finished graph the blocks of a passage lead on as its plan says: a block with a jump leads to
the first blocks of the passages that are the targets of the jump, and the last block to those that
control falls into. So what is read from the passages on solves the equations of the course of the
plan, and the solution is unique.

## Main results

* `ProgramUnit.Arises.solves` — what is read from each passage on, by equations
* `ProgramUnit.Arises.alterations_eq` — ALTER adds the same targets in every lowering
* `ProgramUnit.Arises.erase_reading_eq` — what is heard from each passage on is the same in
  both lowerings of EVALUATE
-/

namespace CobolFlow

open Scope

theorem Chart.mem_onward {χ : Chart} {b : ℕ} {w : List Instruction} : w ∈ χ.onward b ↔
    (∃ x ∈ (χ b).next, w ∈ χ.reading x) ∨ (χ b).next = [] ∧ w = [] := by
  by_cases hnil : (χ b).next = []
  · rw [onward_of_next_eq_nil hnil, hnil]
    simp [Language.mem_one]
  · rw [onward_of_next_ne_nil hnil, mem_sum_map]
    simp [hnil]

/-- What is read from the `k`-th chapter on. -/
def Chapter.reading (G : Chart) (chs : List Chapter) (k : ℕ) : Language Instruction :=
  (chs[k]?.map fun c => G.reading c.start).getD 0

theorem Chapter.mem_reading {G : Chart} {chs : List Chapter} {k : ℕ} {w : List Instruction} :
    w ∈ reading G chs k ↔ ∃ c, chs[k]? = some c ∧ w ∈ G.reading c.start := by
  rw [reading]
  cases chs[k]? with
  | none => simp [Language.notMem_zero]
  | some c => simp

namespace ProgramUnit.Arises

variable {o o' : Options} {u : ProgramUnit} {d : DivisionText} {flow flow' : ProgramFlow}
  {s s₁ s₂ s' s₁' s₂' : Scope} {chs chs' : List Chapter} {l l' : Log}
  (h : u.Arises o d flow s chs s₁ s₂) (hl : u.Lists flow (Chapter.extent chs) l)
  {c : Chapter} {m m' : Landmark} {e : Exit} {b i x : ℕ}

section Marks

include h hl

/-- At a landmark at which control always leaves no edge leads on, and at every other one does. -/
theorem next_eq_nil_iff (hi : chs[i]? = some c) (hm : (b, m) ∈ c.marks) (he : m.exit = some e) :
    (s.graph.chart b).next = [] ↔ m.leaves = true := by
  have hc := List.mem_of_getElem? hi
  obtain ⟨hhas, hlt, hstop, instr, hlast, hby⟩ := h.signs_of_mark hc hm he
  have hending : instr.tag.leaves = true → (s.graph.chart b).next = [] := fun hleaves => by
    have hflag := (hl.shaped b).ending.2 ⟨instr, hlast, hleaves⟩
    obtain ⟨f, hf⟩ := h.exists_flags_eq (h.draft.lt_size hlt)
    exact (h.draft.spot_calm hlt).2 (by simpa [hf, BlockFlags.union] using hflag)
  cases m with
  | nextSentence =>
    obtain rfl := Option.some.inj he
    exact iff_of_true (hending (by rw [show instr.tag = .nextSentence from hby]; rfl)) rfl
  | jump node span j =>
    obtain ⟨n, hn, hkind, -, hlast'⟩ := h.exists_enter_of_mark hl hc hm
    obtain rfl := Option.some.inj (hlast.symm.trans hlast')
    have htag : n.tag = if j.isSimple then .goToSimple else .goToConditional := by
      rw [Node.tag, hkind, NodeKind.tag_goTo]
    cases hj : j.isSimple with
    | true =>
      rw [hj] at htag
      exact iff_of_true (hending (by rw [show n.instruction.tag = _ from htag]; rfl)) hj
    | false =>
      refine iff_of_false (fun hnil => ?_) (by rw [Landmark.leaves, hj]; exact Bool.false_ne_true)
      -- the block that leads on is this one, because the GO TO stands nowhere else
      obtain ⟨b', hmem, hnext⟩ := h.leadsOn hn hkind hj
      have hlt' : b' < Chapter.extent chs := by
        by_contra hge
        obtain heq | hgt := (not_lt.1 hge).eq_or_lt
        · rw [← heq, h.draft.finish] at hmem
          cases hmem
        · rw [Graph.chart_of_size_le (h.draft.size ▸ hgt)] at hmem
          cases hmem
      rw [← h.stemsFrom.nodes b' (h.draft.lt_size hlt')] at hmem
      obtain ⟨rfl, -⟩ := hl.eq_of_node hlt (List.mem_of_getLast? hlast) hlt' hmem rfl
      exact hnext hnil
  | call node span range => cases he
  | alter span clauses => cases he

/-- An exit is taken at one landmark of a chapter, unless it is NEXT SENTENCE. -/
theorem takes_iff (hi : chs[i]? = some c) (hm : (b, m) ∈ c.marks) (he : m.exit = some e) :
    (d.plan u.program (u.id + 1)).Takes i e m' ↔ m' = m := by
  constructor
  · rintro ⟨q, hq, hm', he'⟩
    have hc := List.mem_of_getElem? hi
    obtain rfl := Option.some.inj ((h.draft.getElem?_passages hi).symm.trans hq)
    rw [← h.draft.map_marks hc] at hm'
    obtain ⟨⟨b', m'⟩, hmark, rfl⟩ := List.mem_map.1 hm'
    cases m with
    | nextSentence =>
      obtain rfl := Option.some.inj he
      cases m' with
      | nextSentence => rfl
      | _ => exact nomatch he'
    | jump node span j =>
      obtain rfl := Option.some.inj he
      -- the node stands in one block
      obtain ⟨-, hlt, -, instr, hlast, hby⟩ := h.signs_of_mark hc hm rfl
      obtain ⟨-, hlt', -, instr', hlast', hby'⟩ := h.signs_of_mark hc hmark he'
      obtain ⟨rfl, -⟩ := hl.eq_of_node hlt (List.mem_of_getLast? hlast) hlt'
        (List.mem_of_getLast? hlast') (Eq.trans hby (Eq.symm hby'))
      exact (h.draft.mark_unique hc hmark he' hc hm rfl).2
    | call node span range => exact nomatch he
    | alter span clauses => exact nomatch he
  · rintro rfl
    exact h.draft.takes_of_mark hi hm he

end Marks

/-! ### The equations -/

section Equations

variable (ho : o.isExtended = false)
include h ho

/-- From the end of a chapter control falls into others, or nothing follows. -/
theorem onward_stop (hi : chs[i]? = some c) : flow.graph.chart.onward c.stop =
    Course.among (Chapter.reading flow.graph.chart chs)
      (((d.plan u.program (u.id + 1)).course s.alterations).falls i)
      (((d.plan u.program (u.id + 1)).course s.alterations).stops i) := by
  have hc := List.mem_of_getElem? hi
  have hhas := (h.draft.drawn c hc).has_stop
  have hlt := h.draft.has_lt_extent hi hhas
  -- no jump is made from the last block of a chapter, nor from that of the graph
  have hstop : ∀ x, ¬ s.Jumps c.stop x := fun x hjump => by
    obtain ⟨m, e, hm, he⟩ := h.draft.exists_mark_of_has hc hhas hjump
    obtain ⟨-, -, hne, -⟩ := h.signs_of_mark hc hm he
    exact hne rfl
  have hnext : (flow.graph.chart c.stop).next =
      Chapter.ways chs (d.plan u.program (u.id + 1)).falls i := by
    rw [h.chart_eq_of_normal ho (h.draft.lt_size hlt), h.links.chart_eq (hstop ·),
      h.draft.chart hi _ hhas, if_pos rfl]
  have hsize : Chapter.extent chs < s.graph.size := h.draft.size ▸ Nat.lt_succ_self _
  have hend : flow.graph.chart.reading (Chapter.extent chs) = 1 := by
    have hfinish : flow.graph.chart (Chapter.extent chs) = { flags := { finish := true } } := by
      rw [h.chart_eq_of_normal ho hsize, h.links.chart_eq fun x hjump =>
        (h.draft.lt_extent_of_jumps hjump).false, h.draft.finish]
    rw [Chart.reading_eq, Chart.onward_of_next_eq_nil (by rw [hfinish]), hfinish, just_nil, one_mul]
  have hfalls : ∀ k, (i, k) ∈ (d.plan u.program (u.id + 1)).falls → i < k ∧ k < chs.length :=
    fun k hk => ⟨((d.linked_plan u.program (u.id + 1)).lt_of_mem_falls hk).1,
      (h.draft.falls_lt _ hk).2⟩
  ext w
  rw [Chart.mem_onward, Course.mem_among, hnext]
  simp only [Chapter.mem_reading]
  by_cases hlast : i + 1 = chs.length
  · have hnone : ∀ k, (i, k) ∉ (d.plan u.program (u.id + 1)).falls := fun k hk => by
      have := hfalls k hk
      omega
    have hways : ∀ x, x ∈ Chapter.ways chs (d.plan u.program (u.id + 1)).falls i ↔
        x = Chapter.extent chs := fun x => by
      simp [Chapter.mem_ways_iff, hnone, hlast]
    have hne : Chapter.ways chs (d.plan u.program (u.id + 1)).falls i ≠ [] :=
      List.ne_nil_of_mem ((hways _).2 rfl)
    have hempty : ((d.plan u.program (u.id + 1)).course s.alterations).falls i = ∅ :=
      Set.eq_empty_of_forall_notMem hnone
    have hstops : ((d.plan u.program (u.id + 1)).course s.alterations).stops i := hnone
    simp only [hways, exists_eq_left, hend, Language.mem_one, hne, hempty, hstops,
      Set.mem_empty_iff_false, false_and, exists_false, or_false, false_or, true_and]
  · refine or_congr ⟨?_, ?_⟩ (and_congr_left fun _ => ⟨fun hnil k hk => ?_, fun hnone => ?_⟩)
    · rintro ⟨x, hx, hw⟩
      obtain ⟨k, c', hk, hc', rfl⟩ := (Chapter.mem_ways_iff.1 hx).resolve_right (hlast ·.1)
      exact ⟨k, hk, c', hc', hw⟩
    · rintro ⟨k, hk, c', hc', hw⟩
      exact ⟨_, Chapter.mem_ways_iff.2 (.inl ⟨k, c', hk, hc', rfl⟩), hw⟩
    · have hmem := Chapter.mem_ways_iff.2
        (.inl ⟨k, _, hk, List.getElem?_eq_getElem (hfalls k hk).2, rfl⟩)
      rw [hnil] at hmem
      exact nomatch hmem
    · refine List.eq_nil_iff_forall_not_mem.2 fun x hx => ?_
      obtain ⟨k, _, hk, -⟩ := (Chapter.mem_ways_iff.1 hx).resolve_right (hlast ·.1)
      exact hnone k hk

include hl

/-- Where an exit is taken, control leaves by it, or it goes on as if there were none. -/
theorem onward_mark (hi : chs[i]? = some c) (hm : (b, m) ∈ c.marks) (he : m.exit = some e) :
    flow.graph.chart.onward b = Course.among (Chapter.reading flow.graph.chart chs)
        (((d.plan u.program (u.id + 1)).course s.alterations).jumps i e)
        (((d.plan u.program (u.id + 1)).course s.alterations).rests i e) +
      ((c.last.chart b).next.map flow.graph.chart.reading).sum := by
  obtain ⟨hhas, hlt, hne, -⟩ := h.signs_of_mark (List.mem_of_getElem? hi) hm he
  have hchart : s.graph.chart b = c.last.chart b := by rw [h.draft.chart hi b hhas, if_neg hne]
  have hnext : ∀ x, x ∈ (flow.graph.chart b).next ↔ x ∈ (c.last.chart b).next ∨
      ∃ k ∈ (d.plan u.program (u.id + 1)).targets s.alterations i m,
        ∃ c', chs[k]? = some c' ∧ c'.start = x := fun x => by
    rw [h.mem_next_iff ho (h.draft.lt_size hlt), hchart, h.draft.jumps_iff hi hm he]
  have hnil : (flow.graph.chart b).next = [] ↔ m.leaves = true ∧
      (d.plan u.program (u.id + 1)).targets s.alterations i m = ∅ := by
    rw [← h.next_eq_nil_iff hl hi hm he, hchart, List.eq_nil_iff_forall_not_mem,
      List.eq_nil_iff_forall_not_mem, Set.eq_empty_iff_forall_notMem]
    simp only [hnext, not_or, forall_and]
    refine and_congr_right fun _ => ⟨fun hnone k hk => ?_, fun hnone x ⟨k, hk, _⟩ => hnone k hk⟩
    have hk' : k < chs.length := by
      simpa [← h.draft.passages] using Plan.lt_of_mem_targets hk
    exact hnone _ ⟨k, hk, _, List.getElem?_eq_getElem hk', rfl⟩
  have hhalt : e ≠ .halt := by
    rintro rfl
    cases m <;> exact nomatch he
  ext w
  rw [Chart.mem_onward, Language.mem_add, Course.mem_among, mem_sum_map, hnil]
  simp only [hnext, Plan.course, Set.mem_ofPred_eq, h.takes_iff hl hi hm he, hhalt, false_or,
    exists_eq_left, Chapter.mem_reading]
  constructor
  · rintro (⟨x, hx | ⟨k, hk, c', hc', rfl⟩, hw⟩ | hrests)
    · exact .inr ⟨x, hx, hw⟩
    · exact .inl (.inl ⟨k, hk, c', hc', hw⟩)
    · exact .inl (.inr hrests)
  · rintro ((⟨k, hk, c', hc', hw⟩ | hrests) | ⟨x, hx, hw⟩)
    · exact .inl ⟨_, .inr ⟨k, hk, c', hc', rfl⟩, hw⟩
    · exact .inr hrests
    · exact .inl ⟨x, .inl hx, hw⟩

/-- **What is read from each passage on** is what it does, and then what is read from where it
leads. -/
theorem solves : ((d.plan u.program (u.id + 1)).course s.alterations).Solves
    (d.plan u.program (u.id + 1)).passages.length ((d.plan u.program (u.id + 1)).behaviour o)
    (Chapter.reading flow.graph.chart chs) := by
  intro i hlt
  rw [← h.draft.passages, List.length_map] at hlt
  obtain ⟨c, hi⟩ : ∃ c, chs[i]? = some c := ⟨_, List.getElem?_eq_getElem hlt⟩
  have hc := List.mem_of_getElem? hi
  have hdrawn := h.draft.drawn c hc
  have hnodes : ∀ b, c.Has b → (flow.graph.chart b).nodes = (c.last.chart b).nodes := fun b hb => by
    rw [h.stemsFrom.nodes b (h.draft.lt_size (h.draft.has_lt_extent hi hb)),
      h.draft.nodes_eq hi hb]
  have hsettles : flow.graph.chart.Settles c.last.chart (c.first.Between c.last) (· = c.stop)
      c.marks.exits fun e => Course.among (Chapter.reading flow.graph.chart chs)
        (((d.plan u.program (u.id + 1)).course s.alterations).jumps i e)
        (((d.plan u.program (u.id + 1)).course s.alterations).rests i e) :=
    { halt := by
        rw [(d.guarded_course u.program (u.id + 1) s.alterations).halt i
          (by rwa [← h.draft.passages, List.length_map])]
        ext w
        simp [Course.mem_among, Plan.course, Language.mem_one]
      nodes := fun b hb _ => hnodes b (hdrawn.between_iff.1 hb)
      grows := by
        rintro _ rfl
        rw [hnodes _ hdrawn.has_stop]
      next := fun b hb hstop hmarks => by
        have hhas := hdrawn.between_iff.1 hb
        have hsize := h.draft.lt_size (h.draft.has_lt_extent hi hhas)
        have hnone : ∀ x, ¬ s.Jumps b x := fun x hjump => by
          obtain ⟨m, e, hm, he⟩ := h.draft.exists_mark_of_has hc hhas hjump
          exact hmarks e ⟨m, hm, he⟩
        rw [h.chart_eq_of_normal ho hsize, h.links.chart_eq hnone, h.draft.chart hi b hhas,
          if_neg hstop]
      jump := fun e b ⟨m, hm, he⟩ => h.onward_mark hl ho hi hm he }
  have hbehaviour : (d.plan u.program (u.id + 1)).behaviour o i = c.behaviour o := by
    rw [Plan.behaviour, h.draft.getElem?_passages hi]
    rfl
  rw [hbehaviour, ← h.onward_stop ho hi, ← hdrawn.reading_start hsettles (hnodes _ hdrawn.has_stop),
    Chapter.reading, hi]
  rfl

end Equations

/-! ### The targets that ALTERs add -/

section Leading

include h hl

/-- A simple GO TO stands at the head of a chapter if the passage begins with it. -/
theorem leading_eq (hc : c ∈ chs) : ((s.graph.chart c.start).nodes.head?.bind fun i =>
    if i.tag = .goToSimple then some i.node else none) = c.toPassage.leading? := by
  obtain ⟨i, hi⟩ := List.mem_iff_getElem?.1 hc
  have hdrawn := h.draft.drawn c hc
  have hlt := h.draft.has_lt_extent hi hdrawn.has_start
  have hnodes := h.stemsFrom.nodes _ (h.draft.lt_size hlt)
  have hevents : c.toPassage.events = ((Script.statements c.text).run c.id).1 := rfl
  cases htext : c.text with
  | nil =>
    have hempty : c.toPassage.events = [] := Passage.events_eq_nil htext
    rw [Passage.leading?, hempty, Option.bind_eq_none_iff]
    intro instr hhead
    rw [if_neg]
    intro htag
    -- the GO TO would be a landmark of the chapter, which has none
    have hmem := List.mem_of_head? hhead
    rw [← hnodes] at hmem
    obtain ⟨node, span, j, hm⟩ := h.exists_mark_of_goTo hl hc hdrawn.has_start hmem
      (by rw [htag]; rfl) (by rw [htag]; nofun)
    have hmarks := h.draft.map_marks hc
    rw [Passage.landmarks, hempty] at hmarks
    rw [List.map_eq_nil_iff.1 hmarks] at hm
    exact nomatch hm
  | cons st rest =>
    obtain ⟨n, events, hrun, -⟩ := Script.exists_enter_statements st rest c.id
    rw [← htext, ← hevents] at hrun
    rw [Passage.leading?, hrun, h.draft.nodes_eq hi hdrawn.has_start]
    obtain hhead | ⟨hnext, htag⟩ := hdrawn.begins n (congrArg List.head? hrun)
    · rw [hhead]
      rfl
    · simp only [if_neg htag]
      refine Option.bind_eq_none_iff.2 fun instr hhead => if_neg fun htag' => ?_
      -- a simple GO TO at the head would end the block, which leads on
      have hne : c.start ≠ c.stop := fun heq => hnext (heq ▸ hdrawn.fragment.opened.next)
      have hhead' : (flow.graph.chart c.start).nodes.head? = some instr := by
        rw [hnodes, h.draft.nodes_eq hi hdrawn.has_start]
        exact hhead
      have hlast := (hl.shaped c.start).getLast?_of_head? hhead' (by rw [htag']; rfl)
      have hflag := (hl.shaped c.start).ending.2 ⟨instr, hlast, by rw [htag']; rfl⟩
      obtain ⟨f, hf⟩ := h.exists_flags_eq (h.draft.lt_size hlt)
      have hnil := (h.draft.spot_calm hlt).2 (by simpa [hf, BlockFlags.union] using hflag)
      rw [h.draft.chart hi _ hdrawn.has_start, if_neg hne] at hnil
      exact hnext hnil

/-- Which simple GO TO a procedure begins with can be said of the plan. -/
theorem leading?_eq_some_iff {r : ProcedureId} {n : NodeId} : Build.leading? s r = some n ↔
    ∃ j ∈ (d.plan u.program (u.id + 1)).catalog.opening? r,
      ∃ q ∈ (d.plan u.program (u.id + 1)).passages, q.sentence = some j ∧ q.leading? = some n := by
  rw [Build.leading?, ← h.draft.sameNames.opening?_eq, ← h.draft.passages]
  cases (d.plan u.program (u.id + 1)).catalog.opening? r with
  | none => simp
  | some j =>
    simp only [Option.bind_some, Option.mem_some_iff, exists_eq_left', List.mem_map,
      exists_exists_and_eq_and]
    constructor
    · intro hn
      obtain ⟨b, hb, hn⟩ := Option.bind_eq_some_iff.1 (Option.bind_assoc .. ▸ hn)
      obtain ⟨k, hk, c, hc, rfl⟩ := h.draft.firstBlock?_eq_some_iff.1 hb
      obtain ⟨c', hc', hj⟩ := h.draft.isAt_iff.1 hk
      obtain rfl := Option.some.inj (hc.symm.trans hc')
      have hmem := List.mem_of_getElem? hc
      exact ⟨c, hmem, hj, h.leading_eq hl hmem ▸ hn⟩
    · rintro ⟨c, hc, hj, hn⟩
      rw [h.draft.firstBlock?_eq hc hj, Option.bind_some, h.leading_eq hl hc, hn]

end Leading

variable (h' : u.Arises o' d flow' s' chs' s₁' s₂') (hl' : u.Lists flow' (Chapter.extent chs') l')
include h hl h' hl'

theorem leading?_eq : Build.leading? s' = Build.leading? s := by
  funext r
  refine Option.ext fun n => ?_
  rw [h.leading?_eq_some_iff hl, h'.leading?_eq_some_iff hl']

/-- **ALTER adds the same targets** in every lowering. -/
theorem alterations_eq : s'.alterations = s.alterations := by
  have hnames : Procedures.SameNames s.procedures s'.procedures :=
    .of_erase (h'.draft.catalog.trans h.draft.catalog.symm)
  rw [Scope.alterations, Scope.alterations, h'.draft.alters, h.draft.alters,
    Build.alteration?_congr hnames (h.leading?_eq hl h' hl')]

/-- **What is heard from each passage on** is the same in both lowerings of EVALUATE. -/
theorem erase_reading_eq (ho : o.isExtended = false) (ho' : o'.isExtended = false)
    (hsearch : o.searchCascade = o'.searchCascade) {i : ℕ} (hi : i < chs.length) :
    CobolFlow.erase (Chapter.reading flow.graph.chart chs i) =
      CobolFlow.erase (Chapter.reading flow'.graph.chart chs' i) := by
  have hsolves' := h'.solves hl' ho'
  rw [h.alterations_eq hl h' hl'] at hsolves'
  refine Course.Solves.erase_eq (d.guarded_course u.program (u.id + 1) s.alterations)
    (fun i _ => Plan.alike_behaviour _ hsearch i) (h.solves hl ho) hsolves' ?_
  rwa [← h.draft.passages, List.length_map]

end ProgramUnit.Arises

end CobolFlow
