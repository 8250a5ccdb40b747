import CobolFlow.Proofs.Calls.Capture
import CobolFlow.Proofs.Calls.Splicing

/-!
# Recursive PERFORMs

One PERFORM calls another if a block of the range it performs is the other's call site. For every
statement tree, the groups that are marked recursive cut every cycle of calls and are all on cycles,
and a cycle is reported exactly if there is one. So with as many levels as there are PERFORMs,
splicing never comes to the nesting limit.

The proof puts the parts together: the jumps are drawn first and leave the ranges alone, so that the
capture is a tour of the errands as they were in the draft; and what the tour has marked is what
splicing does not descend into.

## Main definitions

* `ProgramUnit.calls`, `ProgramUnit.Calls` — the PERFORMs of a program, and which calls which
* `ProgramUnit.MarksCycles` — what is said of one program

## Main results

* `StatementTree.build_marksCycles` — it holds of every program of every tree
-/

namespace CobolFlow

open Scope

namespace Procedures

variable {c c' : Procedures}

theorem sentence_blocks_eq (h : c'.bare = c.bare) (j : SentenceId) :
    (do return (← c'.sentence j).blocks : Except Fault (List BlockId)) =
      do return (← c.sentence j).blocks := by
  have hj : c'.bare.sentences[j]? = c.bare.sentences[j]? := by rw [h]
  rw [getElem?_bare, getElem?_bare] at hj
  rw [sentence, sentence]
  cases ht' : c'.sentences[j]? with
  | none =>
    cases ht : c.sentences[j]? with
    | none => rfl
    | some t => simp [ht, ht'] at hj
  | some t' =>
    cases ht : c.sentences[j]? with
    | none => simp [ht, ht'] at hj
    | some t =>
      rw [ht, ht'] at hj
      have hblocks : t'.blocks = t.blocks :=
        congrArg (fun t => (t.map Sentence.blocks).getD []) hj
      dsimp only [bind, Except.bind]
      rw [hblocks]

/-- Which blocks a range has does not depend on the entries of its sentences. -/
theorem capturedBlocks_eq (h : c'.bare = c.bare) (first last : ProcedureId) :
    Build.capturedBlocks c' first last = Build.capturedBlocks c first last := by
  have hnames := SameNames.of_bare h
  have hbetween : Build.proceduresBetween c' first last = Build.proceduresBetween c first last := by
    rw [hnames]
    rfl
  have hsentences : c'.sentencesOf = c.sentencesOf := funext hnames.sentencesOf_eq
  have hblocks := funext (sentence_blocks_eq h)
  rw [Build.capturedBlocks, Build.capturedBlocks, hbetween, hsentences, hblocks]

end Procedures

/-! ### What waits for the jumps -/

namespace Draft

variable {o : Options} {s s' : Scope} {p : Plan} {chs : List Chapter} {E : ℕ → ℕ → Prop}
  {ps : List Problem} {k : ℕ}

/-- The PERFORMs of a division, in the order of the source. -/
theorem performs (h : Draft o s p chs) : s.pending.performs =
    (Chapter.allMarks chs).calls.mapIdx fun k e => e.2.pending k := h.holds.performs

theorem groups (h : Draft o s p chs) : s.graph.groups.toList =
    (Chapter.allMarks chs).calls.mapIdx fun k e => e.2.group e.1 k := h.holds.groups

/-- A block makes the calls at which a chapter has a landmark in it. -/
theorem group_eq_some_iff (h : Draft o s p chs) {b : BlockId} : (s.graph.chart b).group = some k ↔
    ∃ call, (Chapter.allMarks chs).calls[k]? = some (b, call) := by
  have hget : s.graph.groups[k]? =
      (Chapter.allMarks chs).calls[k]?.map fun e => e.2.group e.1 k := by
    rw [← Array.getElem?_toList, h.groups, List.getElem?_mapIdx]
  constructor
  · intro hk
    obtain ⟨group, hgroup, rfl⟩ := h.honest _ k hk
    rw [hget] at hgroup
    obtain ⟨⟨b, call⟩, hcall, rfl⟩ := Option.map_eq_some_iff.1 hgroup
    exact ⟨call, hcall⟩
  · rintro ⟨call, hcall⟩
    rw [hcall] at hget
    obtain ⟨block, hblock, hsite⟩ := h.sound.graph.callSite hget
    have hspot : s.graph.chart b = block.spot s.graph.slots := Graph.chart_of_getElem? hblock
    rw [hspot]
    exact hsite

theorem exists_call (h : Draft o s p chs) {call : Call}
    (hk : (p.landmarks.filterMap Landmark.call?)[k]? = some call) : ∃ callSite,
      s.pending.performs[k]? = some (call.pending k) ∧
      s.graph.groups[k]? = some (call.group callSite k) := by
  rw [← h.calls, List.getElem?_map] at hk
  obtain ⟨⟨b, call⟩, he, rfl⟩ := Option.map_eq_some_iff.1 hk
  refine ⟨b, by rw [h.performs, List.getElem?_mapIdx, he]; rfl, ?_⟩
  rw [← Array.getElem?_toList, h.groups, List.getElem?_mapIdx, he]
  rfl

theorem length_performs (h : Draft o s p chs) :
    s.pending.performs.length = (p.landmarks.filterMap Landmark.call?).length := by
  rw [h.performs, List.length_mapIdx, ← h.calls, List.length_map]

theorem size_groups (h : Draft o s p chs) :
    s.graph.groups.size = s.pending.performs.length := by
  rw [← Array.length_toList, h.groups, h.performs, List.length_mapIdx, List.length_mapIdx]

/-- Once the jumps are drawn, nothing is captured yet. -/
theorem awaits (h : Draft o s p chs) (hp : p.catalog.Filed) (hl : Links s s' E ps) :
    s'.Awaits s.pending.performs where
  sound := hl.sound
  size := by rw [hl.groups, h.size_groups]
  group {k w} hw := by
    have hk : k < (p.landmarks.filterMap Landmark.call?).length := by
      rw [← h.length_performs]
      exact (List.getElem?_eq_some_iff.1 hw).1
    obtain ⟨b, hw', hgroup⟩ := h.exists_call (List.getElem?_eq_getElem hk)
    obtain rfl := Option.some.inj (hw.symm.trans hw')
    exact ⟨rfl, b, _, hl.groups ▸ hgroup⟩
  nodup hblocks := h.nodup_capturedBlocks hp (Procedures.capturedBlocks_eq hl.bare _ _ ▸ hblocks)

theorem honest_linked (h : Draft o s p chs) (hl : Links s s' E ps) : s'.graph.Honest := by
  intro b i hi
  obtain ⟨more, hchart, -⟩ := hl.chart b
  rw [hchart] at hi
  rw [hl.groups]
  exact h.honest b i hi

end Draft

/-! ### The errands -/

namespace Scope

variable {s s' : Scope} {W : List PendingPerform} {i j : ℕ} {p : Problem}

theorem code_complaints {c : Procedures} {n : QualifiedName} {span : Span}
    (hp : p ∈ c.complaints n span) : p.code ≠ "CFG004" ∧ p.code ≠ "CFG005" := by
  rw [Procedures.complaints] at hp
  split at hp
  · rw [List.mem_singleton.1 hp]
    simp [Problem.code]
  · rw [List.mem_singleton.1 hp]
    simp [Problem.code]
  · exact absurd hp List.not_mem_nil

theorem code_orderComplaints {c : Procedures} {span : Span} {first : ProcedureId}
    {last? : Option ProcedureId} (hp : p ∈ c.orderComplaints span first last?) :
    p.code ≠ "CFG004" ∧ p.code ≠ "CFG005" := by
  cases last? with
  | none => exact absurd hp List.not_mem_nil
  | some last =>
  rw [Procedures.orderComplaints] at hp
  split at hp
  swap
  · exact absurd hp List.not_mem_nil
  split at hp
  · rw [List.mem_singleton.1 hp]
    simp [Problem.code]
  · exact absurd hp List.not_mem_nil

theorem code_rangeComplaints {c : Procedures} {r : PerformRange} {span : Span}
    (hp : p ∈ c.rangeComplaints r span) : p.code ≠ "CFG004" ∧ p.code ≠ "CFG005" := by
  rw [Procedures.rangeComplaints] at hp
  obtain hp | hp := List.mem_append.1 hp
  · exact code_complaints hp
  split at hp
  · exact absurd hp List.not_mem_nil
  obtain hp | hp := List.mem_append.1 hp
  · cases hthrough : r.through with
    | none => simp [hthrough] at hp
    | some through =>
      rw [hthrough] at hp
      exact code_complaints hp
  · exact code_orderComplaints hp

theorem code_leavings {w : PendingPerform} {range : String} {χ : Chart} {captured : List BlockId}
    (hp : p ∈ Build.leavings w range χ captured) : p.code = "CFG005" := by
  obtain ⟨b, -, hp⟩ := List.mem_flatMap.1 hp
  split at hp
  · exact absurd hp List.not_mem_nil
  · obtain ⟨c, -, rfl⟩ := List.mem_map.1 hp
    simp [Problem.code]

theorem code_jumpComplaints (hp : p ∈ s.jumpComplaints) :
    p.code ≠ "CFG004" ∧ p.code ≠ "CFG005" := by
  obtain hp | hp := List.mem_append.1 hp
  · obtain ⟨w, -, hp⟩ := List.mem_flatMap.1 hp
    obtain ⟨clause, -, hp⟩ := List.mem_flatMap.1 hp
    rw [Build.alterComplaints] at hp
    obtain hp | hp := List.mem_append.1 hp
    · exact code_complaints hp
    split at hp
    · exact absurd hp List.not_mem_nil
    obtain hp | hp := List.mem_append.1 hp
    · exact code_complaints hp
    split at hp
    swap
    · exact absurd hp List.not_mem_nil
    obtain ⟨procedure, -, rfl⟩ := Option.map_eq_some_iff.1 (Option.mem_toList.1 hp)
    simp [Problem.code]
  · obtain ⟨w, -, hp⟩ := List.mem_flatMap.1 hp
    obtain ⟨n, -, hp⟩ := List.mem_flatMap.1 hp
    exact code_complaints hp

namespace Awaits

/-- Nothing but a call site that is met again is reported as a cycle. -/
theorem fair (h : s.Awaits W) : ∀ e ∈ W.map s.errand, e.Fair (W.map s.errand).length := by
  intro e he
  obtain ⟨w, -, rfl⟩ := List.mem_map.1 he
  refine
    { complaints := fun p hp => code_rangeComplaints hp
      warning := fun b => rfl
      leavings := fun p hp => code_leavings hp
      sites := fun l hl site hsite => ?_ }
  obtain ⟨blocks, -, rfl⟩ := Option.map_eq_some_iff.1 hl
  obtain ⟨b, -, hb⟩ := List.mem_filterMap.1 hsite
  obtain ⟨i, hi, rfl⟩ := Option.map_eq_some_iff.1 hb
  rw [List.length_map, ← h.size]
  by_cases hlt : b < s.graph.size
  · obtain ⟨block, hblock⟩ := Graph.getElem?_eq_some_of_lt hlt
    exact h.sound.graph.group_lt hblock (by rwa [Graph.chart_of_getElem? hblock] at hi)
  · rw [Graph.chart_of_size_le (not_lt.1 hlt)] at hi
    exact nomatch hi

/-- An errand calls another if its range has the other's call site. -/
theorem calls_iff (h : s.Awaits W) (hhonest : s.graph.Honest) :
    Errand.Calls (W.map s.errand) i j ↔ ∃ w, W[i]? = some w ∧ ∃ blocks,
      s.procedures.captured? w.range = some blocks ∧ ∃ group, s.graph.groups[j]? = some group ∧
        group.callSite ∈ blocks := by
  constructor
  · rintro ⟨e, he, sites, hsites, b, hb⟩
    rw [List.getElem?_map] at he
    obtain ⟨w, hw, rfl⟩ := Option.map_eq_some_iff.1 he
    obtain ⟨blocks, hblocks, rfl⟩ := Option.map_eq_some_iff.1 hsites
    obtain ⟨b', hb', hsite⟩ := List.mem_filterMap.1 hb
    obtain ⟨i', hi', heq⟩ := Option.map_eq_some_iff.1 hsite
    obtain ⟨rfl, rfl⟩ := Prod.mk.inj heq
    obtain ⟨group, hgroup, rfl⟩ := hhonest _ _ hi'
    exact ⟨w, hw, blocks, hblocks, group, hgroup, hb'⟩
  · rintro ⟨w, hw, blocks, hblocks, group, hgroup, hmem⟩
    obtain ⟨block, hblock, hcall⟩ := h.sound.graph.callSite hgroup
    refine ⟨s.errand w, by rw [List.getElem?_map, hw]; rfl, _, by rw [errand, hblocks]; rfl,
      group.callSite, List.mem_filterMap.2 ⟨_, hmem, ?_⟩⟩
    rw [Graph.chart_of_getElem? hblock]
    exact congrArg (Option.map _) hcall

end Awaits

end Scope

/-! ### Groups after the capture -/

namespace Follows

variable {s₀ s : Scope} {W : List PendingPerform} {c : Build.Capture} {t : Tour}

/-- After the capture every group stands for itself. -/
theorem spliced (hA : s₀.Awaits W) (h : Follows s₀ W c s t) (deep : Prop) :
    Spliced s.graph (Errand.Calls (W.map s₀.errand)) deep id s.graph := by
  have hgroup : ∀ {X : ℕ} {group : Group}, s.graph.groups[X]? = some group →
      group.truncated = false ∧
        Fills s₀ W t.progress[X]? s.graph X group.members group.terminals := by
    intro X group hX
    have hlt : X < W.length := by
      rw [← hA.size, ← h.size]
      exact (Array.getElem?_eq_some_iff.1 hX).1
    obtain ⟨-, callSite, node, hold⟩ := hA.group (List.getElem?_eq_getElem hlt)
    obtain ⟨members, terminals, hget, hfills⟩ := h.group hold
    obtain rfl := Option.some.inj (hX.symm.trans hget)
    exact ⟨rfl, hfills⟩
  refine
    { size_le := le_rfl
      own := fun _ _ => rfl
      source := fun {X group} hX => ⟨group, hX, rfl, rfl, rfl, fun _ => rfl⟩
      calls := fun {X group} hX m hm Y hY => ?_
      whole := fun _ {X group} hX => (hgroup hX).1 }
  obtain ⟨w, blocks, hw, hblocks, hcopies⟩ := (hgroup hX).2.exists_copies (List.ne_nil_of_mem hm)
  obtain ⟨b, hb, hcopy⟩ := hcopies.exists_original hm
  rw [hcopy.group] at hY
  refine ⟨s₀.errand w, by rw [id, List.getElem?_map, hw]; rfl, _, by rw [errand, hblocks]; rfl, b,
    List.mem_filterMap.2 ⟨b, hb, ?_⟩⟩
  rw [hY]
  rfl

end Follows

/-! ### What becomes of a division -/

/-- **The ranges are captured** once the jumps are drawn, and then, in extended mode, spliced in. -/
theorem Draft.exists_captured {o : Options} {s : Scope} {p : Plan} {chs : List Chapter}
    (h : Draft o s p chs) (hp : p.catalog.Filed) : ∃ s₁ c s₂,
      Links s s₁ s.Jumps s.jumpComplaints ∧ s.InOrder s₁ ∧ s₁.Awaits s.pending.performs ∧ Sound s₂ ∧
      Follows s₁ s.pending.performs c s₂ (Tour.all (s.pending.performs.map s₁.errand)) ∧
      Build.resolvePerforms s.pending.performs s₁ = .ok ((), s₂) ∧ Build.resolvePending o s =
        (if o.isExtended then Build.editGraph (Build.graftGroups o) else pure () : Build Unit)
          s₂ := by
  obtain ⟨s₁, hlinks, hordered, hrun⟩ := h.exists_linked
  have hawaits := h.awaits hp hlinks
  obtain ⟨⟨⟩, s₂, hcapture, hsound, -, c, hfollows⟩ :=
    Build.resolvePerforms_follows hawaits hawaits.sound
  exact ⟨s₁, c, s₂, hlinks, hordered, hawaits, hsound, hfollows, hcapture,
    by rw [hrun, run_bind hcapture]⟩

/-! ### Programs -/

namespace ProgramUnit

/-- The PERFORMs of a program, in the order of the source. -/
def calls (u : ProgramUnit) : List Call := u.landmarks.filterMap Landmark.call?

/-- The `i`-th PERFORM calls the `j`-th: a block of the range it performs is the other's call
site. -/
def Calls (u : ProgramUnit) (flow : ProgramFlow) (i j : ℕ) : Prop :=
  ∃ call, u.calls[i]? = some call ∧ ∃ blocks,
    flow.procedures.captured? call.range = some blocks ∧ j < u.calls.length ∧
      ∃ group, flow.graph.groups[j]? = some group ∧ group.callSite ∈ blocks

/-- What the marks of recursive groups, the reports of cycles and the nesting limit come to. -/
structure MarksCycles (o : Options) (u : ProgramUnit) (flow : ProgramFlow) : Prop where
  /-- The first groups are those of the PERFORMs. -/
  groups : ∀ {i : ℕ} {call : Call}, u.calls[i]? = some call → ∃ group,
    flow.graph.groups[i]? = some group ∧ group.node = call.node
  /-- Every cycle of calls is cut. -/
  cut : ∀ c : Cycle ℕ, c ≠ Cycle.nil → c.Chain (u.Calls flow) →
    ∃ i ∈ c, ∃ group, flow.graph.groups[i]? = some group ∧ group.recursive = true
  /-- What is marked lies on a cycle. -/
  marked : ∀ {i : ℕ} {group : Group}, i < u.calls.length → flow.graph.groups[i]? = some group →
    group.recursive = true → ∃ c : Cycle ℕ, c.Chain (u.Calls flow) ∧ i ∈ c
  /-- A group that splicing has added is marked if the one it stands for is. -/
  copied : ∀ {i : ℕ} {group : Group}, flow.graph.groups[i]? = some group → ∃ j source,
    j < u.calls.length ∧ flow.graph.groups[j]? = some source ∧ source.node = group.node ∧
      source.recursive = group.recursive
  reported : (∃ p ∈ flow.problems, p.code = "CFG004") ↔
    ∃ c : Cycle ℕ, c ≠ Cycle.nil ∧ c.Chain (u.Calls flow)
  /-- The nesting limit is not reached if it is as large as the number of PERFORMs. -/
  whole : u.calls.length ≤ o.maxGraftDepth → ∀ group ∈ flow.graph.groups, group.truncated = false

/-- The result of a program as the tour of some errands. -/
structure Toured (o : Options) (u : ProgramUnit) (flow : ProgramFlow) (E : List Errand) : Prop where
  length : u.calls.length = E.length
  fair : ∀ e ∈ E, e.Fair E.length
  calls : u.Calls flow = Errand.Calls E
  /-- The first groups are those of the PERFORMs, with the marks of the tour. -/
  group : ∀ {i : ℕ} {call : Call}, u.calls[i]? = some call → ∃ group,
    flow.graph.groups[i]? = some group ∧ group.node = call.node ∧
      group.recursive = decide (i ∈ (Tour.all E).flagged)
  /-- Every other group stands for one of them. -/
  copied : ∀ {i : ℕ} {group : Group}, flow.graph.groups[i]? = some group → ∃ j source,
    j < E.length ∧ flow.graph.groups[j]? = some source ∧ source.node = group.node ∧
      source.recursive = group.recursive
  reported : (∃ p ∈ flow.problems, p.code = "CFG004") ↔
    ∃ p ∈ (Tour.all E).problems, p.code = "CFG004"
  whole : E.length ≤ o.maxGraftDepth → ∀ group ∈ flow.graph.groups, group.truncated = false

variable {o : Options} {u : ProgramUnit} {flow : ProgramFlow}

/-- A program without a division performs nothing. -/
theorem Yields.toured_of_none (h : u.Yields o flow) (hd : u.division = none) :
    u.Toured o flow [] := by
  obtain ⟨hgraph, -, hproblems⟩ := h.of_none hd
  have hcalls : u.calls = [] := by rw [calls, landmarks, events, hd]; rfl
  exact
    { length := by rw [hcalls]; rfl
      fair := List.forall_mem_nil _
      calls := by
        funext i j
        simp [Calls, Errand.Calls, hcalls]
      group := fun h => by simp [hcalls] at h
      copied := fun h => by simp [hgraph] at h
      reported := by simp [hproblems, Tour.all, Tour.start]
      whole := fun _ group hgroup => by simp [hgraph] at hgroup }

/-- What splicing makes of captured groups. -/
theorem exists_spliced {s₁ s₂ s' : Scope} {W : List PendingPerform} {c : Build.Capture}
    (hA : s₁.Awaits W) (hs : Sound s₂)
    (hfollows : Follows s₁ W c s₂ (Tour.all (W.map s₁.errand)))
    (hrun : (if o.isExtended then Build.editGraph (Build.graftGroups o) else pure () : Build Unit)
      s₂ = .ok ((), s')) :
    s'.procedures = s₂.procedures ∧ s'.problems = s₂.problems ∧
      ∃ ω, Spliced s₂.graph (Errand.Calls (W.map s₁.errand)) (W.length ≤ o.maxGraftDepth) ω
        s'.graph := by
  have hspliced := hfollows.spliced hA (W.length ≤ o.maxGraftDepth)
  split at hrun
  swap
  · obtain ⟨-, rfl⟩ := Prod.mk.inj (Except.ok.inj hrun)
    exact ⟨rfl, rfl, fun i => i, hspliced⟩
  have hsize : s₂.graph.groups.size = W.length := hfollows.size.trans hA.size
  obtain ⟨rank, hlt, hrank⟩ := Tour.exists_rank hA.fair
  rw [List.length_map] at hlt
  have hmarks : ∀ i j, Errand.Calls (W.map s₁.errand) i j → ∀ source,
      s₂.graph.groups[j]? = some source → source.recursive = false → rank j < rank i := by
    intro i j hcall source hsource hfalse
    refine hrank i j hcall fun hmem => ?_
    have hj : j < W.length := hsize ▸ (Array.getElem?_eq_some_iff.1 hsource).1
    obtain ⟨-, callSite, node, hold⟩ := hA.group (List.getElem?_eq_getElem hj)
    obtain ⟨members, terminals, hget, -⟩ := hfollows.group hold
    obtain rfl := Option.some.inj (hsource.symm.trans hget)
    simp [hmem] at hfalse
  obtain ⟨⟨⟩, g', hgraft, -, -, ω, hω⟩ := Build.graftGroups_spliced hmarks
    (fun i hi => hsize ▸ hlt i (hsize ▸ hi)) o (fun h => hsize ▸ h) hspliced hs.graph
  rw [Build.editGraph_eq_ok hgraft] at hrun
  obtain ⟨-, rfl⟩ := Prod.mk.inj (Except.ok.inj hrun)
  exact ⟨rfl, rfl, ω, hω⟩

section Captured

variable {s s₁ s₂ s' : Scope} {p : Plan} {chs : List Chapter} {c : Build.Capture} {ω : ℕ → ℕ}
  {W : List PendingPerform}

/-- The `i`-th PERFORM waits with the `i`-th group. -/
theorem exists_awaiting (hdraft : Draft o s p chs) (hlandmarks : p.landmarks = u.landmarks)
    (hlinks : Links s s₁ s.Jumps s.jumpComplaints) {i : ℕ} {call : Call}
    (hi : u.calls[i]? = some call) : ∃ callSite, s.pending.performs[i]? = some (call.pending i) ∧
      s₁.graph.groups[i]? = some (call.group callSite i) := by
  rw [calls, ← hlandmarks] at hi
  obtain ⟨callSite, hw, hgroup⟩ := hdraft.exists_call hi
  exact ⟨callSite, hw, hlinks.groups ▸ hgroup⟩

/-- A group of a PERFORM keeps its call site, and gets the mark of the tour. -/
theorem exists_marked (hfollows : Follows s₁ W c s₂ (Tour.all (W.map s₁.errand)))
    {deep : Prop} (hω : Spliced s₂.graph (Errand.Calls (W.map s₁.errand)) deep ω s'.graph) {i : ℕ}
    {old : Group} (hold : s₁.graph.groups[i]? = some old) : ∃ group,
      s'.graph.groups[i]? = some group ∧ group.node = old.node ∧ group.callSite = old.callSite ∧
        group.recursive = decide (i ∈ (Tour.all (W.map s₁.errand)).flagged) := by
  obtain ⟨members, terminals, hget, -⟩ := hfollows.group hold
  have hi : i < s₂.graph.groups.size := (Array.getElem?_eq_some_iff.1 hget).1
  have hlt : i < s'.graph.groups.size := hi.trans_le hω.size_le
  obtain ⟨source, hsource, hnode, -, hrecursive, hsite⟩ :=
    hω.source (Array.getElem?_eq_getElem hlt)
  rw [hω.own i hi] at hsource
  obtain rfl := Option.some.inj (hsource.symm.trans hget)
  exact ⟨_, Array.getElem?_eq_getElem hlt, hnode, hsite hi, hrecursive⟩

end Captured

/-- What a division comes to is the tour of its PERFORMs. -/
theorem Yields.exists_toured (h : u.Yields o flow) : ∃ E, u.Toured o flow E := by
  cases hd : u.division with
  | none => exact ⟨[], h.toured_of_none hd⟩
  | some d =>
    obtain ⟨s, chs, s', hdraft, hlandmarks, hrun, hgraph, hprocedures, hproblems⟩ :=
      h.exists_draft hd
    obtain ⟨s₁, c, s₂, hlinks, -, hA, hsound, hfollows, -, hrun'⟩ :=
      hdraft.exists_captured (d.filed_plan u.program (u.id + 1))
    have hhonest := hdraft.honest_linked hlinks
    obtain ⟨hprocedures', hproblems', ω, hω⟩ :=
      exists_spliced hA hsound hfollows (hrun'.symm.trans hrun)
    have hlength : u.calls.length = s.pending.performs.length := by
      rw [calls, ← hlandmarks, ← hdraft.length_performs]
    have hsize : s₂.graph.groups.size = s.pending.performs.length := hfollows.size.trans hA.size
    have hcall : ∀ {i : ℕ}, i < s.pending.performs.length → ∃ call, u.calls[i]? = some call :=
      fun hi => ⟨_, List.getElem?_eq_getElem (hlength ▸ hi)⟩
    refine ⟨s.pending.performs.map s₁.errand,
      { length := by rw [hlength, List.length_map]
        fair := hA.fair
        calls := ?_
        group := fun hi => ?_
        copied := fun {i group} hgroup => ?_
        reported := ?_
        whole := fun hdeep group hgroup => ?_ }⟩
    · funext i j
      refine propext (Iff.trans ?_ (hA.calls_iff hhonest).symm)
      rw [Calls, hprocedures, hprocedures', hfollows.procedures, hgraph]
      constructor
      · rintro ⟨call, hi, blocks, hblocks, hj, group, hgroup, hmem⟩
        obtain ⟨-, hw, -⟩ := exists_awaiting hdraft hlandmarks hlinks hi
        obtain ⟨callSite, -, hold⟩ :=
          exists_awaiting hdraft hlandmarks hlinks (List.getElem?_eq_getElem hj)
        obtain ⟨group', hgroup', -, hsite, -⟩ := exists_marked hfollows hω hold
        obtain rfl := Option.some.inj (hgroup.symm.trans hgroup')
        exact ⟨_, hw, blocks, hblocks, _, hold, hsite ▸ hmem⟩
      · rintro ⟨w, hw, blocks, hblocks, group, hold, hmem⟩
        obtain ⟨call, hi⟩ := hcall (List.getElem?_eq_some_iff.1 hw).1
        obtain ⟨-, hw', -⟩ := exists_awaiting hdraft hlandmarks hlinks hi
        obtain rfl := Option.some.inj (hw.symm.trans hw')
        have hj : j < u.calls.length :=
          hlength ▸ hA.size ▸ (Array.getElem?_eq_some_iff.1 hold).1
        obtain ⟨group', hgroup', -, hsite, -⟩ := exists_marked hfollows hω hold
        exact ⟨call, hi, blocks, hblocks, hj, group', hgroup', hsite ▸ hmem⟩
    · obtain ⟨callSite, -, hold⟩ := exists_awaiting hdraft hlandmarks hlinks hi
      obtain ⟨group, hgroup, hnode, -, hmark⟩ := exists_marked hfollows hω hold
      exact ⟨group, hgraph ▸ hgroup, hnode, hmark⟩
    · rw [hgraph] at hgroup
      obtain ⟨source, hsource, hnode, -, hrecursive, -⟩ := hω.source hgroup
      have hj : ω i < s.pending.performs.length := hsize ▸ (Array.getElem?_eq_some_iff.1 hsource).1
      obtain ⟨-, callSite, node, hold⟩ := hA.group (List.getElem?_eq_getElem hj)
      obtain ⟨members, terminals, hget, -⟩ := hfollows.group hold
      obtain rfl := Option.some.inj (hsource.symm.trans hget)
      obtain ⟨group', hgroup', hnode', -, hmark⟩ := exists_marked hfollows hω hold
      exact ⟨ω i, group', by rwa [List.length_map], hgraph ▸ hgroup', hnode'.trans hnode.symm,
        hmark.trans hrecursive.symm⟩
    · rw [hproblems, hproblems', hfollows.problems, hlinks.problems, hdraft.problems,
        List.nil_append]
      refine ⟨fun ⟨p, hp, hcode⟩ => ?_, fun ⟨p, hp, hcode⟩ =>
        ⟨p, List.mem_append_right _ hp, hcode⟩⟩
      obtain hp | hp := List.mem_append.1 hp
      · exact absurd hcode (code_jumpComplaints hp).1
      · exact ⟨p, hp, hcode⟩
    · rw [hgraph] at hgroup
      obtain ⟨i, hi⟩ := Array.mem_iff_getElem?.1 hgroup
      exact hω.whole (by simpa using hdeep) hi

/-- What the tour has marked cuts the cycles of calls and lies on them. -/
theorem Toured.marksCycles {E : List Errand} (h : u.Toured o flow E) : u.MarksCycles o flow where
  groups hi := by
    obtain ⟨group, hgroup, hnode, -⟩ := h.group hi
    exact ⟨group, hgroup, hnode⟩
  cut c hne hc := by
    rw [h.calls] at hc
    obtain ⟨i, hi, hflag⟩ := Tour.exists_mem_flagged_of_chain h.fair hne hc
    have hlt : i < u.calls.length := h.length ▸ Tour.lt_of_mem_flagged h.fair hflag
    obtain ⟨group, hgroup, -, hmark⟩ := h.group (List.getElem?_eq_getElem hlt)
    exact ⟨i, hi, group, hgroup, by rw [hmark, decide_eq_true hflag]⟩
  marked hi hgroup hrecursive := by
    obtain ⟨group', hgroup', -, hflag⟩ := h.group (List.getElem?_eq_getElem hi)
    obtain rfl := Option.some.inj (hgroup.symm.trans hgroup')
    rw [h.calls]
    exact Tour.exists_chain_of_mem_flagged h.fair (by simpa [hflag] using hrecursive)
  copied hgroup := by
    rw [h.length]
    exact h.copied hgroup
  reported := by rw [h.reported, h.calls, Tour.reported_iff h.fair]
  whole hdeep := h.whole (h.length ▸ hdeep)

end ProgramUnit

/-- **Recursive PERFORMs.** For every tree and every options there is a result, and in each of its
programs the marks cut every cycle of calls and lie on cycles, a cycle is reported exactly if there
is one, and with as many levels as there are PERFORMs nothing is left unspliced. -/
theorem StatementTree.build_marksCycles (t : StatementTree) (o : Options) : ∃ flows,
    t.build o = .ok flows ∧ List.Forall₂ (fun u flow => u.MarksCycles o flow) t.units flows := by
  obtain ⟨flows, hbuild, hflows⟩ := t.exists_build o
  exact ⟨flows, hbuild, hflows.imp fun u flow h => h.exists_toured.elim fun _ h => h.marksCycles⟩

end CobolFlow
