import CobolFlow.Proofs.Calls.Cycles
import CobolFlow.Proofs.Calls.Mirror
import CobolFlow.Proofs.Division.Marks
import CobolFlow.Proofs.Place.Conditional
import CobolFlow.Proofs.Writing.Finished

/-!
# How a result has come about

A division is drawn, its jumps are drawn, its ranges are captured, and in extended mode they are
spliced in. Each stage leaves what was there before alone but for a few things, so what is said of
an early stage can be said of the result.

## Main definitions

* `ProgramUnit.Arises` — the stages of a result

## Main results

* `ProgramUnit.Yields.exists_arises` — every result has come about in these stages
* `ProgramUnit.Arises.chart_eq` — splicing in leaves all blocks but call sites alone
-/

namespace CobolFlow

open Scope

/-- How many levels of groups may be spliced in. -/
def Options.levels (o : Options) : ℕ := if o.isExtended then o.maxGraftDepth else 0

namespace ProgramUnit

/-- The stages of a result: in `s` the division is drawn, in `s₁` its jumps are drawn too, and in
`s₂` all ranges are captured. -/
structure Arises (o : Options) (u : ProgramUnit) (d : DivisionText) (flow : ProgramFlow)
    (s : Scope) (chs : List Chapter) (s₁ s₂ : Scope) : Prop where
  draft : Draft o s (d.plan u.program (u.id + 1)) chs
  marked : s.Marked
  landmarks : (d.plan u.program (u.id + 1)).landmarks = u.landmarks
  /-- The block of a GO TO that need not leave leads on. -/
  leadsOn : ∀ {n : Node} {j : Jump}, .enter n ∈ u.events → n.kind = .goTo j → j.isSimple = false →
    ∃ b, n.instruction ∈ (s.graph.chart b).nodes ∧ (s.graph.chart b).next ≠ []
  links : Links s s₁ s.Jumps s.jumpComplaints
  ordered : s.InOrder s₁
  awaits : s₁.Awaits s.pending.performs
  captured : Build.resolvePerforms s.pending.performs s₁ = .ok ((), s₂)
  follows : ∃ c, Follows s₁ s.pending.performs c s₂ (Tour.all (s.pending.performs.map s₁.errand))
  sound₂ : Sound s₂
  sound : Sound flow.graph
  procedures : flow.procedures = s₂.procedures
  problems : flow.problems = s₂.problems
  regrafting : Build.Regrafting o.levels s₂.graph [] flow.graph
  spliced : o.isExtended = true → Build.graftGroups o s₂.graph = .ok ((), flow.graph)
  unspliced : o.isExtended = false → flow.graph = s₂.graph

variable {o : Options} {u : ProgramUnit} {d : DivisionText} {flow : ProgramFlow}
  {s s₁ s₂ : Scope} {chs : List Chapter}

/-- A result comes about in these stages from whatever the items of its division have drawn. -/
theorem Yields.arises_of_outline (h : u.Yields o flow) (hd : u.division = some d) {t : Scope}
    (houtline : Outline o t (d.plan u.program (u.id + 1)) chs)
    (hplay : Build.play o ((d.items.run (u.id + 1)).1.flatMap Item.events)
      (Scope.started u.program u.id) = .ok ((), t)) :
    ∃ s s₁ s₂, Build.finishBlocks { t with enclosing := t.enclosing.tail } = .ok ((), s) ∧
      u.Arises o d flow s chs s₁ s₂ := by
  obtain ⟨t', hplay', hgraph, hprocedures, hproblems⟩ := h.built
  obtain ⟨s, s', hfinish, hdraft, hrun, hdivision⟩ := houtline.exists_resolved hplay
  have hevents : u.events = ((Script.division d).run u.id).1 := by rw [events, hd]
  rw [hevents, hdivision] at hplay'
  obtain ⟨-, rfl⟩ := Prod.mk.inj (Except.ok.inj hplay')
  obtain ⟨s₁, c, s₂, hlinks, hordered, hA, hsound, hfollows, hcapture, hrun'⟩ :=
    hdraft.exists_captured (d.filed_plan u.program (u.id + 1))
  have hrun := hrun'.symm.trans hrun
  obtain ⟨hprocedures', hproblems', -⟩ := exists_spliced hA hsound hfollows hrun
  have hmarked : ({ t with enclosing := t.enclosing.tail } : Scope).Marked :=
    (d.marked_items o u.program u.id () t hplay).congr (.of_blocks_eq rfl)
      (fun {_ t} ht => ⟨t, ht, rfl, rfl⟩) fun _ hj => ⟨hj, fun hopen => hopen⟩
  have hleadsOn : ∀ {n : Node} {j : Jump}, .enter n ∈ u.events → n.kind = .goTo j →
      j.isSimple = false →
        ∃ b, n.instruction ∈ (s.graph.chart b).nodes ∧ (s.graph.chart b).next ≠ [] := by
    intro n j hn hkind hj
    have hitem : .enter n ∈ (d.items.run (u.id + 1)).1.flatMap Item.events := by
      rw [hevents, d.run_division] at hn
      simpa [show n ≠ ⟨u.id, .procedureDivision, .unknown, none⟩ by rintro rfl; cases hkind]
        using hn
    obtain ⟨b, hnodes, hnext⟩ := Build.exists_next_of_conditional
      (d.admits_items o u.program u.id) (d.isWithin_items (u.id + 1)) hplay hitem hkind hj
    have hlengthens : t.graph.Lengthens s.graph :=
      Build.lengthens_of_steps Build.finishBlocks_steps { t with enclosing := t.enclosing.tail } ()
        s hfinish
    exact ⟨b, (hlengthens.nodes b).subset hnodes, fun hnil => hnext
      (List.subset_nil.1 (hnil ▸ hlengthens.next b))⟩
  have hregrafting : Sound s'.graph ∧ Build.Regrafting o.levels s₂.graph [] s'.graph ∧
      (o.isExtended = true → Build.graftGroups o s₂.graph = .ok ((), s'.graph)) ∧
      (o.isExtended = false → s'.graph = s₂.graph) := by
    rw [Options.levels]
    cases ho : o.isExtended with
    | true =>
      rw [ho] at hrun
      obtain ⟨g, hgraft, rfl⟩ := Build.exists_of_editGraph_eq_ok hrun
      obtain ⟨hg, -, -⟩ := (Build.graftGroups_faultless o).of_eq_ok hsound.graph hgraft
      exact ⟨hg, Build.graftGroups_retains o hsound.graph () g hgraft, fun _ => hgraft, by simp⟩
    | false =>
      rw [ho] at hrun
      obtain ⟨-, rfl⟩ := Prod.mk.inj (Except.ok.inj hrun)
      exact ⟨hsound.graph, ⟨.nil, by simp, .refl _, fun _ _ _ _ hgrafted => absurd rfl hgrafted.1⟩,
        by simp, fun _ => rfl⟩
  exact ⟨s, s₁, s₂, hfinish,
    { draft := hdraft
      marked := hmarked.ensures Build.finishBlocks_steps () s hfinish
      landmarks := by rw [DivisionText.landmarks_plan, landmarks, hevents]
      leadsOn := hleadsOn
      links := hlinks
      ordered := hordered
      awaits := hA
      captured := hcapture
      follows := ⟨c, hfollows⟩
      sound₂ := hsound
      sound := hgraph ▸ hregrafting.1
      procedures := hprocedures.trans hprocedures'
      problems := hproblems.trans hproblems'
      regrafting := hgraph ▸ hregrafting.2.1
      spliced := fun h => hgraph ▸ hregrafting.2.2.1 h
      unspliced := fun h => hgraph.trans (hregrafting.2.2.2 h) }⟩

/-- Every result comes about in these stages. -/
theorem Yields.exists_arises (h : u.Yields o flow) (hd : u.division = some d) :
    ∃ s chs s₁ s₂, u.Arises o d flow s chs s₁ s₂ := by
  obtain ⟨t, chs, hplay, houtline, -⟩ := (Outline.start o u.program u.id).exists_play
    (d.items.run (u.id + 1)).1 (d.allowsAll_items u.program (u.id + 1))
  obtain ⟨s, s₁, s₂, -, harises⟩ := h.arises_of_outline hd houtline hplay
  exact ⟨s, chs, s₁, s₂, harises⟩

/-- Every result has a graph without defects. -/
theorem Yields.checked (h : u.Yields o flow) : flow.graph.Checked := by
  cases hd : u.division with
  | none =>
    rw [(h.of_none hd).1]
    exact Graph.check_eq_ok_iff.1 rfl
  | some d =>
    obtain ⟨s, chs, s₁, s₂, harises⟩ := h.exists_arises hd
    exact harises.sound.checked

namespace Arises

variable (h : u.Arises o d flow s chs s₁ s₂) {b : BlockId}
include h

theorem procedures_eq : flow.procedures = s₁.procedures := by
  obtain ⟨c, hfollows⟩ := h.follows
  exact h.procedures.trans hfollows.procedures

/-- What is reported of jumps comes first, and then what is reported of calls. -/
theorem problems_eq : flow.problems =
    s.jumpComplaints ++ (Tour.all (s.pending.performs.map s₁.errand)).problems := by
  obtain ⟨c, hfollows⟩ := h.follows
  rw [h.problems, hfollows.problems, h.links.problems, h.draft.problems, List.nil_append]

/-- But for the entries of sentences the catalog is that of the draft. -/
theorem bare : flow.procedures.bare = s.procedures.bare :=
  (congrArg Procedures.bare h.procedures_eq).trans h.links.bare

/-- But for blocks and edges it is that of the plan. -/
theorem erase : flow.procedures.erase = (d.plan u.program (u.id + 1)).catalog := by
  rw [← Procedures.erase_bare, h.bare, Procedures.erase_bare, h.draft.catalog]

theorem size_le : s.graph.size ≤ flow.graph.size := by
  obtain ⟨c, hfollows⟩ := h.follows
  exact (h.links.size ▸ hfollows.keeps.size_le).trans h.regrafting.retains.size_le

theorem slot {k : SlotId} (hk : s₁.graph.slots[k]? = some b) : flow.graph.slots[k]? = some b := by
  obtain ⟨c, hfollows⟩ := h.follows
  exact h.regrafting.retains.slot (hfollows.keeps.slots hk)

theorem roots : flow.graph.roots = s.graph.roots := by
  obtain ⟨c, hfollows⟩ := h.follows
  exact h.regrafting.retains.roots.trans (hfollows.keeps.roots.trans h.links.roots)

/-- Of a block that the division has made, splicing in changes where it leads and whether it is
marked as spliced. If it makes no call, nothing is changed. -/
theorem chart_eq (hb : b < s.graph.size) : ∃ m next, flow.graph.chart b =
      { s₁.graph.chart b with
        flags := (s₁.graph.chart b).flags.union { grafted := m }, next } ∧
    ((s₁.graph.chart b).group = none → flow.graph.chart b = s₁.graph.chart b) := by
  obtain ⟨c, hfollows⟩ := h.follows
  have hb₁ : b < s₁.graph.size := h.links.size ▸ hb
  have hb₂ : b < s₂.graph.size := hb₁.trans_le hfollows.keeps.size_le
  rw [← hfollows.keeps.chart b hb₁]
  by_cases hsite : ∃ i group, i ∉ ([] : List GroupId) ∧ s₂.graph.groups[i]? = some group ∧
      Build.IsGrafted o.levels group ∧ group.callSite = b
  · obtain ⟨i, group, hi, hgroup, hgrafted, rfl⟩ := hsite
    obtain ⟨first, rest, terminals, -, block, k, hblock, -, -, hblock'⟩ :=
      h.regrafting.refilled i hi group hgroup hgrafted
    obtain ⟨block', hblock'', hcall⟩ := h.sound₂.graph.callSite hgroup
    obtain rfl : block = block' := Option.some.inj (hblock.symm.trans hblock'')
    rw [Graph.chart_of_getElem? hblock, Graph.chart_of_getElem? hblock']
    exact ⟨true, _, rfl, fun hnone => nomatch hcall.symm.trans hnone⟩
  · have hsame := (Graph.Tight.of_sound h.sound₂.graph).chart_eq h.regrafting.retains hb₂ hsite
    refine ⟨false, (s₂.graph.chart b).next, hsame.trans ?_, fun _ => hsame⟩
    rw [show ({ grafted := false } : BlockFlags) = .none from rfl, BlockFlags.union_none]

/-- The block that ends the graph is the last that the division has made. -/
theorem findFlagged_finish :
    flow.graph.findFlagged { finish := true } = some (Chapter.extent chs) := by
  have hflags : ∀ b < s.graph.size,
      (flow.graph.chart b).flags.finish = (s.graph.chart b).flags.finish := fun b hb => by
    obtain ⟨m, next, hchart, -⟩ := h.chart_eq hb
    obtain ⟨more, hmore, -⟩ := h.links.chart b
    rw [hchart, hmore]
    simp [BlockFlags.union]
  refine Graph.findFlagged_finish h.sound ?_ fun b hb => ?_
  · rw [hflags _ (by rw [h.draft.size]; exact Nat.lt_succ_self _), h.draft.finish]
  · rw [hflags b (by rw [h.draft.size]; exact Nat.lt_succ_of_lt hb)]
    exact (h.draft.spot_calm hb).1

end Arises

end ProgramUnit

end CobolFlow
