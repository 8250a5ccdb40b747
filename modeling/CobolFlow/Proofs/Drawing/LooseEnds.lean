import CobolFlow.Proofs.Drawing.Course
import CobolFlow.Proofs.Groups
import CobolFlow.Proofs.Leaving

/-!
# Loose ends of a drawing

A drawing declares the blocks that the roots lead to, and the members that its clusters show. Its
edges are those of what it declares, so an edge of the text ends at a block that is declared, and so
does an edge of a member that leads to a member of the same group. The only other edges of members
are those by which a jump leaves a performed range. Such a jump is reported, and its edge is drawn
nevertheless. It leads into the text; but the walk from the roots does not pass through members, so
the block where it ends may be one that nothing else leads to. Then it is not declared.

## Main definitions

* `ProgramUnit.Escapes` — the edges by which members leave the range of a PERFORM
* `ProgramUnit.DrawsEnds` — what is said of the drawing of one program

## Main results

* `ProgramUnit.Arises.cases_of_leads_of_member` — where a member leads
* `StatementTree.build_drawsEnds` — every drawing of every program of every tree
-/

namespace CobolFlow

open Dot Scope

open CobolFlow.Graph

/-- With the edge a member of the group of a PERFORM leaves the range, and this is reported. -/
def ProgramUnit.Escapes (u : ProgramUnit) (flow : ProgramFlow) (a b : BlockId) : Prop :=
  ∃ (i k : ℕ) (call : Call) (group : Group) (blocks : List BlockId) (original : BlockId),
    u.calls[i]? = some call ∧ flow.graph.groups[i]? = some group ∧
    flow.procedures.captured? call.range = some blocks ∧ group.members[k]? = some a ∧
    blocks[k]? = some original ∧ (original, b) ∈ flow.leavings call ∧
    flow.departure call original ∈ flow.problems

/-- Where the edges of a drawing begin and end. -/
structure ProgramUnit.DrawsEnds (u : ProgramUnit) (flow : ProgramFlow)
    (statements : List Dot.Statement) : Prop where
  /-- Both ends of an edge are declared, unless a member leaves a range with it for a block of the
  text that cannot be reached. -/
  plain : ∀ {a b : BlockId}, .edge a b ∈ allWithin statements →
    a ∈ declaredIn statements ∧ (b ∈ declaredIn statements ∨
      u.Escapes flow a b ∧ flow.graph.IsOriginal b ∧ ¬ flow.graph.Reached b)
  /-- Both ends of a dashed edge are declared, if it does not end nowhere. -/
  dashed : ∀ {a b : BlockId}, .call a (some b) ∈ allWithin statements →
    a ∈ declaredIn statements ∧ b ∈ declaredIn statements
  /-- A block of the text is declared exactly if it can be reached. -/
  text : ∀ {b : BlockId}, flow.graph.IsOriginal b →
    (b ∈ declaredIn statements ↔ flow.graph.Reached b)

namespace ProgramUnit

variable {o : Options} {u : ProgramUnit} {d : DivisionText} {flow : ProgramFlow}
  {s s₁ s₂ : Scope} {chs : List Chapter}

namespace Arises

variable (h : u.Arises o d flow s chs s₁ s₂) (ho : o.isExtended = false) {a b x : BlockId}
include h ho

/-! ### The text -/

/-- A block of the text leads into the text. -/
theorem isOriginal_of_leads (hb : flow.graph.IsOriginal b) (hlead : flow.graph.Leads b x) :
    flow.graph.IsOriginal x := by
  rw [h.isOriginal_iff] at hb ⊢
  rw [leads_iff_mem_next, h.chart_eq_of_normal ho hb] at hlead
  exact h.links.size ▸ (Tight.of_sound h.awaits.sound.graph).next_lt hlead

omit ho in
/-- The blocks of a range belong to the text. -/
theorem lt_of_mem_captured {call : Call} {blocks : List BlockId}
    (hblocks : flow.procedures.captured? call.range = some blocks) (hb : b ∈ blocks) :
    b < s.graph.size := by
  obtain ⟨l, hl⟩ := Procedures.exists_covers h.shelved h.rooted h.sound_procedures hblocks
  obtain ⟨c, hc, -, hhas⟩ := (h.mem_blocks_iff hl).1 hb
  obtain ⟨i, hi⟩ := List.mem_iff_getElem?.1 hc
  exact h.draft.lt_size (h.draft.has_lt_extent hi hhas)

theorem isOriginal_of_reached (hb : flow.graph.Reached b) : flow.graph.IsOriginal b := by
  obtain ⟨a, ha, hreach⟩ := hb
  induction hreach with
  | refl =>
    rw [h.isOriginal_iff, ← h.links.size]
    exact h.awaits.sound.graph.root_lt a (h.links.roots ▸ h.roots ▸ ha)
  | tail _ hlead ih => exact h.isOriginal_of_leads ho ih hlead

/-- What is a member is a member of the group of a PERFORM whose range is known. -/
theorem exists_holdsCopies {i : GroupId} (ha : a ∈ flow.graph.membersOf i) :
    ∃ call group blocks, u.calls[i]? = some call ∧ flow.graph.groups[i]? = some group ∧
      flow.procedures.captured? call.range = some blocks ∧ a ∈ group.members ∧
      flow.HoldsCopies i group blocks := by
  cases hi : flow.graph.groups[i]? with
  | none => simp [membersOf, hi] at ha
  | some group =>
    rw [membersOf_of_getElem? hi] at ha
    obtain ⟨call, hcall, -, -, -, -, hfilled⟩ := h.exists_call (h.unspliced ho ▸ hi)
    obtain ⟨blocks, hblocks, -⟩ := hfilled.1 (List.ne_nil_of_mem ha)
    obtain ⟨group', hi', -, hholds⟩ := h.fillsGroups ho hcall hblocks
    obtain rfl := Option.some.inj (hi.symm.trans hi')
    exact ⟨call, group, blocks, hcall, rfl, hblocks, ha, hholds⟩

theorem not_isMember_of_isOriginal (hb : flow.graph.IsOriginal b) : ¬ flow.graph.IsMember b := by
  rintro ⟨i, hi⟩
  obtain ⟨call, group, blocks, -, -, -, hmem, hholds⟩ := h.exists_holdsCopies ho hi
  exact hholds.new b hmem hb

/-! ### Members -/

section Leaving

variable {l : Log} (hlog : u.Lists flow (Chapter.extent chs) l) {n : ℕ}
  (hsides : Chapter.Sides flow.procedures chs n) {call : Call} {blocks : List BlockId}
  (hblocks : flow.procedures.captured? call.range = some blocks)
include hlog hsides hblocks

/-- What leads out of a range, but from its last block, is a jump. -/
theorem mem_leavings_of_next (hb : b ∈ blocks) (hlast : blocks.getLast? ≠ some b)
    (hx : x ∈ (flow.graph.chart b).next) (hnot : x ∉ blocks) : (b, x) ∈ flow.leavings call := by
  obtain ⟨l, hl⟩ := Procedures.exists_covers h.shelved h.rooted h.sound_procedures hblocks
  refine ProgramFlow.mem_leavings.2 ⟨blocks, hblocks, hb, ?_, hx, hnot⟩
  obtain hx | hjump := (h.mem_next_iff ho (h.lt_of_mem_captured hblocks hb)).1 hx
  · exact absurd (h.next_mem hsides hl hb hlast hx) hnot
  · exact h.jumps_of_jumps hlog hjump

/-- **Where a member leads**: to a member of its group, or with a jump out of the range. -/
theorem cases_of_leads_of_member {i : GroupId} {group : Group}
    (hholds : flow.HoldsCopies i group blocks) {k : ℕ} (ha : group.members[k]? = some a)
    (hlead : flow.graph.Leads a x) : x ∈ group.members ∨ ∃ original, blocks[k]? = some original ∧
      (original, x) ∈ flow.leavings call := by
  obtain ⟨hk, -⟩ := List.getElem?_eq_some_iff.1 ha
  have hk' : k < blocks.length := hholds.length ▸ hk
  have hb : blocks[k]? = some blocks[k] := List.getElem?_eq_getElem hk'
  rw [leads_iff_mem_next, hholds.copy hb ha, List.mem_filterMap] at hlead
  obtain ⟨y, hy, hlead⟩ := hlead
  cases hlookup : (blocks.zip group.members).lookup y with
  | some copy =>
    obtain rfl : copy = x := by simpa [hlookup] using hlead
    exact .inl (List.of_mem_zip (Build.mem_of_lookup_eq_some hlookup)).2
  | none =>
    rw [hlookup, Option.none_or] at hlead
    split at hlead
    · cases hlead
    next hlast =>
      obtain rfl := Option.some.inj hlead
      have hnot : y ∉ blocks := by
        simpa [hlookup] using Build.isNone_lookup_zip hholds.length y
      refine .inr ⟨_, hb, h.mem_leavings_of_next ho hlog hsides hblocks (List.getElem_mem _)
        (fun heq => hlast ?_) hy hnot⟩
      simpa [heq] using Build.beq_getLast?_iff hholds.distinct hb

end Leaving

end Arises

/-! ### Drawings -/

/-- Where the edges of a drawing of a result end. -/
theorem Yields.drawsEnds (h : u.Yields o flow) (ho : o.isExtended = false) {full : Bool}
    {statements : List Dot.Statement} (hdrawing : Drawing flow.graph full statements) :
    u.DrawsEnds flow statements := by
  have hg := h.checked
  cases hd : u.division with
  | none =>
    obtain ⟨hgraph, -, -⟩ := h.of_none hd
    refine ⟨fun hedge => ?_, fun hcall => hdrawing.declared_of_call hg hcall, fun hb => ?_⟩
    · obtain ⟨-, block, -, hblock, -⟩ := hdrawing.leads_of_edge hg hedge
      simp [hgraph] at hblock
    · obtain ⟨last, hlast, -⟩ := hb
      rw [hgraph] at hlast
      cases hlast
  | some d =>
    obtain ⟨s, chs, s₁, s₂, n, harises, hsides, -⟩ := h.exists_sides hd
    obtain ⟨last, log, hlog, hlast⟩ := h.exists_lists hd
    obtain rfl := Option.some.inj (hlast.symm.trans harises.findFlagged_finish)
    have hreports := harises.reportsLeavings hlog hsides
    have htext : ∀ {b : BlockId}, flow.graph.IsOriginal b →
        (b ∈ declaredIn statements ↔ flow.graph.Reached b) := fun {b} hb => by
      have hmember := harises.not_isMember_of_isOriginal ho hb
      rw [hdrawing.mem_declared_iff hg, and_iff_left hmember]
      refine or_iff_left ?_
      rintro ⟨i, -, hshows⟩
      exact hmember ⟨i, hshows.mem_membersOf⟩
    refine ⟨fun {a b} hedge => ?_, fun hcall => hdrawing.declared_of_call hg hcall, htext⟩
    obtain ⟨ha, hlead⟩ := hdrawing.leads_of_edge hg hedge
    refine ⟨ha, ?_⟩
    obtain ⟨hreached, -⟩ | ⟨i, hi, hshows⟩ := (hdrawing.mem_declared_iff hg).1 ha
    · have hnext := hreached.step hlead
      exact .inl ((htext (harises.isOriginal_of_reached ho hnext)).2 hnext)
    · obtain ⟨call, group, blocks, hcall, hgroup, hblocks, hmem, hholds⟩ :=
        harises.exists_holdsCopies ho hshows.mem_membersOf
      obtain ⟨k, hk⟩ := List.mem_iff_getElem?.1 hmem
      obtain hmember | ⟨original, horiginal, hleaving⟩ :=
        harises.cases_of_leads_of_member ho hlog hsides hblocks hholds hk hlead
      · exact .inl (hdrawing.declared_of_shows hg hi hshows hlead
          (membersOf_of_getElem? hgroup ▸ hmember))
      · have hreported : flow.departure call original ∈ flow.problems :=
          (List.mem_filter.1 (hreports.exact.mem_iff.2 (List.mem_flatMap.2
            ⟨call, List.mem_of_getElem? hcall, List.mem_map.2 ⟨_, hleaving, rfl⟩⟩))).1
        obtain ⟨_, -, -, -, hnext, -⟩ := ProgramFlow.mem_leavings.1 hleaving
        have hb : flow.graph.IsOriginal b := harises.isOriginal_of_leads ho
          (harises.isOriginal_iff.2 (harises.lt_of_mem_captured hblocks
            (List.mem_of_getElem? horiginal))) (leads_iff_mem_next.2 hnext)
        by_cases hreached : flow.graph.Reached b
        · exact .inl ((htext hb).2 hreached)
        · exact .inr ⟨⟨i, k, call, group, blocks, original, hcall, hgroup, hblocks, hk, horiginal,
            hleaving, hreported⟩, hb, hreached⟩

end ProgramUnit

/-- **Where the edges of a drawing end.** In normal mode every program of every tree has a drawing,
and each block in an edge of it is declared but for those of the text that a member leads to with a
jump out of a range, if they cannot be reached from the roots. -/
theorem StatementTree.build_drawsEnds (t : StatementTree) (o : Options)
    (ho : o.isExtended = false) : ∃ flows, t.build o = .ok flows ∧
      List.Forall₂ (fun u flow => ∀ full, ∃ statements text, Drawing flow.graph full statements ∧
        draw flow.graph full = .ok statements ∧ render flow.graph full = .ok text ∧
        u.DrawsEnds flow statements) t.units flows := by
  obtain ⟨flows, hbuild, hflows⟩ := t.exists_build o
  refine ⟨flows, hbuild, hflows.imp fun u flow h full => ?_⟩
  obtain ⟨statements, hdrawing, hdraw, -⟩ := exists_drawing h.checked full
  exact ⟨statements, _, hdrawing, hdraw, by rw [render, hdraw]; rfl, h.drawsEnds ho hdrawing⟩

/-- A range that is left by a jump to a paragraph which nothing else leads to. -/
def escapingJump : StatementTree where
  programs := [.mk "A" .program (some {
    sentences := [[.mk (.perform { first := { name := "P" } }) none .unknown,
      .mk (.terminate .stopRun) none .unknown]]
    paragraphs := [
      { name := "P", sentences := [[.mk (.goTo [{ name := "X" }] false) none .unknown]] },
      { name := "X", sentences := [[.mk (.ordinary .display []) none .unknown]] }] }) []]

theorem drawsEnds_escapingJump : ({} : Options).isExtended = false ∧
    ∃ flows, escapingJump.build {} = .ok flows ∧
      List.Forall₂ (fun u flow => ∀ full, ∃ statements text, Drawing flow.graph full statements ∧
        draw flow.graph full = .ok statements ∧ render flow.graph full = .ok text ∧
        u.DrawsEnds flow statements) escapingJump.units flows :=
  ⟨rfl, escapingJump.build_drawsEnds {} rfl⟩

/-- The graph of `escapingJump`. Blocks 8 and 9 are the members of the group that block 1 calls. -/
def escapedGraph : Graph where
  blocks := #[
    { id := 0, successors := [0], flags := { start := true } },
    { id := 1, instructions := [{ node := 2, tag := .perform }], successors := [1],
      group := some 0 },
    { id := 2, instructions := [{ node := 3, tag := .terminate .stopRun }],
      flags := { ending := true } },
    { id := 3, successors := [2] },
    { id := 4, instructions := [{ node := 5, tag := .goToSimple }], successors := [3],
      flags := { ending := true }, tag := some "P" },
    { id := 5, successors := [3], tag := some "P" },
    { id := 6, instructions := [{ node := 7, tag := .ordinary .display }], successors := [4],
      tag := some "X" },
    { id := 7, flags := { finish := true } },
    { id := 8, instructions := [{ node := 5, tag := .goToSimple }], successors := [3],
      flags := { ending := true }, tag := some "P" },
    { id := 9, tag := some "P" }]
  slots := #[1, 2, 4, 6, 7]
  roots := [0]
  groups := #[
    { id := 0, callSite := 1, node := 2, range := "P", members := [8, 9], terminals := [8, 9] }]
  owners := [(7, 6), (5, 4), (3, 2), (2, 1), (1, 0)]
  nodes := [7, 6, 5, 4, 3, 2, 1].map (·, { span := .unknown, text := none, callee := none })
  division := some 1
  compound := true

theorem graph_escapingJump :
    (escapingJump.build {}).toOption.map (·.map (·.graph)) = some [escapedGraph] := by
  cbv

theorem draw_escapedGraph : (draw escapedGraph false).toOption.map (fun statements =>
    (declaredIn statements, (allWithin statements)[4]?)) =
      some ([0, 1, 8, 2], some (.edge 8 6)) := by
  cbv

/-- The jump of `escapingJump` is drawn as an edge from block 8, which stands in the cluster of the
range, to block 6, which is not declared. -/
theorem undeclared_escapingJump : ({} : Options).isExtended = false ∧
    ∃ flow statements, escapingJump.build {} = .ok [flow] ∧
      draw flow.graph false = .ok statements ∧ .edge 8 6 ∈ allWithin statements ∧
      6 ∉ declaredIn statements := by
  obtain ⟨flows, hflows, hgraphs⟩ := Option.map_eq_some_iff.1 graph_escapingJump
  obtain ⟨flow, rfl, hgraph⟩ := List.map_eq_singleton_iff.1 hgraphs
  obtain ⟨statements, hstatements, hlook⟩ := Option.map_eq_some_iff.1 draw_escapedGraph
  obtain ⟨hdeclared, hedge⟩ := Prod.mk.inj hlook
  rw [toOption_eq_some_iff] at hflows hstatements
  exact ⟨rfl, flow, statements, hflows, hgraph ▸ hstatements, List.mem_of_getElem? hedge,
    by simp [hdeclared]⟩

end CobolFlow
