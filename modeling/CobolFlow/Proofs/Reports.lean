import CobolFlow.Export.Calls
import CobolFlow.Proofs.Calls.Results
import CobolFlow.Proofs.Division.Units
import CobolFlow.Proofs.Members
import CobolFlow.Proofs.Walk.Coverage

/-!
# What a call report says

A CALL may stand in many blocks: in that of the text, in its copies for the ranges that are
performed, and in the copies of these. A report goes through all places where calls can stand, and
notes each sighting of a call with the place and the range that is performed there. What has been
noted after some sightings is a function of their list: there is a row for each node that has been
seen, in the order of the first sightings, the procedure is that of the first sighting, and the
ranges are those of all sightings of the node. One more sighting changes this as it should, so the
description holds of any list of places, and it does not matter which copy of a call is met first.

## Main definitions

* `CallSite.gather` — what some sightings come to
* `CallReport.places` — the places that a report goes through
* `ProgramFlow.ReportsCalls` — what is said of the rows of one program

## Main results

* `CallSite.noteAll_gather` — what the calls of one more block change
* `Graph.Checked.exists_reportsCalls` — the rows of any graph without defects
* `StatementTree.build_reportsCalls` — the report of every tree
-/

namespace CobolFlow

/-! ### Lists without repetitions -/

section EraseDups

variable {α β : Type} [BEq β] [LawfulBEq β]

theorem eraseDups_snoc (l : List β) (a : β) :
    (l ++ [a]).eraseDups = if a ∈ l then l.eraseDups else l.eraseDups ++ [a] := by
  rw [List.eraseDups_append, List.removeAll]
  by_cases h : a ∈ l <;> simp [h, List.eraseDups_cons]

theorem nodup_eraseDups (l : List β) : l.eraseDups.Nodup := by
  induction l using List.reverseRecOn with
  | nil => simp
  | append_singleton l a ih =>
    rw [eraseDups_snoc]
    split
    · exact ih
    next h =>
      have hnew : a ∉ l.eraseDups := fun hmem => h (List.mem_eraseDups.1 hmem)
      exact List.nodup_append.2 ⟨ih, by simp, fun b hb c hc heq => hnew (by simp_all)⟩

/-- Copies of one element count once. -/
theorem eraseDups_append_copies (l : List β) {copies : List β} {a : β} (h : ∀ b ∈ copies, b = a) :
    (l ++ copies).eraseDups = if copies.isEmpty then l.eraseDups else (l ++ [a]).eraseDups := by
  induction copies using List.reverseRecOn with
  | nil => simp
  | append_singleton copies b ih =>
    obtain rfl : b = a := h b (by simp)
    rw [← List.append_assoc, eraseDups_snoc, ih fun c hc => h c (by simp [hc])]
    cases copies with
    | nil => simp [eraseDups_snoc]
    | cons c copies =>
      obtain rfl : c = b := h c (by simp)
      simp

/-- If all that is taken from an element is one and the same thing, it is as good to take it once
from those that give anything. -/
theorem eraseDups_flatMap {f : α → List β} {k : α → β} (l : List α)
    (h : ∀ a ∈ l, ∀ b ∈ f a, b = k a) : (l.flatMap f).eraseDups =
      ((l.filter fun a => !(f a).isEmpty).map k).eraseDups := by
  induction l using List.reverseRecOn with
  | nil => simp
  | append_singleton l a ih =>
    have ih := ih fun c hc => h c (by simp [hc])
    have hmem : k a ∈ l.flatMap f ↔ k a ∈ (l.filter fun a => !(f a).isEmpty).map k := by
      rw [← List.mem_eraseDups, ih, List.mem_eraseDups]
    rw [List.flatMap_append, List.flatMap_singleton, eraseDups_append_copies _ (h a (by simp)),
      List.filter_append, List.map_append]
    cases hempty : (f a).isEmpty with
    | true => simp [hempty, ih]
    | false =>
      have hlast : [a].filter (fun a => !(f a).isEmpty) = [a] := by simp [hempty]
      rw [hlast, List.map_singleton, eraseDups_snoc, eraseDups_snoc, ih]
      simp only [hmem, Bool.false_eq_true, if_false]

end EraseDups

/-! ### Sightings -/

/-- The nodes of the CALLs that stand in a block. -/
def Block.calls (b : Block) : List NodeId := (b.instructions.filter (·.tag == .call)).map (·.node)

/-- A CALL that is seen in a block, which may be a member of the group of a range. -/
structure Sighting where
  block : Block
  range : Option String
  node : NodeId

/-- The CALLs that are seen in a block. -/
def Block.sightings (range : Option String) (b : Block) : List Sighting :=
  b.calls.map fun node => { block := b, range, node }

namespace CallSite

variable {g : Graph}

/-- What some sightings say of a node. -/
def ofSightings (g : Graph) (l : List Sighting) (node : NodeId) : CallSite where
  node
  paragraph := ((l.find? (·.node == node)).bind (·.block.tag)).getD ""
  callee := ((g.nodeInfo node).bind (·.callee)).getD dynamicCallee
  ranges := ((l.filter (·.node == node)).filterMap (·.range)).eraseDups

/-- What some sightings come to. -/
def gather (g : Graph) (l : List Sighting) : List CallSite :=
  (l.map (·.node)).eraseDups.map (ofSightings g l)

/-- A sighting says nothing of other nodes. -/
theorem ofSightings_snoc_of_ne (l : List Sighting) {x : Sighting} {node : NodeId}
    (h : x.node ≠ node) : ofSightings g (l ++ [x]) node = ofSightings g l node := by
  have hbeq : (x.node == node) = false := by simpa using h
  simp [ofSightings, List.find?_append, List.filter_append, hbeq]

/-- A sighting of a node that was seen before adds its range. -/
theorem ofSightings_snoc_of_mem (l : List Sighting) {x : Sighting}
    (h : x.node ∈ l.map (·.node)) :
    ofSightings g (l ++ [x]) x.node = (ofSightings g l x.node).addRange x.range := by
  obtain ⟨y, hy, heq⟩ := List.mem_map.1 h
  obtain ⟨z, hz⟩ : ∃ z, l.find? (·.node == x.node) = some z :=
    Option.isSome_iff_exists.1 (List.find?_isSome.2 ⟨y, hy, by simpa using heq⟩)
  simp only [ofSightings, List.find?_append, hz, Option.some_or, List.filter_append,
    List.filter_singleton, beq_self_eq_true, cond_true, List.filterMap_append]
  cases hrange : x.range with
  | none => simp [addRange, hrange]
  | some r =>
    simp only [addRange, List.filterMap_cons_some hrange, List.filterMap_nil, eraseDups_snoc,
      List.contains_eq_mem, List.mem_eraseDups, decide_eq_true_eq]
    split <;> rfl

/-- The first sighting of a node. -/
theorem ofSightings_snoc_of_not_mem (l : List Sighting) {x : Sighting}
    (h : x.node ∉ l.map (·.node)) : ofSightings g (l ++ [x]) x.node =
      ({ node := x.node, paragraph := x.block.tag.getD "",
         callee := ((g.nodeInfo x.node).bind (·.callee)).getD dynamicCallee } : CallSite).addRange
        x.range := by
  have hnone : l.find? (·.node == x.node) = none :=
    List.find?_eq_none.2 fun y hy heq => h (List.mem_map.2 ⟨y, hy, by simpa using heq⟩)
  have hnil : l.filter (·.node == x.node) = [] :=
    List.filter_eq_nil_iff.2 (List.find?_eq_none.1 hnone)
  cases hrange : x.range with
  | none => simp [ofSightings, addRange, List.find?_append, List.filter_append, hnone, hnil, hrange]
  | some r =>
    simp [ofSightings, addRange, List.find?_append, List.filter_append, hnone, hnil, hrange,
      List.eraseDups_cons]

/-- What one more sighting changes. -/
theorem note_gather (l : List Sighting) (b : Block) (range : Option String) (i : Instruction) :
    note g b range (gather g l) i = gather g (l ++ [{ block := b, range, node := i.node }]) := by
  have hany : (gather g l).any (·.node == i.node) = true ↔ i.node ∈ l.map (·.node) := by
    simp only [gather, List.any_map, List.any_eq_true, List.mem_eraseDups, Function.comp_apply,
      ofSightings, beq_iff_eq, exists_eq_right]
  rw [note]
  split
  next hseen =>
    have hmem := hany.1 hseen
    rw [gather, gather, List.map_append, List.map_singleton, eraseDups_snoc, if_pos hmem,
      List.map_map]
    refine List.map_congr_left fun node _ => ?_
    obtain rfl | hne := eq_or_ne node i.node
    · exact (if_pos rfl).trans (ofSightings_snoc_of_mem (x := ⟨b, range, i.node⟩) l hmem).symm
    · exact (if_neg hne).trans (ofSightings_snoc_of_ne l hne.symm).symm
  next hunseen =>
    have hmem : i.node ∉ l.map (·.node) := fun h => hunseen (hany.2 h)
    rw [gather, gather, List.map_append, List.map_singleton, eraseDups_snoc, if_neg hmem,
      List.map_append, List.map_singleton,
      ofSightings_snoc_of_not_mem (x := ⟨b, range, i.node⟩) l hmem]
    refine congrArg (· ++ _) (List.map_congr_left fun node hnode => ?_)
    refine (ofSightings_snoc_of_ne l fun heq => hmem ?_).symm
    obtain rfl : i.node = node := heq
    exact List.mem_eraseDups.1 hnode

/-- What the CALLs of one more block change. -/
theorem noteAll_gather (l : List Sighting) (range : Option String) (b : Block) :
    noteAll g range (gather g l) b = gather g (l ++ b.sightings range) := by
  rw [noteAll, Block.sightings, Block.calls, List.map_map]
  induction b.instructions.filter (·.tag == .call) generalizing l with
  | nil => simp
  | cons i rest ih => rw [List.foldl_cons, note_gather, ih, List.append_assoc]; rfl

theorem foldl_noteAll_gather (l : List Sighting) (range : Option String) (blocks : List Block) :
    blocks.foldl (noteAll g range) (gather g l) =
      gather g (l ++ blocks.flatMap (·.sightings range)) := by
  induction blocks generalizing l with
  | nil => simp
  | cons b rest ih => rw [List.foldl_cons, noteAll_gather, ih, List.flatMap_cons, List.append_assoc]

end CallSite

/-! ### Places -/

/-- The blocks with some numbers. -/
def Graph.blocksAt (g : Graph) (ids : List BlockId) : List Block := ids.filterMap (g.blocks[·]?)

namespace CallReport

variable {g : Graph} {order : List Block} {node : NodeId}

/-- The places that a report goes through, in order: of the given blocks those that are no members,
and then the members of each group, with the range that is performed there. -/
def places (g : Graph) (order : List Block) : List (Block × Option String) :=
  (order.filter (!(g.groups.toList.flatMap (·.members)).contains ·.id)).map (·, none) ++
    g.groups.toList.flatMap fun group => (g.blocksAt group.members).map (·, some group.range)

/-- What is seen at some places. -/
def sightings (l : List (Block × Option String)) : List Sighting :=
  l.flatMap fun place => place.1.sightings place.2

theorem foldlM_members_eq_ok (range : String) (l : List Sighting) {members : List BlockId}
    (h : ∀ b ∈ members, b < g.size) :
    members.foldlM (fun sites member =>
        return CallSite.noteAll g (some range) sites (← g.block member)) (CallSite.gather g l) =
      .ok (CallSite.gather g (l ++ sightings ((g.blocksAt members).map (·, some range)))) := by
  induction members generalizing l with
  | nil => rw [Graph.blocksAt, List.filterMap_nil, List.map_nil, sightings, List.flatMap_nil,
      List.append_nil]; rfl
  | cons b rest ih =>
    obtain ⟨hb, hrest⟩ := List.forall_mem_cons.1 h
    obtain ⟨block, hok, hblock⟩ := Graph.exists_block_eq_ok hb
    rw [List.foldlM_cons, hok, ok_bind, pure_bind, CallSite.noteAll_gather, ih _ hrest,
      Graph.blocksAt, Graph.blocksAt, List.filterMap_cons_some hblock, List.map_cons, sightings,
      sightings, List.flatMap_cons, List.append_assoc]

theorem foldlM_groups_eq_ok (l : List Sighting) {groups : List Group}
    (h : ∀ group ∈ groups, ∀ b ∈ group.members, b < g.size) :
    groups.foldlM (fun sites group => group.members.foldlM (fun sites member =>
        return CallSite.noteAll g (some group.range) sites (← g.block member)) sites)
        (CallSite.gather g l) =
      .ok (CallSite.gather g (l ++ sightings (groups.flatMap fun group =>
        (g.blocksAt group.members).map (·, some group.range)))) := by
  induction groups generalizing l with
  | nil => rw [List.flatMap_nil, sightings, List.flatMap_nil, List.append_nil]; rfl
  | cons group rest ih =>
    obtain ⟨hgroup, hrest⟩ := List.forall_mem_cons.1 h
    rw [List.foldlM_cons, foldlM_members_eq_ok group.range l hgroup, ok_bind, ih _ hrest,
      List.flatMap_cons, sightings, sightings, sightings, List.flatMap_append, List.append_assoc]

/-- The calls of a graph are what is seen at its places. -/
theorem sites_eq_ok (hg : g.Checked) (horder : Listing.reachedBlocks g = .ok order) :
    sites g = .ok (CallSite.gather g (sightings (places g order))) := by
  have hgroups : ∀ group ∈ g.groups.toList, ∀ b ∈ group.members, b < g.size := by
    intro group hgroup
    obtain ⟨i, hi⟩ := List.mem_iff_getElem?.1 hgroup
    exact hg.member_lt (by simpa using hi)
  have hground := CallSite.foldl_noteAll_gather (g := g) [] none
    (order.filter (!(g.groups.toList.flatMap (·.members)).contains ·.id))
  rw [List.nil_append] at hground
  rw [sites, horder, ok_bind, places, sightings, List.flatMap_append, List.flatMap_map]
  refine Eq.trans ?_ (foldlM_groups_eq_ok _ hgroups)
  rw [← hground]
  rfl

/-! ### Rows -/

theorem map_node_sightings (l : List (Block × Option String)) :
    (sightings l).map (·.node) = l.flatMap (·.1.calls) := by
  simp [sightings, Block.sightings, List.map_flatMap, Function.comp_def]

/-- A node is seen in a block if it stands there. -/
theorem find?_block (node : NodeId) (b : Block) (range : Option String) :
    ((b.sightings range).find? (·.node == node)).map (·.block) =
      if node ∈ b.calls then some b else none := by
  have hfind : (b.calls.find? (· == node)).map (fun _ => b) =
      if node ∈ b.calls then some b else none := by
    cases hfound : b.calls.find? (· == node) with
    | none =>
      have hmem : node ∉ b.calls := fun hmem => by
        simpa using List.find?_eq_none.1 hfound node hmem
      rw [if_neg hmem, Option.map_none]
    | some seen =>
      obtain rfl : seen = node := by simpa using List.find?_some hfound
      rw [if_pos (List.mem_of_find?_eq_some hfound), Option.map_some]
  rw [Block.sightings, List.find?_map, Option.map_map]
  exact hfind

/-- A node is seen first at the first place where it stands. -/
theorem find?_sightings (node : NodeId) (l : List (Block × Option String)) :
    ((sightings l).find? (·.node == node)).map (·.block) =
      (l.find? (node ∈ ·.1.calls)).map (·.1) := by
  induction l with
  | nil => rfl
  | cons place rest ih =>
    rw [sightings, List.flatMap_cons, List.find?_append, ← sightings, Option.map_or, find?_block,
      ih]
    by_cases hmem : node ∈ place.1.calls
    · rw [if_pos hmem, List.find?_cons_of_pos (by simpa using hmem), Option.some_or,
        Option.map_some]
    · rw [if_neg hmem, List.find?_cons_of_neg (by simpa using hmem), Option.none_or]

/-- The ranges at which a node is seen in a block. -/
theorem ranges_block (b : Block) (range : Option String) :
    ((b.sightings range).filter (·.node == node)).filterMap (·.range) =
      (b.calls.filter (· == node)).filterMap fun _ => range := by
  simp [Block.sightings, List.filter_map, List.filterMap_map, Function.comp_def]

/-- The ranges at which a node is seen are those of the groups in which it stands. -/
theorem ranges_sightings (order : List Block) :
    (((sightings (places g order)).filter (·.node == node)).filterMap (·.range)).eraseDups =
      ((g.groups.toList.filter fun group => (g.blocksAt group.members).any (node ∈ ·.calls)).map
        (·.range)).eraseDups := by
  have hflat : ((sightings (places g order)).filter (·.node == node)).filterMap (·.range) =
      g.groups.toList.flatMap fun group => (g.blocksAt group.members).flatMap fun b =>
        (b.calls.filter (· == node)).map fun _ => group.range := by
    simp only [sightings, places, List.filter_flatMap, List.filterMap_flatMap, ranges_block]
    rw [List.flatMap_append, List.flatMap_map, List.flatMap_assoc]
    simp [List.flatMap_map]
  rw [hflat, eraseDups_flatMap (k := (·.range)) _ fun group _ r hr => by
    simp only [List.mem_flatMap, List.mem_map] at hr
    obtain ⟨_, -, _, -, rfl⟩ := hr
    rfl]
  congr 2
  refine List.filter_congr fun group _ => ?_
  rw [Bool.eq_iff_iff, Bool.not_eq_true', List.any_eq_true]
  simp

end CallReport

/-! ### Reports -/

/-- The CALL stands in the block with the given number. -/
def Graph.HasCall (g : Graph) (b : BlockId) (node : NodeId) : Prop :=
  ∃ block, g.blocks[b]? = some block ∧ node ∈ block.calls

theorem Graph.mem_blocksAt_iff {g : Graph} {ids : List BlockId} {block : Block} :
    block ∈ g.blocksAt ids ↔ ∃ b ∈ ids, g.blocks[b]? = some block := List.mem_filterMap

namespace ProgramFlow

/-- The row of a CALL in a report that goes through the places of a program. -/
def callRow (p : ProgramFlow) (order : List Block) (node : NodeId) : CallRow where
  program := p.name
  paragraph :=
    (((CallReport.places p.graph order).find? (node ∈ ·.1.calls)).bind (·.1.tag)).getD ""
  callee := ((p.graph.nodeInfo node).bind (·.callee)).getD dynamicCallee
  performedThrough := ";".intercalate ((p.graph.groups.toList.filter fun group =>
    (p.graph.blocksAt group.members).any (node ∈ ·.calls)).map (·.range)).eraseDups

/-- What the rows of a program are. -/
structure ReportsCalls (p : ProgramFlow) (order : List Block) (nodes : List NodeId)
    (rows : List CallRow) : Prop where
  /-- The blocks that can be reached, in the order of a depth-first search. -/
  covers : p.graph.Covers p.graph.roots order
  depthFirst : Graph.Follows (fun _ => p.graph.dfs) order
  /-- There is a row for each CALL in a block that can be reached and is no member, and for each
  CALL in a member, and no other; and there is but one. -/
  rows_eq : rows = nodes.map (p.callRow order)
  nodup : nodes.Nodup
  mem_iff : ∀ node, node ∈ nodes ↔ ∃ b, p.graph.HasCall b node ∧
    (p.graph.Reached b ∧ ¬ p.graph.IsMember b ∨ p.graph.IsMember b)
  /-- The rows stand in the order in which the calls are found. -/
  nodes_eq : nodes = ((CallReport.places p.graph order).flatMap (·.1.calls)).eraseDups

end ProgramFlow

/-- The places of a report are the blocks that can be reached and are no members, and the
members. -/
theorem Graph.Checked.mem_places_iff {g : Graph} (hg : g.Checked) {order : List Block}
    (horder : g.Covers g.roots order) (block : Block) :
    block ∈ (CallReport.places g order).map (·.1) ↔ g.blocks[block.id]? = some block ∧
      (g.Reached block.id ∧ ¬ g.IsMember block.id ∨ g.IsMember block.id) := by
  have hground : block ∈ order.filter (!(g.groups.toList.flatMap (·.members)).contains ·.id) ↔
      g.blocks[block.id]? = some block ∧ g.Reached block.id ∧ ¬ g.IsMember block.id := by
    rw [List.mem_filter, Bool.not_eq_true', List.contains_eq_mem, decide_eq_false_iff_not,
      mem_flatMap_members_iff, ← and_assoc]
    refine and_congr_left' ⟨fun hmem => ?_, fun ⟨hblock, hreached⟩ => ?_⟩
    · exact ⟨horder.stored block hmem, (horder.mem_iff _).1 (List.mem_map_of_mem hmem)⟩
    · obtain ⟨block', hmem, hid⟩ := List.mem_map.1 ((horder.mem_iff _).2 hreached)
      obtain rfl := Option.some.inj ((hid ▸ horder.stored block' hmem).symm.trans hblock)
      exact hmem
  have hmembers : block ∈ g.groups.toList.flatMap (fun group => g.blocksAt group.members) ↔
      g.blocks[block.id]? = some block ∧ g.IsMember block.id := by
    rw [← mem_flatMap_members_iff]
    simp only [List.mem_flatMap, mem_blocksAt_iff]
    constructor
    · rintro ⟨group, hgroup, b, hb, hblock⟩
      obtain rfl := hg.placed hblock
      exact ⟨hblock, group, hgroup, hb⟩
    · rintro ⟨hblock, group, hgroup, hb⟩
      exact ⟨group, hgroup, _, hb, hblock⟩
  rw [CallReport.places, List.map_append, List.mem_append, and_or_left, ← hground, ← hmembers]
  simp [List.map_flatMap, Function.comp_def]

/-- **What a report says of a graph without defects.** -/
theorem Graph.Checked.exists_reportsCalls {p : ProgramFlow} (hp : p.graph.Checked) :
    ∃ order nodes rows, CallReport.programRows p = .ok rows ∧ p.ReportsCalls order nodes rows := by
  obtain ⟨order, hreached, hcovers, hfollows⟩ := hp.exists_reachedBlocks
  refine ⟨order, ((CallReport.places p.graph order).flatMap (·.1.calls)).eraseDups, _,
    by rw [CallReport.programRows, CallReport.sites_eq_ok hp hreached]; rfl,
    { covers := hcovers
      depthFirst := hfollows
      rows_eq := ?_
      nodup := nodup_eraseDups _
      mem_iff := fun node => ?_
      nodes_eq := rfl }⟩
  · rw [CallSite.gather, List.map_map, CallReport.map_node_sightings]
    refine List.map_congr_left fun node _ => ?_
    have hparagraph := congrArg (Option.bind · (·.tag))
      (CallReport.find?_sightings node (CallReport.places p.graph order))
    rw [Option.bind_map, Option.bind_map] at hparagraph
    rw [Function.comp_apply, CallSite.ofSightings, CallReport.ranges_sightings]
    exact congrArg (fun tag : Option String => ({ p.callRow order node with
      paragraph := tag.getD "" } : CallRow)) hparagraph
  · rw [List.mem_eraseDups, List.mem_flatMap]
    constructor
    · rintro ⟨place, hplace, hmem⟩
      obtain ⟨hblock, hcase⟩ := (hp.mem_places_iff hcovers place.1).1 (List.mem_map_of_mem hplace)
      exact ⟨place.1.id, ⟨place.1, hblock, hmem⟩, hcase⟩
    · rintro ⟨b, ⟨block, hblock, hmem⟩, hcase⟩
      obtain rfl := hp.placed hblock
      obtain ⟨place, hplace, rfl⟩ :=
        List.mem_map.1 ((hp.mem_places_iff hcovers block).2 ⟨hblock, hcase⟩)
      exact ⟨place, hplace, hmem⟩

/-- **The report of a tree.** For every tree and every options there is a result, and its report has
the rows of its programs one after the other. -/
theorem StatementTree.build_reportsCalls (t : StatementTree) (o : Options) : ∃ flows reports,
    t.build o = .ok flows ∧ CallReport.rows flows = .ok reports.flatten ∧
      List.Forall₂ (fun flow rows => ∃ order nodes, flow.ReportsCalls order nodes rows)
        flows reports := by
  obtain ⟨flows, hbuild, hflows⟩ := t.exists_build o
  have hchecked : ∀ flow ∈ flows, flow.graph.Checked := fun flow hflow => by
    obtain ⟨u, -, hyields⟩ := exists_of_forall₂_of_mem hflows hflow
    exact hyields.checked
  suffices h : ∃ reports, flows.mapM CallReport.programRows = .ok reports ∧
      List.Forall₂ (fun flow rows => ∃ order nodes, flow.ReportsCalls order nodes rows)
        flows reports by
    obtain ⟨reports, hreports, hall⟩ := h
    exact ⟨flows, reports, hbuild, by rw [CallReport.rows, hreports]; rfl, hall⟩
  clear hbuild hflows
  induction flows with
  | nil => exact ⟨[], rfl, .nil⟩
  | cons flow rest ih =>
    obtain ⟨hflow, hrest⟩ := List.forall_mem_cons.1 hchecked
    obtain ⟨order, nodes, rows, hrows, hreports⟩ := hflow.exists_reportsCalls
    obtain ⟨reports, hreports', hall⟩ := ih hrest
    refine ⟨rows :: reports, ?_, .cons ⟨order, nodes, hreports⟩ hall⟩
    rw [List.mapM_cons, hrows, hreports']
    rfl

end CobolFlow
