import CobolFlow.Proofs.Calls.Filing
import CobolFlow.Proofs.Division.Units
import CobolFlow.Proofs.Writing.Finished

/-!
# What stands in the blocks of a program

The blocks of a finished graph up to the one that ends it are the blocks of its draft, and all
others are copies of these. So what has been written of a division stands there once and for all.

## Main definitions

* `ProgramUnit.KeepsStatements` — no statement is lost, and none is there twice
* `Block.Ended` — the statements that end a block come last in it

## Main results

* `StatementTree.build_keepsStatements`, `StatementTree.build_ended`
-/

namespace CobolFlow

open Notification (written)

/-! ### Logs -/

namespace Log

variable {l : Log} {e : BlockId × Instruction} {n : ℕ}

theorem flatMap_range_single {α : Type} {a : ℕ} (ha : a < n) (xs : List α) :
    ((List.range n).flatMap fun b => if a = b then xs else []) = xs := by
  induction n with
  | zero => exact absurd ha (Nat.not_lt_zero a)
  | succ n ih =>
    rw [List.range_succ, List.flatMap_append, List.flatMap_singleton]
    obtain hlt | rfl := Nat.lt_succ_iff_lt_or_eq.1 ha
    · rw [ih hlt, if_neg hlt.ne, List.append_nil]
    · rw [if_pos rfl, List.flatMap_eq_nil_iff.2, List.nil_append]
      exact fun b hb => if_neg (List.mem_range.1 hb).ne'

/-- What stands in the first blocks is what has been written into them. -/
theorem perm_on (h : ∀ e ∈ l, e.1 < n) :
    ((List.range n).flatMap l.on).Perm ((l.filter (·.2.tag.isListed)).map (·.2)) := by
  induction l with
  | nil => simp [on]
  | cons e rest ih =>
    have ih := ih fun e he => h e (by simp [he])
    set own : List Instruction := if e.2.tag.isListed then [e.2] else [] with hown
    have hcons : on (e :: rest) = fun b => (if e.1 = b then own else []) ++ on rest b := by
      funext b
      by_cases hb : e.1 = b <;> by_cases hl : e.2.tag.isListed <;> simp [on, hown, hb, hl]
    have hfilter : ((e :: rest).filter (·.2.tag.isListed)).map (·.2) =
        own ++ (rest.filter (·.2.tag.isListed)).map (·.2) := by
      by_cases hl : e.2.tag.isListed <;> simp [hown, hl]
    rw [hcons, hfilter]
    refine (List.flatMap_append_perm _ _ _).symm.trans ?_
    rw [flatMap_range_single (h e (by simp)) own]
    exact ih.append_left own

section Nodup

variable (h : (l.map (·.2.node)).Nodup)
include h

/-- A node stands in one place. -/
theorem count_eq_one (hlt : ∀ e ∈ l, e.1 < n) (he : e ∈ l) (hlisted : e.2.tag.isListed = true) :
    (((List.range n).flatMap l.on).map (·.node)).count e.2.node = 1 := by
  rw [((perm_on hlt).map (·.node)).count_eq, List.map_map]
  refine List.count_eq_one_of_mem (h.sublist (List.filter_sublist.map _)) ?_
  exact List.mem_map.2 ⟨e, List.mem_filter.2 ⟨he, hlisted⟩, rfl⟩

/-- A node is found where it was written. -/
theorem lookup_owners (he : e ∈ l) : l.owners.lookup e.2.node = some e.1 := by
  obtain ⟨l₁, l₂, rfl⟩ := List.append_of_mem he
  refine List.lookup_eq_some_iff.2 ⟨owners l₂, owners l₁, by simp [owners], fun p hp => ?_⟩
  obtain ⟨e', he', rfl⟩ := List.mem_map.1 (List.mem_reverse.1 hp)
  rw [List.map_append, List.map_cons, List.nodup_append, List.nodup_cons] at h
  simp only [bne_iff_ne, ne_eq]
  exact fun heq => h.2.1.1 (List.mem_map.2 ⟨e', he', heq.symm⟩)

end Nodup

end Log

namespace Notification

variable {events : List Notification} {n : Node}

theorem mem_written (h : .enter n ∈ events) (hn : n.tag.role ≠ .header) :
    n.instruction ∈ written events :=
  List.mem_filterMap.2 ⟨_, h, by simp [written?, hn]⟩

/-- Nodes are written as they are entered. -/
theorem written_sublist (events : List Notification) :
    ((written events).map (·.node)).Sublist ((events.filterMap (·.entered?)).map (·.id)) := by
  induction events with
  | nil => exact .slnil
  | cons e rest ih =>
    cases e with
    | enter n =>
      by_cases hn : n.tag.role = .header
      · simpa [written, written?, hn, entered?] using ih.cons n.id
      · simpa [written, written?, hn, entered?, Node.instruction] using ih
    | _ => exact ih

end Notification

/-! ### Finished graphs -/

/-- **What is written in a finished graph**: the blocks below the one that ends it hold the nodes of
the division, and all others are copies. -/
theorem ProgramUnit.Yields.exists_logs {o : Options} {u : ProgramUnit} {flow : ProgramFlow}
    (h : u.Yields o flow) {d : DivisionText} (hd : u.division = some d) :
    ∃ (g : Graph) (l : Log) (e : BlockId),
      g.Logs l ∧ l.map (·.2) = ⟨u.id, .procedureDivision⟩ :: written u.events ∧
      (∀ p ∈ l, p.1 < e) ∧ g.Reprints flow.graph ∧ g.size = e + 1 ∧
      flow.graph.findFlagged { finish := true } = some e := by
  obtain ⟨s', hplay, hgraph, -⟩ := h.built
  obtain ⟨s, chs, s₁, l, hdraft, ⟨hplay₁, hprints, hsound⟩, -, hl, hlogs, hinside⟩ :=
    d.exists_finished o u.program u.id
  have hevents : u.events = ((Script.division d).run u.id).1 := by rw [events, hd]
  rw [hevents] at hplay ⊢
  obtain rfl := congrArg Prod.snd (Except.ok.inj (hplay₁.symm.trans hplay))
  have hfinish : ∀ b < s.graph.size,
      (s₁.graph.chart b).flags.finish = (s.graph.chart b).flags.finish := fun b hb =>
    congrArg (·.2.2.2) (hprints.graph.kept b hb)
  rw [hgraph]
  refine ⟨s.graph, l, Chapter.extent chs, hlogs, hl, fun e he => ?_, hprints.graph, hdraft.size, ?_⟩
  · have hlt := hinside e he
    rw [hdraft.size] at hlt
    exact Nat.lt_of_succ_lt_succ hlt
  · refine Graph.findFlagged_finish hsound ?_ fun b hb => ?_
    · rw [hfinish _ (by rw [hdraft.size]; exact Nat.lt_succ_self _), hdraft.finish]
    · rw [hfinish b (by rw [hdraft.size]; exact Nat.lt_succ_of_lt hb)]
      exact (hdraft.spot_calm hb).1

/-! ### Statements are kept -/

/-- A node of a division that stands in a block. Headers group statements, and WHEN OTHER tests
nothing. -/
def NodeTag.isKept : NodeTag → Bool
  | .procedureDivision | .declaratives | .sectionHeader | .paragraphHeader | .whenOther => false
  | _ => true

/-- What stands in the blocks below `e`. -/
def Graph.listedBelow (g : Graph) (e : BlockId) : List Instruction :=
  (List.range e).flatMap fun b => (g.chart b).nodes

/-- No statement of the program is lost, and none is there twice: it stands once in the blocks below
the one that ends the graph, and is found there. Blocks list their statements in source order. -/
structure ProgramUnit.KeepsStatements (u : ProgramUnit) (flow : ProgramFlow) : Prop where
  once : ∀ n, .enter n ∈ u.events → n.tag.isKept = true → ∃ e b,
    flow.graph.findFlagged { finish := true } = some e ∧ b < e ∧
      n.instruction ∈ (flow.graph.chart b).nodes ∧ flow.graph.blockFor n.id = some b ∧
        ((flow.graph.listedBelow e).map (·.node)).count n.id = 1
  increasing : ∀ b, ((flow.graph.chart b).nodes.map (·.node)).Pairwise (· < ·)
  others : ∀ n, .enter n ∈ u.events → n.tag = .whenOther →
    ∃ b, flow.graph.blockFor n.id = some b ∧ (flow.graph.chart b).flags.default = true

theorem NodeTag.isListed_of_isKept {t : NodeTag} (h : t.isKept = true) : t.isListed = true := by
  cases t <;> simp_all [isKept, isListed]

namespace ProgramUnit

variable {o : Options} {u : ProgramUnit} {flow : ProgramFlow} {n : Node}

/-- A division numbers its nodes in source order, and what is written of it is in that order. -/
theorem pairwise_written {d : DivisionText} (hd : u.division = some d) :
    (((⟨u.id, .procedureDivision⟩ : Instruction) :: written u.events).map (·.node)).Pairwise
      (· < ·) := by
  obtain ⟨k, -, hnumbers⟩ := (Script.orderly_division d).numbers u.id
  set rest : List Notification := (d.items.run (u.id + 1)).1.flatMap Item.events ++
    [.leave { id := u.id, kind := .procedureDivision }]
  have hrest : u.events = .enter { id := u.id, kind := .procedureDivision } :: rest := by
    rw [events, hd]
    exact congrArg Prod.fst (d.run_division u.id)
  have hwritten : written u.events = written rest := by
    rw [hrest]
    rfl
  have hids : u.id :: (rest.filterMap (·.entered?)).map (·.id) = List.range' u.id k := by
    rw [← hnumbers, show ((Script.division d).run u.id).1 = u.events by rw [events, hd], hrest]
    rfl
  rw [List.map_cons, hwritten]
  exact (hids ▸ List.pairwise_lt_range' 1).sublist
    ((Notification.written_sublist rest).cons_cons u.id)

theorem role_ne_header (hmem : .enter n ∈ u.events) (hn : n.tag.isKept = true) :
    n.tag.role ≠ .header := by
  have hinner : (Notification.enter n).IsInner :=
    (Builder.exists_play_events u {}).1 _ hmem
  obtain ⟨hprogram, hfunction⟩ := hinner
  cases htag : n.tag <;> simp_all [NodeTag.isKept, NodeTag.role]

namespace Yields

theorem graph_eq_empty (h : u.Yields o flow) (hd : u.division = none) : flow.graph = {} := by
  obtain ⟨s, hplay, hgraph, -⟩ := h.built
  rw [events, hd] at hplay
  obtain rfl := congrArg Prod.snd (Except.ok.inj hplay)
  exact hgraph

theorem keepsStatements (h : u.Yields o flow) : u.KeepsStatements flow := by
  cases hd : u.division with
  | none =>
    have hnone : u.events = [] := by rw [events, hd]
    refine ⟨fun n hn => ?_, fun b => ?_, fun n hn => ?_⟩
    · rw [hnone] at hn
      cases hn
    · rw [h.graph_eq_empty hd]
      exact .nil
    · rw [hnone] at hn
      cases hn
  | some d =>
    obtain ⟨g, l, e, hlogs, hl, hinside, hprints, hsize, hfind⟩ := h.exists_logs hd
    have hpairwise : (l.map (·.2.node)).Pairwise (· < ·) := by
      have := pairwise_written hd
      rwa [← hl, List.map_map] at this
    have hnodup : (l.map (·.2.node)).Nodup := hpairwise.imp fun h => h.ne
    have hkept : ∀ b < e, (flow.graph.chart b).print = (g.chart b).print := fun b hb =>
      hprints.kept b (hsize ▸ Nat.lt_succ_of_lt hb)
    have hnodes : ∀ b < e, (flow.graph.chart b).nodes = l.on b := fun b hb =>
      (congrArg Prod.fst (hkept b hb)).trans (hlogs.nodes b)
    have hentry : ∀ n, .enter n ∈ u.events → n.tag.role ≠ .header →
        ∃ p ∈ l, p.2 = n.instruction := fun n hn hrole =>
      List.mem_map.1 (hl ▸ List.mem_cons_of_mem _ (Notification.mem_written hn hrole))
    have hfor : ∀ p ∈ l, flow.graph.blockFor p.2.node = some p.1 := fun p hp => by
      rw [Graph.blockFor, hprints.owners, hlogs.owners]
      exact Log.lookup_owners hnodup hp
    refine ⟨fun n hn hkept => ?_, fun b => ?_, fun n hn htag => ?_⟩
    · obtain ⟨p, hp, hpn⟩ := hentry n hn (role_ne_header hn hkept)
      have hlisted : p.2.tag.isListed = true := by
        rw [hpn]
        exact NodeTag.isListed_of_isKept hkept
      have hbelow : flow.graph.listedBelow e = (List.range e).flatMap l.on :=
        List.flatMap_congr fun b hb => hnodes b (List.mem_range.1 hb)
      refine ⟨e, p.1, hfind, hinside p hp, ?_, ?_, ?_⟩
      · rw [hnodes p.1 (hinside p hp), ← hpn]
        exact List.mem_map.2 ⟨p, List.mem_filter.2 ⟨hp, by simp [hlisted]⟩, rfl⟩
      · rw [← hfor p hp, hpn]
        rfl
      · have hcount := Log.count_eq_one hnodup hinside hp hlisted
        rw [hbelow]
        rwa [hpn] at hcount
    · by_cases hb : b < flow.graph.size
      · obtain ⟨c, -, heq⟩ := hprints.copied b hb
        rw [show (flow.graph.chart b).nodes = l.on c from
          (congrArg Prod.fst heq).trans (hlogs.nodes c)]
        rw [Log.on, List.map_map]
        exact hpairwise.sublist (List.filter_sublist.map _)
      · rw [Graph.chart_of_size_le (not_lt.1 hb)]
        exact .nil
    · have hrole : n.tag.role ≠ .header := by
        rw [htag]
        decide
      obtain ⟨p, hp, hpn⟩ := hentry n hn hrole
      refine ⟨p.1, ?_, ?_⟩
      · rw [← hfor p hp, hpn]
        rfl
      · rw [show (flow.graph.chart p.1).flags.default = (g.chart p.1).flags.default from
          congrArg (·.2.2.1) (hkept p.1 (hinside p hp))]
        refine hlogs.defaults p hp ?_
        rw [hpn]
        exact htag

end Yields

end ProgramUnit

/-- **Statements are kept.** Each program keeps what is entered in its division, and nothing is
entered inside a program but what its division brings. -/
theorem StatementTree.build_keepsStatements (t : StatementTree) (o : Options) :
    ∃ flows, t.build o = .ok flows ∧ List.Forall₂ ProgramUnit.KeepsStatements t.units flows ∧
      ∀ n, .enter n ∈ t.notifications → n.tag ≠ .program → n.tag ≠ .function →
        ∃ u ∈ t.units, .enter n ∈ u.events := by
  obtain ⟨flows, hbuild, hflows⟩ := t.exists_build o
  exact ⟨flows, hbuild, hflows.imp fun _ _ h => h.keepsStatements,
    fun n hn hprogram hfunction => t.exists_unit hn ⟨hprogram, hfunction⟩⟩

/-! ### The ends of blocks -/

/-- The statements that end a block come last in it. It is marked if they leave, and leads nowhere
if they end the program. -/
structure Block.Ended (block : Block) : Prop where
  closes : ∀ i ∈ block.instructions.dropLast, i.tag.closes = false
  ending : block.flags.ending = true ↔ ∃ i ∈ block.instructions.getLast?, i.tag.leaves = true
  terminates : ∀ i ∈ block.instructions.getLast?, i.tag.terminates = true → block.successors = []

theorem ProgramUnit.Yields.ended {o : Options} {u : ProgramUnit} {flow : ProgramFlow}
    (h : u.Yields o flow) : ∀ block ∈ flow.graph.blocks, block.Ended := by
  intro block hblock
  cases hd : u.division with
  | none =>
    rw [h.graph_eq_empty hd] at hblock
    exact absurd hblock (Array.not_mem_empty block)
  | some d =>
    obtain ⟨g, l, -, hlogs, -, -, hprints, -, -⟩ := h.exists_logs hd
    obtain ⟨b, hb⟩ := Array.getElem?_of_mem hblock
    have hspot := Graph.chart_of_getElem? hb
    have hshaped := hprints.shaped hlogs.shaped b
    rw [hspot] at hshaped
    refine ⟨hshaped.closes, hshaped.ending, fun i hi hterminates => ?_⟩
    exact hprints.calm b block hb (hspot ▸ ⟨i, hi, hterminates⟩)

/-- **Blocks end where control is handed over**, in copies as well. -/
theorem StatementTree.build_ended (t : StatementTree) (o : Options) :
    ∃ flows, t.build o = .ok flows ∧
      ∀ flow ∈ flows, ∀ block ∈ flow.graph.blocks, block.Ended := by
  obtain ⟨flows, hbuild, hflows⟩ := t.exists_build o
  refine ⟨flows, hbuild, fun flow hflow => ?_⟩
  obtain ⟨u, -, hu⟩ := exists_of_forall₂_of_mem hflows hflow
  exact hu.ended

end CobolFlow
