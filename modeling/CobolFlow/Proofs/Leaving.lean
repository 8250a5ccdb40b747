import CobolFlow.Proofs.Blocks
import CobolFlow.Proofs.Dangling
import CobolFlow.Proofs.Declaratives

/-!
# Jumps that leave a range

An edge that leaves a performed range is reported if it comes from any block of the range but the
last. These edges are just those of jumps: control falls from one sentence of a range into the next,
because no sentence between two of a range is left out, and out of the range only from its last
block; and no jump stands in the last block of a sentence, because what follows a jump is written
into a new block.

## Main definitions

* `NodeTag.isJump`, `Spot.jumps` — GO TO and NEXT SENTENCE, and the blocks that end with them
* `ProgramFlow.leavings` — the edges by which jumps leave a range
* `ProgramUnit.ReportsLeavings` — what is said of one program

## Main results

* `StatementTree.build_reportsLeavings` — it holds of every program of every tree
-/

namespace CobolFlow

open Scope

open Notification (written)

/-- GO TO and NEXT SENTENCE. -/
def NodeTag.isJump : NodeTag → Bool
  | .goToSimple | .goToConditional | .nextSentence => true
  | _ => false

/-- The block ends with a GO TO or with NEXT SENTENCE. -/
def Spot.jumps (s : Spot) : Bool := s.nodes.getLast?.any (·.tag.isJump)

theorem Spot.jumps_iff {s : Spot} :
    s.jumps = true ↔ ∃ i ∈ s.nodes.getLast?, i.tag.isJump = true := by
  rw [jumps, Option.any_eq_true]
  rfl

theorem Node.landmark?_eq_jump_iff {n : Node} {node : NodeId} {span : Span} {j : Jump} :
    n.landmark? = some (.jump node span j) ↔ n.kind = .goTo j ∧ n.id = node ∧ n.span = span := by
  rw [landmark?]
  cases n.kind <;> simp [and_comm, and_left_comm, eq_comm]

/-- A jump that is not NEXT SENTENCE is a GO TO. -/
theorem Node.exists_goTo {n : Node} (hjump : n.tag.isJump = true) (hne : n.tag ≠ .nextSentence) :
    ∃ j, n.kind = .goTo j := by
  rw [tag] at hjump hne
  cases hkind : n.kind with
  | goTo j => exact ⟨j, rfl⟩
  | nextSentence => exact absurd (congrArg NodeKind.tag hkind) hne
  | _ => rw [hkind] at hjump; exact nomatch hjump

namespace ProgramFlow

variable (flow : ProgramFlow)

/-- The edges by which jumps leave the range of a PERFORM, if there is such a range. -/
def leavings (call : Call) : List (BlockId × BlockId) :=
  match flow.procedures.captured? call.range with
  | none => []
  | some blocks => blocks.flatMap fun b =>
    if (flow.graph.chart b).jumps then
      ((flow.graph.chart b).next.filter fun x => !blocks.contains x).map (b, ·)
    else []

/-- What is reported of a PERFORM for an edge that leaves its range from the given block. -/
def departure (call : Call) (b : BlockId) : Problem where
  kind := .branchOutOfRange call.range.display ((flow.graph.chart b).tag.getD "") b
  span := call.span

variable {flow} {call : Call} {b x : BlockId}

theorem mem_leavings : (b, x) ∈ flow.leavings call ↔ ∃ blocks,
    flow.procedures.captured? call.range = some blocks ∧ b ∈ blocks ∧
      (flow.graph.chart b).jumps = true ∧ x ∈ (flow.graph.chart b).next ∧ x ∉ blocks := by
  rw [leavings]
  cases flow.procedures.captured? call.range with
  | none => simp
  | some blocks =>
    simp only [List.mem_flatMap, Option.some.injEq, exists_eq_left']
    constructor
    · rintro ⟨b', hb', hmem⟩
      split at hmem
      next hjumps =>
        obtain ⟨y, hy, heq⟩ := List.mem_map.1 hmem
        obtain ⟨rfl, rfl⟩ := Prod.mk.inj heq
        obtain ⟨hnext, hnot⟩ := List.mem_filter.1 hy
        exact ⟨hb', hjumps, hnext, by simpa using hnot⟩
      next => exact nomatch hmem
    · rintro ⟨hb, hjumps, hnext, hnot⟩
      refine ⟨b, hb, ?_⟩
      rw [if_pos hjumps]
      exact List.mem_map.2 ⟨x, List.mem_filter.2 ⟨hnext, by simpa using hnot⟩, rfl⟩

end ProgramFlow

namespace ProgramUnit

/-- Which edges are reported to leave a range. -/
structure ReportsLeavings (u : ProgramUnit) (flow : ProgramFlow) : Prop where
  /-- For every PERFORM, each edge by which a jump leaves its range is reported once, and nothing
  else is reported as such. -/
  exact : (flow.problems.filter (·.code = "CFG005")).Perm
    (u.calls.flatMap fun call => (flow.leavings call).map fun e => flow.departure call e.1)
  /-- The block that is named belongs to the range, and ends with a jump that leaves it. -/
  named : ∀ p ∈ flow.problems, p.code = "CFG005" → ∃ call ∈ u.calls, ∃ blocks,
    flow.procedures.captured? call.range = some blocks ∧ ∃ b ∈ blocks,
      (flow.graph.chart b).jumps = true ∧ (∃ x ∈ (flow.graph.chart b).next, x ∉ blocks) ∧
      p = flow.departure call b
  /-- Control falls on from the last block of a sentence. This ends with no jump, and what leaves a
  range from there is not reported. -/
  falling : ∀ j, ∀ b ∈ flow.procedures.lastBlock? j, (flow.graph.chart b).jumps = false ∧
    ∀ p ∈ flow.problems, ∀ range tag, p.kind ≠ .branchOutOfRange range tag b

/-- The blocks below `last` list what has been written of a division. -/
structure Lists (u : ProgramUnit) (flow : ProgramFlow) (last : BlockId) (l : Log) : Prop where
  written : l.map (·.2) = ⟨u.id, .procedureDivision⟩ :: written u.events
  nodup : (l.map (·.2.node)).Nodup
  below : ∀ e ∈ l, e.1 < last
  nodes : ∀ b < last, (flow.graph.chart b).nodes = l.on b
  shaped : ∀ b, (flow.graph.chart b).Shaped

variable {o : Options} {u : ProgramUnit} {d : DivisionText} {flow : ProgramFlow}
  {s s₁ s₂ : Scope} {chs : List Chapter} {l : Log} {b b' last : BlockId} {i i' : Instruction}

theorem Yields.exists_lists (h : u.Yields o flow) (hd : u.division = some d) :
    ∃ last l, u.Lists flow last l ∧ flow.graph.findFlagged { finish := true } = some last := by
  obtain ⟨g, l, last, hlogs, hl, hbelow, hprints, hsize, hfind⟩ := h.exists_logs hd
  have hpairwise := pairwise_written hd
  rw [← hl, List.map_map] at hpairwise
  refine ⟨last, l, ⟨hl, hpairwise.imp fun h => h.ne, hbelow, fun b hb => ?_,
    hprints.shaped hlogs.shaped⟩, hfind⟩
  have hkept := hprints.kept b (hsize ▸ Nat.lt_succ_of_lt hb)
  exact (congrArg Prod.fst hkept).trans (hlogs.nodes b)

namespace Lists

variable (h : u.Lists flow last l)
include h

theorem mem_nodes_iff (hb : b < last) : i ∈ (flow.graph.chart b).nodes ↔
    (b, i) ∈ l ∧ i.tag.isListed = true := by
  rw [h.nodes b hb, Log.on, List.mem_map]
  constructor
  · rintro ⟨⟨b', i'⟩, hfiltered, rfl⟩
    obtain ⟨hmem, hhere⟩ := List.mem_filter.1 hfiltered
    obtain ⟨hb', hlisted⟩ := Bool.and_eq_true_iff.1 hhere
    obtain rfl : b' = b := by simpa using hb'
    exact ⟨hmem, hlisted⟩
  · rintro ⟨hmem, hlisted⟩
    exact ⟨(b, i), List.mem_filter.2 ⟨hmem, by simp [hlisted]⟩, rfl⟩

/-- A node stands in one place. -/
theorem eq_of_node (hb : b < last) (hi : i ∈ (flow.graph.chart b).nodes) (hb' : b' < last)
    (hi' : i' ∈ (flow.graph.chart b').nodes) (heq : i.node = i'.node) : b = b' ∧ i = i' := by
  have hmem := ((h.mem_nodes_iff hb).1 hi).1
  have hmem' := ((h.mem_nodes_iff hb').1 hi').1
  exact Prod.mk.inj (List.inj_on_of_nodup_map h.nodup hmem hmem' heq)

/-- What stands in a block has been entered. -/
theorem exists_enter (hb : b < last) (hi : i ∈ (flow.graph.chart b).nodes) :
    ∃ n, .enter n ∈ u.events ∧ n.instruction = i := by
  obtain ⟨hmem, hlisted⟩ := (h.mem_nodes_iff hb).1 hi
  have hwritten : i ∈ l.map (·.2) := List.mem_map_of_mem hmem
  rw [h.written] at hwritten
  obtain rfl | hwritten := List.mem_cons.1 hwritten
  · cases hlisted
  obtain ⟨e, he, heq⟩ := List.mem_filterMap.1 hwritten
  cases e with
  | enter n =>
    rw [Notification.written?] at heq
    split at heq
    · cases heq
    · exact ⟨n, he, Option.some.inj heq⟩
  | _ => cases heq

/-- What has been entered stands in a block. -/
theorem exists_block {n : Node} (hn : .enter n ∈ u.events) (hkept : n.tag.isKept = true) :
    ∃ b < last, n.instruction ∈ (flow.graph.chart b).nodes := by
  have hmem := Notification.mem_written hn (role_ne_header hn hkept)
  obtain ⟨⟨b, i⟩, hb, rfl⟩ := List.mem_map.1 (h.written ▸ List.mem_cons_of_mem _ hmem)
  exact ⟨b, h.below _ hb, (h.mem_nodes_iff (h.below _ hb)).2
    ⟨hb, NodeTag.isListed_of_isKept hkept⟩⟩

end Lists

/-! ### The blocks that end with a jump -/

/-- The GO TOs among the landmarks of a program have been entered. -/
theorem jump_mem_landmarks_iff {node : NodeId} {span : Span} {j : Jump} :
    .jump node span j ∈ u.landmarks ↔
      ∃ n, .enter n ∈ u.events ∧ n.kind = .goTo j ∧ n.id = node ∧ n.span = span := by
  constructor
  · intro h
    obtain ⟨e, he, heq⟩ := List.mem_filterMap.1 h
    cases e with
    | enter n => exact ⟨n, he, Node.landmark?_eq_jump_iff.1 heq⟩
    | _ => exact nomatch heq
  · rintro ⟨n, hn, hjump⟩
    exact List.mem_filterMap.2 ⟨.enter n, hn, Node.landmark?_eq_jump_iff.2 hjump⟩

namespace Arises

variable (h : u.Arises o d flow s chs s₁ s₂) (hl : u.Lists flow (Chapter.extent chs) l)
  {c : Chapter} {m : Landmark} {e : Exit}

include h in
/-- A landmark of the program is left in a chapter. -/
theorem exists_mark (hm : m ∈ u.landmarks) : ∃ c ∈ chs, ∃ b, (b, m) ∈ c.marks := by
  rw [← h.landmarks, ← h.draft.landmarks] at hm
  obtain ⟨⟨b, m⟩, hmem, rfl⟩ := List.mem_map.1 hm
  obtain ⟨c, hc, hmark⟩ := List.mem_flatMap.1 hmem
  exact ⟨c, hc, b, hmark⟩

include h in
/-- What leaves a chapter comes last in a block of it. -/
theorem signs_of_mark (hc : c ∈ chs) (hm : (b, m) ∈ c.marks) (he : m.exit = some e) :
    c.Has b ∧ b < Chapter.extent chs ∧ b ≠ c.stop ∧ e.Signs (flow.graph.chart b).nodes := by
  obtain ⟨k, hk⟩ := List.mem_iff_getElem?.1 hc
  obtain ⟨hhas, hstop, hsigns⟩ := h.draft.signs_of_mark hc hm he
  have hlt := h.draft.has_lt_extent hk hhas
  refine ⟨hhas, hlt, hstop.ne, ?_⟩
  rwa [h.stemsFrom.nodes b (h.draft.lt_size hlt)]

include h hl

/-- The GO TO at which a chapter is left has been entered. -/
theorem exists_enter_of_mark {node : NodeId} {span : Span} {j : Jump} (hc : c ∈ chs)
    (hm : (b, .jump node span j) ∈ c.marks) : ∃ n, .enter n ∈ u.events ∧ n.kind = .goTo j ∧
      n.id = node ∧ (flow.graph.chart b).nodes.getLast? = some n.instruction := by
  obtain ⟨-, hlt, -, i, hi, hby⟩ := h.signs_of_mark hc hm rfl
  have hlandmark : .jump node span j ∈ u.landmarks := by
    rw [← h.landmarks, ← h.draft.landmarks]
    exact List.mem_map.2 ⟨_, List.mem_flatMap.2 ⟨c, hc, hm⟩, rfl⟩
  obtain ⟨n, hn, hkind, rfl, -⟩ := jump_mem_landmarks_iff.1 hlandmark
  have htag : n.tag = if j.isSimple then .goToSimple else .goToConditional := by
    rw [Node.tag, hkind, NodeKind.tag_goTo]
  have hkept : n.tag.isKept = true := by rw [htag]; split <;> rfl
  obtain ⟨b', hb', hi'⟩ := hl.exists_block hn hkept
  obtain ⟨-, rfl⟩ := hl.eq_of_node hlt (List.mem_of_getLast? hi) hb' hi' hby
  exact ⟨n, hn, hkind, rfl, hi⟩

/-- A block ends with a jump where a chapter is left. -/
theorem jumps_of_mark (hc : c ∈ chs) (hm : (b, m) ∈ c.marks) (he : m.exit = some e) :
    (flow.graph.chart b).jumps = true := by
  obtain ⟨-, hlt, -, i, hi, hby⟩ := h.signs_of_mark hc hm he
  refine Spot.jumps_iff.2 ⟨i, hi, ?_⟩
  cases m with
  | nextSentence =>
    obtain rfl := Option.some.inj he
    rw [show i.tag = .nextSentence from hby]
    rfl
  | jump node span j =>
    obtain ⟨n, -, hkind, -, hlast⟩ := h.exists_enter_of_mark hl hc hm
    obtain rfl := Option.some.inj (hi.symm.trans hlast)
    change n.tag.isJump = true
    rw [Node.tag, hkind, NodeKind.tag_goTo]
    split <;> rfl
  | call | alter => exact nomatch he

/-- A GO TO that stands in a block of a chapter is one of its landmarks. -/
theorem exists_mark_of_goTo (hc : c ∈ chs) (hb : c.Has b) (hi : i ∈ (flow.graph.chart b).nodes)
    (hjump : i.tag.isJump = true) (hne : i.tag ≠ .nextSentence) :
    ∃ node span j, (b, .jump node span j) ∈ c.marks := by
  obtain ⟨k, hk⟩ := List.mem_iff_getElem?.1 hc
  have hlt := h.draft.has_lt_extent hk hb
  obtain ⟨n, hn, rfl⟩ := hl.exists_enter hlt hi
  obtain ⟨j, hj⟩ := Node.exists_goTo hjump hne
  obtain ⟨c', hc', b', hm⟩ := h.exists_mark (jump_mem_landmarks_iff.2 ⟨n, hn, hj, rfl, rfl⟩)
  -- the node stands in no other block
  obtain ⟨hhas, hlt', -, i, hlast, hby⟩ := h.signs_of_mark hc' hm rfl
  obtain ⟨rfl, -⟩ := hl.eq_of_node hlt hi hlt' (List.mem_of_getLast? hlast) (Eq.symm hby)
  obtain rfl := h.draft.eq_of_mem_of_has hc hc' hb hhas
  exact ⟨_, _, _, hm⟩

/-- A chapter does not end with a jump. -/
theorem jumps_stop (hc : c ∈ chs) : (flow.graph.chart c.stop).jumps = false := by
  obtain ⟨k, hk⟩ := List.mem_iff_getElem?.1 hc
  have hdrawn := h.draft.drawn c hc
  have hlt := h.draft.has_lt_extent hk hdrawn.has_stop
  by_contra hjumps
  obtain ⟨i, hi, hjump⟩ := Spot.jumps_iff.1 (Bool.eq_true_of_not_eq_false hjumps)
  cases hleaves : i.tag.leaves with
  | true =>
    have hending := (hl.shaped c.stop).ending.2 ⟨i, hi, hleaves⟩
    obtain ⟨m, hflags⟩ := h.exists_flags_eq (h.draft.lt_size hlt)
    rw [hflags, h.draft.chart hk _ hdrawn.has_stop, if_pos rfl] at hending
    have hopen : (c.last.chart c.stop).flags.ending = false := hdrawn.fragment.opened.ending
    exact absurd hending (by simp [BlockFlags.union, hopen])
  | false =>
    -- a GO TO that may go on would be a landmark of the last block
    obtain ⟨node, span, j, hm⟩ := h.exists_mark_of_goTo hl hc hdrawn.has_stop
      (List.mem_of_getLast? hi) hjump fun htag => by
        rw [htag] at hleaves
        cases hleaves
    obtain ⟨-, -, hstop, -⟩ := h.signs_of_mark hc hm rfl
    exact hstop rfl

/-- No call is made from a block that ends with a jump. -/
theorem group_of_jumps (hb : b < Chapter.extent chs) (hjumps : (flow.graph.chart b).jumps = true) :
    (s₁.graph.chart b).group = none := by
  obtain ⟨more, hchart, -⟩ := h.links.chart b
  have hnodes := h.stemsFrom.nodes b (h.draft.lt_size hb)
  rw [hchart, ← Option.not_isSome_iff_eq_none]
  intro hgroup
  obtain ⟨i, hsingle, hperform⟩ := Draft.exists_nodes_of_group h.marked
    (hnodes ▸ (hl.shaped b).closes) hgroup
  obtain ⟨i', hi', hjump⟩ := Spot.jumps_iff.1 hjumps
  rw [hnodes, hsingle] at hi'
  obtain rfl : i = i' := Option.some.inj hi'
  rw [hperform] at hjump
  exact nomatch hjump

end Arises

end ProgramUnit

/-! ### The blocks of a range -/

namespace Procedures

variable {c : Procedures}

/-- The sentences of a range, in increasing order, and its blocks. Between two of the sentences none
is left out but those of the implicit section, which has none of them itself. -/
structure Covers (c : Procedures) (l : List SentenceId) (blocks : List BlockId) : Prop where
  increasing : l.Pairwise (· < ·)
  blocks : blocks = l.flatMap fun j => (c.sentences[j]?.map (·.blocks)).getD []
  owned : ∀ j ∈ l, ∃ t, c.sentences[j]? = some t ∧ t.owner ≠ some 0
  between : ∀ {i j k : SentenceId}, i ∈ l → k ∈ l → i < j → j < k →
    ∀ t, c.sentences[j]? = some t → t.owner ≠ some 0 → j ∈ l

/-- Blocks and entries do not matter for the implicit section. -/
theorem Rooted.of_erase (h : c.erase.Rooted) : c.Rooted where
  unnamed := h.unnamed
  first := by
    obtain ⟨t, ht, howner⟩ := h.first
    rw [getElem?_erase] at ht
    obtain ⟨t', ht', rfl⟩ := Option.map_eq_some_iff.1 ht
    exact ⟨t', ht', howner⟩
  before {i j t t'} ht ht' := by
    have hget : ∀ {j : SentenceId} {t : Sentence}, c.sentences[j]? = some t →
        c.erase.sentences[j]? = some { t with blocks := [], entry := none } := fun ht => by
      rw [getElem?_erase, ht]
      rfl
    intro hij howner
    have hbefore := h.before (hget ht) (hget ht') hij howner
    exact hbefore

/-- What is known of the sentences of a range. -/
theorem covers (hc : c.Shelved) (hrooted : c.Rooted) (hsound : Sound c) {r : PerformRange}
    {l : List SentenceId} (h : c.covered? r = some l) :
    c.Covers l (l.flatMap fun j => (c.sentences[j]?.map (·.blocks)).getD []) := by
  obtain ⟨first, last, hrange, found, hfound, rfl⟩ := covered?_eq_some_iff.1 h
  obtain ⟨p, hp, hrange⟩ := Option.bind_eq_some_iff.1 hrange
  obtain ⟨q, -, hrange⟩ := Option.bind_eq_some_iff.1 hrange
  obtain rfl : p = first := by
    split at hrange
    · exact nomatch hrange
    · exact (Prod.mk.inj (Option.some.inj hrange)).1
  have hfirst := hrooted.find?_ne_zero hsound hp
  obtain ⟨hsorted, hmem⟩ := hc.sentencesBetween hfirst hfound
  refine ⟨hsorted, rfl, fun j hj => ?_, fun {i j k} hi hk hij hjk t ht howner => ?_⟩
  · obtain ⟨p', hle, -, t, ht, q', hq', hfiled⟩ := (hmem j).1 hj
    refine ⟨t, ht, fun howner => ?_⟩
    obtain rfl : q' = 0 := Option.some.inj (hq'.symm.trans howner)
    obtain rfl | hfiled := hfiled
    · exact hfirst (Nat.le_zero.1 hle)
    · exact absurd (hc.lt_of_isWithin hfiled) (Nat.not_lt_zero _)
  · exact (hmem j).2 (hc.exists_under_of_between hfirst ((hmem i).1 hi) ((hmem k).1 hk) hij hjk ht
      howner)

theorem exists_covers (hc : c.Shelved) (hrooted : c.Rooted) (hsound : Sound c) {r : PerformRange}
    {blocks : List BlockId} (h : c.captured? r = some blocks) : ∃ l, c.Covers l blocks := by
  obtain ⟨l, hl, rfl⟩ := exists_covered? h
  exact ⟨l, covers hc hrooted hsound hl⟩

end Procedures

namespace ProgramUnit

variable {o : Options} {u : ProgramUnit} {d : DivisionText} {flow : ProgramFlow}
  {s s₁ s₂ : Scope} {chs : List Chapter} {l : List SentenceId} {blocks : List BlockId}

namespace Arises

variable (h : u.Arises o d flow s chs s₁ s₂) {c : Chapter} {b x i j n : ℕ}
include h

theorem rooted : flow.procedures.Rooted :=
  .of_erase (h.erase ▸ (d.rooted_plan u.program (u.id + 1)).rooted)

/-- The blocks of a range are those of the chapters that are its sentences. -/
theorem mem_blocks_iff (hl : flow.procedures.Covers l blocks) :
    b ∈ blocks ↔ ∃ c ∈ chs, (∃ j ∈ l, c.sentence = some j) ∧ c.Has b := by
  have hiff : ∀ j, b ∈ (flow.procedures.sentences[j]?.map (·.blocks)).getD [] ↔
      flow.procedures.InSentence j b := fun j => Procedures.mem_getD_blocks
  simp only [hl.blocks, List.mem_flatMap, hiff, h.inSentence_iff]
  constructor
  · rintro ⟨j, hj, c, hc, hcj, hb⟩
    exact ⟨c, hc, ⟨j, hj, hcj⟩, hb⟩
  · rintro ⟨c, hc, ⟨j, hj, hcj⟩, hb⟩
    exact ⟨j, hj, c, hc, hcj, hb⟩

/-- The last sentence of a range is a chapter, with which the range ends. -/
theorem exists_last {l' : List SentenceId} (hl : flow.procedures.Covers (l' ++ [j]) blocks) :
    ∃ c ∈ chs, c.sentence = some j ∧ blocks.getLast? = some c.stop := by
  obtain ⟨t, ht, -⟩ := hl.owned j (by simp)
  obtain ⟨c, hc, hcj⟩ := h.exists_chapter (Array.getElem?_eq_some_iff.1 ht).1
  obtain ⟨t', ht', hblocks⟩ := h.exists_sentence hc hcj
  have hlast : c.blocks.getLast? = some c.stop := (h.draft.drawn c hc).getLast?_blocks
  refine ⟨c, hc, hcj, ?_⟩
  rw [hl.blocks, List.flatMap_append, List.flatMap_singleton, ht', Option.map_some,
    Option.getD_some, hblocks, List.getLast?_append, hlast, Option.some_or]

/-- A range ends where a chapter does. -/
theorem exists_stop (hl : flow.procedures.Covers l blocks) (hb : blocks.getLast? = some b) :
    ∃ c ∈ chs, b = c.stop := by
  obtain rfl | ⟨l', j, rfl⟩ := l.eq_nil_or_concat
  · rw [hl.blocks] at hb
    exact nomatch hb
  · obtain ⟨c, hc, -, hlast⟩ := h.exists_last (List.concat_eq_append ▸ hl)
    exact ⟨c, hc, Option.some.inj (hb.symm.trans hlast)⟩

/-- Behind a sentence of a range does not come one of the implicit section. -/
theorem owner_ne_root (hsides : Chapter.Sides flow.procedures chs n)
    (hl : flow.procedures.Covers l blocks) (hi : chs[i]? = some c) (hcj : c.sentence = some j)
    (hj : j ∈ l) {c' : Chapter} {j' : ℕ} (hi' : chs[i + 1]? = some c')
    (hcj' : c'.sentence = some j') {t' : Sentence}
    (ht' : flow.procedures.sentences[j']? = some t') :
    t'.owner ≠ some 0 := by
  intro howner'
  obtain ⟨t, ht, howner⟩ := hl.owned j hj
  have hjj' := h.draft.lt_of_index_lt hi hcj hi' hcj' (Nat.lt_succ_self i)
  have hdeclared := (h.rooted.before ht ht' hjj' howner').resolve_left howner
  obtain ⟨hpos, hle⟩ := (hsides.stands hi).1 ⟨j, hcj, t, ht, hdeclared⟩
  obtain ⟨_, R, hroot, hR, -⟩ := h.shelved.sentence ht'
  obtain rfl := Option.some.inj (howner'.symm.trans hroot)
  have hout : t'.declaratives = false :=
    (h.agrees.sentence ht' howner' hR).symm.trans (h.agrees.root hR)
  obtain hlt | rfl := hle.lt_or_eq
  · obtain ⟨k, hk, t'', ht'', hin⟩ := (hsides.stands hi').2 ⟨Nat.succ_pos i, hlt⟩
    obtain rfl := Option.some.inj (hcj'.symm.trans hk)
    obtain rfl := Option.some.inj (ht'.symm.trans ht'')
    exact nomatch hout.symm.trans hin
  · exact nomatch hcj'.symm.trans (hsides.resumed hpos hi')

/-- **Control does not leave a range but by jumps**, or from its last block. -/
theorem next_mem (hsides : Chapter.Sides flow.procedures chs n)
    (hl : flow.procedures.Covers l blocks) (hb : b ∈ blocks) (hlast : blocks.getLast? ≠ some b)
    (hx : x ∈ (s.graph.chart b).next) : x ∈ blocks := by
  obtain ⟨c, hc, ⟨j, hj, hcj⟩, hhas⟩ := (h.mem_blocks_iff hl).1 hb
  obtain ⟨i, hi⟩ := List.mem_iff_getElem?.1 hc
  obtain hhas' | ⟨rfl, hfalls⟩ := h.draft.cases_of_mem_next hi hhas hx
  · exact (h.mem_blocks_iff hl).2 ⟨c, hc, ⟨j, hj, hcj⟩, hhas'⟩
  -- The range goes on behind this sentence.
  obtain ⟨i', c', k, hi', hck, hk, hjk⟩ : ∃ (i' : ℕ) (c' : Chapter) (k : ℕ),
      chs[i']? = some c' ∧ c'.sentence = some k ∧ k ∈ l ∧ j < k := by
    obtain rfl | ⟨l', k, rfl⟩ := l.eq_nil_or_concat
    · exact nomatch hj
    rw [List.concat_eq_append] at hl hj ⊢
    obtain ⟨c', hc', hck, hstop⟩ := h.exists_last hl
    obtain ⟨i', hi'⟩ := List.mem_iff_getElem?.1 hc'
    refine ⟨i', c', k, hi', hck, by simp, ?_⟩
    obtain hj | hj := List.mem_append.1 hj
    · exact (List.pairwise_append.1 hl.increasing).2.2 j hj k (by simp)
    · obtain rfl := List.mem_singleton.1 hj
      obtain rfl := h.draft.eq_of_sentence hi hcj hi' hck
      obtain rfl := Option.some.inj (hi.symm.trans hi')
      exact absurd hstop hlast
  have hii' := h.draft.index_lt hi hcj hi' hck hjk
  obtain ⟨hlength, -⟩ | ⟨m, c'', hfalls, hm, rfl⟩ := hfalls
  · exact absurd (List.getElem?_eq_some_iff.1 hi').1 (by omega)
  obtain ⟨rfl, ⟨j', hcj'⟩, -⟩ | ⟨rfl, -⟩ := h.cases_of_falls hfalls hm
  · have hj' : j' ∈ l := by
      obtain heq | hlt := (Nat.succ_le_of_lt hii').eq_or_lt
      · obtain rfl := Option.some.inj (hm.symm.trans ((congrArg (chs[·]?) heq).trans hi'))
        exact Option.some.inj (hcj'.symm.trans hck) ▸ hk
      · have hjj' := h.draft.lt_of_index_lt hi hcj hm hcj' (Nat.lt_succ_self i)
        have hjk' := h.draft.lt_of_index_lt hm hcj' hi' hck hlt
        obtain ⟨t, ht, -⟩ := h.exists_sentence (List.mem_of_getElem? hm) hcj'
        exact hl.between hj hk hjj' hjk' t ht (h.owner_ne_root hsides hl hi hcj hj hm hcj' ht)
    exact (h.mem_blocks_iff hl).2 ⟨c'', List.mem_of_getElem? hm, ⟨j', hj', hcj'⟩,
      (h.draft.drawn c'' (List.mem_of_getElem? hm)).has_start⟩
  -- The first sentence belongs to the implicit section, which has none in a range.
  · obtain ⟨t, ht, howner⟩ := hl.owned j hj
    obtain ⟨t', ht', howner'⟩ := h.rooted.first
    obtain ⟨c₀, hc₀, hcj₀⟩ := h.exists_chapter (Array.getElem?_eq_some_iff.1 ht').1
    obtain ⟨i₀, hi₀⟩ := List.mem_iff_getElem?.1 hc₀
    obtain rfl | hpos := Nat.eq_zero_or_pos j
    · obtain rfl := Option.some.inj (ht.symm.trans ht')
      exact absurd howner' howner
    · exact absurd (h.draft.index_lt hi₀ hcj₀ hi hcj hpos) (Nat.not_lt_zero _)

end Arises

/-! ### What is reported -/

theorem flatMap_mapIdx {α β γ : Type} {f : β → List γ} {F : ℕ → α → β} {g : α → List γ}
    (h : ∀ k a, f (F k a) = g a) (l : List α) : (l.mapIdx F).flatMap f = l.flatMap g := by
  induction l generalizing F with
  | nil => rfl
  | cons a rest ih =>
    rw [List.mapIdx_cons, List.flatMap_cons, List.flatMap_cons, h, ih fun k => h (k + 1)]

theorem outcome_errand (s : Scope) (w : PendingPerform) : (s.errand w).outcome =
    ((s.procedures.captured? w.range).map
      (Build.leavings w w.range.display s.graph.chart)).getD [] := by
  obtain hnone | ⟨blocks, hsome⟩ := (s.procedures.captured? w.range).eq_none_or_eq_some
  · simp [Errand.outcome, Scope.errand, hnone]
  · simp [Errand.outcome, Scope.errand, hsome]

/-- Nothing leaves a range that is not known. -/
theorem leavings_errand (s : Scope) (w : PendingPerform) :
    (s.errand w).leavings = (s.errand w).outcome := by
  rw [outcome_errand, Scope.errand]
  cases s.procedures.captured? w.range <;> rfl

section Outcome

variable (h : u.Arises o d flow s chs s₁ s₂) {log : Log}
  (hlog : u.Lists flow (Chapter.extent chs) log) {n : ℕ}
  (hsides : Chapter.Sides flow.procedures chs n)
include h hlog

/-- A jump is made only from a block that ends with one. -/
theorem Arises.jumps_of_jumps {b x : ℕ} (hjump : s.Jumps b x) :
    (flow.graph.chart b).jumps = true := by
  obtain ⟨w, hw, rfl, -⟩ | ⟨w, hw, rfl, -⟩ := hjump
  · obtain ⟨c, hc, hm, -⟩ := h.draft.mem_nextSentences.1 hw
    exact h.jumps_of_mark hlog hc hm rfl
  · obtain ⟨c, hc, hm⟩ := h.draft.mem_jumps.1 hw
    exact h.jumps_of_mark hlog hc hm rfl

include hsides

/-- What is reported of the range of a PERFORM. -/
theorem Arises.outcome_eq (call : Call) (k : ℕ) : (s₁.errand (call.pending k)).outcome =
    (flow.leavings call).map fun e => flow.departure call e.1 := by
  rw [outcome_errand, ProgramFlow.leavings, h.procedures_eq]
  change ((s₁.procedures.captured? call.range).map _).getD [] = _
  cases hcaptured : s₁.procedures.captured? call.range with
  | none => rfl
  | some blocks =>
    obtain ⟨l, hl⟩ := Procedures.exists_covers h.shelved h.rooted h.sound_procedures
      (h.procedures_eq ▸ hcaptured)
    rw [Option.map_some, Option.getD_some, Build.leavings, List.map_flatMap]
    refine List.flatMap_congr fun b hb => ?_
    obtain ⟨c, hc, -, hhas⟩ := (h.mem_blocks_iff hl).1 hb
    obtain ⟨i, hi⟩ := List.mem_iff_getElem?.1 hc
    have hlt := h.draft.has_lt_extent hi hhas
    cases hjumps : (flow.graph.chart b).jumps with
    | true =>
      obtain ⟨_, _, -, hchart⟩ := h.chart_eq (h.draft.lt_size hlt)
      have hlast : ¬ (some b == blocks.getLast?) = true := fun heq => by
        obtain ⟨c', hc', rfl⟩ := h.exists_stop hl (beq_iff_eq.1 heq).symm
        cases hjumps.symm.trans (h.jumps_stop hlog hc')
      rw [if_neg hlast, if_pos rfl, List.map_map, Build.strays,
        ← hchart (h.group_of_jumps hlog hlt hjumps)]
      rfl
    | false =>
      rw [if_neg Bool.false_ne_true, List.map_nil]
      split
      · rfl
      next hlast =>
        have hnone : (s₁.graph.chart b).next.filter (fun x => !blocks.contains x) = [] := by
          refine List.filter_eq_nil_iff.2 fun x hx => ?_
          obtain hx | hjump := h.links.mem_next.1 hx
          · have hmem := h.next_mem hsides hl hb (fun heq => hlast (by simp [heq])) hx
            simpa using hmem
          · cases hjumps.symm.trans (h.jumps_of_jumps hlog hjump)
        rw [hnone]
        rfl

theorem Arises.reportsLeavings : u.ReportsLeavings flow := by
  have hexact : (flow.problems.filter (·.code = "CFG005")).Perm
      (u.calls.flatMap fun call => (flow.leavings call).map fun e => flow.departure call e.1) := by
    have hbefore : s.jumpComplaints.filter (·.code = "CFG005") = [] :=
      List.filter_eq_nil_iff.2 fun p hp => by simpa using (code_jumpComplaints hp).2
    have hcalls : (s.pending.performs.map s₁.errand).flatMap Errand.outcome =
        u.calls.flatMap fun call => (flow.leavings call).map fun e => flow.departure call e.1 := by
      rw [calls, ← h.landmarks, ← h.draft.calls, h.draft.performs, List.flatMap_map,
        List.flatMap_map]
      exact flatMap_mapIdx (fun k e => h.outcome_eq hlog hsides e.2 k) _
    rw [h.problems_eq, List.filter_append, hbefore, List.nil_append, ← hcalls]
    exact Tour.perm_told h.awaits.fair
  have hnamed : ∀ p ∈ flow.problems, p.code = "CFG005" → ∃ call ∈ u.calls, ∃ blocks,
      flow.procedures.captured? call.range = some blocks ∧ ∃ b ∈ blocks,
        (flow.graph.chart b).jumps = true ∧ (∃ x ∈ (flow.graph.chart b).next, x ∉ blocks) ∧
        p = flow.departure call b := by
    intro p hp hcode
    have hmem := hexact.mem_iff.1 (List.mem_filter.2 ⟨hp, by simpa using hcode⟩)
    obtain ⟨call, hcall, hmem⟩ := List.mem_flatMap.1 hmem
    obtain ⟨⟨b, x⟩, hleaving, rfl⟩ := List.mem_map.1 hmem
    obtain ⟨blocks, hcaptured, hb, hjumps, hx, hnot⟩ := ProgramFlow.mem_leavings.1 hleaving
    exact ⟨call, hcall, blocks, hcaptured, b, hb, hjumps, ⟨x, hx, hnot⟩, rfl⟩
  refine ⟨hexact, hnamed, fun j b hb => ?_⟩
  obtain ⟨t, ht, hlast⟩ := Option.bind_eq_some_iff.1 hb
  obtain ⟨c, hc, hcj⟩ := h.exists_chapter (Array.getElem?_eq_some_iff.1 ht).1
  obtain ⟨t', ht', hblocks⟩ := h.exists_sentence hc hcj
  obtain rfl := Option.some.inj (ht.symm.trans ht')
  rw [hblocks, (h.draft.drawn c hc).getLast?_blocks] at hlast
  obtain rfl := Option.some.inj hlast
  have hstop := h.jumps_stop hlog hc
  refine ⟨hstop, fun p hp range tag hkind => ?_⟩
  obtain ⟨call, -, blocks, -, b, -, hjumps, -, rfl⟩ := hnamed p hp (by rw [Problem.code, hkind])
  obtain rfl : b = c.stop := (ProblemKind.branchOutOfRange.inj hkind).2.2
  cases hstop.symm.trans hjumps

end Outcome

/-- A program without a division reports nothing. -/
theorem Yields.reportsLeavings (h : u.Yields o flow) : u.ReportsLeavings flow := by
  cases hd : u.division with
  | none =>
    obtain ⟨hgraph, hprocedures, hproblems⟩ := h.of_none hd
    have hcalls : u.calls = [] := by rw [calls, landmarks, events, hd]; rfl
    refine ⟨?_, fun p hp => ?_, fun j b hb => ?_⟩
    · rw [hcalls, hproblems]
      exact .nil
    · rw [hproblems] at hp
      cases hp
    · rw [hprocedures] at hb
      cases hb
  | some d =>
    obtain ⟨s, chs, s₁, s₂, n, harises, hsides, -⟩ := h.exists_sides hd
    obtain ⟨last, log, hlog, hlast⟩ := h.exists_lists hd
    obtain rfl := Option.some.inj (hlast.symm.trans harises.findFlagged_finish)
    exact harises.reportsLeavings hlog hsides

end ProgramUnit

/-- **Jumps that leave a range.** For every tree and every options there is a result, and in each of
its programs an edge that leaves the range of a PERFORM is reported, once for each PERFORM, exactly
if a GO TO or NEXT SENTENCE makes it. -/
theorem StatementTree.build_reportsLeavings (t : StatementTree) (o : Options) : ∃ flows,
    t.build o = .ok flows ∧ List.Forall₂ (fun u flow => u.ReportsLeavings flow) t.units flows := by
  obtain ⟨flows, hbuild, hflows⟩ := t.exists_build o
  exact ⟨flows, hbuild, hflows.imp fun _ _ h => h.reportsLeavings⟩

end CobolFlow
