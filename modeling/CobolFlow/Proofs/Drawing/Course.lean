import CobolFlow.Proofs.Continuation
import CobolFlow.Proofs.Members
import CobolFlow.Proofs.Walk.Confined
import CobolFlow.Proofs.Walk.Coverage
import CobolFlow.Proofs.Walk.Drawing

/-!
# The course of a drawing

The recursion that draws a graph is given a bound, and `Dot.exists_drawWithin_eq_ok` says that the
bound plays no part. What a drawing contains is therefore said without it. A list of blocks is drawn
in steps, one for each block. A step may open the group of a call site, and then the members that
its cluster shows are drawn in the same way, inside and before the next step. Whatever holds of all
drawings is proved once for a step and then by induction on this course.

That there is a course for every graph without defects says that the recursion ends by itself.

## Main definitions

* `Dot.allWithin` — the statements of a drawing, those inside of clusters included
* `Dot.Step`, `Dot.Draws` — how a block is drawn, and how a list of blocks is
* `Dot.Drawing` — the statements of a whole drawing

## Main results

* `Dot.exists_drawing` — every graph without defects has a drawing, and it is what is drawn
* `Dot.Drawing.mem_declared_iff` — the blocks that a drawing declares
* `Dot.Drawing.joins` — what its edges join
-/

namespace CobolFlow.Dot

open Graph

/-! ### What a drawing contains -/

mutual

/-- A statement, and what stands inside of it, in the order of the text. -/
def Statement.within : Statement → List Statement
  | .record b label => [.record b label]
  | .edge source dest => [.edge source dest]
  | .call callSite first => [.call callSite first]
  | .cluster group caption body => .cluster group caption body :: allWithin body

def allWithin : List Statement → List Statement
  | [] => []
  | s :: rest => s.within ++ allWithin rest

end

/-- The block that a statement declares by itself. -/
def Statement.block? : Statement → Option BlockId
  | .record b _ => some b
  | _ => none

/-- The group whose cluster a statement is. -/
def Statement.cluster? : Statement → Option GroupId
  | .cluster group _ _ => some group
  | _ => none

/-- The groups that have a cluster, in the order in which the clusters begin. -/
def clusters (statements : List Statement) : List GroupId :=
  (allWithin statements).filterMap Statement.cluster?

mutual

theorem Statement.declared_eq : ∀ s : Statement, s.declared = s.within.filterMap Statement.block?
  | .record _ _ => rfl
  | .edge _ _ => rfl
  | .call _ _ => rfl
  | .cluster _ _ body => declaredIn_eq body

theorem declaredIn_eq : ∀ statements : List Statement,
    declaredIn statements = (allWithin statements).filterMap Statement.block?
  | [] => rfl
  | s :: rest => by
    rw [declaredIn, allWithin, List.filterMap_append, s.declared_eq, declaredIn_eq rest]

end

theorem allWithin_append (l l' : List Statement) :
    allWithin (l ++ l') = allWithin l ++ allWithin l' := by
  induction l with
  | nil => rfl
  | cons s l ih => rw [List.cons_append, allWithin, allWithin, ih, List.append_assoc]

/-- Statements with nothing inside. -/
theorem allWithin_eq_self {l : List Statement} (h : ∀ s ∈ l, s.within = [s]) :
    allWithin l = l := by
  induction l with
  | nil => rfl
  | cons s l ih =>
    obtain ⟨hs, hl⟩ := List.forall_mem_cons.1 h
    rw [allWithin, hs, ih hl, List.singleton_append]

theorem declaredIn_append (l l' : List Statement) :
    declaredIn (l ++ l') = declaredIn l ++ declaredIn l' := by
  rw [declaredIn_eq, allWithin_append, List.filterMap_append, ← declaredIn_eq, ← declaredIn_eq]

theorem clusters_append (l l' : List Statement) :
    clusters (l ++ l') = clusters l ++ clusters l' := by
  rw [clusters, allWithin_append, List.filterMap_append, clusters, clusters]

theorem declaredIn_cons_record (b : BlockId) (label : Label) (l : List Statement) :
    declaredIn (.record b label :: l) = b :: declaredIn l := rfl

theorem clusters_cons_record (b : BlockId) (label : Label) (l : List Statement) :
    clusters (.record b label :: l) = clusters l := rfl

/-! ### Steps -/

variable {g : Graph} {full : Bool} {drawn : List GroupId} {opened : Option GroupId} {block : Block}
  {blocks inside : List Block} {wrap : List Statement → List Statement} {part : Part}

/-- How a block is drawn when some groups have been drawn: the group that is opened, if any, the
members drawn inside of it, and what the statements made of these come to behind the record of the
block. -/
inductive Step (g : Graph) (drawn : List GroupId) (block : Block) :
    Option GroupId → List Block → (List Statement → List Statement) → Prop
  /-- The block makes no call. -/
  | plain (hcall : block.group = none) : Step g drawn block none [] id
  /-- The group of the call has been drawn. -/
  | again {i : GroupId} {group : Group} (hcall : block.group = some i)
    (hgroup : g.groups[i]? = some group) (hdrawn : i ∈ drawn) :
    Step g drawn block none [] (· ++ [.call block.id group.first?])
  /-- The group has no members. -/
  | empty {i : GroupId} {group : Group} (hcall : block.group = some i)
    (hgroup : g.groups[i]? = some group) (hnew : i ∉ drawn) (hfirst : group.first? = none) :
    Step g drawn block (some i) [] fun body => [.cluster i none body, .call block.id none]
  /-- The group is drawn here. -/
  | fill {i : GroupId} {group : Group} {first : BlockId} {members : List Block}
    (hcall : block.group = some i) (hgroup : g.groups[i]? = some group) (hnew : i ∉ drawn)
    (hfirst : group.first? = some first)
    (hmembers : connectedMembers g group.members first = .ok members) (caption : String) :
    Step g drawn block (some i) members fun body =>
      [.cluster i (some caption) body, .call block.id (some first)]

/-- The member is one that the cluster of a group shows. -/
def Shows (g : Graph) (i : GroupId) (b : BlockId) : Prop :=
  ∃ group first, g.groups[i]? = some group ∧ group.first? = some first ∧
    Trail g (· ∈ group.members) first b

/-- What the cluster of a group shows are its members. -/
theorem Shows.mem_membersOf {i : GroupId} {b : BlockId} (h : Shows g i b) : b ∈ g.membersOf i := by
  obtain ⟨group, first, hgroup, -, htrail⟩ := h
  rw [membersOf_of_getElem? hgroup]
  exact htrail.allowed_end

/-- What can be said of a statement when it is known what is declared and drawn: an edge is an edge
of the graph and leaves a block that is declared, and a dashed edge leads into a group that is
drawn. -/
inductive Joins (g : Graph) (declared : List BlockId) (drawn : List GroupId) : Statement → Prop
  | record (b : BlockId) (label : Label) : Joins g declared drawn (.record b label)
  | cluster (i : GroupId) (caption : Option String) (body : List Statement) :
    Joins g declared drawn (.cluster i caption body)
  | edge {a b : BlockId} (ha : a ∈ declared) (hlead : g.Leads a b) :
    Joins g declared drawn (.edge a b)
  | call {a : BlockId} {i : GroupId} {group : Group} (ha : a ∈ declared) (hi : i ∈ drawn)
    (hgroup : g.groups[i]? = some group) : Joins g declared drawn (.call a group.first?)

theorem Joins.mono {declared declared' : List BlockId} {drawn' : List GroupId} {s : Statement}
    (h : Joins g declared drawn s) (hdeclared : declared ⊆ declared') (hdrawn : drawn ⊆ drawn') :
    Joins g declared' drawn' s := by
  cases h with
  | record b label => exact .record b label
  | cluster i caption body => exact .cluster i caption body
  | edge ha hlead => exact .edge (hdeclared ha) hlead
  | call ha hi hgroup => exact .call (hdeclared ha) (hdrawn hi) hgroup

namespace Step

/-- The group that is opened has not been drawn. -/
theorem fresh (h : Step g drawn block opened inside wrap) :
    ∀ i ∈ opened, i ∉ drawn ∧ i < g.groups.size := by
  cases h with
  | plain => simp
  | again => simp
  | empty _ hgroup hnew _ => simpa using ⟨hnew, (Array.getElem?_eq_some_iff.1 hgroup).1⟩
  | fill _ hgroup hnew _ _ _ => simpa using ⟨hnew, (Array.getElem?_eq_some_iff.1 hgroup).1⟩

/-- The members drawn inside are those that the cluster of the opened group shows. -/
theorem inside_exact (h : Step g drawn block opened inside wrap) (hg : g.Checked) :
    (inside.map Block.id).Nodup ∧
      ∀ b, b ∈ inside.map Block.id ↔ ∃ i ∈ opened, Shows g i b := by
  cases h with
  | plain => simp
  | again => simp
  | empty _ hgroup _ hfirst => simp [Shows, hgroup, hfirst]
  | fill _ hgroup _ hfirst hmembers _ =>
    have hmem := List.mem_of_head? hfirst
    obtain ⟨_, hmembers', hnodup, hiff⟩ :=
      exists_connectedMembers hg (hg.member_lt hgroup _ hmem) hmem
    obtain rfl := Except.ok.inj (hmembers.symm.trans hmembers')
    exact ⟨hnodup, fun b => by simp [hiff, Shows, hgroup, hfirst]⟩

/-- A block that opens no group has nothing drawn inside. -/
theorem inside_eq_nil (h : Step g drawn block none inside wrap) : inside = [] := by
  cases h <;> rfl

/-- Nothing is declared but inside. -/
theorem declaredIn_wrap (h : Step g drawn block opened inside wrap) (body : List Statement) :
    declaredIn (wrap body) = declaredIn body := by
  cases h <;> simp [declaredIn, declaredIn_append, Statement.declared]

/-- What is opened begins a cluster. -/
theorem clusters_wrap (h : Step g drawn block opened inside wrap) (body : List Statement) :
    clusters (wrap body) = opened.toList ++ clusters body := by
  cases h <;> simp [clusters, allWithin, allWithin_append, Statement.within, Statement.cluster?]

/-- A dashed edge leads from the block into the group that it calls. -/
theorem joins_wrap (h : Step g drawn block opened inside wrap) {declared : List BlockId}
    {later : List GroupId} (hblock : block.id ∈ declared) (hlater : opened.toList ++ drawn ⊆ later)
    {body : List Statement} (hbody : ∀ s ∈ allWithin body, Joins g declared later s) :
    ∀ s ∈ allWithin (wrap body), Joins g declared later s := by
  cases h with
  | plain => exact hbody
  | again _ hgroup hdrawn =>
    simp only [allWithin_append, List.forall_mem_append]
    have hcall := Joins.call hblock (hlater (by simpa using hdrawn)) hgroup
    exact ⟨hbody, by simpa [allWithin, Statement.within] using hcall⟩
  | @empty i group _ hgroup _ hfirst =>
    have hcall := Joins.call hblock (hlater (by simp)) hgroup
    rw [hfirst] at hcall
    simpa [allWithin, Statement.within, or_imp, forall_and] using
      And.intro (Joins.cluster i _ body) (And.intro hbody hcall)
  | @fill i group _ _ _ hgroup _ hfirst _ _ =>
    have hcall := Joins.call hblock (hlater (by simp)) hgroup
    rw [hfirst] at hcall
    simpa [allWithin, Statement.within, or_imp, forall_and] using
      And.intro (Joins.cluster i _ body) (And.intro hbody hcall)

end Step

/-! ### Courses -/

/-- How some blocks are drawn one after the other when some groups have been drawn, and the part
of the drawing that they come to. -/
inductive Draws (g : Graph) (full : Bool) : List GroupId → List Block → Part → Prop
  | nil (drawn : List GroupId) : Draws g full drawn [] { drawn }
  | cons {drawn : List GroupId} {opened : Option GroupId} {block : Block} {rest inside : List Block}
    {wrap : List Statement → List Statement} {next : List BlockId} {inner part : Part}
    (hnext : g.successors block.id = .ok next) (hstep : Step g drawn block opened inside wrap)
    (hinner : Draws g full (opened.toList ++ drawn) inside inner)
    (hrest : Draws g full inner.drawn rest part) :
    Draws g full drawn (block :: rest)
      { statements := .record block.id (label g full block) ::
          (wrap (inner.statements ++ inner.edges) ++ part.statements)
        edges := next.map (.edge block.id) ++ part.edges
        drawn := part.drawn }

/-- The statements of the drawing of a graph. No bound is given to the nesting of clusters. -/
def Drawing (g : Graph) (full : Bool) (statements : List Statement) : Prop :=
  ∃ blocks part, Listing.reachedBlocks g = .ok blocks ∧
    Draws g full [] (blocks.filter (!(g.groups.toList.flatMap (·.members)).contains ·.id)) part ∧
    statements = part.statements ++ part.edges

namespace Draws

/-- The edges of a part are those of its blocks. -/
theorem mem_edges (h : Draws g full drawn blocks part) (hg : g.Checked) {s : Statement}
    (hs : s ∈ part.edges) : ∃ a b, s = .edge a b ∧ a ∈ blocks.map Block.id ∧ g.Leads a b := by
  induction h with
  | nil => simp at hs
  | cons hnext _ _ _ _ ih =>
    obtain hs | hs := List.mem_append.1 hs
    · obtain ⟨b, hb, rfl⟩ := List.mem_map.1 hs
      exact ⟨_, b, rfl, by simp, (hg.mem_successors_iff hnext b).1 hb⟩
    · obtain ⟨a, b, rfl, ha, hlead⟩ := ih hs
      exact ⟨a, b, rfl, by simp [ha], hlead⟩

theorem within_edges (h : Draws g full drawn blocks part) (hg : g.Checked) :
    allWithin part.edges = part.edges := by
  refine allWithin_eq_self fun s hs => ?_
  obtain ⟨a, b, rfl, -⟩ := h.mem_edges hg hs
  rfl

theorem clusters_edges (h : Draws g full drawn blocks part) (hg : g.Checked) :
    clusters part.edges = [] := by
  rw [clusters, h.within_edges hg, List.filterMap_eq_nil_iff]
  intro s hs
  obtain ⟨a, b, rfl, -⟩ := h.mem_edges hg hs
  rfl

theorem declaredIn_edges (h : Draws g full drawn blocks part) (hg : g.Checked) :
    declaredIn part.edges = [] := by
  rw [declaredIn_eq, h.within_edges hg, List.filterMap_eq_nil_iff]
  intro s hs
  obtain ⟨a, b, rfl, -⟩ := h.mem_edges hg hs
  rfl

/-- What is drawn afterwards are the groups whose clusters the part contains, and those drawn
before. -/
theorem drawn_eq (h : Draws g full drawn blocks part) (hg : g.Checked) :
    part.drawn = (clusters part.statements).reverse ++ drawn := by
  induction h with
  | nil => rfl
  | @cons drawn opened block rest inside wrap next inner part _ hstep hinner _ ihInner ih =>
    have hopened : opened.toList.reverse = opened.toList := by cases opened <;> rfl
    rw [ih, ihInner, clusters_cons_record, clusters_append, hstep.clusters_wrap, clusters_append,
      hinner.clusters_edges hg]
    simp [hopened]

theorem subset_drawn (h : Draws g full drawn blocks part) (hg : g.Checked) : drawn ⊆ part.drawn :=
  h.drawn_eq hg ▸ List.subset_append_right _ _

/-- What is declared are the blocks themselves, and what the clusters show. -/
theorem mem_declared_iff (h : Draws g full drawn blocks part) (hg : g.Checked) (b : BlockId) :
    b ∈ declaredIn part.statements ↔
      b ∈ blocks.map Block.id ∨ ∃ i ∈ clusters part.statements, Shows g i b := by
  induction h with
  | nil => simp [declaredIn, clusters, allWithin]
  | cons _ hstep hinner _ ihInner ih =>
    rw [declaredIn_cons_record, declaredIn_append, hstep.declaredIn_wrap, declaredIn_append,
      hinner.declaredIn_edges hg, clusters_cons_record, clusters_append, hstep.clusters_wrap,
      clusters_append, hinner.clusters_edges hg]
    simp only [List.append_nil, List.mem_cons, List.mem_append, List.map_cons, ihInner, ih,
      (hstep.inside_exact hg).2, Option.mem_toList, Option.mem_def, or_and_right, exists_or,
      or_assoc, or_left_comm]

/-- All that is drawn joins what is declared to what is drawn. -/
theorem joins (h : Draws g full drawn blocks part) (hg : g.Checked) :
    ∀ s ∈ allWithin (part.statements ++ part.edges),
      Joins g (declaredIn part.statements) part.drawn s := by
  induction h with
  | nil => simp [allWithin]
  | @cons drawn opened block rest inside wrap next inner part hnext hstep hinner hrest ihInner ih =>
    rw [declaredIn_cons_record, declaredIn_append, hstep.declaredIn_wrap, declaredIn_append,
      hinner.declaredIn_edges hg, List.append_nil]
    set declared := block.id :: (declaredIn inner.statements ++ declaredIn part.statements)
    have hinside : ∀ s ∈ allWithin (wrap (inner.statements ++ inner.edges)),
        Joins g declared part.drawn s :=
      hstep.joins_wrap (by simp [declared])
        (List.Subset.trans (hinner.subset_drawn hg) (hrest.subset_drawn hg))
        fun s hs => (ihInner s hs).mono (by simp [declared]) (hrest.subset_drawn hg)
    have hafter : ∀ s ∈ allWithin (part.statements ++ part.edges), Joins g declared part.drawn s :=
      fun s hs => (ih s hs).mono (by simp [declared]) (List.Subset.refl _)
    have hedges : ∀ s ∈ next.map (.edge block.id), Joins g declared part.drawn s :=
      List.forall_mem_map.2 fun b hb =>
        .edge (by simp [declared]) ((hg.mem_successors_iff hnext b).1 hb)
    simp only [allWithin_append, List.forall_mem_append] at hinside hafter
    simp only [allWithin_append, List.forall_mem_append, List.cons_append, allWithin,
      Statement.within, List.nil_append, List.forall_mem_cons,
      allWithin_eq_self (l := next.map (.edge block.id)) (by simp [Statement.within])]
    exact ⟨.record _ _, ⟨hinside, hafter.1⟩, hedges, hafter.2⟩

end Draws

/-! ### What is drawn takes a course -/

theorem foldlM_append (f : List GroupId → Block → Except Fault Part) (blocks : List Block)
    (before : Part) :
    blocks.foldlM (fun part block => return part.append (← f part.drawn block)) before =
      (do return before.append (← drawBlocks f before.drawn blocks)) := by
  induction blocks generalizing before with
  | nil => simp [drawBlocks, Part.append]
  | cons block rest ih =>
    rw [drawBlocks, List.foldlM_cons, List.foldlM_cons]
    simp only [bind_assoc, pure_bind, ih]
    simp only [Part.append, List.nil_append, List.append_assoc]

/-- Blocks are drawn one after the other. -/
theorem drawBlocks_cons (f : List GroupId → Block → Except Fault Part) (drawn : List GroupId)
    (block : Block) (rest : List Block) : drawBlocks f drawn (block :: rest) = (do
      let part ← f drawn block
      return part.append (← drawBlocks f part.drawn rest)) := by
  rw [drawBlocks, List.foldlM_cons]
  simp only [bind_assoc, pure_bind, foldlM_append]
  simp only [Part.append, List.nil_append]

/-- A block is drawn in a step. -/
theorem exists_step {depth : ℕ} (h : drawBlock g full (depth + 1) drawn block = .ok part) :
    ∃ next opened inside wrap inner, g.successors block.id = .ok next ∧
      Step g drawn block opened inside wrap ∧
      drawBlocks (drawBlock g full depth) (opened.toList ++ drawn) inside = .ok inner ∧
      part =
        { statements := .record block.id (label g full block) ::
            wrap (inner.statements ++ inner.edges)
          edges := next.map (.edge block.id)
          drawn := inner.drawn } := by
  rw [drawBlock] at h
  obtain ⟨next, hnext, h⟩ := exists_of_bind_eq_ok h
  cases hcall : block.group with
  | none =>
    rw [hcall] at h
    obtain rfl := Except.ok.inj h
    exact ⟨next, none, [], id, { drawn }, hnext, .plain hcall, rfl, rfl⟩
  | some i =>
    simp only [hcall] at h
    obtain ⟨group, hgroup, h⟩ := exists_of_bind_eq_ok h
    rw [group_eq_ok_iff] at hgroup
    split at h
    next hdrawn =>
      obtain rfl := Except.ok.inj h
      exact ⟨next, none, [], _, { drawn }, hnext, .again hcall hgroup (by simpa using hdrawn), rfl,
        rfl⟩
    next hnew =>
      have hnew : i ∉ drawn := by simpa using hnew
      split at h
      next hfirst =>
        obtain rfl := Except.ok.inj h
        exact ⟨next, some i, [], _, { drawn := i :: drawn }, hnext,
          .empty hcall hgroup hnew hfirst, rfl, by rw [hfirst]; rfl⟩
      next first hfirst =>
        obtain ⟨firstBlock, -, h⟩ := exists_of_bind_eq_ok h
        obtain ⟨members, hmembers, h⟩ := exists_of_bind_eq_ok h
        obtain ⟨inner, hinner, h⟩ := exists_of_bind_eq_ok h
        obtain rfl := Except.ok.inj h
        exact ⟨next, some i, members, _, inner, hnext,
          .fill hcall hgroup hnew hfirst hmembers _, hinner, by rw [hfirst]⟩

/-- What is drawn under a bound that leaves room takes a course. -/
theorem draws_of_drawBlocks_eq_ok (hg : g.Checked) {depth : ℕ} (hdepth : undrawn g drawn < depth)
    (h : drawBlocks (drawBlock g full depth) drawn blocks = .ok part) :
    Draws g full drawn blocks part := by
  induction depth generalizing drawn blocks part with
  | zero => exact absurd hdepth (Nat.not_lt_zero _)
  | succ depth ihDepth =>
    induction blocks generalizing drawn part with
    | nil =>
      obtain rfl := Except.ok.inj h
      exact .nil drawn
    | cons block rest ih =>
      rw [drawBlocks_cons] at h
      obtain ⟨here, hhere, h⟩ := exists_of_bind_eq_ok h
      obtain ⟨after, hafter, h⟩ := exists_of_bind_eq_ok h
      obtain rfl := Except.ok.inj h
      obtain ⟨next, opened, inside, wrap, inner, hnext, hstep, hinner, rfl⟩ := exists_step hhere
      have hcourse : Draws g full (opened.toList ++ drawn) inside inner := by
        cases opened with
        | none =>
          obtain rfl := hstep.inside_eq_nil
          obtain rfl := Except.ok.inj hinner
          exact .nil drawn
        | some i =>
          obtain ⟨hnew, hi⟩ := hstep.fresh i rfl
          exact ihDepth ((undrawn_cons_lt hi hnew).trans_le (Nat.le_of_lt_succ hdepth)) hinner
      have hdrawn : drawn ⊆ inner.drawn :=
        List.Subset.trans (List.subset_append_right _ _) (hcourse.subset_drawn hg)
      exact .cons hnext hstep hcourse (ih ((undrawn_mono hdrawn).trans_lt hdepth) hafter)

/-- **Every graph without defects has a drawing**, which is what is drawn, under any bound that
leaves room for each group. -/
theorem exists_drawing (hg : g.Checked) (full : Bool) : ∃ statements, Drawing g full statements ∧
    draw g full = .ok statements ∧
    ∀ depth, g.groups.size < depth → drawWithin g full depth = .ok statements := by
  obtain ⟨statements, hwithin⟩ := exists_drawWithin_eq_ok hg full
  have hdraw := hwithin (g.groups.size + 1) (Nat.lt_succ_self _)
  rw [← draw_eq_drawWithin] at hdraw
  refine ⟨statements, ?_, hdraw, hwithin⟩
  rw [draw] at hdraw
  obtain ⟨blocks, hreached, hdraw⟩ := exists_of_bind_eq_ok hdraw
  obtain ⟨part, hpart, hdraw⟩ := exists_of_bind_eq_ok hdraw
  exact ⟨blocks, part, hreached,
    draws_of_drawBlocks_eq_ok hg (Nat.lt_succ_of_le (undrawn_le_size g [])) hpart,
    (Except.ok.inj hdraw).symm⟩

/-! ### What a whole drawing contains -/

namespace Drawing

variable {statements : List Statement} {a b : BlockId} {i : GroupId}

/-- A whole drawing begins with the blocks that can be reached and are no members. -/
theorem exists_draws (h : Drawing g full statements) (hg : g.Checked) : ∃ blocks part,
    Draws g full [] blocks part ∧ (blocks.map Block.id).Nodup ∧
      (∀ b, b ∈ blocks.map Block.id ↔ g.Reached b ∧ ¬ g.IsMember b) ∧
      statements = part.statements ++ part.edges ∧
      declaredIn statements = declaredIn part.statements ∧
      clusters statements = clusters part.statements := by
  obtain ⟨order, part, hreached, hdraws, rfl⟩ := h
  obtain ⟨order', hreached', hcovers, -⟩ := hg.exists_reachedBlocks
  obtain rfl := Except.ok.inj (hreached.symm.trans hreached')
  refine ⟨_, part, hdraws, hcovers.nodup.sublist (List.filter_sublist.map _), fun b => ?_, rfl, ?_,
    ?_⟩
  · rw [Graph.Reached, ← hcovers.mem_iff, ← mem_flatMap_members_iff]
    simp only [List.mem_map, List.mem_filter, Bool.not_eq_true', List.contains_eq_mem,
      decide_eq_false_iff_not]
    constructor
    · rintro ⟨block, ⟨hmem, hnot⟩, rfl⟩
      exact ⟨⟨block, hmem, rfl⟩, hnot⟩
    · rintro ⟨⟨block, hmem, rfl⟩, hnot⟩
      exact ⟨block, ⟨hmem, hnot⟩, rfl⟩
  · rw [declaredIn_append, hdraws.declaredIn_edges hg, List.append_nil]
  · rw [clusters_append, hdraws.clusters_edges hg, List.append_nil]

/-- What is declared are the blocks that can be reached and are no members, and the members that
the clusters show. -/
theorem mem_declared_iff (h : Drawing g full statements) (hg : g.Checked) :
    b ∈ declaredIn statements ↔
      g.Reached b ∧ ¬ g.IsMember b ∨ ∃ i ∈ clusters statements, Shows g i b := by
  obtain ⟨blocks, part, hdraws, -, hmem, -, hdeclared, hclusters⟩ := h.exists_draws hg
  rw [hdeclared, hclusters, hdraws.mem_declared_iff hg, hmem]

/-- All statements join what is declared to groups that have a cluster. -/
theorem joins (h : Drawing g full statements) (hg : g.Checked) :
    ∀ s ∈ allWithin statements, Joins g (declaredIn statements) (clusters statements) s := by
  obtain ⟨blocks, part, hdraws, -, -, hstatements, hdeclared, hclusters⟩ := h.exists_draws hg
  rw [hdeclared, hclusters, hstatements]
  refine fun s hs => (hdraws.joins hg s hs).mono (List.Subset.refl _) fun i hi => ?_
  rw [hdraws.drawn_eq hg] at hi
  simpa using hi

/-- A dashed edge ends at a member that is declared, if it does not end nowhere. -/
theorem declared_of_call (h : Drawing g full statements) (hg : g.Checked)
    (hcall : .call a (some b) ∈ allWithin statements) :
    a ∈ declaredIn statements ∧ b ∈ declaredIn statements := by
  generalize hs : Statement.call a (some b) = s at hcall
  cases h.joins hg s hcall with
  | @call a i group ha hi hgroup =>
    obtain ⟨rfl, hfirst⟩ := Statement.call.inj hs
    exact ⟨ha, (h.mem_declared_iff hg).2 <| .inr ⟨i, hi, group, b, hgroup, hfirst.symm,
      .refl (List.mem_of_head? hfirst.symm)⟩⟩
  | _ => cases hs

theorem leads_of_edge (h : Drawing g full statements) (hg : g.Checked)
    (hedge : .edge a b ∈ allWithin statements) : a ∈ declaredIn statements ∧ g.Leads a b := by
  generalize hs : Statement.edge a b = s at hedge
  cases h.joins hg s hedge with
  | edge ha hlead =>
    obtain ⟨rfl, rfl⟩ := Statement.edge.inj hs
    exact ⟨ha, hlead⟩
  | _ => cases hs

/-- A member that a shown one leads to is shown as well. -/
theorem declared_of_shows (h : Drawing g full statements) (hg : g.Checked)
    (hi : i ∈ clusters statements) (ha : Shows g i a) (hlead : g.Leads a b)
    (hb : b ∈ g.membersOf i) : b ∈ declaredIn statements := by
  obtain ⟨group, first, hgroup, hfirst, htrail⟩ := ha
  rw [membersOf_of_getElem? hgroup] at hb
  exact (h.mem_declared_iff hg).2 <| .inr ⟨i, hi, group, first, hgroup, hfirst,
    htrail.snoc hlead hb⟩

end Drawing

end CobolFlow.Dot
