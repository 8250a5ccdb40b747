import CobolFlow.Proofs.Joins
import CobolFlow.Proofs.Walk.Answers

/-!
# Where a join leads

A join is made at whatever graph is there: the alternatives may share blocks, lead back to the
origin or to each other, and run into blocks that belong to other constructs. What it does can all
the same be said block by block. A block that is open gets one edge and has no other; the origin
gets one more if it is asked to go on; every other block is as it was.

That no open end is left follows because a join makes no new way but into the block where the
alternatives meet, and that one leads nowhere yet. So what an alternative leads to after the join it
led to before, or is the meeting point.

## Main definitions

* `Fork.Unjoined` — the blocks that a join continues
* `Fork.Closes` — what a join makes of a graph

## Main results

* `Graph.Checked.successors_joined` — where each block leads after a join
* `Fork.join_closes` — both kinds of join
-/

namespace CobolFlow

namespace Graph

variable {g : Graph} {b c next : BlockId} {sources : List BlockId}

/-! ### Blocks and edges after a join -/

/-- In a checked graph the next new slot is an edge of no block yet. -/
theorem Checked.size_notMem_successors (hg : g.Checked) {block : Block}
    (hb : g.blocks[b]? = some block) : g.slots.size ∉ block.successors := by
  intro hmem
  obtain ⟨c, hc, -⟩ := hg.target hb _ hmem
  simp at hc

theorem getElem?_joined (hg : g.Checked) (next : BlockId) (sources : List BlockId) (b : BlockId) :
    (g.joined next sources).blocks[b]? =
      if b ∈ sources then g.blocks[b]?.map (·.addSuccessor g.slots.size) else g.blocks[b]? := by
  have hattach : g.blocks[b]?.map (·.attach g.slots.size) =
      g.blocks[b]?.map (·.addSuccessor g.slots.size) := by
    cases hb : g.blocks[b]? with
    | none => rfl
    | some block => simp [Block.attach, hg.size_notMem_successors hb]
  rw [joined]
  split
  · next hnil => simp [List.isEmpty_iff.1 hnil]
  · rw [getElem?_attachAll]
    simp only [hattach]

theorem slots_joined (g : Graph) (next : BlockId) (sources : List BlockId) :
    (g.joined next sources).slots = if sources.isEmpty then g.slots else g.slots.push next := by
  rw [joined]
  split
  · rfl
  · rw [attachAll_eq]

/-- A join changes nothing but blocks and slots. -/
theorem joined_eq (g : Graph) (next : BlockId) (sources : List BlockId) :
    g.joined next sources = { g with
      blocks := (g.joined next sources).blocks
      slots := (g.joined next sources).slots } := by
  rw [joined]
  split
  · rfl
  · rw [attachAll_eq]

@[simp] theorem size_joined (g : Graph) (next : BlockId) (sources : List BlockId) :
    (g.joined next sources).size = g.size := by
  rw [joined]
  split
  · rfl
  · rw [size_attachAll]
    rfl

theorem ending_joined (hg : g.Checked) (next : BlockId) (sources : List BlockId) (b : BlockId) :
    (g.joined next sources).ending b = g.ending b := by
  rw [ending, getElem?_joined hg, ending]
  split
  · cases g.blocks[b]? <;> rfl
  · rfl

/-- The slots that are edges already lead where they led. -/
theorem Checked.getElem?_slots_joined (hg : g.Checked) {block : Block}
    (hb : g.blocks[b]? = some block) {s : SlotId} (hs : s ∈ block.successors) :
    (g.joined next sources).slots[s]? = g.slots[s]? := by
  obtain ⟨c, hc, -⟩ := hg.target hb s hs
  have hne : s ≠ g.slots.size := (Array.getElem?_eq_some_iff.1 hc).1.ne
  rw [slots_joined]
  split
  · rfl
  · rw [Array.getElem?_push, if_neg hne]

theorem getElem?_slots_joined_size (h : b ∈ sources) :
    (g.joined next sources).slots[g.slots.size]? = some next := by
  rw [slots_joined, if_neg (by simpa using List.ne_nil_of_mem h)]
  simp

theorem Checked.joined (hg : g.Checked) (hnext : next < g.size) :
    (g.joined next sources).Checked where
  placed {b block} hb := by
    rw [getElem?_joined hg] at hb
    split at hb
    · obtain ⟨old, hold, rfl⟩ := Option.map_eq_some_iff.1 hb
      exact (hg.placed hold :)
    · exact hg.placed hb
  target {b block} hb s hs := by
    have hkept {old : Block} (hold : g.blocks[b]? = some old) (hs : s ∈ old.successors) :
        ∃ c, (g.joined next sources).slots[s]? = some c ∧ c < (g.joined next sources).size := by
      rw [hg.getElem?_slots_joined hold hs, size_joined]
      exact hg.target hold s hs
    rw [getElem?_joined hg] at hb
    split at hb
    · next hmem =>
      obtain ⟨old, hold, rfl⟩ := Option.map_eq_some_iff.1 hb
      obtain hs | hs := List.mem_append.1 hs
      · exact hkept hold hs
      · rw [List.mem_singleton.1 hs]
        exact ⟨next, getElem?_slots_joined_size hmem, by rwa [size_joined]⟩
    · exact hkept hb hs
  group_lt {b i block} hb hi := by
    rw [joined_eq]
    rw [getElem?_joined hg] at hb
    split at hb
    · obtain ⟨old, hold, rfl⟩ := Option.map_eq_some_iff.1 hb
      exact (hg.group_lt hold hi :)
    · exact hg.group_lt hb hi
  root_lt b hb := by
    rw [joined_eq] at hb
    simpa using hg.root_lt b hb
  member_lt {i group} hi b hb := by
    rw [joined_eq] at hi
    simpa using hg.member_lt hi b hb

/-- After a join the sources have one more successor, and the other blocks have those they had. -/
theorem Checked.successors_joined (hg : g.Checked) {before : List BlockId}
    (h : g.successors b = .ok before) : (g.joined next sources).successors b =
      .ok (before ++ if b ∈ sources then [next] else []) := by
  obtain ⟨block, hb, htargets⟩ := exists_of_bind_eq_ok h
  rw [block_eq_ok_iff] at hb
  have hold : block.successors.mapM (g.joined next sources).target = .ok before := by
    rw [← htargets]
    have hsame : ∀ s ∈ block.successors, (g.joined next sources).slots[s]? = g.slots[s]? :=
      fun s hs => hg.getElem?_slots_joined hb hs
    generalize block.successors = slots at hsame
    induction slots with
    | nil => rfl
    | cons s slots ih =>
      rw [List.mapM_cons, List.mapM_cons, ih fun t ht => hsame t (by simp [ht]), Graph.target,
        Graph.target, hsame s (by simp)]
  by_cases hmem : b ∈ sources
  · have hnew : (g.joined next sources).block b = .ok (block.addSuccessor g.slots.size) := by
      rw [block_eq_ok_iff, getElem?_joined hg, if_pos hmem, hb, Option.map_some]
    rw [successors, hnew, ok_bind, Block.addSuccessor, List.mapM_append, hold, ok_bind,
      List.mapM_cons, (target_eq_ok_iff ..).2 (getElem?_slots_joined_size hmem), if_pos hmem]
    rfl
  · have hnew : (g.joined next sources).block b = .ok block := by
      rw [block_eq_ok_iff, getElem?_joined hg, if_neg hmem, hb]
    rw [successors, hnew, ok_bind, hold, if_neg hmem, List.append_nil]

/-! ### Ways after a join -/

theorem lt_size_of_successors_eq_ok {found : List BlockId} (h : g.successors b = .ok found) :
    b < g.size := by
  obtain ⟨block, hb, -⟩ := exists_of_bind_eq_ok h
  exact lt_size_of_getElem? ((block_eq_ok_iff ..).1 hb)

/-- What can be read as the successors of a block is what it leads to. -/
theorem Checked.mem_successors_iff (hg : g.Checked) {found : List BlockId}
    (h : g.successors b = .ok found) (c : BlockId) : c ∈ found ↔ g.Leads b c := by
  obtain ⟨block, hb, htargets⟩ := exists_of_bind_eq_ok h
  obtain ⟨targets, hok, hmem⟩ := hg.exists_targets ((block_eq_ok_iff ..).1 hb)
  obtain rfl := Except.ok.inj (hok.symm.trans htargets)
  exact hmem c

/-- The blocks without successors are those that lead nowhere. -/
theorem Checked.successors_eq_ok_nil_iff (hg : g.Checked) (hb : b < g.size) :
    g.successors b = .ok [] ↔ ∀ c, ¬ g.Leads b c := by
  obtain ⟨found, hfound, -⟩ := hg.exists_successors_eq_ok hb
  simp only [hfound, Except.ok.injEq, List.eq_nil_iff_forall_not_mem, hg.mem_successors_iff hfound]

/-- Every new way leads into the block where the sources meet. -/
theorem Checked.leads_of_joined (hg : g.Checked) (hnext : next < g.size)
    (h : (g.joined next sources).Leads b c) : g.Leads b c ∨ c = next := by
  have hb : b < g.size := by
    obtain ⟨block, s, hblock, -⟩ := h
    simpa using lt_size_of_getElem? hblock
  obtain ⟨before, hbefore, -⟩ := hg.exists_successors_eq_ok hb
  have hmem := ((hg.joined hnext).mem_successors_iff (hg.successors_joined hbefore) c).2 h
  obtain hc | hc := List.mem_append.1 hmem
  · exact .inl ((hg.mem_successors_iff hbefore c).1 hc)
  · split at hc
    · exact .inr (List.mem_singleton.1 hc)
    · exact absurd hc List.not_mem_nil

/-- A trail that a join makes possible ends where the sources meet, if that block led nowhere. -/
theorem Checked.trail_of_joined (hg : g.Checked) (hnext : next < g.size)
    (hopen : ∀ c, ¬ g.Leads next c) {allowed : BlockId → Prop}
    (h : Trail (g.joined next sources) allowed b c) : Trail g allowed b c ∨ c = next := by
  induction h with
  | refl hb => exact .inl (.refl hb)
  | @step a b c ha hab _ ih =>
    -- a new edge leads to `next`, and a trail of before that starts there ends there
    obtain htrail | rfl := ih
    · obtain hab | rfl := hg.leads_of_joined hnext hab
      · exact .inl (.step ha hab htrail)
      · cases htrail with
        | refl => exact .inr rfl
        | step _ hlead _ => exact absurd hlead (hopen _)
    · exact .inr rfl

end Graph

namespace Fork

open Graph

variable {f : Fork} {g g' : Graph} {originToNext : Bool} {stop : Option BlockId} {next : BlockId}

/-- A block that a join has to continue: an alternative leads to it without entering the block where
to stop, it has no successor, and it neither ends the program nor is the block to continue at. -/
structure Unjoined (f : Fork) (g : Graph) (stop : Option BlockId) (next b : BlockId) : Prop where
  successors : g.successors b = .ok []
  reached : ∃ a ∈ f.branches, Trail g (fun x => some x ≠ stop) a b
  ending : g.ending b = false
  ne : b ≠ next

/-- What a join makes of a graph. -/
structure Closes (f : Fork) (originToNext : Bool) (stop : Option BlockId) (next : BlockId)
    (g g' : Graph) : Prop where
  continued : ∀ b, f.Unjoined g stop next b → g'.successors b = .ok [next]
  origin : originToNext = true → ∀ b ∈ f.origin, ∀ before, g.successors b = .ok before →
    g'.successors b = .ok (before ++ [next])
  /-- The other blocks are as they were. -/
  unchanged : ∀ b, ¬ f.Unjoined g stop next b → ¬ (originToNext = true ∧ b ∈ f.origin) →
    g'.blocks[b]? = g.blocks[b]?
  /-- Of a block that changes, only the edges do. -/
  edges : ∀ (b : BlockId) (block : Block), g.blocks[b]? = some block →
    ∃ successors, g'.blocks[b]? = some { block with successors }
  size : g'.size = g.size
  slots : g'.slots = g.slots ∨ g'.slots = g.slots.push next
  rest : g' = { g with blocks := g'.blocks, slots := g'.slots }
  /-- No open end is left. -/
  closed : ∀ a ∈ f.branches, ∀ b, Trail g' (fun x => some x ≠ stop) a b →
    g'.successors b = .ok [] → g'.ending b = true ∨ b = next
  check : g'.check = .ok ()

theorem closes_joined (hg : g.Checked) (hbranches : ∀ b ∈ f.branches, b < g.size)
    (hnext : g.successors next = .ok []) {sources : List BlockId}
    (hsources : ∀ b, b ∈ sources ↔
      f.Unjoined g stop next b ∨ originToNext = true ∧ b ∈ f.origin) :
    f.Closes originToNext stop next g (g.joined next sources) where
  continued b hb := by
    rw [hg.successors_joined hb.successors, if_pos ((hsources b).2 (.inl hb)), List.nil_append]
  origin horigin b hb before hbefore := by
    rw [hg.successors_joined hbefore, if_pos ((hsources b).2 (.inr ⟨horigin, hb⟩))]
  unchanged b hunjoined horigin := by
    rw [getElem?_joined hg, if_neg fun hb => ((hsources b).1 hb).elim hunjoined horigin]
  edges b block hb := by
    rw [getElem?_joined hg, hb]
    split
    · exact ⟨_, rfl⟩
    · exact ⟨_, rfl⟩
  size := size_joined ..
  slots := by
    rw [slots_joined]
    split
    · exact .inl rfl
    · exact .inr rfl
  rest := joined_eq ..
  closed a ha b htrail hend := by
    have hlt : next < g.size := lt_size_of_successors_eq_ok hnext
    have hopen := (hg.successors_eq_ok_nil_iff hlt).1 hnext
    obtain htrail | rfl := hg.trail_of_joined hlt hopen htrail
    · obtain ⟨before, hbefore, -⟩ :=
        hg.exists_successors_eq_ok (htrail.lt_size hg (hbranches a ha))
      rw [hg.successors_joined hbefore, Except.ok.injEq, List.append_eq_nil_iff] at hend
      obtain ⟨rfl, hnone⟩ := hend
      rw [ending_joined hg]
      by_contra hnot
      rw [not_or, Bool.not_eq_true] at hnot
      have hmem : b ∈ sources := (hsources b).2 (.inl ⟨hbefore, ⟨a, ha, htrail⟩, hnot.1, hnot.2⟩)
      simp [hmem] at hnone
    · exact .inr rfl
  check := check_eq_ok_iff.2 (hg.joined (lt_size_of_successors_eq_ok hnext))

/-- Whatever block the search for open ends stays out of, a join closes what it finds. -/
theorem exists_close_closes (hg : g.Checked) (horigin : ∀ b ∈ f.origin, b < g.size)
    (hbranches : ∀ b ∈ f.branches, b < g.size) (hnext : g.successors next = .ok [])
    (originToNext : Bool) (stop : Option BlockId) :
    ∃ g', f.close originToNext stop next g = .ok ((), g') ∧
      f.Closes originToNext stop next g g' := by
  obtain ⟨ends, hends, hclose⟩ := exists_close_eq_ok hg horigin hbranches originToNext stop next
  obtain ⟨_, hends', hmem⟩ := f.exists_terminals_eq_ok hg hbranches stop
  obtain rfl := Except.ok.inj (hends.symm.trans hends')
  refine ⟨_, hclose, closes_joined hg hbranches hnext fun b => ?_⟩
  rw [List.mem_append, List.mem_filter, hmem, Bool.and_eq_true, bne_iff_ne, Bool.not_eq_true']
  refine or_congr ⟨?_, fun h => ?_⟩ ?_
  · rintro ⟨⟨hdead, a, ha, htrail⟩, hne, hending⟩
    have hb : b < g.size := htrail.lt_size hg (hbranches a ha)
    exact ⟨(hg.successors_eq_ok_nil_iff hb).2 hdead, ⟨a, ha, htrail⟩, hending, hne⟩
  · have hb : b < g.size := lt_size_of_successors_eq_ok h.successors
    exact ⟨⟨(hg.successors_eq_ok_nil_iff hb).1 h.successors, h.reached⟩, h.ne, h.ending⟩
  · cases originToNext <;> simp

/-- **A join leaves no open end.** Wherever the alternatives of a fork lead, each of their open
blocks continues at `next` and nowhere else; the origin goes on there as well if that is asked for;
and nothing else changes. Closed around a block, the fork leaves alone what can only be reached by
entering it. -/
theorem join_closes (hg : g.check = .ok ()) (horigin : ∀ b ∈ f.origin, b < g.size)
    (hbranches : ∀ b ∈ f.branches, b < g.size) (hnext : g.successors next = .ok [])
    (originToNext : Bool) (root : BlockId) :
    (∃ g', f.join originToNext next g = .ok ((), g') ∧ f.Closes originToNext none next g g') ∧
      ∃ g', f.joinAround originToNext root next g = .ok ((), g') ∧
        f.Closes originToNext (some root) next g g' := by
  have hchecked := check_eq_ok_iff.1 hg
  exact ⟨exists_close_closes hchecked horigin hbranches hnext originToNext none,
    exists_close_closes hchecked horigin hbranches hnext originToNext (some root)⟩

/-- Two alternatives that share an open block. The second can also go back to the origin or end the
program. -/
def sharedEnd : Graph where
  blocks := #[{ id := 0, successors := [0, 1] }, { id := 1, successors := [2] },
    { id := 2, successors := [2, 3, 4] }, { id := 3 }, { id := 4, flags := { ending := true } },
    { id := 5 }]
  slots := #[1, 2, 3, 0, 4]
  roots := [0]

/-- The shared block continues, and so does the origin; the end of the program does not. -/
theorem join_closes_sharedEnd :
    ∃ g', Fork.join { opener := none, origin := some 0, branches := [1, 2] } true 5 sharedEnd =
        .ok ((), g') ∧
      g'.successors 3 = .ok [5] ∧ g'.successors 0 = .ok [1, 2, 5] ∧
        g'.blocks[4]? = sharedEnd.blocks[4]? := by
  have hnext : sharedEnd.successors 5 = .ok [] := rfl
  obtain ⟨⟨g', hjoin, hcloses⟩, -⟩ :=
    join_closes (f := { opener := none, origin := some 0, branches := [1, 2] }) rfl (by decide)
      (by decide) hnext true 0
  have hleads : sharedEnd.Leads 1 3 := ⟨_, 2, rfl, by decide, rfl⟩
  refine ⟨g', hjoin, hcloses.continued 3 ?_, hcloses.origin rfl 0 rfl _ rfl,
    hcloses.unchanged 4 (fun h => ?_) (by decide)⟩
  · exact ⟨rfl, ⟨1, by decide, .step (by decide) hleads (.refl (by decide))⟩, rfl, by decide⟩
  · exact absurd h.ending (by decide)

end Fork

end CobolFlow
