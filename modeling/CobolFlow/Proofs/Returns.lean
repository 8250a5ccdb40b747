import CobolFlow.Proofs.Calls.Inlining
import CobolFlow.Proofs.Groups
import CobolFlow.Proofs.Modes

/-!
# Where control returns to

In extended mode a range is spliced in wherever it is performed, and control returns from each copy
to the place that it was spliced in at: the copies of a block lead where the block does, and those
at the end of the range to what follows the PERFORM. If the PERFORM itself stands in a copy of
another range, that is the copy of what follows it there.

This is so of all groups if every PERFORM stands before those that its range performs. If one stands
behind, its range is copied when what it performs has already been spliced in and returns to another
place, and the copies return there as well.

## Main definitions

* `ProgramFlow.Returns` — where the copies of ranges lead

## Main results

* `StatementTree.build_returns` — it holds if every PERFORM stands before those that its range
  performs
* `ProgramFlow.Returns.exists_next_iff`, `ProgramFlow.Returns.exists_continuation` — where the
  copies lead, and what follows a PERFORM among them
-/

namespace CobolFlow

/-- What control does in the copies of ranges: `led` is where a block leads, or would lead if
nothing had been spliced in there, and from a copy it goes on as from its original or returns to
where its own call site would lead. -/
structure ProgramFlow.Returns (flow flow' : ProgramFlow) (led : BlockId → List BlockId) : Prop where
  text : ∀ b < flow.graph.size, led b = (flow.graph.chart b).next
  leads : ∀ b < flow'.graph.size, (∀ (i : GroupId) group, flow'.graph.groups[i]? = some group →
    group.Filled → group.callSite ≠ b) → led b = (flow'.graph.chart b).next
  group : ∀ {i : GroupId} {group : Group}, flow'.graph.groups[i]? = some group → group.Filled →
    (∀ m ∈ group.members, m < flow'.graph.size) ∧ ∃ (k : GroupId) (source : Group),
      flow.graph.groups[k]? = some source ∧ source.members.Nodup ∧
        flow.graph.Restores led source group

/-- **Where the members of a group lead.** They are copies of what has been captured for the same
PERFORM. One that is no call site leads to the copies of what its original leads to, to what that
leads to out of the range, and if its original ends the range to where the call site would lead,
and nowhere else. -/
theorem ProgramFlow.Returns.exists_next_iff {flow flow' : ProgramFlow}
    {led : BlockId → List BlockId} (h : flow.Returns flow' led) {i : GroupId} {group : Group}
    (hi : flow'.graph.groups[i]? = some group) (hfilled : group.Filled) :
    ∃ (k : GroupId) (source : Group), flow.graph.groups[k]? = some source ∧
      group.node = source.node ∧ group.range = source.range ∧
      group.members.length = source.members.length ∧
      ∀ p ∈ source.members.zip group.members, (∀ (j : GroupId) other,
          flow'.graph.groups[j]? = some other → other.Filled → other.callSite ≠ p.2) →
        ∀ y, y ∈ (flow'.graph.chart p.2).next ↔
          (∃ x ∈ (flow.graph.chart p.1).next, (x, y) ∈ source.members.zip group.members) ∨
          (y ∈ (flow.graph.chart p.1).next ∧ y ∉ source.members) ∨
          (y ∈ (led group.callSite).head? ∧ (flow.graph.chart p.1).flags.ending = false ∧
            ∀ x ∈ (flow.graph.chart p.1).next, x ∉ source.members) := by
  obtain ⟨hlt, k, source, hk, hnodup, hrestores⟩ := h.group hi hfilled
  refine ⟨k, source, hk, hrestores.node, hrestores.range, hrestores.length, fun p hp hcall y => ?_⟩
  rw [← h.leads p.2 (hlt _ (List.of_mem_zip hp).2) hcall]
  exact (hrestores.next p hp).mem_iff hnodup hrestores.length

/-- **What follows a PERFORM in a copy.** Where a call site stands in a copy of a range it would
lead to the copy of what follows the PERFORM in the range. If it stands at the end of the range, it
would lead to where the copy returns. -/
theorem ProgramFlow.Returns.exists_continuation {flow flow' : ProgramFlow}
    {led : BlockId → List BlockId} (h : flow.Returns flow' led) {i : GroupId} {outer : Group}
    (hi : flow'.graph.groups[i]? = some outer) (hfilled : outer.Filled) {b : BlockId}
    (hb : b ∈ outer.members) : ∃ (k : GroupId) (source : Group) (c : BlockId),
      flow.graph.groups[k]? = some source ∧ (c, b) ∈ source.members.zip outer.members ∧
      (∀ x ∈ (flow.graph.chart c).next.head?, ∃ y ∈ (led b).head?,
        Build.Copies.Goes (source.members.zip outer.members) x y) ∧
      ((flow.graph.chart c).next = [] → (flow.graph.chart c).flags.ending = false →
        (led b).head? = (led outer.callSite).head?) := by
  obtain ⟨-, k, source, hk, -, hrestores⟩ := h.group hi hfilled
  obtain ⟨c, hp⟩ := Build.exists_original hrestores.length hb
  exact ⟨k, source, c, hk, hp, fun x => (hrestores.next _ hp).exists_head?,
    (hrestores.next _ hp).head?_eq⟩

namespace ProgramUnit

variable {o o' : Options} {u : ProgramUnit} {d : DivisionText} {flow flow' : ProgramFlow}
  {s s₁ s₂ : Scope} {chs : List Chapter}

/-- What has been captured is called from the text. -/
theorem Arises.outward (h : u.Arises o d flow s chs s₁ s₂) : s₂.graph.Outward := by
  rintro i m hm ⟨j, other, hj, rfl⟩
  obtain ⟨-, -, -, hsite, -⟩ := h.exists_call hj
  cases hi : s₂.graph.groups[i]? with
  | none => simp [Graph.membersOf, hi] at hm
  | some group =>
    obtain ⟨-, -, -, -, -, hmembers, -⟩ := h.exists_call hi
    exact (hmembers _ (Graph.membersOf_of_getElem? hi ▸ hm)).not_gt hsite

/-- What has been captured belongs to one group and is listed there once. -/
theorem Arises.apart (h : u.Arises o d flow s chs s₁ s₂) : s₂.graph.Apart :=
  Build.captures_apart.resolvePerforms h.awaits.apart s.pending.performs _ _ h.captured

theorem Yields.returns (h : u.Yields o flow) (h' : u.Yields o' flow') (ho : o.isExtended = false)
    (ho' : o'.isExtended = true) (hevaluate : o.evaluate = o'.evaluate)
    (hsearch : o.search = o'.search) (hdepth : o'.maxGraftDepth ≠ 0)
    (honward : flow.graph.CallsOnward) : ∃ led, flow.Returns flow' led := by
  obtain ⟨-, -, hsound, hgraft⟩ := h.graftGroups_eq_ok h' ho ho' hevaluate hsearch
  obtain ⟨houtward, hapart⟩ : flow.graph.Outward ∧ flow.graph.Apart := by
    cases hd : u.division with
    | none =>
      rw [(h.of_none hd).1]
      have hnone : ∀ i, ({} : Graph).membersOf i = [] := fun i => by simp [Graph.membersOf]
      exact ⟨fun i m hm => absurd (hnone i ▸ hm) List.not_mem_nil,
        ⟨by simp [hnone], by simp [hnone], by simp [hnone]⟩⟩
    | some d =>
      obtain ⟨s, chs, s₁, s₂, harises⟩ := h.exists_arises hd
      rw [harises.unspliced ho]
      exact ⟨harises.outward, harises.apart⟩
  obtain ⟨led, hled⟩ :=
    Build.graftGroups_inlines o' hdepth hsound honward houtward _ _ hgraft
  refine ⟨led, hled.old, fun b hb hsite => hled.leads b hb fun i group _ => hsite i group,
    fun {i group} hi hfilled => ?_⟩
  have hchild := hled.group i group (.inl trivial) hi hfilled
  obtain ⟨k, source, hk, -, hrestores⟩ := hchild.restores
  exact ⟨fun m hm => (hchild.member m hm).2, k, source, hk,
    Graph.membersOf_of_getElem? hk ▸ hapart.nodup k, hrestores⟩

end ProgramUnit

/-- **Control returns to where it came from**, in every program of every tree whose PERFORMs stand
before those that their ranges perform. -/
theorem StatementTree.build_returns (t : StatementTree) (evaluate search : Lowering)
    (depth depth' : ℕ) (hdepth : depth' ≠ 0) : ∃ flows flows',
      t.build { mode := .normal, evaluate, search, maxGraftDepth := depth } = .ok flows ∧
      t.build { mode := .extended, evaluate, search, maxGraftDepth := depth' } = .ok flows' ∧
      List.Forall₂ (fun flow flow' => flow.graph.CallsOnward → ∃ led, flow.Returns flow' led)
        flows flows' := by
  obtain ⟨flows, hbuild, hflows⟩ := t.exists_build
    { mode := .normal, evaluate, search, maxGraftDepth := depth }
  obtain ⟨flows', hbuild', hflows'⟩ := t.exists_build
    { mode := .extended, evaluate, search, maxGraftDepth := depth' }
  exact ⟨flows, flows', hbuild, hbuild', forall₂_of_forall₂ hflows hflows'
    fun _ _ _ h h' => h.returns h' rfl rfl rfl rfl hdepth⟩

/-- The PERFORMs of `nestedPerforms` stand before those that their ranges perform. -/
example : (nestedPerforms.build {}).toOption.map (·.map fun flow => decide flow.graph.CallsOnward) =
    some [true] := by
  decide +kernel

/-- A paragraph MAIN performs P, and P performs Q. P and Q stand before MAIN, which is jumped to. -/
def performedBackwards : StatementTree where
  programs := [.mk "A" .program (some {
    sentences := [[.mk (.goTo [{ name := "MAIN" }] false) none .unknown]]
    paragraphs := [
      { name := "P", sentences := [[.mk (.perform { first := { name := "Q" } }) none .unknown]] },
      { name := "Q", sentences := [[.mk (.ordinary .display []) none .unknown]] },
      { name := "MAIN", sentences := [[.mk (.perform { first := { name := "P" } }) none .unknown],
        [.mk (.terminate .stopRun) none .unknown]] }] }) []]

/-- The PERFORM of Q in `performedBackwards` is followed by block 4 where it stands, and by block 19
where P is spliced in. The copy of Q that is spliced in there goes on to both. -/
example : (performedBackwards.build { mode := .extended }).toOption.map (·.map fun flow =>
    (flow.graph.chart 20).next) = some [[4, 19]] := by
  decide +kernel

end CobolFlow
