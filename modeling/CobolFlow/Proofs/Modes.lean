import CobolFlow.Proofs.Calls.Growth
import CobolFlow.Proofs.Division.Ledger
import CobolFlow.Proofs.Steps.Inside

/-!
# What extended mode adds

A build in extended mode does what one in normal mode does, and then splices the captured groups
in. So its result extends the other: the same problems are reported, the same procedures declared
and the same nodes remembered, and the graph has all blocks, slots and groups of the other, in their
places. Of the blocks only the call sites of the groups that are spliced in are changed, in their
edges and in one mark, and of the groups only these, in their members.

## Main definitions

* `ProgramFlow.Extends` — how the two results are related

## Main results

* `StatementTree.build_extends` — they are so related for every tree
-/

namespace CobolFlow

/-- The second result extends the first, in which no group has been spliced in. -/
structure ProgramFlow.Extends (levels : ℕ) (flow flow' : ProgramFlow) : Prop where
  name : flow'.name = flow.name
  kind : flow'.kind = flow.kind
  problems : flow'.problems = flow.problems
  procedures : flow'.procedures = flow.procedures
  roots : flow'.graph.roots = flow.graph.roots
  owners : flow'.graph.owners = flow.graph.owners
  nodes : flow'.graph.nodes = flow.graph.nodes
  division : flow'.graph.division = flow.graph.division
  compound : flow'.graph.compound = flow.graph.compound
  slots : flow.graph.slots.toList <+: flow'.graph.slots.toList
  size_le : flow.graph.size ≤ flow'.graph.size
  /-- A block is kept, unless it is the call site of a group that is spliced in. -/
  block : ∀ b < flow.graph.size, (∀ (i : GroupId) (group : Group),
    flow.graph.groups[i]? = some group → Build.IsGrafted levels group → group.callSite ≠ b) →
      flow'.graph.blocks[b]? = flow.graph.blocks[b]?
  /-- A group is kept, unless it is spliced in. -/
  group : ∀ {i : GroupId} {group : Group}, flow.graph.groups[i]? = some group →
    ¬ Build.IsGrafted levels group → flow'.graph.groups[i]? = some group
  /-- A group that is spliced in has new members, and its call site leads into the first of them
  through a new slot. -/
  grafted : ∀ {i : GroupId} {group : Group}, flow.graph.groups[i]? = some group →
    Build.IsGrafted levels group → ∃ first rest terminals,
      flow'.graph.groups[i]? = some { group with members := first :: rest, terminals } ∧
      ∃ block k, flow.graph.blocks[group.callSite]? = some block ∧ flow.graph.slots.size ≤ k ∧
        flow'.graph.slots[k]? = some first ∧ flow'.graph.blocks[group.callSite]? = some
          { block with successors := [k], flags := block.flags.union { grafted := true } }

namespace Build

/-- Splicing comes last. -/
theorem resolvePending_eq {o : Options} (ho : o.isExtended = false) (o' : Options) :
    resolvePending o' = (do
      resolvePending o
      if o'.isExtended then editGraph (graftGroups o')) := by
  simp only [resolvePending, bind_assoc]
  refine bind_congr fun s => bind_congr fun _ => bind_congr fun _ => bind_congr fun a =>
    bind_congr fun _ => bind_congr fun _ => ?_
  rw [ho, if_neg Bool.false_ne_true]
  exact (pure_bind _ _).symm

end Build

/-- A division is drawn alike in both modes, and in extended mode its groups are spliced in. -/
theorem DivisionText.exists_play_modes (d : DivisionText) {o o' : Options}
    (ho : o.isExtended = false) (ho' : o'.isExtended = true) (hevaluate : o.evaluate = o'.evaluate)
    (hsearch : o.search = o'.search) (program : Option String) (id : NodeId) :
    ∃ (s : Scope) (g : Graph),
      Build.play o ((Script.division d).run id).1 { procedures := { program } } = .ok ((), s) ∧
      Build.play o' ((Script.division d).run id).1 { procedures := { program } } =
        .ok ((), { s with graph := g }) ∧
      Sound s.graph ∧ Build.graftGroups o' s.graph = .ok ((), g) := by
  obtain ⟨s₁, s, chs, s₂, hitems, hfinish, hdraft, hresolve, hplay⟩ :=
    d.exists_play_items o program id
  obtain ⟨t₁, t, chs', t₂, hitems', hfinish', -, hresolve', hplay'⟩ :=
    d.exists_play_items o' program id
  rw [← Build.play_eq_play hevaluate hsearch (d.isWithin_items (id + 1)), hitems] at hitems'
  obtain rfl : s₁ = t₁ := congrArg Prod.snd (Except.ok.inj hitems')
  obtain rfl : s = t := congrArg Prod.snd (Except.ok.inj (hfinish.symm.trans hfinish'))
  obtain ⟨hs₂, -, -⟩ := (Build.resolvePending_faultless o).of_eq_ok hdraft.sound hresolve
  rw [Build.resolvePending_eq ho o', ho', if_pos rfl, run_bind hresolve] at hresolve'
  obtain ⟨g, hg, rfl⟩ := Build.exists_of_editGraph_eq_ok hresolve'
  exact ⟨_, g, hplay, hplay', hs₂.graph, hg⟩

section Yields

variable {o o' : Options} {u : ProgramUnit} {flow flow' : ProgramFlow} (h : u.Yields o flow)
  (h' : u.Yields o' flow') (ho : o.isExtended = false) (ho' : o'.isExtended = true)
  (hevaluate : o.evaluate = o'.evaluate) (hsearch : o.search = o'.search)
include h h' ho ho' hevaluate hsearch

/-- Of the two results of one program, the second is the first with its groups spliced in. -/
theorem ProgramUnit.Yields.graftGroups_eq_ok : flow'.procedures = flow.procedures ∧
    flow'.problems = flow.problems ∧ Sound flow.graph ∧
      Build.graftGroups o' flow.graph = .ok ((), flow'.graph) := by
  obtain ⟨s, hplay, hgraph, hprocedures, hproblems⟩ := h.built
  obtain ⟨s', hplay', hgraph', hprocedures', hproblems'⟩ := h'.built
  -- both are made of the same scope, but for the groups that are spliced in
  obtain ⟨g, rfl, hsound, hg⟩ : ∃ g, s' = { s with graph := g } ∧ Sound s.graph ∧
      Build.graftGroups o' s.graph = .ok ((), g) := by
    cases hd : u.division with
    | none =>
      rw [events, hd] at hplay hplay'
      obtain rfl : _ = s := congrArg Prod.snd (Except.ok.inj hplay)
      obtain rfl : _ = s' := congrArg Prod.snd (Except.ok.inj hplay')
      exact ⟨{}, rfl, (Builder.sound_scope_empty u.program).graph, rfl⟩
    | some d =>
      obtain ⟨t, g, ht, ht', hg⟩ := d.exists_play_modes ho ho' hevaluate hsearch u.program u.id
      rw [events, hd] at hplay hplay'
      obtain rfl : t = s := congrArg Prod.snd (Except.ok.inj (ht.symm.trans hplay))
      exact ⟨g, (congrArg Prod.snd (Except.ok.inj (ht'.symm.trans hplay'))).symm, hg⟩
  rw [hgraph, hgraph']
  exact ⟨hprocedures'.trans hprocedures.symm, hproblems'.trans hproblems.symm, hsound, hg⟩

/-- The two results of one program. -/
theorem ProgramUnit.Yields.extends : flow.Extends o'.maxGraftDepth flow' := by
  obtain ⟨hprocedures, hproblems, hsound, hgraft⟩ :=
    h.graftGroups_eq_ok h' ho ho' hevaluate hsearch
  have hg := Build.graftGroups_retains o' hsound _ _ hgraft
  obtain ⟨added, hadded⟩ := hg.retains.slots
  have hretains := hg.retains
  exact
    { name := h'.name.trans h.name.symm
      kind := h'.kind.trans h.kind.symm
      problems := hproblems
      procedures := hprocedures
      roots := hretains.roots
      owners := hretains.owners
      nodes := hretains.nodes
      division := hretains.division
      compound := hretains.compound
      slots := ⟨added.toList, by rw [hadded, Array.toList_append]⟩
      size_le := hretains.size_le
      block := fun b hb hnone => hretains.block b hb <| by
        rintro ⟨i, group, -, hi, hgrafted, hsite⟩
        exact hnone i group hi hgrafted hsite
      group := fun {i group} hi hkept => by
        rw [hretains.group i (Array.getElem?_eq_some_iff.1 hi).1, hi]
        rintro ⟨-, group', hi', hgrafted⟩
        exact hkept (Option.some.inj (hi'.symm.trans hi) ▸ hgrafted)
      grafted := fun {i group} hi => hg.refilled i (by simp) group hi }

end Yields

/-- What is true of two results for each program is true of them for all programs. -/
theorem forall₂_of_forall₂ {α β γ : Type} {R : α → β → Prop} {R' : α → γ → Prop} {S : β → γ → Prop}
    {l : List α} {l₁ : List β} {l₂ : List γ} (h : List.Forall₂ R l l₁) (h' : List.Forall₂ R' l l₂)
    (hS : ∀ a b c, R a b → R' a c → S b c) : List.Forall₂ S l₁ l₂ := by
  induction h generalizing l₂ with
  | nil =>
    cases h'
    exact .nil
  | cons hab _ ih =>
    cases h' with
    | cons hac hrest => exact .cons (hS _ _ _ hab hac) (ih hrest)

/-- **Extended mode extends normal mode**, for every tree and whatever the lowerings. -/
theorem StatementTree.build_extends (t : StatementTree) (evaluate search : Lowering)
    (depth depth' : ℕ) : ∃ flows flows',
      t.build { mode := .normal, evaluate, search, maxGraftDepth := depth } = .ok flows ∧
      t.build { mode := .extended, evaluate, search, maxGraftDepth := depth' } = .ok flows' ∧
      List.Forall₂ (ProgramFlow.Extends depth') flows flows' := by
  obtain ⟨flows, hbuild, hflows⟩ := t.exists_build
    { mode := .normal, evaluate, search, maxGraftDepth := depth }
  obtain ⟨flows', hbuild', hflows'⟩ := t.exists_build
    { mode := .extended, evaluate, search, maxGraftDepth := depth' }
  exact ⟨flows, flows', hbuild, hbuild',
    forall₂_of_forall₂ hflows hflows' fun _ _ _ h h' => h.extends h' rfl rfl rfl rfl⟩

end CobolFlow
