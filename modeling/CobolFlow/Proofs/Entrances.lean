import CobolFlow.Proofs.Blocks
import CobolFlow.Proofs.Calls.Results

/-!
# How a group that has been spliced in is entered

The call site of a group that has been spliced in is marked, and its only edge leads into the first
member. This is so when the group is spliced in, and it stays so: what is done afterwards touches
call sites of other groups, and a group that is opened then has its call site at a block that has
been made for it.

Nothing of the kind holds of a group that has not been filled. Where the nesting limit cuts a group
off, its call site may be the copy of one whose group had been spliced in already, and then it keeps
the mark and the edges of that.

## Main definitions

* `Graph.Entered` — the call site of a group leads into it

## Main results

* `Build.graft_entersFrom`, `Build.graftGroups_entersFrom` — all groups that splicing opens
* `StatementTree.build_entersGroups` — all groups that are filled, in every program of every tree
-/

namespace CobolFlow

namespace Graph

variable {g g' : Graph} {B P Q R : BlockId → Prop} {G : GroupId → Prop} {n : ℕ} {group : Group}

/-- The call site of a group is marked, and its only edge leads into the first member. -/
def Entered (g : Graph) (group : Group) : Prop :=
  ∃ first ∈ group.members.head?, ∃ block ∈ g.blocks[group.callSite]?,
    block.flags.grafted = true ∧ ∃ k, block.successors = [k] ∧ g.slots[k]? = some first

theorem Entered.successors (h : g.Entered group) :
    ∃ first ∈ group.members.head?, g.successors group.callSite = .ok [first] := by
  obtain ⟨first, hfirst, block, hblock, -, k, hk, hslot⟩ := h
  refine ⟨first, hfirst, ?_⟩
  rw [Graph.successors, (block_eq_ok_iff ..).2 hblock, ok_bind, hk, List.mapM_cons,
    (target_eq_ok_iff ..).2 hslot]
  rfl

theorem Entered.retains (h : g.Entered group) (hretains : Retains B G g g')
    (hsite : ¬ B group.callSite) : g'.Entered group := by
  obtain ⟨first, hfirst, block, hblock, hgrafted, k, hk, hslot⟩ := h
  refine ⟨first, hfirst, block, ?_, hgrafted, k, hk, hretains.slot hslot⟩
  rw [hretains.block _ (lt_size_of_getElem? hblock) hsite]
  exact hblock

/-- The groups from the `n`-th on are entered if they have members, and their call sites satisfy
`P`. -/
def EntersFrom (g : Graph) (n : ℕ) (P : BlockId → Prop) : Prop :=
  ∀ j ≥ n, ∀ group, g.groups[j]? = some group →
    P group.callSite ∧ (group.members ≠ [] → g.Entered group)

theorem EntersFrom.of_size_le (h : g.groups.size ≤ n) : g.EntersFrom n P := fun _ hj _ hchild =>
  absurd ((Array.getElem?_eq_some_iff.1 hchild).1.trans_le h) hj.not_gt

/-- An edit that touches other blocks and groups than those from the `n`-th on, and opens more. -/
theorem EntersFrom.next (h : g.EntersFrom n P) (hretains : Retains B G g g')
    (hnew : g'.EntersFrom g.groups.size Q) (hB : ∀ b, P b → ¬ B b) (hG : ∀ j ≥ n, ¬ G j)
    (hP : ∀ b, P b → R b) (hQ : ∀ b, Q b → R b) : g'.EntersFrom n R := by
  intro j hj child hchild
  obtain hold | hge := lt_or_ge j g.groups.size
  · have hsame := hretains.group j hold (hG j hj)
    obtain ⟨hsite, hentered⟩ := h j hj child (hsame ▸ hchild)
    exact ⟨hP _ hsite, fun hmembers => (hentered hmembers).retains hretains (hB _ hsite)⟩
  · obtain ⟨hsite, hentered⟩ := hnew j hge child hchild
    exact ⟨hQ _ hsite, hentered⟩

end Graph

namespace Build

open Graph (Entered EntersFrom Retains)

variable {g g₁ g' : Graph} {levels : ℕ} {i : GroupId} {group : Group} {copy : BlockId}

/-- A group that has just been spliced in is entered. -/
theorem exists_entered (h : ∃ first rest terminals, g'.groups[i]? =
      some { group with members := first :: rest, terminals } ∧
      ∃ block k, g.blocks[group.callSite]? = some block ∧ g.slots.size ≤ k ∧
        g'.slots[k]? = some first ∧ g'.blocks[group.callSite]? = some
          { block with successors := [k], flags := block.flags.union { grafted := true } }) :
    ∃ filled, g'.groups[i]? = some filled ∧ filled.callSite = group.callSite ∧
      g'.Entered filled := by
  obtain ⟨first, rest, terminals, hget, block, k, -, -, hslot, hblock⟩ := h
  exact ⟨_, hget, rfl, first, rfl, _, hblock, by simp [BlockFlags.union], k, rfl, hslot⟩

/-- What is opened at a copy. -/
theorem spread_entersFrom (hgraft : ∀ (i : GroupId) (g : Graph), i < g.groups.size →
      Ensures (graft levels i) g fun _ g' => g'.EntersFrom g.groups.size (g.size ≤ ·)) :
    Ensures (spread levels copy) g fun _ g' =>
      g'.EntersFrom g.groups.size fun b => b = copy ∨ g.size ≤ b := by
  intro r g' hrun
  obtain ⟨-, ⟨-, rfl⟩ | ⟨i, source, -, -, hlt, hcase⟩⟩ := spread_cases levels copy r g' hrun
  · exact .of_size_le le_rfl
  set new := nested levels source g.groups.size copy with hnew
  have hat : (openedAt g copy new).groups[g.groups.size]? = some new := Array.getElem?_push_size
  have hsize : (openedAt g copy new).groups.size = g.groups.size + 1 := Array.size_push ..
  obtain ⟨hnot, rfl⟩ | ⟨hgrafted, hrun'⟩ := hcase
  · intro j hj child hchild
    have hle : j < g.groups.size + 1 := hsize ▸ (Array.getElem?_eq_some_iff.1 hchild).1
    obtain rfl : j = g.groups.size := Nat.le_antisymm (Nat.le_of_lt_succ hle) hj
    obtain rfl := Option.some.inj (hat.symm.trans hchild)
    exact ⟨.inl rfl, fun hmembers => absurd (if_neg hnot) hmembers⟩
  · have hsite : new.callSite < (openedAt g copy new).size := (size_openedAt g copy new).symm ▸ hlt
    have hmembers : new.members = source.members := if_pos hgrafted
    have hgrafted' : IsGrafted levels new :=
      ⟨hgrafted.1, hgrafted.2.1, hmembers ▸ hgrafted.2.2⟩
    have hregrafts := graft_retains levels _ _ _ hat hsite _ _ hrun'
    intro j hj child hchild
    obtain rfl | hlt' := hj.eq_or_lt
    · obtain ⟨filled, hget, hcallSite, hentered⟩ := exists_entered (hregrafts.1 hgrafted').refilled
      obtain rfl := Option.some.inj (hget.symm.trans hchild)
      exact ⟨.inl hcallSite, fun _ => hentered⟩
    · obtain ⟨hnewSite, hentered⟩ := hgraft _ _ (hsize ▸ Nat.lt_succ_self _) _ _ hrun' j
        (hsize ▸ hlt') child hchild
      rw [size_openedAt] at hnewSite
      exact ⟨.inr hnewSite, hentered⟩

/-- While the copies in `left` wait. No group has been opened at any of them yet. -/
structure Opening (g : Graph) (n : ℕ) (left : List BlockId) (g' : Graph) : Prop where
  nodup : left.Nodup
  new : ∀ b ∈ left, g.size ≤ b ∧ b < g'.size
  size_le : g.size ≤ g'.size
  entersFrom : g'.EntersFrom n fun b => g.size ≤ b ∧ b ∉ left

/-- One copy more is dealt with. -/
theorem Opening.next {n : ℕ} {left : List BlockId} (h : Opening g n (copy :: left) g₁)
    (hretains : Retains (· = copy) (fun _ => False) g₁ g')
    (hspread : g'.EntersFrom g₁.groups.size fun b => b = copy ∨ g₁.size ≤ b) :
    Opening g n left g' := by
  obtain ⟨hnot, hnodup⟩ := List.nodup_cons.1 h.nodup
  have hnew : ∀ b ∈ left, g.size ≤ b ∧ b < g₁.size := fun b hb => h.new b (by simp [hb])
  refine
    { nodup := hnodup
      new := fun b hb => ⟨(hnew b hb).1, (hnew b hb).2.trans_le hretains.size_le⟩
      size_le := h.size_le.trans hretains.size_le
      entersFrom := h.entersFrom.next hretains hspread (fun b hb => ?_) (fun _ _ => id)
        (fun b hb => ?_) fun b hb => ?_ }
  · rintro rfl
    exact hb.2 List.mem_cons_self
  · exact ⟨hb.1, fun hmem => hb.2 (List.mem_cons_of_mem _ hmem)⟩
  · obtain rfl | hb := hb
    · exact ⟨(h.new b (by simp)).1, hnot⟩
    · exact ⟨h.size_le.trans hb, fun hmem => (hnew b hmem).2.not_ge hb⟩

/-- **Splicing a group in** opens groups that are entered if they have members. -/
theorem graft_entersFrom (levels : ℕ) (i : GroupId) (g : Graph) (hlt : i < g.groups.size) :
    Ensures (graft levels i) g fun _ g' => g'.EntersFrom g.groups.size (g.size ≤ ·) := by
  induction levels generalizing i g with
  | zero => exact .pure (.of_size_le le_rfl)
  | succ levels ih =>
    refine .get_bind (.lift_bind fun group _ => ?_)
    split
    · exact .pure (.of_size_le le_rfl)
    refine .bind ((copyMembers_ensures group.members).and (copyMembers_retains _ g)) ?_
    rintro _ g₁ ⟨⟨rfl, hsize₁, hgroups₁⟩, h₁⟩
    split
    swap
    · exact .pure (.of_size_le (hgroups₁ ▸ le_rfl))
    next first rest hcopied =>
    refine .bind (Graph.Edit.SparesCalls.splice group.callSite first _ g₁) ?_
    rintro terminals g₂ ⟨hkeep₂, hgroups₂⟩
    have hgroups : g₂.groups = g.groups := hgroups₂.trans hgroups₁
    have hbegun : Opening g g.groups.size (List.range' g.size group.members.length) g₂ :=
      { nodup := List.nodup_range'
        new := fun b hb => by
          rw [List.mem_range'_1] at hb
          exact ⟨hb.1, (hb.2.trans_le hsize₁).trans_le hkeep₂.size_le⟩
        size_le := h₁.size_le.trans hkeep₂.size_le
        entersFrom := .of_size_le (hgroups ▸ le_rfl) }
    refine .bind (.forIn_rest (I := Opening g g.groups.size) hbegun fun copy left g₃ h₃ => ?_) ?_
    · intro r g₄ hrun
      obtain ⟨hyield, -⟩ := spread_cases levels copy r g₄ hrun
      exact ⟨hyield, h₃.next (spread_retains (graft_retains levels) copy r g₄ hrun)
        (spread_entersFrom ih r g₄ hrun)⟩
    · rintro _ g₃ h₃ _ g' hrun
      have hretains := retains_of_within (Graph.modifyGroup_retains (B := fun _ => False)
        (G := (· = i)) rfl _) _ _ _ hrun
      obtain ⟨-, rfl⟩ := Graph.eq_of_modifyGroup_eq_ok hrun
      exact h₃.entersFrom.next hretains (.of_size_le (Array.size_modify ..).le) (fun _ _ => id)
        (fun j hj heq => (hlt.trans_le hj).ne' heq) (fun b hb => hb.1) fun _ => False.elim

/-- **Splicing all groups in** opens groups that are entered if they have members. -/
theorem graftGroups_entersFrom (o : Options) (hg : Sound g) :
    Ensures (graftGroups o) g fun _ g' => g'.EntersFrom g.groups.size (g.size ≤ ·) := by
  refine .get_bind (.bind (.forIn_rest (I := fun left g₁ =>
    Regrafting o.maxGraftDepth g left g₁ ∧ g₁.EntersFrom g.groups.size (g.size ≤ ·))
    ⟨.start _ g, .of_size_le le_rfl⟩ ?_) fun _ _ h => .pure h.2)
  rintro i left g₁ ⟨h₁, hentered⟩
  obtain ⟨group, hi, hi₁, hsite⟩ := h₁.exists_waiting hg
  have hsite₁ := hsite.trans_le h₁.retains.size_le
  refine .bind ((graft_retains _ i g₁ group hi₁ hsite₁).and
    (graft_entersFrom _ i g₁ (Array.getElem?_eq_some_iff.1 hi₁).1)) ?_
  rintro _ g₂ ⟨hregrafts, hopened⟩
  -- no group that has been opened has its call site in the text
  refine .pure ⟨rfl, h₁.next hg hi hregrafts, hentered.next hregrafts.retains hopened
    (fun b hb heq => (heq ▸ hsite).not_ge hb)
    (fun j hj heq => ((h₁.lt i List.mem_cons_self).trans_le hj).ne' heq) (fun _ => id)
    fun b hb => h₁.retains.size_le.trans hb⟩

end Build

/-- Every group that is filled is entered, unless it is recursive. -/
def ProgramFlow.EntersGroups (flow : ProgramFlow) : Prop := ∀ group ∈ flow.graph.groups,
  group.recursive = false → group.members ≠ [] → flow.graph.Entered group

namespace ProgramUnit

variable {o : Options} {u : ProgramUnit} {d : DivisionText} {flow : ProgramFlow}
  {s s₁ s₂ : Scope} {chs : List Chapter}

theorem Arises.entersGroups (h : u.Arises o d flow s chs s₁ s₂) (ho : o.isExtended = true)
    (hm : o.maxGraftDepth ≠ 0) : flow.EntersGroups := by
  intro group hmem hplain hmembers
  obtain ⟨i, hi⟩ := Array.mem_iff_getElem?.1 hmem
  obtain hlt | hge := lt_or_ge i s₂.graph.groups.size
  · have hold : s₂.graph.groups[i]? = some s₂.graph.groups[i] := Array.getElem?_eq_getElem hlt
    by_cases hgrafted : Build.IsGrafted o.levels s₂.graph.groups[i]
    · obtain ⟨filled, hget, -, hentered⟩ :=
        Build.exists_entered (h.regrafting.refilled i List.not_mem_nil _ hold hgrafted)
      obtain rfl := Option.some.inj (hget.symm.trans hi)
      exact hentered
    · have hsame := h.regrafting.retains.group i hlt fun ⟨_, other, hother, hgrafted'⟩ =>
        hgrafted (Option.some.inj (hold.symm.trans hother) ▸ hgrafted')
      obtain rfl := Option.some.inj ((hsame.trans hold).symm.trans hi)
      have hlevels : o.levels ≠ 0 := by rwa [Options.levels, if_pos ho]
      exact absurd ⟨hlevels, hplain, hmembers⟩ hgrafted
  · exact (Build.graftGroups_entersFrom o h.sound₂.graph () _ (h.spliced ho) i hge group hi).2
      hmembers

theorem Yields.entersGroups (h : u.Yields o flow) (ho : o.isExtended = true)
    (hm : o.maxGraftDepth ≠ 0) : flow.EntersGroups := by
  cases hd : u.division with
  | none =>
    intro group hmem
    rw [h.graph_eq_empty hd] at hmem
    exact absurd hmem (Array.not_mem_empty group)
  | some d =>
    obtain ⟨s, chs, s₁, s₂, harises⟩ := h.exists_arises hd
    exact harises.entersGroups ho hm

end ProgramUnit

/-- **Every group that is filled is entered**, in every program of every tree: in extended mode its
call site is marked, and leads into its first member and nowhere else. -/
theorem StatementTree.build_entersGroups (t : StatementTree) (o : Options)
    (ho : o.isExtended = true) (hm : o.maxGraftDepth ≠ 0) : ∃ flows, t.build o = .ok flows ∧
      List.Forall₂ (fun _ flow => flow.EntersGroups) t.units flows := by
  obtain ⟨flows, hbuild, hflows⟩ := t.exists_build o
  exact ⟨flows, hbuild, hflows.imp fun _ _ h => h.entersGroups ho hm⟩

end CobolFlow
