import CobolFlow.Proofs.Blocks
import CobolFlow.Proofs.Calls.Nesting
import CobolFlow.Proofs.Calls.Results

/-!
# The nesting limit

In extended mode the groups of a graph are nested: a group that splicing has opened is called at a
member of another. Followed outwards, the call sites come to a block of the text in the end, and the
nesting limit is how many groups may be passed on the way. A group beyond it is marked as truncated
and stays empty, if there is anything that it would have been filled with.

## Main definitions

* `Graph.IsOriginal` — the blocks that were there before anything was copied
* `Graph.Encloses`, `Graph.IsNesting` — groups called from groups, from the text on
* `ProgramUnit.Truncates` — what is said of one program

## Main results

* `StatementTree.build_truncates` — it holds of every program of every tree
-/

namespace CobolFlow

open Scope

open Notification (written)

/-- Of what is taken from the elements of a list, part is taken in another way. -/
theorem sublist_map_filterMap {α β γ δ : Type} {f : α → Option β} {g : α → Option γ} {p : β → δ}
    {q : γ → δ} (h : ∀ x y, f x = some y → ∃ z, g x = some z ∧ q z = p y) (l : List α) :
    ((l.filterMap f).map p).Sublist ((l.filterMap g).map q) := by
  induction l with
  | nil => exact .slnil
  | cons x l ih =>
    cases hf : f x with
    | none =>
      rw [List.filterMap_cons_none hf]
      cases hg : g x with
      | none => rwa [List.filterMap_cons_none hg]
      | some z =>
        rw [List.filterMap_cons_some hg]
        exact ih.cons _
    | some y =>
      obtain ⟨z, hg, hz⟩ := h x y hf
      rw [List.filterMap_cons_some hf, List.filterMap_cons_some hg, List.map_cons, List.map_cons,
        hz]
      exact ih.cons_cons _

theorem Landmark.call?_eq_some_iff {m : Landmark} {call : Call} :
    m.call? = some call ↔ m = .call call.node call.span call.range := by
  cases m <;> cases call <;> simp [call?]

theorem Node.landmark?_eq_call_iff {n : Node} {node : NodeId} {span : Span} {r : PerformRange} :
    n.landmark? = some (.call node span r) ↔ n.kind = .perform r ∧ n.id = node ∧ n.span = span := by
  rw [landmark?]
  cases n.kind <;> simp [and_comm, and_left_comm, eq_comm]

namespace Graph

/-- A block that belongs to the text. The block that ends a graph is the last of these, and what
comes behind it are copies. -/
def IsOriginal (g : Graph) (b : BlockId) : Prop :=
  ∃ last, g.findFlagged { finish := true } = some last ∧ b ≤ last

/-- The group `j` is called at a member of the group `i`. -/
def Encloses (g : Graph) (i j : GroupId) : Prop := ∃ outer inner, g.groups[i]? = some outer ∧
  g.groups[j]? = some inner ∧ inner.callSite ∈ outer.members

/-- Groups of which each encloses the next, and the first is called from the text. -/
structure IsNesting (g : Graph) (l : List GroupId) : Prop where
  chain : l.IsChain g.Encloses
  head : ∀ i ∈ l.head?, ∃ group, g.groups[i]? = some group ∧ g.IsOriginal group.callSite

variable {g : Graph} {full : NodeId → Prop} {n levels : ℕ} {i : GroupId}

/-- A nesting goes down the layers of its first group. -/
theorem Nests.along (hg : Sound g) (hplain : ∀ i j, g.Encloses i j →
      ∀ group, g.groups[i]? = some group → group.recursive = false)
    {l : List GroupId} (h : g.Ends full n levels i) (hl : (i :: l).IsChain g.Encloses) :
    l.length ≤ levels ∧ ∀ j ∈ (i :: l).getLast?, g.Ends full n (levels - l.length) j := by
  induction l generalizing i levels with
  | nil =>
    refine ⟨Nat.zero_le _, fun j hj => ?_⟩
    obtain rfl : i = j := by simpa using hj
    exact h
  | cons j l ih =>
    obtain ⟨hencloses, hl⟩ := List.isChain_cons_cons.1 hl
    have hrecursive := hplain i j hencloses
    obtain ⟨outer, inner, hi, hj, hmem⟩ := hencloses
    cases levels with
    | zero =>
      obtain ⟨group, hi', hcut⟩ := h
      obtain rfl := Option.some.inj (hi.symm.trans hi')
      exact nomatch hcut.members ▸ hmem
    | succ levels =>
      obtain ⟨group, hi', -, hcalls⟩ := h
      obtain rfl := Option.some.inj (hi.symm.trans hi')
      obtain ⟨block, hblock, hcall⟩ := hg.callSite hj
      obtain ⟨-, hends⟩ := hcalls (hrecursive _ hi) _ hmem j (by rwa [chart_of_getElem? hblock])
      obtain ⟨hle, hlast⟩ := ih hends hl
      refine ⟨Nat.succ_le_succ hle, fun k hk => ?_⟩
      rw [List.length_cons, Nat.succ_sub_succ]
      exact hlast k (by rwa [List.getLast?_cons_cons] at hk)

end Graph

namespace ProgramUnit

/-- The range of the PERFORM that a node stands for is known, and has a block. -/
def Performs (u : ProgramUnit) (flow : ProgramFlow) (node : NodeId) : Prop :=
  ∃ call ∈ u.calls, call.node = node ∧
    ∃ blocks, flow.procedures.captured? call.range = some blocks ∧ blocks ≠ []

/-- What the nesting limit comes to. -/
structure Truncates (o : Options) (u : ProgramUnit) (flow : ProgramFlow) : Prop where
  /-- No more groups that are filled are nested than the limit allows. -/
  bounded : ∀ l, flow.graph.IsNesting l → (∀ i ∈ l, ∀ group, flow.graph.groups[i]? = some group →
    group.members ≠ [] ∧ group.recursive = false) → l.length ≤ o.maxGraftDepth
  /-- What is marked is the first group beyond the limit, if there is something to fill it with. -/
  truncated : ∀ {i : GroupId} {group : Group}, flow.graph.groups[i]? = some group →
    (group.truncated = true ↔
      (∃ l, flow.graph.IsNesting l ∧ l.getLast? = some i ∧ l.length = o.maxGraftDepth + 1) ∧
        u.Performs flow group.node ∧ group.recursive = false)
  bare : ∀ group ∈ flow.graph.groups, group.truncated = true →
    group.members = [] ∧ group.terminals = []

variable {o : Options} {u : ProgramUnit} {d : DivisionText} {flow : ProgramFlow}
  {s s₁ s₂ : Scope} {chs : List Chapter} {i j k : ℕ} {call : Call} {group : Group}

/-- The PERFORMs are among what is written. -/
theorem exists_written_of_call {e : Notification}
    (h : e.landmark?.bind Landmark.call? = some call) :
    ∃ i, e.written? = some i ∧ i.node = call.node := by
  obtain ⟨m, hm, hcall⟩ := Option.bind_eq_some_iff.1 h
  rw [Landmark.call?_eq_some_iff] at hcall
  cases e with
  | enter n =>
    obtain ⟨hkind, hnode, -⟩ := Node.landmark?_eq_call_iff.1 (hcall ▸ hm)
    refine ⟨n.instruction, ?_, hnode⟩
    simp [Notification.written?, Node.tag, hkind, NodeKind.tag, NodeTag.role]
  | _ => cases hm

/-- No two PERFORMs are the same node. -/
theorem nodup_calls (u : ProgramUnit) : (u.calls.map (·.node)).Nodup := by
  cases hd : u.division with
  | none => simp [calls, landmarks, events, hd]
  | some d =>
    have hpairwise := (List.pairwise_cons.1 (pairwise_written hd)).2
    rw [calls, landmarks, List.filterMap_filterMap]
    exact (hpairwise.imp fun h => h.ne).sublist
      (sublist_map_filterMap (fun _ _ => exists_written_of_call) u.events)

theorem performs_iff (hk : u.calls[k]? = some call) : u.Performs flow call.node ↔
    ∃ blocks, flow.procedures.captured? call.range = some blocks ∧ blocks ≠ [] := by
  constructor
  · rintro ⟨call', hcall', hnode, hblocks⟩
    obtain rfl := List.inj_on_of_nodup_map u.nodup_calls hcall' (List.mem_of_getElem? hk) hnode
    exact hblocks
  · exact fun hblocks => ⟨call, List.mem_of_getElem? hk, rfl, hblocks⟩

namespace Arises

variable (h : u.Arises o d flow s chs s₁ s₂)
include h

theorem isOriginal_iff {b : BlockId} : flow.graph.IsOriginal b ↔ b < s.graph.size := by
  rw [h.draft.size, Nat.lt_succ_iff]
  constructor
  · rintro ⟨last, hlast, hle⟩
    obtain rfl := Option.some.inj (h.findFlagged_finish.symm.trans hlast)
    exact hle
  · exact fun hle => ⟨_, h.findFlagged_finish, hle⟩

/-- The capture opens a group for each PERFORM, which is called from the text, and fills it with
copies of the range. -/
theorem exists_call (hk : s₂.graph.groups[k]? = some group) : ∃ call, u.calls[k]? = some call ∧
    group.node = call.node ∧ group.callSite < s.graph.size ∧ group.truncated = false ∧
      (∀ b ∈ group.members, s.graph.size ≤ b) ∧
      (group.members ≠ [] ↔
        ∃ blocks, flow.procedures.captured? call.range = some blocks ∧ blocks ≠ []) := by
  obtain ⟨c, hfollows⟩ := h.follows
  have hlt : k < s.pending.performs.length := by
    rw [← h.awaits.size, ← hfollows.size]
    exact (Array.getElem?_eq_some_iff.1 hk).1
  have hlength : s.pending.performs.length = u.calls.length := by
    rw [h.draft.length_performs, h.landmarks, calls]
  have hcall : u.calls[k]? = some u.calls[k] := List.getElem?_eq_getElem (hlength ▸ hlt)
  obtain ⟨callSite, hw, hold⟩ := exists_awaiting h.draft h.landmarks h.links hcall
  obtain ⟨members, terminals, hget, hfills⟩ := hfollows.group hold
  obtain rfl := Option.some.inj (hk.symm.trans hget)
  have hprogress := Tour.progress_all h.awaits.fair (k := k)
    (e := s₁.errand (u.calls[k].pending k)) (by rw [List.getElem?_map, hw]; rfl)
  refine ⟨_, hcall, rfl, ?_, rfl, fun b hb => ?_, ?_⟩
  · obtain ⟨block, hblock, -⟩ := h.links.sound.graph.callSite hold
    exact h.links.size ▸ Graph.lt_size_of_getElem? hblock
  · obtain ⟨w, blocks, -, -, hcopies⟩ := hfills.exists_copies (List.ne_nil_of_mem hb)
    obtain ⟨_, -, hcopy⟩ := hcopies.exists_original hb
    exact h.links.size ▸ hcopy.new
  · rw [h.procedures_eq]
    change _ ↔ ∃ blocks, s₁.procedures.captured? (u.calls[k].pending k).range = some blocks ∧ _
    rw [Errand.verdict, errand, Option.isSome_map] at hprogress
    cases hcaptured : s₁.procedures.captured? (u.calls[k].pending k).range with
    | none =>
      rw [hcaptured] at hprogress
      have hempty := hfills.empty (by rw [hprogress]; simp)
      simp [hempty]
    | some blocks =>
      rw [hcaptured] at hprogress
      obtain ⟨w, blocks', hw', hblocks', hcopies, -⟩ := hfills.captured hprogress
      obtain rfl := Option.some.inj (hw.symm.trans hw')
      obtain rfl := Option.some.inj (hcaptured.symm.trans hblocks')
      have hlength := hcopies.length
      simp only [Option.some.injEq, exists_eq_left', ne_eq, ← List.length_eq_zero_iff, hlength]

/-- But for its members and terminals a group of a PERFORM stays as it was captured, and altogether
if it is not spliced in. -/
theorem exists_captured (hk : k < s₂.graph.groups.size)
    (hgroup : flow.graph.groups[k]? = some group) : ∃ old, s₂.graph.groups[k]? = some old ∧
      group.callSite = old.callSite ∧ (old.recursive = true → group = old) ∧
      group.recursive = old.recursive := by
  have hold : s₂.graph.groups[k]? = some s₂.graph.groups[k] := Array.getElem?_eq_getElem hk
  refine ⟨_, hold, ?_⟩
  by_cases hgrafted : Build.IsGrafted o.levels s₂.graph.groups[k]
  · obtain ⟨first, rest, terminals, hget, -⟩ :=
      h.regrafting.refilled k List.not_mem_nil _ hold hgrafted
    obtain rfl := Option.some.inj (hget.symm.trans hgroup)
    exact ⟨rfl, fun hrecursive => absurd (hgrafted.2.1.symm.trans hrecursive) nofun, rfl⟩
  · have hsame := h.regrafting.retains.getElem?_groups hold fun ⟨_, other, hother, hgrafted'⟩ =>
      hgrafted (Option.some.inj (hold.symm.trans hother) ▸ hgrafted')
    obtain rfl := Option.some.inj (hsame.symm.trans hgroup)
    exact ⟨rfl, fun _ => rfl, rfl⟩

section Extended

variable (ho : o.isExtended = true) (hm : o.maxGraftDepth ≠ 0)
include ho hm

theorem growing : Build.Growing (u.Performs flow) o.maxGraftDepth s₂.graph [] flow.graph := by
  refine Build.graftGroups_growing o hm h.sound₂.graph (fun k group hk => ?_) () _ (h.spliced ho)
  obtain ⟨call, hcall, hnode, -, htruncated, -, hmembers⟩ := h.exists_call hk
  exact ⟨htruncated, fun _ => by rw [hnode, performs_iff hcall, hmembers]⟩

/-- The groups of the PERFORMs are called from the text, and no others. -/
theorem isOriginal_callSite_iff (hgroup : flow.graph.groups[k]? = some group) :
    flow.graph.IsOriginal group.callSite ↔ k < s₂.graph.groups.size := by
  obtain ⟨c, hfollows⟩ := h.follows
  rw [h.isOriginal_iff]
  constructor
  · intro hlt
    by_contra hge
    have hnew := ((h.growing ho hm).opened k (not_lt.1 hge) group hgroup).new
    exact ((h.links.size ▸ hfollows.keeps.size_le).trans hnew).not_gt hlt
  · intro hlt
    obtain ⟨old, hold, hsite, -⟩ := h.exists_captured hlt hgroup
    obtain ⟨-, -, -, hlt, -⟩ := h.exists_call hold
    exact hsite ▸ hlt

/-- A group that is marked as recursive encloses no other. -/
theorem recursive_of_encloses (hencloses : flow.graph.Encloses i j)
    (hi : flow.graph.groups[i]? = some group) : group.recursive = false := by
  obtain ⟨outer, inner, hi', hj, hmem⟩ := hencloses
  obtain rfl := Option.some.inj (hi'.symm.trans hi)
  rw [← Bool.not_eq_true]
  intro hrecursive
  have hgrowing := h.growing ho hm
  obtain hlt | hge := lt_or_ge i s₂.graph.groups.size
  · -- its members are those of the capture, and call sites are in the text or spliced in later
    obtain ⟨old, hold, -, hsame, hplain⟩ := h.exists_captured hlt hi
    obtain rfl := hsame (hplain ▸ hrecursive)
    obtain ⟨call, -, -, -, -, hmembers, -⟩ := h.exists_call hold
    by_cases hj' : j < s₂.graph.groups.size
    · have hsite := h.isOriginal_iff.1 ((h.isOriginal_callSite_iff ho hm hj).2 hj')
      exact (hmembers _ hmem).not_gt hsite
    · have hnew := (hgrowing.opened j (not_lt.1 hj') inner hj).new
      exact (h.sound₂.graph.member_lt hold _ hmem).not_ge hnew
  · rw [(hgrowing.opened i hge outer hi).bare hrecursive] at hmem
    exact nomatch hmem

/-- Every group ends a nesting. -/
theorem exists_nesting (hk : k < flow.graph.groups.size) :
    ∃ l, flow.graph.IsNesting l ∧ l.getLast? = some k := by
  induction k using Nat.strong_induction_on with
  | _ k ih =>
    have hgroup : flow.graph.groups[k]? = some flow.graph.groups[k] := Array.getElem?_eq_getElem hk
    by_cases hlt : k < s₂.graph.groups.size
    · refine ⟨[k], ⟨.singleton k, fun i hi => ?_⟩, rfl⟩
      obtain rfl : k = i := by simpa using hi
      exact ⟨_, hgroup, (h.isOriginal_callSite_iff ho hm hgroup).2 hlt⟩
    · obtain ⟨i, hik, -, parent, hi, -, hmem⟩ :=
        ((h.growing ho hm).opened k (not_lt.1 hlt) _ hgroup).parent
      obtain ⟨l, hl, hlast⟩ := ih i hik (Array.getElem?_eq_some_iff.1 hi).1
      have hne : l ≠ [] := fun hnil => by simp [hnil] at hlast
      refine ⟨l ++ [k],
        ⟨hl.chain.append (.singleton k) fun x hx y hy => ?_, fun x hx => ?_⟩, by simp⟩
      · obtain rfl := Option.some.inj (hlast.symm.trans hx)
        obtain rfl : k = y := by simpa using hy
        exact ⟨parent, _, hi, hgroup, hmem⟩
      · rw [List.head?_append_of_ne_nil _ hne] at hx
        exact hl.head x hx

/-- Only what lies one level beyond the limit is cut. -/
theorem exists_cut_or_whole {l : List GroupId} (hl : flow.graph.IsNesting l)
    (hlast : l.getLast? = some k) : ∃ group, flow.graph.groups[k]? = some group ∧
      ((l.length = o.maxGraftDepth + 1 ∧ group.Cut (u.Performs flow)) ∨
        (l.length ≤ o.maxGraftDepth ∧ group.truncated = false)) := by
  cases l with
  | nil => exact nomatch hlast
  | cons i l =>
    obtain ⟨first, hi, horiginal⟩ := hl.head i rfl
    have hlt := (h.isOriginal_callSite_iff ho hm hi).1 horiginal
    obtain ⟨hle, hends⟩ := ((h.growing ho hm).ends i hlt List.not_mem_nil).along h.sound
      (fun _ _ hencloses _ => h.recursive_of_encloses ho hm hencloses) hl.chain
    have hends := hends k hlast
    rw [List.length_cons]
    -- as many layers as are left lie below the last group of the nesting
    cases hleft : o.maxGraftDepth - l.length with
    | zero =>
      obtain ⟨group, hk, hcut⟩ := hleft ▸ hends
      exact ⟨group, hk, .inl ⟨by omega, hcut⟩⟩
    | succ levels =>
      obtain ⟨group, hk, hwhole, -⟩ := hleft ▸ hends
      exact ⟨group, hk, .inr ⟨by omega, hwhole.truncated⟩⟩

theorem truncates : u.Truncates o flow := by
  have hcut : ∀ {i : GroupId} {group : Group}, flow.graph.groups[i]? = some group →
      group.truncated = true → ∃ l, flow.graph.IsNesting l ∧ l.getLast? = some i ∧
        l.length = o.maxGraftDepth + 1 ∧ group.Cut (u.Performs flow) := by
    intro i group hi htruncated
    obtain ⟨l, hl, hlast⟩ := h.exists_nesting ho hm (Array.getElem?_eq_some_iff.1 hi).1
    obtain ⟨group', hi', hcase⟩ := h.exists_cut_or_whole ho hm hl hlast
    obtain rfl := Option.some.inj (hi.symm.trans hi')
    obtain ⟨hlength, hcut⟩ | ⟨-, hnot⟩ := hcase
    · exact ⟨l, hl, hlast, hlength, hcut⟩
    · exact nomatch hnot.symm.trans htruncated
  refine ⟨fun l hl hfilled => ?_, fun {i group} hi => ⟨fun htruncated => ?_, ?_⟩,
    fun group hgroup htruncated => ?_⟩
  · obtain rfl | hne := eq_or_ne l []
    · exact Nat.zero_le _
    obtain ⟨k, hlast⟩ := Option.isSome_iff_exists.1 (List.getLast?_isSome.2 hne)
    obtain ⟨group, hk, ⟨-, hcut⟩ | ⟨hle, -⟩⟩ := h.exists_cut_or_whole ho hm hl hlast
    · exact absurd hcut.members (hfilled k (List.mem_of_getLast? hlast) group hk).1
    · exact hle
  · obtain ⟨l, hl, hlast, hlength, hcut⟩ := hcut hi htruncated
    exact ⟨⟨l, hl, hlast, hlength⟩, hcut.truncated.1 htruncated⟩
  · rintro ⟨⟨l, hl, hlast, hlength⟩, hfull⟩
    obtain ⟨group', hi', hcase⟩ := h.exists_cut_or_whole ho hm hl hlast
    obtain rfl := Option.some.inj (hi.symm.trans hi')
    obtain ⟨-, hcut⟩ | ⟨hle, -⟩ := hcase
    · exact hcut.truncated.2 hfull
    · exact absurd (hlength.symm.le.trans hle) (Nat.not_succ_le_self _)
  · obtain ⟨i, hi⟩ := Array.mem_iff_getElem?.1 hgroup
    obtain ⟨-, -, -, -, hcut⟩ := hcut hi htruncated
    exact ⟨hcut.members, hcut.terminals⟩

end Extended

end Arises

/-- A program without a division has no groups. -/
theorem Yields.truncates (h : u.Yields o flow) (ho : o.isExtended = true)
    (hm : 1 ≤ o.maxGraftDepth) : u.Truncates o flow := by
  cases hd : u.division with
  | none =>
    obtain ⟨hgraph, -, -⟩ := h.of_none hd
    refine ⟨fun l hl _ => ?_, fun hi => ?_, fun group hgroup => ?_⟩
    · cases l with
      | nil => exact Nat.zero_le _
      | cons i l =>
        obtain ⟨group, hi, -⟩ := hl.head i rfl
        simp [hgraph] at hi
    · simp [hgraph] at hi
    · simp [hgraph] at hgroup
  | some d =>
    obtain ⟨s, chs, s₁, s₂, harises⟩ := h.exists_arises hd
    exact harises.truncates ho (Nat.one_le_iff_ne_zero.1 hm)

end ProgramUnit

/-- **The nesting limit.** In extended mode, with a limit of at least one level, groups that are
filled are never nested deeper than the limit, and what is marked as truncated is exactly the first
group beyond it wherever there is something to fill it with. -/
theorem StatementTree.build_truncates (t : StatementTree) (o : Options) (ho : o.isExtended = true)
    (hm : 1 ≤ o.maxGraftDepth) : ∃ flows, t.build o = .ok flows ∧
      List.Forall₂ (fun u flow => u.Truncates o flow) t.units flows := by
  obtain ⟨flows, hbuild, hflows⟩ := t.exists_build o
  exact ⟨flows, hbuild, hflows.imp fun _ _ h => h.truncates ho hm⟩

/-- A paragraph performs another, which performs a third. -/
def nestedPerforms : StatementTree where
  programs := [.mk "A" .program (some { paragraphs := [
    { name := "P", sentences := [[.mk (.perform { first := { name := "Q" } } ) none .unknown]] },
    { name := "Q", sentences := [[.mk (.perform { first := { name := "R" } } ) none .unknown]] },
    { name := "R", sentences := [[.mk .exit none .unknown]] }] }) []]

/-- The options under which the inner of two nested groups is beyond the limit. -/
def shallow : Options := { mode := .extended, maxGraftDepth := 1 }

theorem truncates_nestedPerforms : shallow.isExtended = true ∧ 1 ≤ shallow.maxGraftDepth ∧
    ∃ flows, nestedPerforms.build shallow = .ok flows ∧
      List.Forall₂ (fun u flow => u.Truncates shallow flow) nestedPerforms.units flows :=
  ⟨rfl, le_rfl, nestedPerforms.build_truncates shallow rfl le_rfl⟩

end CobolFlow
