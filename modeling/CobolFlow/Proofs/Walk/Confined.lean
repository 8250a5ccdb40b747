import CobolFlow.Export.Dot
import CobolFlow.Proofs.Walk.Stack

/-!
# A walk that may enter some blocks only

The members that a cluster shows are found by a walk which enters nothing but members. What it finds
is said by trails: from the block where it starts to any other along blocks that may all be entered.
The walk answers a question about the blocks on its stack, as the search for open ends does, and the
invariant is the same but for what counts as found: here it is every block that is taken off the
stack for the first time. A trail that passes such a block can be cut behind it.

## Main results

* `Graph.Checked.exists_workStack_confined` — what is met from a stack on
* `Dot.exists_connectedMembers` — the members that a cluster shows
-/

namespace CobolFlow

namespace Graph

variable {g : Graph}

theorem Trail.snoc {allowed : BlockId → Prop} {a b c : BlockId} (h : Trail g allowed a b)
    (hbc : g.Leads b c) (hc : allowed c) : Trail g allowed a c := by
  induction h with
  | refl hb => exact .step hb hbc (.refl hc)
  | step ha hab _ ih => exact .step ha hab (ih hbc)

theorem Trail.allowed_end {allowed : BlockId → Prop} {a b : BlockId} (h : Trail g allowed a b) :
    allowed b := by
  induction h with
  | refl hb => exact hb
  | step _ _ _ ih => exact ih

/-- Trails from a stack end at its first block or go on without it: from what it leads to, or from
the rest. -/
theorem exists_trail_cons {allowed : BlockId → Prop} {b t : BlockId} {rest targets : List BlockId}
    (hb : allowed b) (htargets : ∀ c, c ∈ targets ↔ g.Leads b c ∧ allowed c ∧ c ≠ b) :
    (∃ c ∈ b :: rest, Trail g allowed c t) ↔
      t = b ∨ ∃ c ∈ targets ++ rest, Trail g (fun x => allowed x ∧ x ≠ b) c t := by
  constructor
  · rintro ⟨c, hc, htrail⟩
    by_cases htb : t = b
    · exact .inl htb
    obtain h | ⟨d, hbd, h⟩ := htrail.cut htb
    · have hrest : c ∈ rest := (List.mem_cons.1 hc).resolve_left h.allowed_start.2
      exact .inr ⟨c, by simp [hrest], h⟩
    · have hd : d ∈ targets := (htargets d).2 ⟨hbd, h.allowed_start⟩
      exact .inr ⟨d, by simp [hd], h⟩
  · rintro (rfl | ⟨c, hc, htrail⟩)
    · exact ⟨t, by simp, .refl hb⟩
    · have htrail' : Trail g allowed c t := htrail.mono fun _ h => h.1
      obtain hc | hc := List.mem_append.1 hc
      · exact ⟨b, by simp, .step hb ((htargets c).1 hc).1 htrail'⟩
      · exact ⟨c, by simp [hc], htrail'⟩

/-- What a walk that has marked `seen` may still enter. -/
def Enterable (enter : BlockId → Bool) (seen : Seen) (b : BlockId) : Prop :=
  seen[b]? = some false ∧ enter b = true

theorem enterable_set_iff {enter : BlockId → Bool} {seen : Seen} {b : BlockId} (h : b < seen.size)
    (c : BlockId) : Enterable enter (seen.set b true) c ↔ Enterable enter seen c ∧ c ≠ b := by
  by_cases hc : c = b
  · simp [Enterable, hc, h]
  · simp [Enterable, hc, Ne.symm hc]

/-- What is met from a stack on is what was met before and what the trails from the stack lead to,
and nothing is met twice. -/
theorem Checked.exists_workStack_confined (hg : g.Checked) (enter : BlockId → Bool)
    (stack : List BlockId) (seen : Seen) (found : List Block) (hsize : seen.size = g.size)
    (hstack : ∀ b ∈ stack, b < g.size ∧ enter b = true) (hnodup : (found.map Block.id).Nodup)
    (hmarked : ∀ b ∈ found.map Block.id, seen[b]? = some true) :
    ∃ met later, g.workStack enter (fun block met => .yield (block :: met)) stack seen found =
        .ok ⟨later, .yield met⟩ ∧ (met.map Block.id).Nodup ∧
      ∀ t, t ∈ met.map Block.id ↔ t ∈ found.map Block.id ∨
        ∃ b ∈ stack, Trail g (Enterable enter seen) b t := by
  fun_induction workStack g enter (fun block met => .yield (block :: met)) stack seen found with
  | case1 seen found => exact ⟨found, seen, rfl, hnodup, by simp⟩
  | case2 seen found b rest hb hmet ih =>
    obtain ⟨met, later, hwalk, hmets, hmem⟩ :=
      ih hsize (fun c hc => hstack c (by simp [hc])) hnodup hmarked
    refine ⟨met, later, hwalk, hmets, fun t => ?_⟩
    have hno : ¬ Trail g (Enterable enter seen) b t := fun h => by
      have hfalse := h.allowed_start.1
      rw [Array.getElem?_eq_getElem hb, hmet] at hfalse
      cases hfalse
    simp [hmem, hno]
  | case3 seen found b rest hb hunmet ih =>
    have hfalse : seen[b] = false := by simpa using hunmet
    have hfalse? : seen[b]? = some false := by rw [Array.getElem?_eq_getElem hb, hfalse]
    obtain ⟨hlt, henter⟩ := hstack b (by simp)
    obtain ⟨block, hok, hblock⟩ := exists_block_eq_ok hlt
    obtain ⟨all, hall, hleads⟩ := hg.exists_targets hblock
    have hid := hg.placed hblock
    have hsize' : (Array.set seen b true).size = g.size := (Array.size_set ..).trans hsize
    set targets := (all.filter enter).filter fun c => (seen.set b true)[c]? == some false
    have hpushed : g.unmetTargets enter (seen.set b true) block.successors = .ok targets :=
      unmetTargets_eq_ok enter hall fun c hc => hsize'.symm ▸ ((hleads c).1 hc).lt_size hg
    have htargets : ∀ c, c ∈ targets ↔ g.Leads b c ∧ Enterable enter seen c ∧ c ≠ b := fun c => by
      rw [← enterable_set_iff hb]
      simp only [targets, List.mem_filter, hleads, beq_iff_eq, Enterable, and_assoc,
        and_comm (a := enter c = true)]
    have hstack' : ∀ c ∈ targets ++ rest, c < g.size ∧ enter c = true := fun c hc => by
      obtain hc | hc := List.mem_append.1 hc
      · obtain ⟨hlead, hopen, -⟩ := (htargets c).1 hc
        exact ⟨hlead.lt_size hg, hopen.2⟩
      · exact hstack c (by simp [hc])
    have hnew : block.id ∉ found.map Block.id := fun hmem => by
      have hmet := hmarked _ hmem
      rw [hid, hfalse?] at hmet
      cases hmet
    have hmarked' : ∀ c ∈ (block :: found).map Block.id,
        (Array.set seen b true)[c]? = some true := by
      rw [List.map_cons, List.forall_mem_cons, hid]
      exact ⟨by simp [hb], fun c hc => (Seen.Before.set hb hfalse).met (hmarked c hc)⟩
    obtain ⟨met, later, hwalk, hmets, hmem⟩ :=
      ih (block :: found) targets hsize' hstack' (List.nodup_cons.2 ⟨hnew, hnodup⟩) hmarked'
    refine ⟨met, later, ?_, hmets, fun t => ?_⟩
    · rw [hok, ok_bind]
      simp only [hpushed, ok_bind]
      exact hwalk
    · have hset : Enterable enter (seen.set b true) = fun x => Enterable enter seen x ∧ x ≠ b :=
        funext fun x => propext (enterable_set_iff hb x)
      rw [hmem, exists_trail_cons ⟨hfalse?, henter⟩ htargets, hset, List.map_cons, List.mem_cons,
        hid, or_assoc, or_left_comm]
  | case4 seen found b rest hb => exact absurd (hsize ▸ (hstack b (by simp)).1) hb

end Graph

namespace Dot

open Graph

variable {g : Graph}

/-- **A cluster shows the members that its first one leads to** along members, each of them once. -/
theorem exists_connectedMembers (hg : g.Checked) {members : List BlockId} {first : BlockId}
    (hlt : first < g.size) (hfirst : first ∈ members) :
    ∃ blocks, connectedMembers g members first = .ok blocks ∧ (blocks.map Block.id).Nodup ∧
      ∀ b, b ∈ blocks.map Block.id ↔ Trail g (· ∈ members) first b := by
  obtain ⟨met, later, hwalk, hnodup, hmem⟩ := hg.exists_workStack_confined members.contains [first]
    (.fresh g.size) [] (by simp [Seen.fresh]) (by simp [hlt, hfirst]) .nil (by simp)
  refine ⟨met.reverse, ?_, ?_, fun b => ?_⟩
  · rw [connectedMembers, hwalk]
    rfl
  · rw [List.map_reverse]
    exact List.pairwise_reverse.2 (hnodup.imp Ne.symm)
  · rw [List.map_reverse, List.mem_reverse, hmem]
    simp only [List.map_nil, List.not_mem_nil, false_or, List.mem_singleton, exists_eq_left]
    refine ⟨fun h => h.mono fun x hx => by simpa using hx.2, fun h => ?_⟩
    -- nothing is marked when the walk begins, and it comes to blocks of the graph only
    clear hmem hwalk hnodup hfirst
    induction h with
    | refl hb => exact .refl ⟨by simp [Seen.fresh, hlt], by simpa using hb⟩
    | step ha hab _ ih =>
      exact .step ⟨by simp [Seen.fresh, hlt], by simpa using ha⟩ hab (ih (hab.lt_size hg))

end Dot

end CobolFlow
