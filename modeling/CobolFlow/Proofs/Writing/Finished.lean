import CobolFlow.Proofs.Faultless.Replay
import CobolFlow.Proofs.Writing.Divisions
import CobolFlow.Proofs.Writing.Reprints

/-!
# Finished divisions

When the end of a division has been reached, its draft holds what the division has written. What is
resolved then leaves that alone.

## Main results

* `DivisionText.exists_finished` — what stands in the graph of a division, and where
-/

namespace CobolFlow

open Notification (written)

theorem Graph.successors_eq_nil {g : Graph} {b : BlockId} {block : Block} (hg : Sound g)
    (hb : g.blocks[b]? = some block) (hnext : (g.chart b).next = []) : block.successors = [] := by
  rw [chart_of_getElem? hb] at hnext
  refine List.eq_nil_iff_forall_not_mem.2 fun k hk => ?_
  have hnone := List.filterMap_eq_nil_iff.1 hnext k hk
  rw [Array.getElem?_eq_getElem (hg.slot_lt hb k hk)] at hnone
  exact nomatch hnone

/-- The block that ends the graph is found by its mark. -/
theorem Graph.findFlagged_finish {g : Graph} {e : BlockId} (hg : Sound g)
    (he : (g.chart e).flags.finish = true) (hfirst : ∀ b < e, (g.chart b).flags.finish = false) :
    g.findFlagged { finish := true } = some e := by
  have hcontains : ∀ f : BlockFlags, f.contains { finish := true } = f.finish := by
    intro f
    cases hf : f.finish <;> simp [BlockFlags.contains, BlockFlags.difference, BlockFlags.none, hf]
  have hlt : e < g.blocks.size := by
    by_contra hle
    rw [chart_of_size_le (not_lt.1 hle)] at he
    cases he
  have hflags : ∀ {c} (hc : c < g.blocks.size), (g.chart c).flags = g.blocks[c].flags :=
    fun hc => by rw [chart_of_getElem? (Array.getElem?_eq_getElem hc)]; rfl
  have hfind : g.blocks.find? (fun b => b.flags.contains { finish := true }) =
      some g.blocks[e] := by
    refine Array.find?_eq_some_iff_getElem.2 ⟨?_, e, hlt, rfl, fun b hb => ?_⟩
    · exact (hcontains _).trans ((congrArg (·.finish) (hflags hlt)).symm.trans he)
    · have hlt' : b < g.blocks.size := hb.trans hlt
      have hb' : g.blocks[b].flags.finish = false :=
        (congrArg (·.finish) (hflags hlt')).symm.trans (hfirst b hb)
      rw [hcontains, hb']
      rfl
  rw [findFlagged, hfind, Option.map_some, hg.placed (Array.getElem?_eq_getElem hlt)]

namespace Draft

variable {o : Options} {s : Scope} {p : Plan} {chs : List Chapter} {b : ℕ}

/-- Only the block that ends the graph is marked so, and a block that is left leads nowhere. -/
theorem spot_calm (h : Draft o s p chs) (hb : b < Chapter.extent chs) :
    (s.graph.chart b).flags.finish = false ∧
      ((s.graph.chart b).flags.ending = true → (s.graph.chart b).next = []) := by
  obtain ⟨i, c, hi, hhas⟩ := h.exists_has hb
  have hdrawn := h.drawn c (List.mem_of_getElem? hi)
  rw [h.chart hi b hhas]
  split
  · next heq =>
    have hopen := hdrawn.fragment.opened
    subst heq
    exact ⟨hopen.finish, fun hending => nomatch hopen.ending.symm.trans hending⟩
  · have hcalm := hdrawn.fragment.calm b (hdrawn.between_iff.2 hhas)
    exact ⟨hcalm.finish, hcalm.next⟩

theorem calm (h : Draft o s p chs) (hshaped : ∀ b, (s.graph.chart b).Shaped) : s.graph.Calm := by
  intro b block hblock ht
  refine Graph.successors_eq_nil h.sound.graph hblock ?_
  have hb : b < s.graph.size := (Array.getElem?_eq_some_iff.1 hblock).1
  obtain hlt | rfl := Nat.lt_succ_iff_lt_or_eq.1 (h.size ▸ hb)
  · exact (h.spot_calm hlt).2 ((hshaped b).ending_of_terminates ht)
  · obtain ⟨i, hi, -⟩ := ht
    rw [h.finish] at hi
    exact nomatch hi

/-- Calls are made from blocks that end in a PERFORM. -/
theorem transfers_of_call (h : Draft o s p chs) (hsigned : s.Signed)
    (hb : (s.graph.chart b).group.isSome) : (s.graph.chart b).Transfers := by
  obtain ⟨i, hi⟩ := Option.isSome_iff_exists.1 hb
  obtain ⟨group, hgroup, rfl⟩ := h.honest b i hi
  refine hsigned _ (List.mem_append_right _ (List.mem_map_of_mem ?_))
  exact Array.mem_toList_iff.2 (Array.mem_of_getElem? hgroup)

end Draft

/-- **A finished division.** Its draft holds all its nodes but the headers, below the block that
ends the graph, and what is resolved at its end changes none of them. Nothing has been done against
the protocol. -/
theorem DivisionText.exists_finished (d : DivisionText) (o : Options) (program : Option String)
    (id : NodeId) : ∃ s chs s' l, Draft o s (d.plan program (id + 1)) chs ∧
      (Build.play o ((Script.division d).run id).1 { procedures := { program } } =
        .ok ((), { s' with inDivision := false }) ∧ s.Reprints s' ∧ Sound s'.graph) ∧
      s.violations = [] ∧
      l.map (·.2) = ⟨id, .procedureDivision⟩ :: written ((Script.division d).run id).1 ∧
      s.graph.Logs l ∧ ∀ e ∈ l, e.1 + 1 < s.graph.size := by
  obtain ⟨s, chs, s', l, hdraft, hresolve, hplay, ⟨-, hlawful, hsigned⟩, hl, hlogs, hinside⟩ :=
    d.exists_written o program id
  have hprints : s.Reprints s' := Build.resolvePending_reprints o hsigned hlogs.shaped
    (hdraft.calm hlogs.shaped) (fun b => hdraft.transfers_of_call hsigned) () s' hresolve
  obtain ⟨hsound, -, -⟩ := (Build.resolvePending_faultless o).of_eq_ok hdraft.sound hresolve
  exact ⟨s, chs, s', l, hdraft, ⟨hplay, hprints, hsound.graph⟩, hlawful, hl, hlogs, hinside⟩

end CobolFlow
