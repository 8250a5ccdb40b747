import CobolFlow.Proofs.Calls.Results
import CobolFlow.Proofs.Place.Crossing
import CobolFlow.Proofs.Place.Division
import CobolFlow.Proofs.Steps.Lengthening

/-!
# What a statement does is there in the end

A statement without jumps, calls and alterations makes a fragment that lies in the finished graph as
it was made: its blocks are left behind when the statement is left, and what is left behind stays,
through the rest of the division and through everything that is resolved at its end. Only the block
in which it goes on may be written into, and only behind what stands there already.

So what is read on the passages from where a statement begins to where it goes on is what it means,
wherever it stands and whatever else the program does.

## Main definitions

* `ProgramUnit.StandsAt` — the place that has been reached in the middle of a replay
* `ProgramUnit.Does` — what is read on the passages through a part of a replay

## Main results

* `Build.play_behind` — what is left behind stays behind until the division ends
* `ProgramUnit.Yields.does` — every statement without landmarks does what it means
-/

namespace CobolFlow

open Scope
open Notification (enclosed)

/-! ### What is left behind -/

namespace Build

variable {o : Options} {s₀ s s' : Scope} {b : BlockId} {events : List Notification}

/-- **What is left behind stays behind** for the rest of a division. -/
theorem play_behind (hb : s₀.graph.Settled b) (h : s.Behind s₀ b) (hadmits : Admits o events s) :
    Ensures (play o events) s fun _ s' => s'.Behind s₀ b := by
  induction events generalizing s with
  | nil => exact .pure h
  | cons e rest ih =>
    refine .bind (fun r s₁ htake => ?_) fun _ s₁ (h₁ : s₁.Behind s₀ b ∧ Admits o rest s₁) =>
      ih h₁.1 h₁.2
    exact ⟨take_behind hb h hadmits.1.1 r s₁ htake, hadmits.2 s₁ htake⟩

end Build

/-- What is written of a sentence leaves its blocks behind, but for the one in which it goes on. -/
theorem Scope.Clear.behind_of_since {s s' : Scope} {Γ : Sketch} {l : Ledger} {b : ℕ} (h : s.Clear)
    (hsince : Since s s' Γ s.forks l) (hlt : b < Γ.size) (hb : s.sketch.Between Γ b)
    (hne : b ≠ Γ.here) : s'.Behind s' b := by
  have hpast : ∀ c < s.graph.size, c ≠ s.sketch.here → c ≠ b := by
    rintro c hc hne' rfl
    exact hb.elim hne' fun hnew => hc.not_ge hnew.1
  have hbusy : ∀ c, s.sketch.Busy c → c ≠ b := fun c hc =>
    hpast c hc.1 fun heq => h.ready.opened.not_busy (heq ▸ hc)
  refine ⟨some Γ.here, ⟨hsince.size ▸ hlt, .refl b s'.graph, hsince.here, fun f hf => ?_, id,
    fun hmem => ?_⟩, fun heq => hne (Option.some.inj heq).symm⟩
  · have hheld := h.held f (hsince.forks ▸ hf)
    refine ⟨fun horigin => ?_, fun hloop => ?_⟩
    · obtain ⟨c, hc, hc'⟩ := hheld.origin
      exact hbusy c hc' (Option.some.inj (hc.symm.trans horigin))
    · obtain ⟨test, body, rest, hbranches, htest⟩ := hheld.test hloop
      exact ⟨test, body, rest, hbranches, hbusy test htest⟩
  · rw [hsince.keeps Scope.declaratives fun _ => rfl] at hmem
    exact hpast b (h.ready.sound.declaratives b hmem) (fun heq => h.declaratives (heq ▸ hmem)) rfl

/-- A piece without landmarks puts nothing aside. -/
theorem Scope.Clear.not_mem_awaiting {s s' : Scope} {events : List Notification} {B : Behaviour}
    {b : ℕ} (h : s.Clear) (hadvance : Advance s s' events B [])
    (hb : s.sketch.Between s'.sketch b) : b ∉ s'.awaiting := by
  intro hmem
  rw [awaiting_eq, hadvance.since.ledger] at hmem
  obtain rfl | hnew := hb
  · exact h.awaiting hmem
  · exact (awaiting_lt h.ready.sound hmem).not_ge hnew.1

namespace ProgramUnit

variable {o : Options} {u : ProgramUnit} {d : DivisionText} {flow : ProgramFlow}
  {s₀ s s₁ s₂ : Scope} {chs : List Chapter} {b : BlockId}

/-- In the end a block that has been left behind is as it was, if nothing waits at it. -/
theorem Arises.chart_eq_of_behind (h : u.Arises o d flow s chs s₁ s₂) (hs₀ : Sound s₀.graph)
    (hb : s.Behind s₀ b) (hawaiting : b ∉ s₀.awaiting) :
    flow.graph.chart b = s₀.graph.chart b := by
  obtain ⟨here, haside, -⟩ := hb
  have hnot : b ∉ s.awaiting := fun hmem => hawaiting (haside.awaiting hmem)
  have hlt : b < s.graph.size := haside.lt_size
  have hlinks : s₁.graph.chart b = s.graph.chart b := h.links.chart_eq fun c hjump => by
    refine hnot (List.mem_append_left _ (List.mem_append.2 ?_))
    obtain ⟨w, hw, rfl, -⟩ | ⟨w, hw, rfl, -⟩ := hjump
    · exact .inr (List.mem_map_of_mem hw)
    · exact .inl (List.mem_map_of_mem hw)
  have hgroup : (s₁.graph.chart b).group = none := by
    rw [hlinks, Option.eq_none_iff_forall_ne_some]
    intro i hi
    obtain ⟨group, hgroup, hsite⟩ := h.draft.honest b i hi
    refine hnot (List.mem_append_right _ (List.mem_map.2 ⟨group, ?_, hsite⟩))
    exact Array.mem_toList_iff.2 (Array.mem_of_getElem? hgroup)
  obtain ⟨-, -, -, hcall⟩ := h.chart_eq hlt
  rw [hcall hgroup, hlinks, haside.spares.chart_eq hs₀ haside.lt]

/-- In the end what was written in a block of the draft is still there. -/
theorem Arises.nodes_eq (h : u.Arises o d flow s chs s₁ s₂) (hb : b < s.graph.size) :
    (flow.graph.chart b).nodes = (s.graph.chart b).nodes := by
  obtain ⟨m, next, hchart, -⟩ := h.chart_eq hb
  rw [hchart, ← h.links.nodes b]

variable (o u) in
/-- The place where the next statement goes when some notifications have been read. -/
def StandsAt (events : List Notification) (p : Place) : Prop :=
  ∃ s, Build.play o events { procedures := { program := u.program } } = .ok ((), s) ∧ s.place = p

variable (o u flow) in
/-- On the passages from where a part of the replay begins to where it goes on, `falls` is read, and
on those on which the program ends in between, `halts`. -/
def Does (before part : List Notification) (falls halts : Language Instruction) : Prop :=
  ∃ p q, u.StandsAt o before p ∧ u.StandsAt o (before ++ part) q ∧
    (∀ w, flow.graph.chart.Arrives q p w ↔ w ∈ falls) ∧
    ∀ w, flow.graph.chart.Ends q p w ↔ w ∈ halts

/-- A part of a program that is inside of its division stands among the items of it. -/
theorem exists_of_events_eq {before part after : List Notification}
    (h : u.events = before ++ part ++ after) (hpart : part ≠ [])
    (hinside : ∀ e ∈ part, e.IsInside) :
    ∃ d before' after', u.division = some d ∧
      before = .enter { id := u.id, kind := .procedureDivision } :: before' ∧
      (d.items.run (u.id + 1)).1.flatMap Item.events = before' ++ part ++ after' := by
  cases hd : u.division with
  | none => simp [events, hd, hpart] at h
  | some d =>
    -- The first notification enters the division and the last one leaves it.
    simp only [events, hd, d.run_division] at h
    obtain _ | ⟨e, before'⟩ := before
    · obtain ⟨e, rest, rfl⟩ := List.exists_cons_of_ne_nil hpart
      obtain rfl : _ = e := (List.cons.inj h).1
      exact (hinside _ List.mem_cons_self rfl).elim
    obtain rfl | ⟨after', e', rfl⟩ := List.eq_nil_or_concat after
    · have hlast := congrArg List.getLast? h
      rw [List.append_nil, List.getLast?_append, List.getLast?_append,
        List.getLast?_eq_some_getLast hpart] at hlast
      have heq : (.leave { id := u.id, kind := .procedureDivision } : Notification) =
        part.getLast hpart := Option.some.inj hlast
      have hnot := hinside _ (List.getLast_mem hpart)
      rw [← heq] at hnot
      exact (hnot.1 rfl).elim
    · simp only [List.cons_append, List.cons.injEq] at h
      refine ⟨d, before', after', rfl, by rw [h.1], ?_⟩
      rw [List.concat_eq_append, ← List.append_assoc] at h
      exact (List.append_inj' h.2 rfl).1

/-- A result comes about in its stages from what the first items of its division have made: what
they have left behind stays behind until the division is drawn, and in every block what was written
remains, if nothing else. -/
theorem Yields.exists_arises_of_play (h : u.Yields o flow) (hd : u.division = some d)
    {pre rest : List Notification}
    (hitems : (d.items.run (u.id + 1)).1.flatMap Item.events = pre ++ rest)
    (hpre : Build.play o pre (Scope.started u.program u.id) = .ok ((), s₀)) :
    ∃ s chs s₁ s₂, u.Arises o d flow s chs s₁ s₂ ∧ s₀.graph.Lengthens s.graph ∧
      ∀ b, s₀.graph.Settled b → s₀.Behind s₀ b → s.Behind s₀ b := by
  obtain ⟨t, chs, hplay, houtline, -⟩ := (Outline.start o u.program u.id).exists_play
    (d.items.run (u.id + 1)).1 (d.allowsAll_items u.program (u.id + 1))
  obtain ⟨s, s₁, s₂, hfinish, harises⟩ := h.arises_of_outline hd houtline hplay
  have hadmits := d.admits_items o u.program u.id
  rw [hitems] at hplay hadmits
  have hrest : Build.play o rest s₀ = .ok ((), t) := (Build.play_append hpre).symm.trans hplay
  have hwithin : ∀ e ∈ rest, e.IsWithin := fun e he =>
    d.isWithin_items (u.id + 1) e (by simp [hitems, he])
  refine ⟨s, chs, s₁, s₂, harises, ?_, fun b hsettled hbehind => ?_⟩
  · exact (Build.lengthens_of_strides (Build.play_strides o hwithin) s₀ () t hrest).trans
      (Build.lengthens_of_strides (Build.finishBlocks_steps.mono fun _ _ => .step)
        { t with enclosing := t.enclosing.tail } () s hfinish)
  · have hbehind' : ({ t with enclosing := t.enclosing.tail } : Scope).Behind s₀ b :=
      (Build.play_behind hsettled hbehind ((Build.Admits.append_iff.1 hadmits).2 s₀ hpre) () t
        hrest).congr rfl rfl rfl rfl rfl
    exact hbehind'.finishBlocks () s hfinish

/-- What the first items of a division have made is there in the end, where it has been left behind
and nothing waits. In every block what was written is there, if nothing else. -/
theorem Yields.lasts (h : u.Yields o flow) (hd : u.division = some d) {pre rest : List Notification}
    (hitems : (d.items.run (u.id + 1)).1.flatMap Item.events = pre ++ rest)
    (hpre : Build.play o pre (Scope.started u.program u.id) = .ok ((), s₀))
    (hs₀ : Sound s₀.graph) :
    (∀ b, s₀.graph.Settled b → s₀.Behind s₀ b → b ∉ s₀.awaiting →
      flow.graph.chart b = s₀.graph.chart b) ∧
      ∀ b < s₀.graph.size, (s₀.graph.chart b).nodes <+: (flow.graph.chart b).nodes := by
  obtain ⟨s, chs, s₁, s₂, harises, hlengthens, hbehind⟩ := h.exists_arises_of_play hd hitems hpre
  refine ⟨fun b hsettled hb hawaiting =>
    harises.chart_eq_of_behind hs₀ (hbehind b hsettled hb) hawaiting, fun b hb => ?_⟩
  rw [harises.nodes_eq (hb.trans_le hlengthens.size_le)]
  exact hlengthens.nodes b

/-- **Every statement without landmarks does what it means**, wherever it stands. -/
theorem Yields.does (h : u.Yields o flow) {before after : List Notification} {st : Statement}
    {id : NodeId} (hevents : u.events = before ++ ((Script.statement st).run id).1 ++ after)
    (hlandmarks : ((Script.statement st).run id).1.filterMap (·.landmark?) = []) :
    u.Does o flow before ((Script.statement st).run id).1
      ((Meaning.statement o st).run id).1.falls
      (((Meaning.statement o st).run id).1.exits .halt) := by
  obtain ⟨n, inside, henter, hstatement, -⟩ := Script.exists_enter st id
  obtain ⟨d, before', after', hd, rfl, hitems⟩ := exists_of_events_eq hevents (by simp [henter])
    (Script.replay_statement st id).isInside
  have hplays := (says_statement o st id).2
  set script := ((Script.statement st).run id).1
  obtain ⟨t, chs, hplay, -⟩ := (Outline.start o u.program u.id).exists_play
    (d.items.run (u.id + 1)).1 (d.allowsAll_items u.program (u.id + 1))
  rw [hitems] at hplay
  obtain ⟨s', hplay', -⟩ := Build.exists_of_play_append hplay
  obtain ⟨s, hbefore, hscript⟩ := Build.exists_of_play_append hplay'
  -- The statement might as well begin in a clear block.
  obtain ⟨s₀, hclear, hplace, htake⟩ : s.Begins o n := by
    have hadmits := d.admits_items o u.program u.id
    rw [hitems, List.append_assoc, henter] at hadmits
    exact ((Build.Admits.append_iff.1 hadmits).2 s hbefore).1.2 hstatement
  have hscript₀ : Build.play o script s₀ = .ok ((), s') := by
    rw [henter] at hscript ⊢
    obtain ⟨s₃, htake', hrest⟩ := Build.exists_of_play_cons hscript
    exact (Build.play_cons (htake.trans htake')).trans hrest
  obtain ⟨hclear', -⟩ := hclear.of_plays (hplays s₀ hclear.ready) hscript₀
  obtain ⟨s'', L, hscript', hadvance⟩ := hplays s₀ hclear.ready
  obtain rfl : s'' = s' := (Prod.mk.inj (Except.ok.inj (hscript'.symm.trans hscript₀))).2
  obtain rfl : L = [] := List.map_eq_nil_iff.1 (hadvance.kinds.trans hlandmarks)
  obtain ⟨S, hS, hconfined, hwithin, hfalls, hhalts⟩ :=
    hadvance.fragment.exists_crossing hclear.ready.opened.here_lt (by simp [Landmarks.exits])
  -- It is left behind, but for the block in which the sentence goes on.
  obtain ⟨hbehind, hnodes⟩ := h.lasts hd hitems hplay' hclear'.ready.sound.graph
  have hagree : Chart.Agree s''.graph.chart flow.graph.chart s''.sketch.place S := by
    refine ⟨fun b hb hne => ?_, ?_⟩
    · exact hbehind b ((settled_iff hclear'.ready.sound).2 ((hS b hb).2 hne))
        (hclear.behind_of_since hadvance.since
          (Fragment.between_lt hclear.ready.opened.here_lt hadvance.fragment (hS b hb).1)
          (hS b hb).1 hne)
        (hclear.not_mem_awaiting hadvance (hS b hb).1)
    · obtain ⟨more, hmore⟩ := hnodes s''.sketch.here hclear'.ready.opened.here_lt
      change ((flow.graph.chart s''.sketch.here).nodes.take _) = _
      rw [← hmore]
      exact List.take_append_of_le_length le_rfl
  refine ⟨s.place, s''.place, ⟨s, ?_, rfl⟩, ⟨s'', ?_, rfl⟩, fun w => ?_, fun w => ?_⟩
  · exact (Build.play_cons (Build.take_division o u.program u.id)).trans hbefore
  · exact (Build.play_cons (Build.take_division o u.program u.id)).trans hplay'
  · rw [← hplace, hclear.ready.place_eq, hclear'.ready.place_eq, ← hfalls]
    exact Chart.arrives_congr hconfined hagree hwithin
  · rw [← hplace, hclear.ready.place_eq, hclear'.ready.place_eq, ← hhalts]
    exact Chart.ends_congr hconfined hagree hwithin

end ProgramUnit

end CobolFlow
