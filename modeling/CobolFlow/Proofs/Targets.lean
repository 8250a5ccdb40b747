import CobolFlow.Proofs.Division.Course
import CobolFlow.Proofs.Leaving
import CobolFlow.Proofs.Place.Lasting

/-!
# Where a GO TO leads

Three passes have to do with the edges of a GO TO: ALTERs are collected while the division is read,
they are resolved when it ends, and then the GO TOs are, in the order of the source. The edges of a
GO TO are nevertheless those that its own text and the ALTERs suggest, in their order. Its block is
left behind when the GO TO has been entered, so that nothing is added to it before the division
ends; and what is added then leads to the targets, one after the other, where the block does not
lead yet.

## Main definitions

* `ProgramUnit.targetsOf` — the targets of a GO TO, with those that ALTERs add
* `ProgramUnit.LeadsJump` — where one GO TO leads

## Main results

* `StatementTree.build_leadsJumps` — for every GO TO of every tree
-/

namespace CobolFlow

open Scope

/-- The target that a clause of an ALTER adds to the GO TO at a node. Both names of the clause have
to stand for one procedure, and the procedure to be altered has to begin with this GO TO. -/
def ProgramFlow.added? (flow : ProgramFlow) (node : NodeId) (clause : AlterClause) :
    Option QualifiedName :=
  if (flow.procedures.find? clause.altered).isSome ∧ (flow.procedures.find? clause.target).isSome ∧
      flow.leadingJump? clause.altered = some node then some clause.target else none

namespace ProgramUnit

variable (o : Options) (u : ProgramUnit) (flow : ProgramFlow)

/-- The targets of a GO TO, in order: those that it names, and then, if it is a simple one, those
that ALTERs add. -/
def targetsOf (node : NodeId) : Jump → List QualifiedName
  | .simple target => target :: (u.landmarks.filterMap Landmark.alter?).flatMap fun w =>
    w.clauses.filterMap (flow.added? node)
  | .conditional targets => targets

/-- **Where a GO TO leads** that comes after some notifications. It stands in the block `b`, and
what follows it goes into the block `onward`. If it need not leave it leads on to this one; then it
leads to the blocks with which the procedures begin that its targets stand for, but to none of them
twice. -/
structure LeadsJump (before : List Notification) (n : Node) (j : Jump) (b onward : BlockId) :
    Prop where
  stands : ∃ k, u.StandsAt o before ⟨b, k⟩
  goesOn : u.StandsAt o (before ++ [.enter n]) ⟨onward, 0⟩
  block : flow.graph.blockFor n.id = some b
  last : (flow.graph.chart b).nodes.getLast? = some n.instruction
  /-- No target leads to where a GO TO goes on that need not leave. -/
  apart : j.isSimple = false → ∀ i, flow.procedures.firstBlock? i ≠ some onward
  next : (flow.graph.chart b).next = ((if j.isSimple then [] else [onward]) ++
    (u.targetsOf flow n.id j).filterMap flow.procedures.entrance?).eraseDups

/-- Where the GO TOs of a program lead. -/
def LeadsJumps : Prop :=
  ∀ before after n j, u.events = before ++ [.enter n] ++ after → n.kind = .goTo j →
    ∃ b onward, u.LeadsJump o flow before n j b onward

end ProgramUnit

/-! ### What is there when a GO TO has been entered -/

theorem Sketch.busy_of_goTo {Γ : Sketch} (hlt : Γ.here < Γ.size) (j : Jump) (i : Instruction)
    (t : Spot) : (if j.isSimple then Γ.depart i t else Γ.depend i t).Busy Γ.here := by
  cases j.isSimple <;>
    simp [Sketch.Busy, Sketch.depend, Sketch.depart, Sketch.fresh, Sketch.flag, Sketch.goTo,
      Sketch.edge, Sketch.say, Sketch.sayAt, BlockFlags.union, hlt.ne, hlt.trans]

namespace Scope

variable {o : Options} {s s' : Scope} {n : Node} {j : Jump} {b : BlockId}

/-- What encloses the next statement has nothing to do with the blocks left behind. -/
theorem Behind.under {t : NodeTag} (h : s.Behind s b) : (s.under t).Behind (s.under t) b := by
  obtain ⟨here, ⟨hlt, hspares, hhere, hforks, hawaiting, hdeclaratives⟩, hne⟩ := h
  exact ⟨here, ⟨hlt, hspares, hhere, hforks, hawaiting, hdeclaratives⟩, hne⟩

/-- The block of a GO TO is left behind at once, and what follows goes into a new one. -/
theorem Clear.of_goTo (h : s.Clear) (hn : n.kind = .goTo j)
    (htake : Build.take o (.enter n) s = .ok ((), s')) : Sound s'.graph ∧
      s'.place = ⟨s.graph.size, 0⟩ ∧ s'.graph.Settled s.sketch.here ∧
      s'.Behind s' s.sketch.here := by
  obtain ⟨s₁, l, rfl, hsince⟩ := h.ready.of_goTo hn htake
  have hlt : s.sketch.here < s.sketch.size := h.ready.opened.here_lt
  set Γ := if j.isSimple then s.sketch.depart n.instruction s.spot
    else s.sketch.depend n.instruction s.spot with hΓ
  have hsize : Γ.size = s.sketch.size + 1 := by rw [hΓ]; split <;> rfl
  have hhere : Γ.here = s.sketch.size := by rw [hΓ]; split <;> rfl
  have hblank : (Γ.chart Γ.here).nodes = [] := by
    rw [hhere, hΓ]
    cases j.isSimple <;>
      simp [Sketch.depend, Sketch.depart, Sketch.fresh, Sketch.flag, Sketch.goTo, Sketch.edge,
        Sketch.say, Sketch.sayAt, hlt.ne']
  refine ⟨hsince.sound.graph, ?_, ?_, Behind.under ?_⟩
  · have hsentence : s₁.currentSentence.isSome = true :=
      hsince.currentSentence ▸ h.ready.currentSentence
    change s₁.place = _
    rw [place, if_pos hsentence, hsince.scope_sketch, Sketch.place, hblank, hhere]
    rfl
  · change s₁.graph.Settled _
    rw [settled_iff hsince.sound, hsince.scope_sketch]
    exact Sketch.busy_of_goTo hlt j _ _
  · exact h.behind_of_since hsince (hsize ▸ Nat.lt_succ_of_lt hlt) (.inl rfl) (hhere ▸ hlt.ne)

end Scope

/-! ### Targets that ALTERs add -/

namespace ProgramUnit

variable {o : Options} {u : ProgramUnit} {d : DivisionText} {flow : ProgramFlow}
  {s₀ s s₁ s₂ : Scope} {chs : List Chapter} {l : Log} {b onward : BlockId} {n : Node} {j : Jump}

/-- What a procedure begins with is there in the draft. -/
theorem leadingJump?_eq (h : flow.StemsFrom s) (hs : Sound s) {name : QualifiedName} :
    flow.leadingJump? name = (s.procedures.find? name).bind (Build.leading? s) := by
  rw [ProgramFlow.leadingJump?, Procedures.entrance?_eq h.bare, Procedures.entrance?]
  cases s.procedures.find? name with
  | none => rfl
  | some p =>
    rw [Option.bind_some, Option.bind_some, Build.leading?]
    cases hb : (s.procedures.opening? p).bind s.procedures.firstBlock? with
    | none => rfl
    | some b =>
      obtain ⟨i, -, hi⟩ := Option.bind_eq_some_iff.1 hb
      obtain ⟨t, ht, hfirst⟩ := Option.bind_eq_some_iff.1 hi
      have hlt := (hs.sentence ht).blocks b (List.mem_of_head? hfirst)
      rw [Option.bind_some, Option.bind_some, h.nodes b hlt]

/-- A clause of an ALTER adds its target where it should. -/
theorem alteration?_eq (h : flow.StemsFrom s) (hs : Sound s) (node : NodeId)
    (clause : AlterClause) : ((Build.alteration? s clause).filter (·.1 == node)).map (·.2) =
      flow.added? node clause := by
  rw [ProgramFlow.added?, leadingJump?_eq h hs, Build.alteration?,
    (Procedures.SameNames.of_bare h.bare).find?_eq]
  cases s.procedures.find? clause.altered with
  | none => rfl
  | some p =>
    cases s.procedures.find? clause.target with
    | none => simp
    | some q => cases hp : Build.leading? s p with
      | none => simp [hp]
      | some m => by_cases hm : m = node <;> simp [hp, hm, Option.filter]

/-- The targets of a GO TO are collected in order. -/
theorem jumpTargets_eq (h : u.Arises o d flow s chs s₁ s₂) (w : PendingJump) :
    Build.jumpTargets s.alterations w = u.targetsOf flow w.node w.jump := by
  cases hj : w.jump with
  | conditional targets => simp only [Build.jumpTargets, hj, targetsOf]
  | simple target =>
    have hadded : Build.Alterations.of s.alterations w.node =
        (u.landmarks.filterMap Landmark.alter?).flatMap fun w' =>
          w'.clauses.filterMap (flow.added? w.node) := by
      rw [Build.Alterations.of, Scope.alterations, h.draft.alters, h.landmarks,
        List.filter_flatMap, List.map_flatMap]
      refine List.flatMap_congr fun w' _ => ?_
      rw [List.filter_filterMap, List.map_filterMap]
      exact List.filterMap_congr fun clause _ => alteration?_eq h.stemsFrom h.draft.sound _ clause
    simp only [Build.jumpTargets, hj, targetsOf, hadded]

/-! ### The block of a GO TO -/

theorem isKept_of_goTo (hn : n.kind = .goTo j) : n.tag.isKept = true := by
  rw [Node.tag, hn, NodeKind.tag_goTo]
  split <;> rfl

namespace Arises

variable (h : u.Arises o d flow s chs s₁ s₂) (hl : u.Lists flow (Chapter.extent chs) l)
  (hmem : .enter n ∈ u.events) (hn : n.kind = .goTo j)
  (hnodes : n.instruction ∈ (s.graph.chart b).nodes)
include h hl hmem hn hnodes

/-- The block in which a GO TO stands is that of its landmark. -/
theorem exists_mark_of_mem : ∃ c ∈ chs, (b, .jump n.id n.span j) ∈ c.marks ∧
    (flow.graph.chart b).nodes.getLast? = some n.instruction := by
  have hlt : b < Chapter.extent chs := by
    by_contra hge
    obtain heq | hgt := (not_lt.1 hge).eq_or_lt
    · rw [← heq, h.draft.finish] at hnodes
      exact nomatch hnodes
    · rw [Graph.chart_of_size_le (h.draft.size ▸ hgt)] at hnodes
      exact nomatch hnodes
  rw [← h.stemsFrom.nodes b (h.draft.lt_size hlt)] at hnodes
  obtain ⟨c, hc, b', hm⟩ := h.exists_mark (jump_mem_landmarks_iff.2 ⟨n, hmem, hn, rfl, rfl⟩)
  obtain ⟨-, hlt', -⟩ := h.signs_of_mark hc hm rfl
  obtain ⟨n', -, -, hid, hlast⟩ := h.exists_enter_of_mark hl hc hm
  obtain ⟨rfl, hsame⟩ := hl.eq_of_node hlt' (List.mem_of_getLast? hlast) hlt hnodes hid
  exact ⟨c, hc, hm, hsame ▸ hlast⟩

/-- A node is found in the block in which it stands. -/
theorem blockFor_eq (hyields : u.Yields o flow) : flow.graph.blockFor n.id = some b := by
  obtain ⟨e, b', hfind, hlt', hnodes', hfor, -⟩ :=
    hyields.keepsStatements.once n hmem (isKept_of_goTo hn)
  obtain rfl := Option.some.inj (hfind.symm.trans h.findFlagged_finish)
  obtain ⟨c, hc, hm, hlast⟩ := h.exists_mark_of_mem hl hmem hn hnodes
  obtain ⟨-, hlt, -⟩ := h.signs_of_mark hc hm rfl
  rw [hfor, (hl.eq_of_node hlt' hnodes' hlt (List.mem_of_getLast? hlast) rfl).1]

/-- Where a GO TO goes on that need not leave, no sentence begins. -/
theorem firstBlock?_ne (hlt : b < onward) (hnext : onward ∈ (s.graph.chart b).next)
    (i : SentenceId) : s.procedures.firstBlock? i ≠ some onward := by
  obtain ⟨c, hc, hm, -⟩ := h.exists_mark_of_mem hl hmem hn hnodes
  obtain ⟨k, hk⟩ := List.mem_iff_getElem?.1 hc
  obtain ⟨hhas, -, hne, -⟩ := h.signs_of_mark hc hm rfl
  have hdrawn := h.draft.drawn c hc
  -- it is another block of the same chapter
  rw [h.draft.chart hk b hhas, if_neg hne] at hnext
  have honward : c.Has onward := hdrawn.between_iff.1
    (hdrawn.fragment.closed b (hdrawn.between_iff.2 hhas) onward hnext)
  intro hfirst
  obtain ⟨k', -, c', hk', rfl⟩ := h.draft.firstBlock?_eq_some_iff.1 hfirst
  have hc' := List.mem_of_getElem? hk'
  obtain rfl := h.draft.eq_of_mem_of_has hc hc' honward (h.draft.drawn c' hc').has_start
  exact hlt.not_ge hhas.1

/-- **The edges of a GO TO** lead on if it need not leave, and then to its targets. -/
theorem next_eq_of_goTo (hlt : b < onward)
    (hnext : (s.graph.chart b).next = if j.isSimple then [] else [onward]) :
    (flow.graph.chart b).next = ((if j.isSimple then [] else [onward]) ++
      (u.targetsOf flow n.id j).filterMap flow.procedures.entrance?).eraseDups := by
  obtain ⟨c, hc, hm, -⟩ := h.exists_mark_of_mem hl hmem hn hnodes
  obtain ⟨-, hlt', -⟩ := h.signs_of_mark hc hm rfl
  set w : PendingJump := ⟨n.id, n.span, j, b⟩
  have honce : s.LeadsOnce w.block := by
    refine ⟨fun {k c i} hk hslot hfirst => ?_, ?_⟩
    · have hedge : c ∈ (s.graph.chart b).next :=
        s.graph.next_eq_edgeSlots b ▸ List.mem_filterMap.2 ⟨k, hk, hslot⟩
      obtain rfl : c = onward := by
        rw [hnext] at hedge
        split at hedge
        · exact nomatch hedge
        · exact List.mem_singleton.1 hedge
      exact absurd hfirst (h.firstBlock?_ne hl hmem hn hnodes hlt hedge i)
    · rw [hnext]
      split <;> simp
  have hdrawn := h.ordered w (h.draft.mem_jumps.2 ⟨c, hc, hm⟩) honce
  obtain ⟨-, -, -, hsame⟩ := h.chart_eq (h.draft.lt_size hlt')
  rw [hsame (h.group_of_jumps hl hlt' (h.jumps_of_mark hl hc hm rfl)), hdrawn, hnext,
    jumpTargets_eq h, Procedures.entrance?_eq h.bare]

end Arises

theorem Yields.leadsJumps (h : u.Yields o flow) : u.LeadsJumps o flow := by
  intro before after n j hevents hn
  have hinside : ∀ e ∈ [Notification.enter n], e.IsInside := by
    rintro e he
    rw [List.mem_singleton.1 he]
    exact fun hkind => nomatch hn.symm.trans hkind
  obtain ⟨d, before', after', hd, rfl, hitems⟩ := exists_of_events_eq hevents (by simp) hinside
  obtain ⟨t, -, hplay, -⟩ := (Outline.start o u.program u.id).exists_play
    (d.items.run (u.id + 1)).1 (d.allowsAll_items u.program (u.id + 1))
  rw [hitems] at hplay
  obtain ⟨s', hplay', -⟩ := Build.exists_of_play_append hplay
  obtain ⟨s, hbefore, htake⟩ := Build.exists_of_play_append hplay'
  rw [Build.play_singleton] at htake
  -- The GO TO might as well begin in a clear block.
  obtain ⟨s₀, hclear, hplace, htake'⟩ : s.Begins o n := by
    have hadmits := d.admits_items o u.program u.id
    rw [hitems, List.append_assoc] at hadmits
    refine ((Build.Admits.append_iff.1 hadmits).2 s hbefore).1.2 ?_
    rw [Node.tag, hn, NodeKind.tag_goTo]
    split <;> rfl
  rw [← htake'] at htake
  obtain ⟨hsound, hplace', hsettled, hleft⟩ := hclear.of_goTo hn htake
  obtain ⟨hnodes, hnext⟩ := hclear.ready.next_of_goTo hn htake
  set b := s₀.sketch.here
  have hlt : b < s₀.graph.size := hclear.ready.opened.here_lt
  -- What it has made of its block is there when the division has been drawn.
  obtain ⟨s₃, chs, s₁, s₂, harises, hlengthens, hbehind⟩ := h.exists_arises_of_play hd hitems hplay'
  obtain ⟨here, haside, -⟩ := hbehind b hsettled hleft
  have hchart := haside.spares.chart_eq hsound haside.lt
  rw [← hchart] at hnodes hnext
  obtain ⟨last, l, hl, hlast⟩ := h.exists_lists hd
  obtain rfl := Option.some.inj (hlast.symm.trans harises.findFlagged_finish)
  have hmem : .enter n ∈ u.events := by simp [hevents]
  have hentered : ∀ {events : List Notification} {s : Scope},
      Build.play o events (Scope.started u.program u.id) = .ok ((), s) →
        u.StandsAt o (.enter { id := u.id, kind := .procedureDivision } :: events) s.place :=
    fun hplay => ⟨_, (Build.play_cons (Build.take_division o u.program u.id)).trans hplay, rfl⟩
  obtain ⟨c, hc, hm, hlastInstruction⟩ := harises.exists_mark_of_mem hl hmem hn hnodes
  refine ⟨b, s₀.graph.size, ⟨(s₀.graph.chart b).nodes.length, ?_⟩, ?_,
    harises.blockFor_eq hl hmem hn hnodes h, hlastInstruction, fun hj i => ?_,
    harises.next_eq_of_goTo hl hmem hn hnodes hlt hnext⟩
  · have hstands := hentered hbefore
    rw [← hplace, hclear.ready.place_eq] at hstands
    exact hstands
  · exact hplace' ▸ hentered hplay'
  · rw [Procedures.firstBlock?_eq harises.bare]
    exact harises.firstBlock?_ne hl hmem hn hnodes hlt (by simp [hnext, hj]) i

end ProgramUnit

/-- **Where GO TOs lead.** For every tree and every options there is a result, and in each of its
programs the edges from the block of a GO TO are, in this order and without repetition, the one to
where it goes on, if it need not leave, and one to where each of its targets begins. -/
theorem StatementTree.build_leadsJumps (t : StatementTree) (o : Options) : ∃ flows,
    t.build o = .ok flows ∧ List.Forall₂ (fun u flow => u.LeadsJumps o flow) t.units flows := by
  obtain ⟨flows, hbuild, hflows⟩ := t.exists_build o
  exact ⟨flows, hbuild, hflows.imp fun _ _ h => h.leadsJumps⟩

/-- A paragraph P that may go on from its GO TO, or back to itself. -/
def jumpBack : StatementTree where
  programs := [.mk "A" .program (some { paragraphs := [
    { name := "P", sentences := [[.mk
      (.goTo [{ name := "P" }, { name := "Q" }, { name := "P" }] true) none .unknown]] }] }) []]

/-- The GO TO of `jumpBack` stands in block 1, with which P begins, and goes on in block 2. There is
no paragraph Q. -/
example : (jumpBack.build {}).toOption.map (·.map fun flow => (flow.graph.chart 1).next) =
    some [[2, 1]] := by
  cbv

end CobolFlow
