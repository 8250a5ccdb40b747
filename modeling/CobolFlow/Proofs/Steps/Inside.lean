import CobolFlow.Proofs.Division.Plan
import CobolFlow.Proofs.Steps.Replay
import CobolFlow.Proofs.Writing.Grammar

/-!
# What is taken inside of a division

Statements enter no division and leave neither theirs nor its DECLARATIVES, so they are taken in
small steps only. The mode of a build and its nesting limit are looked at where a division is left,
and nowhere else.

## Main definitions

* `Notification.IsWithin`, `Notification.IsInside` — neither enters nor leaves a division, and does
  not leave DECLARATIVES either

## Main results

* `Replay.isInside` — it is true of what statements replay
* `Build.take_steps`, `Build.take_strides`, `Build.take_eq_take` — what follows for the builder
-/

namespace CobolFlow

/-- Only a division has the tag of one. -/
theorem NodeKind.eq_procedureDivision {kind : NodeKind} (h : kind.tag = .procedureDivision) :
    kind = .procedureDivision := by
  cases kind with
  | procedureDivision => rfl
  | goTo j => cases j <;> exact nomatch h
  | _ => exact nomatch h

namespace Notification

/-- Neither enters nor leaves a division. -/
def IsWithin : Notification → Prop
  | .enter n | .leave n => n.kind ≠ .procedureDivision
  | _ => True

/-- Neither enters nor leaves a division, and does not leave DECLARATIVES. -/
def IsInside : Notification → Prop
  | .enter n => n.kind ≠ .procedureDivision
  | .leave n => n.kind ≠ .procedureDivision ∧ n.kind ≠ .declaratives
  | _ => True

theorem IsInside.isWithin {e : Notification} (h : e.IsInside) : e.IsWithin := by
  cases e with
  | enter n => exact h
  | leave n => exact h.1
  | _ => trivial

theorem isInside_leave {n : Node} {kind : NodeKind} (hn : n.kind = kind)
    (h : kind ≠ .procedureDivision ∧ kind ≠ .declaratives) : (leave n).IsInside := by
  rwa [IsInside, hn]

/-- What may be left may be entered. -/
theorem IsInside.enter {n : Node} (h : (leave n).IsInside) : (enter n).IsInside := h.1

theorem isInside_enclosed {p : Node × List Notification} (hp : (leave p.1).IsInside)
    (h : ∀ e ∈ p.2, e.IsInside) : ∀ e ∈ enclosed p, e.IsInside := by
  intro e he
  obtain he | he := List.mem_append.1 he
  · obtain rfl | he := List.mem_cons.1 he
    · exact hp.enter
    · exact h e he
  · obtain rfl := List.mem_singleton.1 he
    exact hp

end Notification

theorem Case.isInside_clause (begins : Notification) (hbegins : begins.IsInside) {p : Case}
    (hphrases : ∀ m ∈ p.1, (Notification.leave m).IsInside) (h : ∀ e ∈ p.2, e.IsInside) :
    ∀ e ∈ Case.clause begins p, e.IsInside := by
  intro e he
  obtain he | he := List.mem_append.1 he
  · obtain ⟨m, hm, he⟩ := List.mem_flatMap.1 he
    obtain rfl | rfl : e = .enter m ∨ e = .leave m := by simpa using he
    · exact (hphrases m hm).enter
    · exact hphrases m hm
  · obtain rfl | he := List.mem_cons.1 he
    · exact hbegins
    · exact h e he

open Notification (IsInside isInside_leave isInside_enclosed) in
/-- What statements replay leaves neither the division nor its DECLARATIVES. -/
theorem Replay.isInside {l : List Notification} (h : Replay l) : ∀ e ∈ l, e.IsInside := by
  have happend : ∀ {l l' : List Notification}, (∀ e ∈ l, e.IsInside) → (∀ e ∈ l', e.IsInside) →
      ∀ e ∈ l ++ l', e.IsInside := fun h h' e he => (List.mem_append.1 he).elim (h e) (h' e)
  induction h with
  | nil => simp
  | append _ _ ih ih' => exact happend ih ih'
  | @leaf n hn _ =>
    have hleave : (Notification.leave n).IsInside :=
      ⟨fun h => by simp [Node.IsLeaf, h] at hn, fun h => by simp [Node.IsLeaf, h] at hn⟩
    exact isInside_enclosed (p := (n, [])) hleave (by simp)
  | @verb n conditions hn hconditions _ _ ih =>
    have hleave : (Notification.leave n).IsInside :=
      ⟨fun h => by simp [Node.IsVerb, h] at hn, fun h => by simp [Node.IsVerb, h] at hn⟩
    refine isInside_enclosed hleave fun e he => ?_
    obtain ⟨c, hc, he⟩ := List.mem_flatMap.1 he
    obtain ⟨phrase, hphrase⟩ := hconditions c hc
    exact isInside_enclosed (isInside_leave hphrase ⟨nofun, nofun⟩) (ih c hc) e he
  | ifThen hn _ _ ih => exact isInside_enclosed (isInside_leave hn ⟨nofun, nofun⟩) ih
  | ifThenElse hn hm _ _ _ ih ih' =>
    exact isInside_enclosed (isInside_leave hn ⟨nofun, nofun⟩)
      (happend ih (isInside_enclosed (isInside_leave hm ⟨nofun, nofun⟩) ih'))
  | evaluate hn hclauses hother _ _ _ ih ih' =>
    refine isInside_enclosed (isInside_leave hn ⟨nofun, nofun⟩) (happend ?_ ?_)
    · intro e he
      obtain ⟨c, hc, he⟩ := List.mem_flatMap.1 he
      exact Case.isInside_clause .whenClause trivial
        (fun m hm => isInside_leave (hclauses c hc m hm) ⟨nofun, nofun⟩) (ih c hc) e he
    · intro e he
      obtain ⟨c, hc, he⟩ := List.mem_flatMap.1 he
      exact Case.isInside_clause .whenOtherClause trivial
        (fun m hm => isInside_leave (hother c hc m hm) ⟨nofun, nofun⟩) (ih' c hc) e he
  | search hn hatEnd hclauses _ _ _ ih ih' =>
    refine isInside_enclosed (isInside_leave hn ⟨nofun, nofun⟩) (happend ?_ ?_)
    · intro e he
      obtain ⟨c, hc, he⟩ := List.mem_flatMap.1 he
      have hc := Option.mem_toList.1 hc
      exact isInside_enclosed (isInside_leave (hatEnd c hc) ⟨nofun, nofun⟩) (ih c hc) e he
    · intro e he
      obtain ⟨c, hc, he⟩ := List.mem_flatMap.1 he
      exact Case.isInside_clause (.searchClause false) trivial
        (fun m hm => isInside_leave (hclauses c hc m hm) ⟨nofun, nofun⟩) (ih' c hc) e he
  | loop hn _ _ ih => exact isInside_enclosed (isInside_leave hn ⟨nofun, nofun⟩) ih

namespace Item

/-- No heading is that of a division. -/
theorem isInside_enter (heading : Heading) (id : NodeId) :
    (Notification.enter (heading.node id)).IsInside := by
  cases heading <;> exact nofun

/-- A sentence, or a heading that is not that of DECLARATIVES. -/
theorem isInside_events {item : Item} (h : item.IsPlain) : ∀ e ∈ item.events, e.IsInside := by
  intro e he
  cases item with
  | enter heading id =>
    obtain rfl := List.mem_singleton.1 he
    exact isInside_enter heading id
  | leave heading id =>
    obtain rfl := List.mem_singleton.1 he
    cases heading with
    | declaratives => exact h.elim
    | sectionHeader name span => exact ⟨nofun, nofun⟩
    | paragraphHeader name span => exact ⟨nofun, nofun⟩
  | sentence id text =>
    obtain he | he := List.mem_append.1 (show e ∈ ((Script.statements text).run id).1 ++
      [.sentenceEnd] from he)
    · exact (Script.replay_statements text id).isInside e he
    · obtain rfl := List.mem_singleton.1 he
      trivial

/-- No item leaves the division. -/
theorem isWithin_events (item : Item) : ∀ e ∈ item.events, e.IsWithin := by
  have hplain : item.IsPlain → ∀ e ∈ item.events, e.IsWithin :=
    fun h e he => (isInside_events h e he).isWithin
  cases item with
  | enter heading id =>
    intro e he
    obtain rfl := List.mem_singleton.1 he
    exact (isInside_enter heading id).isWithin
  | leave heading id =>
    intro e he
    obtain rfl := List.mem_singleton.1 he
    cases heading <;> exact nofun
  | sentence id text => exact hplain trivial

end Item

/-- Nothing of a division leaves it. -/
theorem DivisionText.isWithin_items (d : DivisionText) (id : NodeId) :
    ∀ e ∈ (d.items.run id).1.flatMap Item.events, e.IsWithin := by
  intro e he
  obtain ⟨item, -, he⟩ := List.mem_flatMap.1 he
  exact item.isWithin_events e he

namespace Build

open Scope (Step Stride)

variable {o o' : Options} {e : Notification}

/-- A node is left in small steps if it is neither the division nor its DECLARATIVES. -/
theorem leaveNode_steps (o : Options) {n : Node} (hn : (Notification.leave n).IsInside) :
    Within Step (leaveNode o n) := by
  refine .bind (modify_steps (fun _ => rfl) (fun _ => rfl) (fun _ => rfl) fun _ => .inl rfl)
    fun _ => .bind .get fun s => ?_
  split
  · unfold leaveInside
    split
    · next hkind => exact absurd hkind hn.1
    · next hkind => exact absurd hkind hn.2
    · exact leaveIf_steps
    · exact leaveEvaluate_steps o
    · exact leaveSearch_steps o
    · exact leaveLoop_steps _
    · exact leaveException_steps _
    · exact .pure _
  · exact .pure _

theorem take_steps (o : Options) (he : e.IsInside) : Within Step (take o e) := by
  cases e with
  | enter n => exact enterNode_steps o fun htag => he (NodeKind.eq_procedureDivision htag)
  | leave n => exact leaveNode_steps o he
  | sentenceEnd => exact endSentence_steps
  | whenClause => exact startWhen_steps o
  | whenOtherClause => exact startWhenOther_steps
  | searchClause atEnd => exact startSearchWhen_steps o atEnd

theorem play_within {R : Scope → Scope → Prop} {events : List Notification}
    (h : ∀ e ∈ events, Within R (take o e)) : Within R (play o events) := by
  induction events with
  | nil => exact .pure _
  | cons e rest ih =>
    exact .bind (h e (by simp)) fun _ => ih fun e he => h e (by simp [he])

theorem play_steps (o : Options) {events : List Notification} (h : ∀ e ∈ events, e.IsInside) :
    Within Step (play o events) :=
  play_within fun e he => take_steps o (h e he)

/-- Short of the end of a division nothing large is done. -/
theorem take_strides (o : Options) (he : e.IsWithin) : Within Stride (take o e) := by
  have hsteps (h : e.IsInside) : Within Stride (take o e) :=
    (take_steps o h).mono fun _ _ => .step
  cases e with
  | leave n =>
    by_cases hn : n.kind = .declaratives
    · refine .bind (.mono (R := Step) (modify_steps (fun _ => rfl) (fun _ => rfl) (fun _ => rfl)
        fun _ => .inl rfl) fun _ _ => .step) fun _ => .bind .get fun s => ?_
      split
      · rw [leaveInside, hn]
        exact leaveDeclaratives_strides
      · exact .pure _
    · exact hsteps ⟨he, hn⟩
  | enter n => exact hsteps he
  | _ => exact hsteps trivial

theorem play_strides (o : Options) {events : List Notification} (h : ∀ e ∈ events, e.IsWithin) :
    Within Stride (play o events) :=
  play_within fun e he => take_strides o (h e he)

/-- Short of the end of a division only the lowerings matter. -/
theorem take_eq_take (hevaluate : o.evaluate = o'.evaluate) (hsearch : o.search = o'.search)
    (he : e.IsWithin) : take o e = take o' e := by
  obtain ⟨mode, evaluate, search, depth⟩ := o
  obtain ⟨mode', evaluate', search', depth'⟩ := o'
  obtain rfl : evaluate = evaluate' := hevaluate
  obtain rfl : search = search' := hsearch
  cases e with
  | leave n =>
    have hinside : leaveInside ⟨mode, evaluate, search, depth⟩ n =
        leaveInside ⟨mode', evaluate, search, depth'⟩ n := by
      unfold leaveInside
      split
      · next hkind => exact absurd hkind he
      all_goals rfl
    rw [take, take, leaveNode, leaveNode, hinside]
  | _ => rfl

theorem play_eq_play (hevaluate : o.evaluate = o'.evaluate) (hsearch : o.search = o'.search)
    {events : List Notification} (h : ∀ e ∈ events, e.IsWithin) :
    play o events = play o' events := by
  induction events with
  | nil => rfl
  | cons e rest ih =>
    change (take o e >>= fun _ => play o rest) = (take o' e >>= fun _ => play o' rest)
    rw [take_eq_take hevaluate hsearch (h e (by simp)), ih fun e he => h e (by simp [he])]

end Build

end CobolFlow
