import CobolFlow.Proofs.Division.Units

/-!
# Programs inside programs do not disturb each other

A program may begin anywhere inside of another, in the middle of a statement or of a sentence.
Whatever is reported of it goes to a scope of its own, until it is left, and then the program around
it goes on as if nothing had been. So a program and all that is contained in it can be taken out of
a replay, and what the replay answers for each of the other programs stays the same, but that later
programs move to the front.

The events inside of a program may be in any order and need not make sense. All that is asked of
them is that the programs among them are left as often as they are entered.

## Main definitions

* `Notification.WellNested` — programs among the events are left as often as they are entered
* `Notification.entered` — the programs that are entered
* `Builder.InOrder` — results come in the order in which programs were entered
* `Builder.SameBut` — results are the same but for some that stand between them

## Main results

* `Builder.run_insulates` — what becomes of a replay from which a program is taken out
-/

namespace CobolFlow

namespace Notification

/-- What a notification does to the programs that are open. -/
inductive Scoping
  | opens (name : String) (kind : ProgramKind)
  | closes
  /-- A procedure division begins, and with it a program if none is open. -/
  | begins
  | inside

/-- What the notification does to the programs that are open. -/
def scoping : Notification → Scoping
  | .enter n =>
    match n.kind with
    | .program name => .opens name .program
    | .function name => .opens name .function
    | .procedureDivision => .begins
    | _ => .inside
  | .leave n =>
    match n.kind with
    | .program _ | .function _ => .closes
    | _ => .inside
  | _ => .inside

/-- Programs and functions among the events are left as often as they are entered, and none is left
that was not entered. -/
inductive WellNested : List Notification → Prop
  | nil : WellNested []
  | inner {e : Notification} {rest : List Notification} (he : e.IsInner) (hrest : WellNested rest) :
      WellNested (e :: rest)
  | program {e e' : Notification} {inner rest : List Notification} {name : String}
      {kind : ProgramKind} (he : e.scoping = .opens name kind) (he' : e'.scoping = .closes)
      (hinner : WellNested inner) (hrest : WellNested rest) :
      WellNested (e :: inner ++ e' :: rest)

/-- The programs and functions that are entered one after another while `depth` others are open. A
procedure division outside any program begins one without a name. -/
def entered : ℕ → List Notification → List (String × ProgramKind)
  | _, [] => []
  | depth, e :: rest =>
    match e.scoping with
    | .opens name kind => (name, kind) :: entered (depth + 1) rest
    | .closes => entered (depth - 1) rest
    | .begins => if depth = 0 then ("", .program) :: entered 1 rest else entered depth rest
    | .inside => entered depth rest

variable {e e' : Notification} {depth : ℕ} {events rest : List Notification}

theorem IsInner.scoping_cases (h : e.IsInner) : e.scoping = .begins ∨ e.scoping = .inside := by
  cases e with
  | enter n =>
    obtain ⟨id, kind, span, text⟩ := n
    cases kind <;>
      first | exact .inl rfl | exact .inr rfl | exact absurd rfl h.1 | exact absurd rfl h.2
  | leave n =>
    obtain ⟨id, kind, span, text⟩ := n
    cases kind <;> first | exact .inr rfl | exact absurd rfl h.1 | exact absurd rfl h.2
  | _ => exact .inr rfl

/-- Program and function nodes open a program when entered and close one when left. -/
theorem exists_scoping_eq_opens {P : Node} (hP : P.tag = .program ∨ P.tag = .function) :
    ∃ name kind, scoping (.enter P) = .opens name kind ∧ scoping (.leave P) = .closes := by
  obtain ⟨id, kind, span, text⟩ := P
  cases kind with
  | program name => exact ⟨name, .program, rfl, rfl⟩
  | function name => exact ⟨name, .function, rfl, rfl⟩
  | goTo jump => cases jump <;> exact hP.elim nofun nofun
  | _ => exact hP.elim nofun nofun

theorem entered_inner (h : e.IsInner) (hdepth : 0 < depth) :
    entered depth (e :: rest) = entered depth rest := by
  rw [entered]
  obtain hs | hs := h.scoping_cases <;> rw [hs]
  exact if_neg hdepth.ne'

theorem entered_opens {name : String} {kind : ProgramKind} (h : e.scoping = .opens name kind) :
    entered depth (e :: rest) = (name, kind) :: entered (depth + 1) rest := by
  rw [entered, h]

theorem entered_closes (h : e.scoping = .closes) :
    entered (depth + 1) (e :: rest) = entered depth rest := by
  rw [entered, h]
  rfl

/-- Well nested events leave open what was open before. -/
theorem WellNested.entered_append (h : WellNested events) (hdepth : 0 < depth) :
    entered depth (events ++ rest) = entered depth events ++ entered depth rest := by
  induction h generalizing depth rest with
  | nil => rfl
  | inner he _ ih =>
    rw [List.cons_append, entered_inner he hdepth, entered_inner he hdepth, ih hdepth]
  | program he he' _ _ ih ih' =>
    have hpos := Nat.succ_pos depth
    rw [List.append_assoc, List.cons_append, List.cons_append, List.cons_append, entered_opens he,
      entered_opens he, ih hpos, ih hpos, entered_closes he', entered_closes he', ih' hdepth,
      List.cons_append, List.append_assoc]

/-- How many programs were open before does not matter to well nested events. -/
theorem WellNested.entered_congr (h : WellNested events) {depth' : ℕ} (hdepth : 0 < depth)
    (hdepth' : 0 < depth') : entered depth events = entered depth' events := by
  induction h generalizing depth depth' with
  | nil => rfl
  | inner he _ ih => rw [entered_inner he hdepth, entered_inner he hdepth', ih hdepth hdepth']
  | program he he' hinner _ ih ih' =>
    have hpos := Nat.succ_pos depth
    have hpos' := Nat.succ_pos depth'
    rw [List.cons_append, entered_opens he, entered_opens he, hinner.entered_append hpos,
      hinner.entered_append hpos', entered_closes he', entered_closes he', ih hpos hpos',
      ih' hdepth hdepth']

end Notification

/-! ### Results that move back -/

/-- Where a place is found when `k` others are put in from place `n` on. -/
def movedPlace (n k i : ℕ) : ℕ := if i < n then i else i + k

section Moved

variable {n k : ℕ}

theorem movedPlace_of_lt {i : ℕ} (h : i < n) : movedPlace n k i = i := if_pos h

theorem movedPlace_of_le {i : ℕ} (h : n ≤ i) : movedPlace n k i = i + k := if_neg h.not_gt

theorem movedPlace_inj {i j : ℕ} : movedPlace n k i = movedPlace n k j ↔ i = j := by
  unfold movedPlace
  split <;> split <;> omega

/-- The program with its place and that of its parent moved. -/
def OpenProgram.moved (n k : ℕ) (p : OpenProgram) : OpenProgram :=
  { p with slot := movedPlace n k p.slot, parent := p.parent.map (movedPlace n k) }

/-- The result with the place of its parent moved. -/
def ProgramFlow.moved (n k : ℕ) (flow : ProgramFlow) : ProgramFlow :=
  { flow with parent := flow.parent.map (movedPlace n k) }

/-- Parents that come first are not moved. -/
theorem map_movedPlace_of_lt {parent : Option ℕ} (h : ∀ j ∈ parent, j < n) :
    parent.map (movedPlace n k) = parent := by
  cases parent with
  | none => rfl
  | some j => exact congrArg some (movedPlace_of_lt (h j rfl))

theorem OpenProgram.moved_of_lt {p : OpenProgram} (hslot : p.slot < n)
    (hparent : ∀ j ∈ p.parent, j < n) : p.moved n k = p := by
  rw [moved, movedPlace_of_lt hslot, map_movedPlace_of_lt hparent]

theorem ProgramFlow.moved_of_lt {flow : ProgramFlow} (hparent : ∀ j ∈ flow.parent, j < n) :
    flow.moved n k = flow := by
  rw [moved, map_movedPlace_of_lt hparent]

end Moved

namespace Builder

open Notification (entered WellNested exists_scoping_eq_opens)

variable {b b' b₁ : Builder} {e e' : Notification} {events inner : List Notification}

theorem step_eq (b : Builder) (e : Notification) : b.step e =
    match e.scoping with
    | .opens name kind => .ok (b.openProgram name kind)
    | .closes => b.closeProgram
    | .begins => (if b.scopes.isEmpty then b.openProgram "" .program else b).inScope
        (Build.take b.options e)
    | .inside => b.inScope (Build.take b.options e) := by
  cases e with
  | enter n =>
    obtain ⟨id, kind, span, text⟩ := n
    cases kind <;> rfl
  | leave n =>
    obtain ⟨id, kind, span, text⟩ := n
    cases kind <;> rfl
  | _ => rfl

theorem inScope_eq {p : OpenProgram} {outer : List OpenProgram} (hb : b.scopes = p :: outer)
    (x : Build Unit) : b.inScope x =
      (x p.scope).map fun r => { b with scopes := { p with scope := r.2 } :: outer } := by
  rw [inScope, hb]
  change (x p.scope >>= _) = _
  cases x p.scope <;> rfl

/-! ### A program that is taken out -/

/-- As many programs as `k` have been finished. -/
structure Finishes (b : Builder) (k : ℕ) (b' : Builder) : Prop where
  options : b'.options = b.options
  finished : ∃ flows : List ProgramFlow, flows.length = k ∧
    b'.finished = b.finished ++ (flows.map some).toArray

theorem Finishes.trans {k k' : ℕ} (h : b.Finishes k b₁) (h' : b₁.Finishes k' b') :
    b.Finishes (k + k') b' where
  options := h'.options.trans h.options
  finished := by
    obtain ⟨flows, rfl, hfinished⟩ := h.finished
    obtain ⟨flows', rfl, hfinished'⟩ := h'.finished
    exact ⟨flows ++ flows', List.length_append, by simp [hfinished', hfinished]⟩

/-- The events are played in the program that is open, and `k` others are finished. -/
def Interlude (events : List Notification) (k : ℕ) : Prop :=
  ∀ {b : Builder}, b.WellFormed → ∀ {p : OpenProgram} {outer : List OpenProgram},
    b.scopes = p :: outer → ∃ s b', events.foldlM step b = .ok b' ∧ b.Finishes k b' ∧
      b'.scopes = { p with scope := s } :: outer

/-- A program that is entered and left is finished together with those inside it. -/
theorem Interlude.exists_program {k : ℕ} (h : Interlude inner k) {name : String}
    {kind : ProgramKind} (he : e.scoping = .opens name kind) (he' : e'.scoping = .closes)
    (hb : b.WellFormed) :
    ∃ b', (e :: inner ++ [e']).foldlM step b = .ok b' ∧ b.Finishes (k + 1) b' ∧
      b'.scopes = b.scopes := by
  have hopen : b.step e = .ok (b.openProgram name kind) := by rw [step_eq, he]
  obtain ⟨s, b₁, hrun, ⟨hoptions, flows, rfl, hfinished⟩, hscopes⟩ :=
    h (hb.openProgram name kind) rfl
  have hslot : b.finished.size < b₁.finished.size := by
    rw [hfinished]
    simp [openProgram]
  have hclose := closeProgram_eq_ok hscopes hslot
  set closed : OpenProgram := { name, kind, slot := b.finished.size, parent := _, scope := s }
  refine ⟨{ b₁ with
    scopes := b.scopes
    finished := b₁.finished.setIfInBounds b.finished.size (some closed.flow)
    violations := b₁.violations ++ s.violations }, ?_,
    ⟨hoptions, closed.flow :: flows, rfl, ?_⟩, rfl⟩
  · rw [List.cons_append, List.foldlM_cons, hopen, ok_bind, List.foldlM_append, hrun, ok_bind,
      List.foldlM_cons, step_eq, he', hclose]
    rfl
  · rw [hfinished]
    exact fill_finished b.finished none _ (flows.map some)

theorem interlude_of_wellNested (h : WellNested events) :
    Interlude events (entered 1 events).length := by
  induction h with
  | nil =>
    intro b _ p outer hscopes
    exact ⟨p.scope, b, rfl, ⟨rfl, [], rfl, by simp⟩, hscopes⟩
  | @inner e rest he _ ih =>
    intro b hb p outer hscopes
    obtain ⟨b₁, hstep, hb₁⟩ := exists_step_eq_ok hb e
    have hrun := hstep
    rw [step_eq_inScope he hscopes, inScope_eq hscopes] at hrun
    cases htake : Build.take b.options e p.scope with
    | error fault =>
      rw [htake] at hrun
      exact nomatch hrun
    | ok r =>
      rw [htake] at hrun
      obtain rfl : { b with scopes := { p with scope := r.2 } :: outer } = b₁ := Except.ok.inj hrun
      obtain ⟨s, b', hrest, hfinishes, hscopes'⟩ := ih hb₁ rfl
      refine ⟨s, b', ?_, ?_, hscopes'⟩
      · rw [List.foldlM_cons, hstep, ok_bind, hrest]
      · rw [Notification.entered_inner he Nat.one_pos]
        exact ⟨hfinishes.options, hfinishes.finished⟩
  | @program e e' inner rest name kind he he' hinner hrest ih ih' =>
    intro b hb p outer hscopes
    obtain ⟨b₁, hrun, hfinishes, hscopes₁⟩ := ih.exists_program he he' hb
    obtain ⟨b₂, hrun₂, hb₁⟩ := exists_foldlM_step_eq_ok (e :: inner ++ [e']) hb
    obtain rfl : b₂ = b₁ := Except.ok.inj (hrun₂.symm.trans hrun)
    obtain ⟨s, b', hrest', hfinishes', hscopes'⟩ := ih' hb₁ (hscopes₁.trans hscopes)
    refine ⟨s, b', ?_, ?_, hscopes'⟩
    · rw [List.append_cons, List.foldlM_append, hrun, ok_bind, hrest']
    · have hlength : (entered 1 (e :: inner ++ e' :: rest)).length =
          (entered 1 inner).length + 1 + (entered 1 rest).length := by
        rw [List.cons_append, Notification.entered_opens he, hinner.entered_append (Nat.succ_pos 1),
          Notification.entered_closes he', hinner.entered_congr (Nat.succ_pos 1) Nat.one_pos,
          List.length_cons, List.length_append]
        omega
      exact hlength ▸ hfinishes.trans hfinishes'

/-! ### Results come in order -/

/-- The results are those of the programs entered, in this order, and a program stands behind the
one that contains it. -/
structure InOrder (entries : List (String × ProgramKind)) (flows : List ProgramFlow) : Prop where
  entries : flows.map (fun flow => (flow.name, flow.kind)) = entries
  parent_lt : ∀ {i : ℕ} {flow : ProgramFlow}, flows[i]? = some flow → ∀ j ∈ flow.parent, j < i

/-- The places among the results are those of the programs entered, and the ones that wait to be
filled are those of programs that are open. -/
structure Tells (entries : List (String × ProgramKind)) (b : Builder) : Prop where
  size : b.finished.size = entries.length
  scope : ∀ p ∈ b.scopes, entries[p.slot]? = some (p.name, p.kind) ∧ ∀ j ∈ p.parent, j < p.slot
  finished : ∀ {i : ℕ} {flow : ProgramFlow}, b.finished[i]? = some (some flow) →
    entries[i]? = some (flow.name, flow.kind) ∧ ∀ j ∈ flow.parent, j < i
  waiting : ∀ {i : ℕ}, b.finished[i]? = some none → ∃ p ∈ b.scopes, p.slot = i

namespace Tells

variable {entries : List (String × ProgramKind)}

theorem slot_lt (h : b.Tells entries) {p : OpenProgram} (hp : p ∈ b.scopes) :
    p.slot < b.finished.size :=
  h.size ▸ (List.getElem?_eq_some_iff.1 (h.scope p hp).1).1

theorem openProgram (h : b.Tells entries) (name : String) (kind : ProgramKind) :
    (b.openProgram name kind).Tells (entries ++ [(name, kind)]) where
  size := by simp [Builder.openProgram, h.size]
  scope p hp := by
    have hkept : ∀ {i : ℕ} {entry : String × ProgramKind}, entries[i]? = some entry →
        (entries ++ [(name, kind)])[i]? = some entry := fun hi => by
      rw [List.getElem?_append_left (List.getElem?_eq_some_iff.1 hi).1, hi]
    obtain rfl | hp := List.mem_cons.1 hp
    · refine ⟨by simp [h.size], fun j hj => ?_⟩
      obtain ⟨q, hq, rfl⟩ := Option.map_eq_some_iff.1 hj
      exact h.slot_lt (List.mem_of_mem_head? hq)
    · exact ⟨hkept (h.scope p hp).1, (h.scope p hp).2⟩
  finished {i flow} hi := by
    rw [Builder.openProgram, Array.getElem?_push] at hi
    split at hi
    · cases hi
    · obtain ⟨hentry, hparent⟩ := h.finished hi
      rw [List.getElem?_append_left (List.getElem?_eq_some_iff.1 hentry).1]
      exact ⟨hentry, hparent⟩
  waiting {i} hi := by
    rw [Builder.openProgram, Array.getElem?_push] at hi
    split at hi
    · next heq => exact ⟨_, List.mem_cons_self, heq.symm⟩
    · obtain ⟨p, hp, hslot⟩ := h.waiting hi
      exact ⟨p, List.mem_cons_of_mem _ hp, hslot⟩

theorem closeProgram (h : b.Tells entries) :
    ∃ b', b.closeProgram = .ok b' ∧ b'.Tells entries ∧ b'.scopes = b.scopes.tail := by
  cases hscopes : b.scopes with
  | nil =>
    refine ⟨{ b with violations := b.violations ++ [.noOpenProgram] }, ?_, { h with }, hscopes⟩
    rw [Builder.closeProgram, hscopes]
  | cons p outer =>
    have hp : p ∈ b.scopes := by simp [hscopes]
    refine ⟨_, closeProgram_eq_ok hscopes (h.slot_lt hp), ⟨by simp [h.size], fun q hq => h.scope q
      (by simp [hscopes, hq]), fun {i flow} hi => ?_, fun {i} hi => ?_⟩, rfl⟩
    · rw [Array.getElem?_setIfInBounds] at hi
      split at hi
      · next heq =>
        subst heq
        rw [if_pos (h.slot_lt hp)] at hi
        obtain rfl := Option.some.inj (Option.some.inj hi)
        exact h.scope p hp
      · exact h.finished hi
    · rw [Array.getElem?_setIfInBounds] at hi
      split at hi
      · next heq =>
        rw [if_pos (heq ▸ h.slot_lt hp)] at hi
        cases hi
      · next hne =>
        obtain ⟨q, hq, hslot⟩ := h.waiting hi
        rw [hscopes] at hq
        obtain rfl | hq := List.mem_cons.1 hq
        · exact absurd hslot hne
        · exact ⟨q, hq, hslot⟩

theorem inScope (h : b.Tells entries) {x : Build Unit} (hrun : b.inScope x = .ok b') :
    b'.Tells entries ∧ b'.scopes.length = b.scopes.length := by
  cases hscopes : b.scopes with
  | nil =>
    rw [Builder.inScope, hscopes] at hrun
    obtain rfl := Except.ok.inj hrun
    exact ⟨h, by rw [hscopes]⟩
  | cons p outer =>
    rw [inScope_eq hscopes] at hrun
    cases hx : x p.scope with
    | error fault =>
      rw [hx] at hrun
      cases hrun
    | ok r =>
      rw [hx] at hrun
      obtain rfl : { b with scopes := { p with scope := r.2 } :: outer } = b' := Except.ok.inj hrun
      refine ⟨⟨h.size, fun q hq => ?_, h.finished, fun hi => ?_⟩, rfl⟩
      · obtain rfl | hq := List.mem_cons.1 hq
        · exact h.scope p (by simp [hscopes])
        · exact h.scope q (by simp [hscopes, hq])
      · obtain ⟨q, hq, hslot⟩ := h.waiting hi
        rw [hscopes] at hq
        obtain rfl | hq := List.mem_cons.1 hq
        · exact ⟨_, List.mem_cons_self, hslot⟩
        · exact ⟨q, List.mem_cons_of_mem _ hq, hslot⟩

/-- What one notification begins is told after what was told before. -/
theorem step (h : b.Tells entries) (hrun : b.step e = .ok b') : ∃ begun : List _,
    b'.Tells (entries ++ begun) ∧ ∀ rest, entered b.scopes.length (e :: rest) =
      begun ++ entered b'.scopes.length rest := by
  have hinside : ∀ {b : Builder} {entries : List (String × ProgramKind)} {x : Build Unit},
      b.Tells entries → b.inScope x = .ok b' → b'.Tells (entries ++ []) ∧
        b'.scopes.length = b.scopes.length := fun h hrun => by
    rw [List.append_nil]
    exact h.inScope hrun
  rw [step_eq] at hrun
  cases he : e.scoping with
  | opens name kind =>
    rw [he] at hrun
    obtain rfl := Except.ok.inj hrun
    exact ⟨[(name, kind)], h.openProgram name kind, fun rest => by
      rw [Notification.entered_opens he]
      rfl⟩
  | closes =>
    rw [he] at hrun
    obtain ⟨b₁, hclose, htells, hscopes⟩ := h.closeProgram
    obtain rfl := Except.ok.inj (hclose.symm.trans hrun)
    refine ⟨[], (List.append_nil entries).symm ▸ htells, fun rest => ?_⟩
    rw [entered, he, hscopes, List.length_tail]
    rfl
  | begins =>
    rw [he] at hrun
    cases hscopes : b.scopes with
    | nil =>
      rw [hscopes] at hrun
      obtain ⟨htells, hlength⟩ := (h.openProgram "" .program).inScope hrun
      refine ⟨_, htells, fun rest => ?_⟩
      rw [entered, he, hlength, Builder.openProgram, hscopes]
      rfl
    | cons p outer =>
      rw [hscopes] at hrun
      obtain ⟨htells, hlength⟩ := hinside h hrun
      refine ⟨[], htells, fun rest => ?_⟩
      rw [entered, he, hlength, hscopes]
      rfl
  | inside =>
    rw [he] at hrun
    obtain ⟨htells, hlength⟩ := hinside h hrun
    refine ⟨[], htells, fun rest => ?_⟩
    rw [entered, he, hlength]
    rfl

/-- A replay tells the programs entered, one after another. -/
theorem foldlM (h : b.Tells entries) (hrun : events.foldlM Builder.step b = .ok b') :
    b'.Tells (entries ++ entered b.scopes.length events) := by
  induction events generalizing b entries with
  | nil =>
    obtain rfl := Except.ok.inj hrun
    exact (List.append_nil entries).symm ▸ h
  | cons e rest ih =>
    rw [List.foldlM_cons] at hrun
    obtain ⟨b₁, hstep, hrest⟩ := exists_of_bind_eq_ok hrun
    obtain ⟨begun, htells, hentered⟩ := h.step hstep
    rw [hentered rest, ← List.append_assoc]
    exact ih htells hrest

theorem closeAll {n : ℕ} (h : b.Tells entries) (hrun : Builder.closeAll n b = .ok b') :
    b'.Tells entries ∧ b'.scopes = b.scopes.drop n := by
  induction n generalizing b with
  | zero =>
    obtain rfl := Except.ok.inj hrun
    exact ⟨h, rfl⟩
  | succ n ih =>
    obtain ⟨b₁, hclose, htells, hscopes⟩ := h.closeProgram
    rw [Builder.closeAll, hclose] at hrun
    obtain ⟨htells', hscopes'⟩ := ih htells hrun
    exact ⟨htells', by rw [hscopes', hscopes, List.drop_tail]⟩

/-- When no program is open any more, every place is filled. -/
theorem exists_inOrder (h : b.Tells entries) (hscopes : b.scopes = []) :
    ∃ flows : List ProgramFlow, b.finished = (flows.map some).toArray ∧ InOrder entries flows := by
  have hfilled : b.finished.toList ∈ Set.range (List.map (some (α := ProgramFlow))) := by
    rw [Set.range_list_map]
    intro place hplace
    obtain ⟨i, hi⟩ := List.mem_iff_getElem?.1 hplace
    cases place with
    | some flow => exact ⟨flow, rfl⟩
    | none =>
      obtain ⟨p, hp, -⟩ := h.waiting (i := i) (by simpa using hi)
      exact absurd hp (by simp [hscopes])
  obtain ⟨flows, hflows⟩ := hfilled
  have hfinished : b.finished = (flows.map some).toArray := by simp [hflows]
  have hflow : ∀ {i : ℕ} {flow : ProgramFlow}, flows[i]? = some flow →
      entries[i]? = some (flow.name, flow.kind) ∧ ∀ j ∈ flow.parent, j < i :=
    fun hi => h.finished (by simp [hfinished, hi])
  have hlength : flows.length = entries.length := by simpa [hfinished] using h.size
  refine ⟨flows, hfinished, List.ext_getElem? fun i => ?_, fun hi => (hflow hi).2⟩
  rw [List.getElem?_map]
  cases hi : flows[i]? with
  | some flow => exact (hflow hi).1.symm
  | none =>
    have hle : entries.length ≤ i := hlength ▸ List.getElem?_eq_none_iff.1 hi
    exact (List.getElem?_eq_none hle).symm

end Tells

theorem tells_of_replay {o : Options} (h : replay o events = .ok b) :
    b.Tells (entered 0 events) := by
  have hstart : Tells [] { options := o } := ⟨rfl, by simp, by simp, by simp⟩
  exact hstart.foldlM h

/-- A replay that is finished answers for the programs entered. -/
theorem exists_finish_eq (o : Options) (events : List Notification) :
    ∃ b₀ b flows, replay o events = .ok b₀ ∧ closeAll b₀.scopes.length b₀ = .ok b ∧
      b.finished = (flows.map some).toArray ∧ run o events = .ok flows ∧
      InOrder (entered 0 events) flows := by
  obtain ⟨b₀, hreplay, hb₀⟩ := exists_replay_eq_ok o events
  obtain ⟨b, hclose, -⟩ := exists_closeAll_eq_ok b₀.scopes.length hb₀
  obtain ⟨htells, hscopes⟩ := (tells_of_replay hreplay).closeAll hclose
  obtain ⟨flows, hfinished, hinorder⟩ := htells.exists_inOrder (hscopes.trans List.drop_length)
  refine ⟨b₀, b, flows, hreplay, hclose, hfinished, ?_, hinorder⟩
  rw [run, hreplay, ok_bind, finish, hclose, ok_bind, hfinished]
  simp
  rfl

/-! ### Two replays in step -/

/-- The results are the same but for `k` that stand in the first list from place `n` on. All that
changes of the others is where their parents are found. -/
structure SameBut (n k : ℕ) (flows flows' : List ProgramFlow) : Prop where
  length : flows.length = flows'.length + k
  flow : ∀ {i : ℕ} {flow : ProgramFlow}, flows'[i]? = some flow →
    flows[movedPlace n k i]? = some (flow.moved n k)

/-- The second replay stands where the first one stands, with `k` more programs finished, which come
from place `n` on. -/
structure Inserts (n k : ℕ) (b b' : Builder) : Prop where
  options : b'.options = b.options
  scopes : b'.scopes = b.scopes.map (·.moved n k)
  le_size : n ≤ b.finished.size
  size : b'.finished.size = b.finished.size + k
  finished : ∀ i, b'.finished[movedPlace n k i]? =
    b.finished[i]?.map (Option.map (ProgramFlow.moved n k))

namespace Inserts

variable {n k : ℕ} {b₁ : Builder}

theorem movedPlace_size (h : Inserts n k b b') :
    movedPlace n k b.finished.size = b'.finished.size := by
  rw [movedPlace_of_le h.le_size, h.size]

theorem openProgram (h : Inserts n k b b') (name : String) (kind : ProgramKind) :
    Inserts n k (b.openProgram name kind) (b'.openProgram name kind) where
  options := h.options
  scopes := by
    have hparent : (b.scopes.map (·.moved n k)).head?.map (·.slot) =
        (b.scopes.head?.map (·.slot)).map (movedPlace n k) := by
      rw [List.head?_map, Option.map_map, Option.map_map]
      rfl
    simp only [Builder.openProgram, h.scopes, hparent, List.map_cons, ← h.movedPlace_size]
    rfl
  le_size := by
    simp only [Builder.openProgram, Array.size_push]
    exact Nat.le_succ_of_le h.le_size
  size := by
    simp only [Builder.openProgram, Array.size_push, h.size]
    omega
  finished i := by
    simp only [Builder.openProgram, Array.getElem?_push, ← h.movedPlace_size, movedPlace_inj]
    split
    · rfl
    · exact h.finished i

theorem closeProgram (h : Inserts n k b b') (hrun : b.closeProgram = .ok b₁) :
    ∃ b₁', b'.closeProgram = .ok b₁' ∧ Inserts n k b₁ b₁' := by
  cases hscopes : b.scopes with
  | nil =>
    have hscopes' : b'.scopes = [] := by rw [h.scopes, hscopes, List.map_nil]
    rw [Builder.closeProgram, hscopes] at hrun
    obtain rfl := Except.ok.inj hrun
    refine ⟨{ b' with violations := b'.violations ++ [.noOpenProgram] }, ?_,
      { h with scopes := hscopes' }⟩
    rw [Builder.closeProgram, hscopes']
  | cons p outer =>
    have hscopes' : b'.scopes = p.moved n k :: outer.map (·.moved n k) := by
      rw [h.scopes, hscopes, List.map_cons]
    have hslot : p.slot < b.finished.size := by
      rw [Builder.closeProgram, hscopes] at hrun
      by_contra hlt
      cases (if_neg hlt).symm.trans hrun
    have hslot' : movedPlace n k p.slot < b'.finished.size := by
      have := h.size
      unfold movedPlace
      split <;> omega
    rw [closeProgram_eq_ok hscopes hslot] at hrun
    obtain rfl := Except.ok.inj hrun
    refine ⟨_, closeProgram_eq_ok hscopes' hslot', h.options, rfl, by simpa using h.le_size,
      by simpa using h.size, fun i => ?_⟩
    simp only [OpenProgram.moved, Array.getElem?_setIfInBounds, movedPlace_inj, if_pos hslot,
      if_pos hslot']
    split
    · rfl
    · exact h.finished i

theorem inScope (h : Inserts n k b b') {x : Build Unit} (hrun : b.inScope x = .ok b₁) :
    ∃ b₁', b'.inScope x = .ok b₁' ∧ Inserts n k b₁ b₁' := by
  cases hscopes : b.scopes with
  | nil =>
    rw [Builder.inScope, hscopes] at hrun
    obtain rfl := Except.ok.inj hrun
    refine ⟨b', ?_, h⟩
    rw [Builder.inScope, h.scopes, hscopes]
    rfl
  | cons p outer =>
    have hscopes' : b'.scopes = p.moved n k :: outer.map (·.moved n k) := by
      rw [h.scopes, hscopes, List.map_cons]
    have hscope : (p.moved n k).scope = p.scope := rfl
    rw [inScope_eq hscopes] at hrun
    rw [inScope_eq hscopes', hscope]
    cases hx : x p.scope with
    | error fault =>
      rw [hx] at hrun
      cases hrun
    | ok r =>
      rw [hx] at hrun
      obtain rfl : { b with scopes := { p with scope := r.2 } :: outer } = b₁ := Except.ok.inj hrun
      exact ⟨_, rfl, { h with scopes := rfl }⟩

/-- The same notification keeps two replays in step. -/
theorem step (h : Inserts n k b b') (hrun : b.step e = .ok b₁) :
    ∃ b₁', b'.step e = .ok b₁' ∧ Inserts n k b₁ b₁' := by
  rw [step_eq] at hrun ⊢
  rw [h.options]
  cases he : e.scoping with
  | opens name kind =>
    rw [he] at hrun
    obtain rfl := Except.ok.inj hrun
    exact ⟨_, rfl, h.openProgram name kind⟩
  | closes =>
    rw [he] at hrun
    exact h.closeProgram hrun
  | begins =>
    rw [he] at hrun
    have hempty : b'.scopes.isEmpty = b.scopes.isEmpty := by rw [h.scopes, List.isEmpty_map]
    dsimp only at hrun ⊢
    rw [hempty]
    split at hrun
    · next hnone => exact (if_pos hnone) ▸ (h.openProgram "" .program).inScope hrun
    · next hsome => exact (if_neg hsome) ▸ h.inScope hrun
  | inside =>
    rw [he] at hrun
    exact h.inScope hrun

theorem foldlM (h : Inserts n k b b') (hrun : events.foldlM Builder.step b = .ok b₁) :
    ∃ b₁', events.foldlM Builder.step b' = .ok b₁' ∧ Inserts n k b₁ b₁' := by
  induction events generalizing b b' with
  | nil =>
    obtain rfl := Except.ok.inj hrun
    exact ⟨b', rfl, h⟩
  | cons e rest ih =>
    rw [List.foldlM_cons] at hrun
    obtain ⟨b₂, hstep, hrest⟩ := exists_of_bind_eq_ok hrun
    obtain ⟨b₂', hstep', h₂⟩ := h.step hstep
    rw [List.foldlM_cons, hstep']
    exact ih h₂ hrest

theorem closeAll {m : ℕ} (h : Inserts n k b b') (hrun : Builder.closeAll m b = .ok b₁) :
    ∃ b₁', Builder.closeAll m b' = .ok b₁' ∧ Inserts n k b₁ b₁' := by
  induction m generalizing b b' with
  | zero =>
    obtain rfl := Except.ok.inj hrun
    exact ⟨b', rfl, h⟩
  | succ m ih =>
    rw [Builder.closeAll] at hrun
    obtain ⟨b₂, hclose, hrest⟩ := exists_of_bind_eq_ok hrun
    obtain ⟨b₂', hclose', h₂⟩ := h.closeProgram hclose
    rw [Builder.closeAll, hclose']
    exact ih h₂ hrest

/-- Programs that are finished while those around them wait come between. -/
theorem of_finishes {entries : List (String × ProgramKind)} (htells : b.Tells entries)
    (h : b.Finishes k b') (hscopes : b'.scopes = b.scopes) : Inserts entries.length k b b' := by
  obtain ⟨hoptions, flows, rfl, hfinished⟩ := h
  refine ⟨hoptions, ?_, htells.size.ge, by simp [hfinished], fun i => ?_⟩
  · refine hscopes.trans (Eq.symm ((List.map_congr_left fun p hp => ?_).trans (List.map_id _)))
    have hslot := htells.size ▸ htells.slot_lt hp
    exact OpenProgram.moved_of_lt hslot fun j hj => ((htells.scope p hp).2 j hj).trans hslot
  · obtain hi | hi := lt_or_ge i entries.length
    · have hi' : i < b.finished.size := htells.size.symm ▸ hi
      rw [movedPlace_of_lt hi, hfinished, Array.getElem?_append_left hi']
      obtain ⟨place, hplace⟩ : ∃ place, b.finished[i]? = some place :=
        ⟨_, Array.getElem?_eq_getElem hi'⟩
      rw [hplace]
      cases place with
      | none => rfl
      | some flow =>
        have hparent := fun j hj => ((htells.finished hplace).2 j hj).trans hi
        exact congrArg (some ∘ some) (ProgramFlow.moved_of_lt hparent).symm
    · have hi' : b.finished.size ≤ i := htells.size.symm ▸ hi
      rw [movedPlace_of_le hi, Array.getElem?_eq_none hi', Array.getElem?_eq_none]
      · rfl
      · simp only [hfinished, Array.size_append, List.size_toArray, List.length_map]
        omega

/-- When both have come to their end, the results are the same but for those put in. -/
theorem sameBut {flows flows' : List ProgramFlow} (h : Inserts n k b b')
    (hb : b.finished = (flows'.map some).toArray) (hb' : b'.finished = (flows.map some).toArray) :
    SameBut n k flows flows' where
  length := by simpa [hb, hb'] using h.size
  flow {i flow} hi := by simpa [hb, hb', hi] using h.finished i

end Inserts

/-- **A program inside another does not disturb it.** Take a program with all that is contained in
it out of a replay, wherever it stands. The results of the other programs are what they were, and
all that changes is where their parents are found. Nothing is asked of what comes before and after,
and of what stands inside only that programs among it are left as often as they are entered. -/
theorem run_insulates (o : Options) (pre inner post : List Notification) (P : Node)
    (hP : P.tag = .program ∨ P.tag = .function) (hinner : WellNested inner) :
    ∃ flows flows',
      run o (pre ++ .enter P :: inner ++ .leave P :: post) = .ok flows ∧
      run o (pre ++ post) = .ok flows' ∧
      InOrder (entered 0 (pre ++ .enter P :: inner ++ .leave P :: post)) flows ∧
      InOrder (entered 0 (pre ++ post)) flows' ∧
      SameBut (entered 0 pre).length (entered 0 (.enter P :: inner)).length flows flows' := by
  obtain ⟨b₂', b₃', flows, hreplay', hclose', hfinished', hrun', hinorder'⟩ := exists_finish_eq o
    (pre ++ .enter P :: inner ++ .leave P :: post)
  obtain ⟨b₂, b₃, flows', hreplay, hclose, hfinished, hrun, hinorder⟩ :=
    exists_finish_eq o (pre ++ post)
  refine ⟨flows, flows', hrun', hrun, hinorder', hinorder, ?_⟩
  -- the program is finished and nothing else has happened
  obtain ⟨b, hpre, hb⟩ := exists_replay_eq_ok o pre
  obtain ⟨name, kind, he, he'⟩ := exists_scoping_eq_opens hP
  obtain ⟨b', hinside, hfinishes, hscopes⟩ :=
    Interlude.exists_program (interlude_of_wellNested hinner) he he' hb
  have hstart : Inserts (entered 0 pre).length (entered 0 (.enter P :: inner)).length b b' := by
    rw [Notification.entered_opens he, List.length_cons]
    exact .of_finishes (tells_of_replay hpre) hfinishes hscopes
  -- from there on the two replays stay in step
  rw [replay, List.foldlM_append] at hreplay
  rw [replay, List.append_assoc, List.foldlM_append, List.append_cons] at hreplay'
  rw [replay] at hpre
  rw [hpre, ok_bind] at hreplay hreplay'
  rw [List.foldlM_append, hinside, ok_bind] at hreplay'
  obtain ⟨c₂, hpost, hmiddle⟩ := hstart.foldlM hreplay
  obtain rfl := Except.ok.inj (hreplay'.symm.trans hpost)
  obtain ⟨c₃, hend, hlast⟩ := hmiddle.closeAll hclose
  have hlength : b₂'.scopes.length = b₂.scopes.length := by rw [hmiddle.scopes, List.length_map]
  rw [hlength] at hclose'
  obtain rfl := Except.ok.inj (hclose'.symm.trans hend)
  exact hlast.sameBut hfinished hfinished'

/-- A program up to the first statement inside an IF. -/
def openIf : List Notification :=
  [.enter { id := 1, kind := .program "A" }, .enter { id := 2, kind := .procedureDivision },
    .enter { id := 3, kind := .ifThen }, .enter { id := 4, kind := .exit }]

/-- What makes no sense in a function without a division, an ELSE and the end of an EVALUATE, and a
program. -/
def stray : List Notification :=
  [.enter { id := 6, kind := .elsePart }, .enter { id := 7, kind := .program "C" },
    .whenOtherClause, .leave { id := 7, kind := .program "C" },
    .leave { id := 8, kind := .evaluate }]

/-- The end of the IF and of the program, and another program contained in nothing. -/
def closedIf : List Notification :=
  [.leave { id := 3, kind := .ifThen }, .leave { id := 2, kind := .procedureDivision },
    .leave { id := 1, kind := .program "A" }, .enter { id := 9, kind := .program "D" }]

theorem wellNested_stray : WellNested stray := by
  have hinner : WellNested [.whenOtherClause] := .inner trivial .nil
  have hlast : WellNested [.leave { id := 8, kind := .evaluate }] := .inner ⟨nofun, nofun⟩ .nil
  have hprogram : (Notification.enter { id := 7, kind := .program "C" }).scoping =
    .opens "C" .program := rfl
  exact .inner ⟨nofun, nofun⟩ (.program hprogram rfl hinner hlast)

theorem run_insulates_stray :
    let P : Node := { id := 5, kind := .function "B" }
    (P.tag = .program ∨ P.tag = .function) ∧ WellNested stray ∧ ∃ flows flows',
      run {} (openIf ++ .enter P :: stray ++ .leave P :: closedIf) = .ok flows ∧
      run {} (openIf ++ closedIf) = .ok flows' ∧
      InOrder (entered 0 (openIf ++ .enter P :: stray ++ .leave P :: closedIf)) flows ∧
      InOrder (entered 0 (openIf ++ closedIf)) flows' ∧
      SameBut (entered 0 openIf).length (entered 0 (.enter P :: stray)).length flows flows' :=
  ⟨.inr rfl, wellNested_stray,
    run_insulates {} openIf stray closedIf _ (.inr rfl) wellNested_stray⟩

example :
    let P : Node := { id := 5, kind := .function "B" }
    (run {} (openIf ++ .enter P :: stray ++ .leave P :: closedIf)).toOption.map
      (·.map fun flow => (flow.name, flow.parent)) =
        some [("A", none), ("B", some 0), ("C", some 1), ("D", none)] := by cbv

end Builder

end CobolFlow
