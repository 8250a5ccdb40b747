import CobolFlow.Proofs.Trace.Alternatives
import CobolFlow.Proofs.Writing.Constructs
import CobolFlow.Proofs.Writing.Grammar

/-!
# What statements write

A list of notifications is taken one by one. `Scope.Passes` says what is true when all have been
taken, and that on the way each of them came when it may: a statement is entered while a division is
open and its block has room, and a sentence and a division end while no fork is open. Nothing is
done against the protocol.

Statements write their nodes in the order in which these are entered, and leave the stack of forks
as it was.

## Main definitions

* `Notification.written?` — the instruction that a node brings
* `Scope.Steady`, `Notification.Fits` — when a notification may come
* `Scope.Passes` — a replay, step by step

## Main results

* `Replay.writes` — statements write their nodes and restore the stack of forks
-/

namespace CobolFlow

/-- The instruction that is written for a node, which all nodes but headers have. -/
def Notification.written? : Notification → Option Instruction
  | .enter n => if n.tag.role = .header then none else some n.instruction
  | _ => none

/-- What is written when some notifications are taken. -/
def Notification.written (events : List Notification) : List Instruction :=
  events.filterMap (·.written?)

/-- The statements of a case begin, after its phrases. -/
inductive Notification.Begins : Notification → Prop
  | whenClause : Begins .whenClause
  | whenOtherClause : Begins .whenOtherClause
  | searchClause : Begins (.searchClause false)

/-- Between two clauses of a statement its forks are on the stack, and no phrase waits. -/
structure Fork.Idle (cascade : Bool) (i : Instruction) (outer fs : List Fork) : Prop where
  stacked : Fork.Stacked cascade i outer fs
  waiting : Fork.waiting fs = []

theorem Fork.Idle.exists_cons {cascade : Bool} {i : Instruction} {outer fs : List Fork}
    (h : Fork.Idle cascade i outer fs) : ∃ f rest, fs = f :: rest ∧ f.phrases = [] := by
  obtain ⟨f, rest, rfl⟩ := h.stacked.exists_cons
  exact ⟨f, rest, rfl, h.waiting⟩

/-- A division is open, and there is room in the current block. -/
def Scope.Steady (s : Scope) : Prop := s.inDivision = true ∧ s.Proceeds s [] s.forks

/-- What is true when a notification comes. -/
def Notification.Fits : Notification → Scope → Prop
  | .enter n, s => n.tag.isStatement = true → s.Steady
  | .leave n, s => n.tag = .procedureDivision → s.forks = []
  | .sentenceEnd, s => s.forks = []
  | _, _ => True

open Notification (written enclosed)

namespace Notification

variable {n : Node} {events events' : List Notification}

@[simp] theorem written_append (events events' : List Notification) :
    written (events ++ events') = written events ++ written events' := List.filterMap_append ..

@[simp] theorem written_nil : written [] = [] := rfl

theorem written_enter (hn : n.tag.role ≠ .header) (events : List Notification) :
    written (.enter n :: events) = n.instruction :: written events := by
  simp [written, written?, hn]

theorem written_enclosed (hn : n.tag.role ≠ .header) (events : List Notification) :
    written (enclosed (n, events)) = n.instruction :: written events := by
  rw [enclosed, List.cons_append, written_enter hn]
  simp [written, written?]

theorem written_phrases {ms : List Node} (hms : ∀ m ∈ ms, m.tag.role ≠ .header) :
    written (ms.flatMap fun m => [.enter m, .leave m]) = ms.map (·.instruction) := by
  induction ms with
  | nil => rfl
  | cons m rest ih =>
    rw [List.flatMap_cons, written_append, ih fun m hm => hms m (by simp [hm]),
      written_enter (hms m (by simp))]
    simp [written, written?]

end Notification

theorem Node.IsPhrase.role_ne_header {n : Node} (h : n.IsPhrase) : n.tag.role ≠ .header := by
  obtain h | h | h := h <;> simp [Node.tag, h, NodeKind.tag, NodeTag.role]

theorem isTested_of_phrases {ms : List Node} (hms : ∀ m ∈ ms, m.kind = .whenPhrase ∨
    m.kind = .searchWhen) : ∀ i ∈ ms.map (·.instruction), i.IsTested := by
  intro i hi
  obtain ⟨m, hm, rfl⟩ := List.mem_map.1 hi
  obtain h | h := hms m hm <;>
    simp [Instruction.IsTested, Node.instruction, Node.tag, h, NodeKind.tag, NodeTag.closes,
      NodeTag.isListed]

theorem Node.IsPhrase.isStatement_eq {n : Node} (h : n.IsPhrase) : n.tag.isStatement = false := by
  obtain h | h | h := h <;> simp [Node.tag, h, NodeKind.tag, NodeTag.isStatement, NodeTag.role]

namespace Notification.Begins

variable {begins : Notification}

theorem fits (h : begins.Begins) (s : Scope) : begins.Fits s := by
  cases h <;> exact trivial

theorem written_clause (h : begins.Begins) {c : Case} (hc : ∀ m ∈ c.1, m.IsPhrase) :
    written (c.clause begins) = c.1.map (·.instruction) ++ written c.2 := by
  rw [Case.clause, Notification.written_append,
    Notification.written_phrases fun m hm => (hc m hm).role_ne_header]
  cases h <;> rfl

end Notification.Begins

namespace Scope

/-- All notifications come when they may and none is against the protocol, and when they have been
taken, `post` is true. -/
def Passes (o : Options) : List Notification → Scope → (Scope → Prop) → Prop
  | [], s, post => post s
  | e :: rest, s, post => e.Fits s ∧ Ensures (Build.take o e) s fun _ s' =>
      s'.violations = s.violations ∧ Passes o rest s' post

variable {o : Options} {s₀ s s' : Scope} {is : List Instruction} {b : BlockId} {f : Fork}
  {fs outer : List Fork} {e : Notification} {events events' : List Notification} {n : Node}
  {P Q : Scope → Prop}

namespace Passes

theorem mono (h : Passes o events s P) (hP : ∀ s', P s' → Q s') : Passes o events s Q := by
  induction events generalizing s with
  | nil => exact hP s h
  | cons e rest ih => exact ⟨h.1, h.2.mono fun _ _ h' => ⟨h'.1, ih h'.2⟩⟩

theorem append (h : Passes o events s fun s' => Passes o events' s' Q) :
    Passes o (events ++ events') s Q := by
  induction events generalizing s with
  | nil => exact h
  | cons e rest ih => exact ⟨h.1, h.2.mono fun _ _ h' => ⟨h'.1, ih h'.2⟩⟩

/-- A single notification. -/
theorem single (hfits : e.Fits s) (h : Ensures (Build.take o e) s fun _ s' => P s')
    (hP : ∀ s', P s' → s'.violations = s.violations) : Passes o [e] s P :=
  ⟨hfits, h.mono fun _ s' h' => ⟨hP s' h', h'⟩⟩

/-- What is true when all notifications have been taken. -/
theorem of_play (h : Passes o events s P) (hplay : Build.play o events s = .ok ((), s')) :
    P s' := by
  induction events generalizing s with
  | nil =>
    cases hplay
    exact h
  | cons e rest ih =>
    obtain ⟨⟨⟩, s₁, htake, hrest⟩ := exists_of_run_bind_eq_ok hplay
    exact ih (h.2 ⟨⟩ s₁ htake).2 hrest

end Passes

/-! ### Nodes -/

theorem stage_under (s : Scope) (t : NodeTag) : (s.under t).stage =
    (s.stage.1, s.stage.2.1, t :: s.stage.2.2.1, s.stage.2.2.2) := rfl

theorem Room.under (h : s₀.Room s b) (t : NodeTag) : (s₀.under t).Room (s.under t) b :=
  ⟨h.may, h.lt, h.writable⟩

theorem Wrote.under (h : s₀.Wrote s is b fs) (t : NodeTag) :
    (s₀.under t).Wrote (s.under t) is b fs where
  logs := h.logs
  signed := h.signed
  stage := by rw [stage_under, stage_under, h.stage]
  here := h.here
  may := h.may
  lt := h.lt
  forks := h.forks
  size_le := h.size_le
  spares := h.spares

theorem Reserves.under {cascade : Bool} (h : s₀.Reserves s cascade fs) (t : NodeTag) :
    (s₀.under t).Reserves (s.under t) cascade fs :=
  fun hc f hf hsome b hb => (h hc f hf hsome b hb).under t

theorem Proceeds.under (h : s₀.Proceeds s is fs) (t : NodeTag) :
    (s₀.under t).Proceeds (s.under t) is fs := by
  obtain ⟨b, h, hb⟩ := h
  exact ⟨b, h.under t, hb.under t⟩

theorem Wrote.inDivision (h : s₀.Wrote s is b fs) : s.inDivision = s₀.inDivision :=
  congrArg Prod.fst h.stage

theorem Wrote.enclosing (h : s₀.Wrote s is b fs) : s.enclosing = s₀.enclosing :=
  congrArg (·.2.2.1) h.stage

theorem Wrote.violations (h : s₀.Wrote s is b fs) : s.violations = s₀.violations :=
  congrArg (·.2.2.2) h.stage

theorem Proceeds.violations (h : s₀.Proceeds s is fs) : s.violations = s₀.violations :=
  h.choose_spec.1.violations

/-- More can come. -/
theorem Proceeds.steady (h : s₀.Proceeds s is fs) (hin : s₀.inDivision = true) : s.Steady := by
  obtain ⟨b, h, hb⟩ := h
  exact ⟨h.inDivision.trans hin, b, .refl h.here h.lt, .inl h.here, hb.lt, hb.writable⟩

theorem Proceeds.trans {s₁ s₂ : Scope} {js : List Instruction} {fs' : List Fork}
    (h : s₀.Proceeds s₁ is fs) (h' : s₁.Proceeds s₂ js fs') :
    s₀.Proceeds s₂ (is ++ js) fs' := by
  obtain ⟨b, h, -⟩ := h
  obtain ⟨c, h', hc⟩ := h'
  have htrans := h.trans h'
  exact ⟨c, htrans, htrans.may, hc.lt, hc.writable⟩

/-- A node is entered that is no header: its kind says what is done. -/
theorem enterInside_ensures (hin : s.inDivision = true) (htag : n.tag ≠ .procedureDivision)
    (h : Ensures (Build.enterInside o n) s fun _ s' => P (s'.under n.tag)) :
    Ensures (Build.take o (.enter n)) s fun _ s' => P s' := by
  rw [Build.take, Build.enterNode, if_neg htag]
  refine .get_bind ?_
  simp only [hin, if_true]
  exact .bind h fun _ s₁ h₁ => .modify h₁

/-- A statement is entered. -/
theorem Proceeds.enter (h : s₀.Proceeds s is fs) (hin : s₀.inDivision = true)
    (hstatement : n.tag.isStatement = true)
    (hkind : ∀ s₁ b, s₀.Wrote s₁ is b fs → s₀.Room s₁ b →
      Ensures (Build.enterKind o n) s₁ fun _ s' => P (s'.under n.tag)) :
    Ensures (Build.take o (.enter n)) s fun _ s' => P s' := by
  obtain ⟨b, h, hb⟩ := h
  refine enterInside_ensures (h.inDivision.trans hin) (fun heq => ?_) ?_
  · rw [heq] at hstatement
    exact nomatch hstatement
  refine .bind (h.editGraph (Graph.recordNode_ensures n)) ?_
  rintro _ s₁ ⟨h₁, hsame⟩
  rw [if_pos hstatement]
  refine .bind (h₁.ensureSentence (hb.same hsame)) ?_
  rintro _ s₂ ⟨c, h₂, hc⟩
  exact hkind s₂ c h₂ hc

/-- A clause is entered. -/
theorem Wrote.enterClause (h : s₀.Wrote s is b fs) (hin : s₀.inDivision = true)
    (hclause : n.tag.isStatement = false) (htag : n.tag ≠ .procedureDivision)
    (hkind : ∀ s₁, s₀.Wrote s₁ is b fs → s.graph.Same s₁.graph →
      Ensures (Build.enterKind o n) s₁ fun _ s' => P (s'.under n.tag)) :
    Ensures (Build.take o (.enter n)) s fun _ s' => P s' := by
  refine enterInside_ensures (h.inDivision.trans hin) htag ?_
  refine .bind (h.editGraph (Graph.recordNode_ensures n)) ?_
  rintro _ s₁ ⟨h₁, hsame⟩
  rw [if_neg (by simp [hclause])]
  exact hkind s₁ h₁ hsame

/-- A node is left: its kind says what is done. -/
theorem Wrote.leave (h : (s₀.under n.tag).Wrote s is b fs) (hin : s₀.inDivision = true)
    (hleave : ∀ s₁, s₀.Wrote s₁ is b fs → s₁.graph = s.graph →
      Ensures (Build.leaveInside o n) s₁ fun _ s' => P s') :
    Ensures (Build.take o (.leave n)) s fun _ s' => P s' := by
  rw [Build.take, Build.leaveNode]
  refine .modify_bind (.get_bind ?_)
  have hdivision : s.inDivision = true := h.inDivision.trans hin
  simp only [hdivision, if_true]
  refine hleave _ ⟨h.logs, h.signed, ?_, h.here, h.may, h.lt, h.forks, h.size_le, h.spares⟩ rfl
  have hstage := h.stage
  simp only [Scope.stage, Scope.under, Prod.mk.injEq] at hstage ⊢
  obtain ⟨-, hdeclaratives, henclosing, hviolations⟩ := hstage
  exact ⟨hin.symm, hdeclaratives, by rw [henclosing]; rfl, hviolations⟩

/-! ### Statements and clauses -/

/-- The notifications can come where a statement can; they write their nodes, and restore the
stack of forks. -/
def Writes (o : Options) (events : List Notification) : Prop :=
  ∀ s : Scope, s.Steady → s.Passes o events fun s' => s.Proceeds s' (written events) s.forks

namespace Writes

theorem nil : Writes o [] := fun _ hs => hs.2

theorem append (h : Writes o events) (h' : Writes o events') : Writes o (events ++ events') := by
  intro s hs
  refine .append ((h s hs).mono fun s₁ h₁ => (h' s₁ (h₁.steady hs.1)).mono fun s₂ h₂ => ?_)
  have hforks : s₁.forks = s.forks := h₁.choose_spec.1.forks
  rw [Notification.written_append, ← hforks]
  exact h₁.trans h₂

/-- After something else has been written. -/
theorem after (h : Writes o events) (h₁ : s₀.Proceeds s is fs) (hin : s₀.inDivision = true) :
    s.Passes o events fun s' => s₀.Proceeds s' (is ++ written events) fs := by
  have hforks : s.forks = fs := h₁.choose_spec.1.forks
  refine (h s (h₁.steady hin)).mono fun s' h' => ?_
  rw [← hforks]
  exact h₁.trans h'

end Writes

theorem role_ne_header (h : n.tag.isStatement = true) : n.tag.role ≠ .header := by
  intro hrole
  rw [NodeTag.isStatement, hrole] at h
  exact nomatch h

/-- A statement around something. What is known of the forks in between is up to it. -/
theorem writes_enclosed (hstatement : n.tag.isStatement = true)
    {K : Scope → Scope → List Fork → Prop} {L : List Fork → List Fork → Prop}
    (henter : ∀ s₀ s b, Wrote s₀ s [] b s₀.forks → Room s₀ s b →
      Ensures (Build.enterKind o n) s fun _ s' =>
        ∃ fs, s₀.Proceeds s' [n.instruction] fs ∧ K (s₀.under n.tag) (s'.under n.tag) fs)
    (hinside : ∀ s₀ s fs, s₀.inDivision = true → s₀.enclosing.head? = some n.tag →
      Proceeds s₀ s [n.instruction] fs → K s₀ s fs → s.Passes o events fun s' =>
        ∃ fs', s₀.Proceeds s' (n.instruction :: written events) fs' ∧ L s₀.forks fs')
    (hleave : ∀ s₀ s b fs, Wrote s₀ s (n.instruction :: written events) b fs → Room s₀ s b →
      L s₀.forks fs → Ensures (Build.leaveInside o n) s fun _ s' =>
        s₀.Proceeds s' (n.instruction :: written events) s₀.forks) :
    Writes o (enclosed (n, events)) := by
  intro s hs
  rw [Notification.written_enclosed (role_ne_header hstatement)]
  refine ⟨fun _ => hs, hs.2.enter hs.1 hstatement fun s₁ b h₁ hb => ?_⟩
  refine (henter s s₁ b h₁ hb).mono ?_
  rintro _ s₂ ⟨fs, h₂, hK⟩
  refine ⟨h₂.violations, .append
    ((hinside (s.under n.tag) (s₂.under n.tag) fs hs.1 rfl (h₂.under n.tag) hK).mono ?_)⟩
  rintro s₃ ⟨fs', ⟨c, h₃, hc⟩, hL⟩
  refine .single (fun htag => ?_) (h₃.leave hs.1 fun s₄ h₄ hgraph => ?_) fun s' h' => ?_
  · rw [htag] at hstatement
    exact nomatch hstatement
  · exact hleave s s₄ c fs' h₄ ⟨hc.may, hgraph ▸ hc.lt, hgraph ▸ hc.writable⟩ hL
  · exact h'.violations.trans h₃.violations.symm

/-- A statement that opens one fork around other statements, and closes it. -/
theorem writes_around (hstatement : n.tag.isStatement = true) {K : Fork → Prop}
    (hevents : Writes o events)
    (henter : ∀ s₀ s b, Wrote s₀ s [] b s₀.forks → Room s₀ s b →
      Ensures (Build.enterKind o n) s fun _ s' =>
        ∃ f, s₀.Proceeds s' [n.instruction] (f :: s₀.forks) ∧ K f)
    (hleave : ∀ s₀ s b f, Wrote s₀ s (n.instruction :: written events) b (f :: s₀.forks) → K f →
      Ensures (Build.leaveInside o n) s fun _ s' =>
        s₀.Proceeds s' (n.instruction :: written events) s₀.forks) :
    Writes o (enclosed (n, events)) := by
  refine writes_enclosed hstatement (K := fun s₀ _ fs => ∃ f, fs = f :: s₀.forks ∧ K f)
    (L := fun outer fs => ∃ f, fs = f :: outer ∧ K f) ?_ ?_ ?_
  · intro s₀ s b h hb
    refine (henter s₀ s b h hb).mono ?_
    rintro _ s' ⟨f, h', hf⟩
    exact ⟨_, h', f, rfl, hf⟩
  · rintro s₀ s _ hin - h ⟨f, rfl, hf⟩
    exact (hevents.after h hin).mono fun s' h' => ⟨_, h', f, rfl, hf⟩
  · rintro s₀ s b _ h - ⟨f, rfl, hf⟩
    exact hleave s₀ s b f h hf

/-- A statement that opens no fork and is left without more ado. -/
theorem writes_plain (hstatement : n.tag.isStatement = true)
    (hleave : Build.leaveInside o n = pure ()) (hevents : Writes o events)
    (henter : ∀ s₀ s b, Wrote s₀ s [] b s₀.forks → Room s₀ s b →
      Ensures (Build.enterKind o n) s fun _ s' => s₀.Proceeds s' [n.instruction] s₀.forks) :
    Writes o (enclosed (n, events)) := by
  refine writes_enclosed hstatement (K := fun s₀ _ fs => fs = s₀.forks)
    (L := fun outer fs => fs = outer) ?_ ?_ ?_
  · exact fun s₀ s b h hb => (henter s₀ s b h hb).mono fun _ _ h' => ⟨_, h', rfl⟩
  · rintro s₀ s _ hin - h rfl
    exact (hevents.after h hin).mono fun s' h' => ⟨_, h', rfl⟩
  · rintro s₀ s b _ h hb rfl
    rw [hleave]
    exact .pure ⟨b, h, hb⟩

/-- A node that is left as soon as it is entered. -/
theorem writes_leaf (hn : n.IsLeaf) : Writes o [.enter n, .leave n] := by
  obtain ⟨id, kind, span, text⟩ := n
  cases kind with
  | alter clauses =>
    exact writes_plain rfl rfl .nil fun s₀ s b h hb => h.enterAlter hb ⟨rfl, rfl⟩ span clauses
  | exit => exact writes_plain rfl rfl .nil fun s₀ s b h hb => h.addPlain hb ⟨rfl, rfl⟩
  | goTo jump =>
    refine writes_plain ?_ rfl .nil fun s₀ s b h hb => h.enterJump hb span rfl
    cases jump <;> rfl
  | nextSentence => exact writes_plain rfl rfl .nil fun s₀ s b h hb => h.enterNextSentence hb rfl
  | perform range => exact writes_plain rfl rfl .nil fun s₀ s b h _ => h.enterPerform rfl span range
  | terminate ending => exact writes_plain rfl rfl .nil fun s₀ s b h hb => h.enterEnding hb rfl rfl
  | _ => exact False.elim hn

/-! ### Branches -/

/-- A clause around statements, which may change the innermost fork. -/
theorem passes_clause {m : Node} (hm : m.tag.role = .clause) (hin : s₀.inDivision = true)
    (hsame : s.violations = s₀.violations) (is : List Instruction) (hevents : Writes o events)
    {K : List Fork → Prop} (hsteady : m.tag.isStatement = true → s.Steady)
    (henter : Ensures (Build.take o (.enter m)) s fun _ s' => ∃ fs,
      (s₀.under m.tag).Proceeds s' (is ++ [m.instruction]) fs ∧ K fs)
    (hleave : ∀ s₁ b fs, s₀.Wrote s₁ (is ++ written (enclosed (m, events))) b fs →
      s₀.Room s₁ b → K fs → Ensures (Build.leaveInside o m) s₁ fun _ s' => Q s')
    (hQ : ∀ s', Q s' → s'.violations = s₀.violations) :
    s.Passes o (enclosed (m, events)) Q := by
  refine ⟨hsteady, henter.mono ?_⟩
  rintro _ s₁ ⟨fs, h₁, hK⟩
  refine ⟨h₁.violations.trans hsame.symm, .append ((hevents.after h₁ hin).mono ?_)⟩
  rintro s₂ ⟨b, h₂, hb⟩
  refine .single (fun htag => ?_) (h₂.leave hin fun s₃ h₃ hgraph => ?_)
    fun s' h' => (hQ s' h').trans h₂.violations.symm
  · rw [htag] at hm
    exact nomatch hm
  · have hwritten : is ++ written (enclosed (m, events)) =
        is ++ [m.instruction] ++ written events := by
      rw [Notification.written_enclosed (by simp [hm])]
      simp
    exact hleave s₃ b fs (hwritten ▸ h₃) ⟨hb.may, hgraph ▸ hb.lt, hgraph ▸ hb.writable⟩ hK

/-- An exception phrase of a verb. -/
theorem Proceeds.passes_condition (h : s₀.Proceeds s is fs) (hin : s₀.inDivision = true)
    (hsearch : s₀.enclosing.head? ≠ some .search) {m : Node} {phrase : ExceptionPhrase}
    (hm : m.kind = .exception phrase) (hevents : Writes o events) :
    s.Passes o (enclosed (m, events)) fun s' =>
      s₀.Proceeds s' (is ++ written (enclosed (m, events))) fs := by
  obtain ⟨id, kind, span, text⟩ := m
  obtain rfl : kind = .exception phrase := hm
  obtain ⟨b, h, hb⟩ := h
  refine passes_clause rfl hin h.violations is hevents (K := fun fs' => ∃ f, fs' = f :: fs) nofun
    ?_ ?_ fun _ h' => h'.violations
  · refine h.enterClause hin rfl nofun fun s₁ h₁ _ => ?_
    refine (h₁.enterException ⟨rfl, rfl⟩ (by rwa [h₁.enclosing]) phrase).mono ?_
    rintro _ s₂ ⟨f, h₂⟩
    exact ⟨_, h₂.under _, f, rfl⟩
  · rintro s₁ c _ h₁ - ⟨f, rfl⟩
    exact h₁.leaveException (by rwa [h₁.enclosing]) phrase

theorem Proceeds.passes_conditions (h : s₀.Proceeds s is fs) (hin : s₀.inDivision = true)
    (hsearch : s₀.enclosing.head? ≠ some .search)
    {conditions : List (Node × List Notification)}
    (hkinds : ∀ c ∈ conditions, ∃ phrase, c.1.kind = .exception phrase)
    (hwrites : ∀ c ∈ conditions, Writes o c.2) :
    s.Passes o (conditions.flatMap enclosed) fun s' =>
      s₀.Proceeds s' (is ++ written (conditions.flatMap enclosed)) fs := by
  induction conditions generalizing s is with
  | nil => simpa [Passes] using h
  | cons c rest ih =>
    obtain ⟨phrase, hphrase⟩ := hkinds c (by simp)
    rw [List.flatMap_cons, Notification.written_append, ← List.append_assoc]
    refine .append ((h.passes_condition hin hsearch hphrase (hwrites c (by simp))).mono ?_)
    exact fun s₁ h₁ => ih h₁ (fun c hc => hkinds c (by simp [hc]))
      fun c hc => hwrites c (by simp [hc])

theorem writes_verb {conditions : List (Node × List Notification)} (hn : n.IsVerb)
    (hkinds : ∀ c ∈ conditions, ∃ phrase, c.1.kind = .exception phrase)
    (hwrites : ∀ c ∈ conditions, Writes o c.2) :
    Writes o (enclosed (n, conditions.flatMap enclosed)) := by
  have hverb : n.tag.isStatement = true ∧ n.tag ≠ .search ∧ n.instruction.IsTested ∧
      Build.enterKind o n = Build.addInstruction n.instruction ∧
      Build.leaveInside o n = pure () := by
    obtain ⟨id, kind, span, text⟩ := n
    cases kind with
    | call program => exact ⟨rfl, nofun, ⟨rfl, rfl⟩, rfl, rfl⟩
    | ordinary verb => exact ⟨rfl, nofun, ⟨rfl, rfl⟩, rfl, rfl⟩
    | _ => exact False.elim hn
  obtain ⟨hstatement, hsearch, htested, henter, hleave⟩ := hverb
  refine writes_enclosed hstatement (K := fun s₀ _ fs => fs = s₀.forks)
    (L := fun outer fs => fs = outer) ?_ ?_ ?_
  · intro s₀ s b h hb
    rw [henter]
    exact (h.addPlain hb htested).mono fun _ _ h' => ⟨_, h', rfl⟩
  · rintro s₀ s _ hin henclosing h rfl
    refine (h.passes_conditions hin ?_ hkinds hwrites).mono fun s' h' => ⟨_, h', rfl⟩
    rw [henclosing]
    exact fun heq => hsearch (Option.some.inj heq)
  · rintro s₀ s b _ h hb rfl
    rw [hleave]
    exact .pure ⟨b, h, hb⟩

/-- ELSE with its statements. -/
theorem Proceeds.passes_else (h : s₀.Proceeds s is (f :: fs)) (hin : s₀.inDivision = true)
    {m : Node} (hm : m.kind = .elsePart) (hevents : Writes o events) :
    s.Passes o (enclosed (m, events)) fun s' =>
      ∃ f, s₀.Proceeds s' (is ++ written (enclosed (m, events))) (f :: fs) := by
  obtain ⟨id, kind, span, text⟩ := m
  obtain rfl : kind = .elsePart := hm
  refine passes_clause rfl hin h.violations is hevents (K := fun fs' => ∃ f, fs' = f :: fs)
    (fun _ => h.steady hin) ?_ ?_ fun _ ⟨_, h'⟩ => h'.violations
  · refine h.enter hin rfl fun s₁ b h₁ hb => ?_
    refine (h₁.enterElse ?_).mono ?_
    · rintro j ⟨⟩
      exact ⟨rfl, rfl⟩
    · rintro _ s₂ ⟨f', h₂, -⟩
      exact ⟨_, h₂.under _, f', rfl⟩
  · rintro s₁ b _ h₁ hb ⟨f', rfl⟩
    exact .pure ⟨f', b, h₁, hb⟩

theorem writes_ifThen (hn : n.kind = .ifThen)
    (hinside : ∀ (s₀ s : Scope) f, s₀.inDivision = true →
      s₀.Proceeds s [n.instruction] (f :: s₀.forks) → s.Passes o events fun s' =>
        ∃ f, s₀.Proceeds s' (n.instruction :: written events) (f :: s₀.forks)) :
    Writes o (enclosed (n, events)) := by
  obtain ⟨id, kind, span, text⟩ := n
  obtain rfl : kind = .ifThen := hn
  refine writes_enclosed rfl (K := fun s₀ _ fs => ∃ f, fs = f :: s₀.forks)
    (L := fun outer fs => ∃ f, fs = f :: outer) ?_ ?_ ?_
  · intro s₀ s b h hb
    exact (h.enterIf hb rfl).mono fun _ _ ⟨f, h'⟩ => ⟨_, h', f, rfl⟩
  · rintro s₀ s _ hin - h ⟨f, rfl⟩
    exact (hinside s₀ s f hin h).mono fun _ ⟨f, h'⟩ => ⟨_, h', f, rfl⟩
  · rintro s₀ s b _ h - ⟨f, rfl⟩
    exact h.popJoin fun f => f.branches.length == 1

theorem writes_loop {repetition : Repetition} {testAfter : Bool}
    (hn : n.kind = .loop repetition testAfter) (hevents : Writes o events) :
    Writes o (enclosed (n, events)) := by
  obtain ⟨id, kind, span, text⟩ := n
  obtain rfl : kind = .loop repetition testAfter := hn
  refine writes_around rfl hevents (K := fun f => (∃ test body, f.branches = [test, body]) ∧
    ∃ k k', f.branchSlots = [k, k']) ?_ ?_
  · exact fun s₀ s b h _ => h.enterLoop ⟨rfl, rfl⟩ testAfter
  · rintro s₀ s b f h ⟨⟨test, body, hbranches⟩, k, k', hslots⟩
    exact h.leaveLoop hbranches hslots repetition

/-! ### Arms -/

/-- Phrases wait in the innermost fork. -/
theorem Wrote.passes_phrases (h : s₀.Wrote s is b (f :: fs)) (hin : s₀.inDivision = true)
    {ms : List Node} (hms : ∀ m ∈ ms, m.IsPhrase) :
    s.Passes o (ms.flatMap fun m => [.enter m, .leave m]) fun s' => s.graph.Same s'.graph ∧
      s₀.Wrote s' is b ({ f with phrases := f.phrases ++ ms.map (·.instruction) } :: fs) := by
  induction ms generalizing s f with
  | nil => exact ⟨.refl _, by simpa using h⟩
  | cons m rest ih =>
    have hphrase := hms m (by simp)
    have htag := hphrase.tag_ne
    have hclause := hphrase.isStatement_eq
    rw [List.flatMap_cons]
    refine ⟨by simp [Notification.Fits, hclause], h.enterClause hin hclause htag
      fun s₁ h₁ hsame₁ => ?_⟩
    rw [hphrase.enterKind_eq]
    refine (h₁.deferPhrase m.instruction).mono ?_
    rintro _ s₂ ⟨h₂, hgraph⟩
    refine ⟨h₂.violations.trans h.violations.symm, fun heq => absurd heq htag,
      (h₂.under m.tag).leave hin fun s₃ h₃ hgraph₃ => ?_⟩
    rw [hphrase.leaveInside_eq]
    refine .pure ⟨h₃.violations.trans h₂.violations.symm,
      (ih h₃ fun m hm => hms m (by simp [hm])).mono ?_⟩
    rintro s₄ ⟨hsame₄, h₄⟩
    have hgraph₁₃ : s₃.graph = s₁.graph := hgraph₃.trans hgraph
    exact ⟨hsame₁.trans (hgraph₁₃ ▸ hsame₄), by simpa using h₄⟩

/-- The phrases of a case, what begins after them, and the statements of the case. -/
theorem Wrote.passes_case (h : s₀.Wrote s is b (f :: fs)) (hin : s₀.inDivision = true)
    (hnil : f.phrases = []) {c : Case} (hc : ∀ m ∈ c.1, m.IsPhrase) (hwrites : Writes o c.2)
    {begins : Notification} (hbegins : begins.Begins) {J : List Fork → Prop}
    (htake : ∀ s₁, s₀.Wrote s₁ is b ({ f with phrases := c.1.map (·.instruction) } :: fs) →
      s.graph.Same s₁.graph → Ensures (Build.take o begins) s₁ fun _ s' =>
        ∃ fs', s₀.Proceeds s' (is ++ c.1.map (·.instruction)) fs' ∧ J fs') :
    s.Passes o (c.clause begins) fun s' => ∃ fs',
      s₀.Proceeds s' (is ++ written (c.clause begins)) fs' ∧ J fs' := by
  refine .append ((h.passes_phrases hin hc).mono ?_)
  rintro s₁ ⟨hsame, h₁⟩
  rw [hnil, List.nil_append] at h₁
  refine ⟨hbegins.fits s₁, (htake s₁ h₁ hsame).mono ?_⟩
  rintro _ s₂ ⟨fs', h₂, hJ⟩
  refine ⟨h₂.violations.trans h₁.violations.symm,
    (hwrites.after h₂ hin).mono fun s₃ h₃ => ⟨fs', ?_, hJ⟩⟩
  rw [hbegins.written_clause hc, ← List.append_assoc]
  exact h₃

/-- Arms of one kind, one after the other. -/
theorem Proceeds.passes_cases (h : s₀.Proceeds s is fs) (hin : s₀.inDivision = true)
    {J : List Fork → Prop} (hJ : J fs)
    (hcons : ∀ fs, J fs → ∃ f rest, fs = f :: rest ∧ f.phrases = []) {K : Node → Prop}
    {clauses : List Case} (hclauses : ∀ c ∈ clauses, ∀ m ∈ c.1, K m) (hK : ∀ m, K m → m.IsPhrase)
    (hwrites : ∀ c ∈ clauses, Writes o c.2) {begins : Notification} (hbegins : begins.Begins)
    (htake : ∀ s is b f fs (ms : List Node), J (f :: fs) → (∀ m ∈ ms, K m) →
      s₀.Wrote s is b ({ f with phrases := ms.map (·.instruction) } :: fs) → s₀.Room s b →
      Ensures (Build.take o begins) s fun _ s' =>
        ∃ fs', s₀.Proceeds s' (is ++ ms.map (·.instruction)) fs' ∧ J fs') :
    s.Passes o (clauses.flatMap (Case.clause begins)) fun s' => ∃ fs',
      s₀.Proceeds s' (is ++ written (clauses.flatMap (Case.clause begins))) fs' ∧ J fs' := by
  induction clauses generalizing s is fs with
  | nil => exact ⟨fs, by simpa using h, hJ⟩
  | cons c rest ih =>
    obtain ⟨f, outer, rfl, hnil⟩ := hcons fs hJ
    obtain ⟨b, h, hb⟩ := h
    have hc := hclauses c (by simp)
    rw [List.flatMap_cons, Notification.written_append, ← List.append_assoc]
    refine .append ((h.passes_case hin hnil (fun m hm => hK m (hc m hm)) (hwrites c (by simp))
      hbegins (J := J) fun s₁ h₁ hsame => ?_).mono ?_)
    · exact htake s₁ is b f outer c.1 hJ hc h₁ (hb.same hsame)
    rintro s₁ ⟨fs', h₁, hJ₁⟩
    exact ih h₁ hJ₁ (fun c hc => hclauses c (by simp [hc])) fun c hc => hwrites c (by simp [hc])

theorem writes_evaluate (hn : n.kind = .evaluate) {clauses other : List Case}
    (hclauses : ∀ c ∈ clauses, ∀ m ∈ c.1, m.kind = .whenPhrase)
    (hother : ∀ c ∈ other, ∀ m ∈ c.1, m.kind = .whenOther)
    (hwrites : ∀ c ∈ clauses, Writes o c.2) (hwrites' : ∀ c ∈ other, Writes o c.2) :
    Writes o (enclosed (n, clauses.flatMap (Case.clause .whenClause) ++
      other.flatMap (Case.clause .whenOtherClause))) := by
  obtain ⟨id, kind, span, text⟩ := n
  obtain rfl : kind = .evaluate := hn
  refine writes_enclosed rfl
    (K := fun s₀ _ fs => Fork.Idle o.evaluateCascade ⟨id, .evaluate⟩ s₀.forks fs)
    (L := fun outer fs => Fork.Stacked o.evaluateCascade ⟨id, .evaluate⟩ outer fs) ?_ ?_ ?_
  · refine fun s₀ s b h hb => (h.enterEvaluate hb ⟨rfl, rfl⟩).mono ?_
    rintro _ s' ⟨f, h', hopener, hnil⟩
    exact ⟨_, h', .own hopener, hnil⟩
  · rintro s₀ s fs hin - h hfs
    rw [Notification.written_append]
    refine .append ((h.passes_cases hin hfs (fun _ => Fork.Idle.exists_cons) hclauses
      (fun m hm => .inl hm) hwrites .whenClause ?_).mono ?_)
    · intro s₁ is b f fs ms hJ hms h₁ hb
      refine (h₁.startWhen hb (hJ.stacked.congr rfl) ?_).mono ?_
      · exact isTested_of_phrases fun m hm => .inl (hms m hm)
      · exact fun _ s₂ ⟨fs', h₂, hstacked, hnil⟩ => ⟨fs', h₂, hstacked, hnil⟩
    · rintro s₁ ⟨fs₁, h₁, hfs₁⟩
      refine (h₁.passes_cases hin hfs₁ (fun _ => Fork.Idle.exists_cons) hother
        (fun m hm => .inr (.inl hm)) hwrites' .whenOtherClause ?_).mono ?_
      · intro s₁ is b f fs ms hJ hms h₁ hb
        refine (h₁.startWhenOther (hJ.stacked.congr rfl) ?_).mono ?_
        · intro i hi
          obtain ⟨m, hm, rfl⟩ := List.mem_map.1 hi
          simp [Node.instruction, Node.tag, hms m hm, NodeKind.tag]
        · exact fun _ s₂ ⟨fs', h₂, hstacked, hnil⟩ => ⟨fs', h₂, hstacked, hnil⟩
      · rintro s₂ ⟨fs₂, h₂, hfs₂⟩
        exact ⟨fs₂, by simpa using h₂, hfs₂.stacked⟩
  · exact fun s₀ s b fs h hb hfs => h.leaveEvaluate hb hfs

/-- A SEARCH that has not tested anything yet. -/
def Poised (s₀ s : Scope) (cascade : Bool) (i : Instruction) (is : List Instruction) : Prop :=
  ∃ f, s₀.Proceeds s is (f :: s₀.forks) ∧ f.opener = some i ∧ f.phrases = [] ∧
    s₀.Reserves s cascade (f :: s₀.forks)

/-- The AT END phrase of a SEARCH with its statements. What is written in it does not stand where
the first test goes. -/
theorem Poised.passes_atEnd {cascade : Bool} (h : s₀.Poised s cascade n.instruction is)
    (hin : s₀.inDivision = true) (hn : n.kind = .search) (hsearch : s₀.enclosing.head? = some n.tag)
    {m : Node} (hm : m.kind = .exception .atEnd) (hevents : Writes o events) :
    s.Passes o (enclosed (m, events)) fun s' =>
      s₀.Poised s' cascade n.instruction (is ++ written (enclosed (m, events))) := by
  obtain ⟨f, ⟨b, h, hb⟩, hopener, hnil, hreserves⟩ := h
  have htag : m.tag = .exception .atEnd := by rw [Node.tag, hm]; rfl
  have hsearch' : s₀.enclosing.head? = some .search := by
    rw [hsearch, Node.tag, hn]
    rfl
  have hf : ∀ g : Fork, g.opener = some n.instruction → g.isSearch = true := by
    intro g hg
    simp [Fork.isSearch, hg, Node.instruction, Node.tag, hn, NodeKind.tag]
  have hclause : m.tag.isStatement = false := by rw [htag]; rfl
  refine ⟨by simp [Notification.Fits, hclause], h.enterClause hin hclause (by simp [htag])
    fun s₁ h₁ hsame => ?_⟩
  simp only [Build.enterKind, hm]
  refine (h₁.enterAtEnd (by rw [htag]; exact ⟨rfl, rfl⟩) (by rwa [h₁.enclosing])
    (hf f hopener) hnil).mono ?_
  rintro _ s₂ ⟨f', c, h₂, hc, hopener', hempty, horigin, hrooms⟩
  have hproceeds : s₀.Proceeds s₂ _ (f' :: s₀.forks) := ⟨c, h₂, hc⟩
  refine ⟨h₂.violations.trans h.violations.symm,
    .append ((hevents _ ((hproceeds.under m.tag).steady hin)).mono ?_)⟩
  rintro s₃ ⟨d, h₃, hd⟩
  have h₂₃ := (h₂.under m.tag).trans h₃
  have hforks : (s₂.under m.tag).forks = f' :: s₀.forks := h₂.forks
  rw [hforks] at h₂₃
  refine .single (fun heq => by simp [htag] at heq) (h₂₃.leave hin fun s₄ h₄ hgraph => ?_) ?_
  swap
  · rintro s' ⟨_, h', -⟩
    exact h'.violations.trans h₂₃.violations.symm
  have hopened : f'.opener = some n.instruction := hopener'.trans hopener
  have hnothing : Build.leaveInside o m s₄ = .ok ((), s₄) := by
    simp only [Build.leaveInside, hm, Build.leaveException]
    rw [run_bind (h₄.isSearchAtEnd_of_isSearch (by rwa [h₄.enclosing]) (hf f' hopened))]
    rfl
  rintro ⟨⟩ s₅ hs₅
  obtain rfl : s₄ = s₅ := congrArg Prod.snd (Except.ok.inj (hnothing.symm.trans hs₅))
  have hwritten : is ++ written (enclosed (m, events)) =
      is ++ [m.instruction] ++ written events := by
    rw [Notification.written_enclosed (by simp [htag, NodeTag.role])]
    simp
  have hd₄ : s₀.Room s₄ d := ⟨h₂₃.may, hgraph ▸ hd.lt, hgraph ▸ hd.writable⟩
  refine ⟨f', ⟨d, hwritten ▸ h₄, hd₄⟩, hopened, hempty, ?_⟩
  rintro hcascade g hg hsome t ht
  obtain rfl := Option.some.inj hg
  obtain ⟨hroom, hne⟩ := hrooms t
    ((hreserves hcascade f rfl (hopener' ▸ hsome) t (horigin ▸ ht)).same hsame)
  have hhere : (s₂.under m.tag).currentBlock ≠ some t := by
    rw [show (s₂.under m.tag).currentBlock = some c from h₂.here]
    exact fun heq => hne (Option.some.inj heq).symm
  have hroom₃ := h₃.room_of_ne (hroom.under m.tag) hhere
  exact ⟨hroom.may, hgraph ▸ hroom₃.lt, hgraph ▸ hroom₃.writable⟩

/-- The WHEN clauses of a SEARCH. -/
theorem Proceeds.passes_searchCases (h : s₀.Proceeds s is fs) (hin : s₀.inDivision = true)
    (hfs : Fork.Idle o.searchCascade i outer fs) (hreserves : s₀.Reserves s o.searchCascade fs)
    {clauses : List Case} (hclauses : ∀ c ∈ clauses, ∀ m ∈ c.1, m.kind = .searchWhen)
    (hwrites : ∀ c ∈ clauses, Writes o c.2) :
    s.Passes o (clauses.flatMap (Case.clause (.searchClause false))) fun s' => ∃ fs',
      s₀.Proceeds s' (is ++ written (clauses.flatMap (Case.clause (.searchClause false)))) fs' ∧
        Fork.Stacked o.searchCascade i outer fs' := by
  have hphrase : ∀ m : Node, m.kind = .searchWhen → m.IsPhrase := fun m hm => .inr (.inr hm)
  cases clauses with
  | nil => exact ⟨fs, by simpa using h, hfs.stacked⟩
  | cons c rest =>
    obtain ⟨f, outer', rfl, hnil⟩ := hfs.exists_cons
    obtain ⟨b, h, hb⟩ := h
    have hc := hclauses c (by simp)
    rw [List.flatMap_cons, Notification.written_append, ← List.append_assoc]
    -- only the first clause may go where room has been reserved
    refine .append ((h.passes_case hin hnil (fun m hm => hphrase m (hc m hm)) (hwrites c (by simp))
      .searchClause (J := fun fs => Fork.Idle o.searchCascade i outer fs ∧
        ∀ t, s₀.Reserves t o.searchCascade fs) fun s₁ h₁ hsame => ?_).mono ?_)
    · refine (h₁.startSearchWhen (hb.same hsame) (hfs.stacked.congr rfl) ?_ ?_).mono ?_
      · rintro hcascade g hg hsome t ht
        obtain rfl := Option.some.inj hg
        exact (hreserves hcascade f rfl hsome t ht).same hsame
      · exact isTested_of_phrases fun m hm => .inr (hc m hm)
      · exact fun _ s₂ ⟨fs', h₂, hstacked, hidle, hnone⟩ => ⟨fs', h₂, ⟨hstacked, hidle⟩, hnone⟩
    · rintro s₁ ⟨fs₁, h₁, hfs₁⟩
      refine (h₁.passes_cases hin (J := fun fs => Fork.Idle o.searchCascade i outer fs ∧
        ∀ t, s₀.Reserves t o.searchCascade fs) hfs₁ (fun _ hJ => hJ.1.exists_cons)
        (fun c hc => hclauses c (by simp [hc])) hphrase (fun c hc => hwrites c (by simp [hc]))
        .searchClause ?_).mono ?_
      · intro s₂ is b f fs ms hJ hms h₂ hb
        refine (h₂.startSearchWhen hb (hJ.1.stacked.congr rfl) ?_ ?_).mono ?_
        · rintro hcascade g hg hsome t ht
          obtain rfl := Option.some.inj hg
          exact hJ.2 s₂ hcascade f rfl hsome t ht
        · exact isTested_of_phrases fun m hm => .inr (hms m hm)
        · exact fun _ s₃ ⟨fs', h₃, hstacked, hidle, hnone⟩ => ⟨fs', h₃, ⟨hstacked, hidle⟩, hnone⟩
      · exact fun s₂ ⟨fs₂, h₂, hfs₂⟩ => ⟨fs₂, h₂, hfs₂.1.stacked⟩

theorem writes_search (hn : n.kind = .search) {atEnd : Option (Node × List Notification)}
    {clauses : List Case} (hatEnd : ∀ c ∈ atEnd, c.1.kind = .exception .atEnd)
    (hclauses : ∀ c ∈ clauses, ∀ m ∈ c.1, m.kind = .searchWhen)
    (hwrites : ∀ c ∈ atEnd, Writes o c.2) (hwrites' : ∀ c ∈ clauses, Writes o c.2) :
    Writes o (enclosed (n, atEnd.toList.flatMap enclosed ++
      clauses.flatMap (Case.clause (.searchClause false)))) := by
  have htag : n.tag = .search := by rw [Node.tag, hn]; rfl
  refine writes_enclosed (by rw [htag]; rfl)
    (K := fun s₀ s fs => ∃ f, fs = f :: s₀.forks ∧ f.opener = some n.instruction ∧
      f.phrases = [] ∧ s₀.Reserves s o.searchCascade fs)
    (L := fun outer fs => Fork.Stacked o.searchCascade n.instruction outer fs) ?_ ?_ ?_
  · intro s₀ s b h hb
    simp only [Build.enterKind, hn]
    refine (h.enterSearch hb htag).mono ?_
    rintro _ s' ⟨f, h', hopener, hnil, hreserves⟩
    exact ⟨_, h', f, rfl, hopener, hnil, hreserves.under _⟩
  · rintro s₀ s _ hin hsearch h ⟨f, rfl, hopener, hnil, hreserves⟩
    have hpoised : s₀.Poised s o.searchCascade n.instruction [n.instruction] :=
      ⟨f, h, hopener, hnil, hreserves⟩
    rw [Notification.written_append, ← List.cons_append]
    refine .append (Passes.mono (P := fun s₁ => s₀.Poised s₁ o.searchCascade n.instruction
      (n.instruction :: written (atEnd.toList.flatMap enclosed))) ?_ ?_)
    · cases atEnd with
      | none => exact hpoised
      | some c =>
        have hpasses := hpoised.passes_atEnd hin hn hsearch (hatEnd c rfl) (hwrites c rfl)
        simpa using hpasses
    · rintro s₁ ⟨f₁, h₁, hopener₁, hnil₁, hreserves₁⟩
      exact h₁.passes_searchCases hin ⟨.own hopener₁, hnil₁⟩ hreserves₁ hclauses hwrites'
  · intro s₀ s b fs h hb hfs
    simp only [Build.leaveInside, hn]
    exact h.leaveSearch hb hfs

end Scope

namespace Replay

open Scope

variable {o : Options} {events : List Notification}

/-- **Statements write their nodes** in the order in which these are entered, each of them comes
when it may, and the stack of forks is restored. -/
theorem writes (h : Replay events) : Writes o events := by
  induction h with
  | nil => exact .nil
  | append _ _ ih ih' => exact ih.append ih'
  | leaf hn _ => exact writes_leaf hn
  | verb hn hkinds _ _ ih => exact writes_verb hn hkinds ih
  | ifThen hn _ _ ih =>
    exact writes_ifThen hn fun s₀ s f hin h => (ih.after h hin).mono fun s₁ h₁ => ⟨f, h₁⟩
  | ifThenElse hn hm _ _ _ ih ih' =>
    refine writes_ifThen hn fun s₀ s f hin h => .append ((ih.after h hin).mono fun s₁ h₁ => ?_)
    rw [Notification.written_append, ← List.cons_append]
    exact h₁.passes_else hin hm ih'
  | evaluate hn hclauses hother _ _ _ ih ih' => exact writes_evaluate hn hclauses hother ih ih'
  | search hn hatEnd hclauses _ _ _ ih ih' => exact writes_search hn hatEnd hclauses ih ih'
  | loop hn _ _ ih => exact writes_loop hn ih

end Replay

end CobolFlow
