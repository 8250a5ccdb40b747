import CobolFlow.Proofs.Division.Units
import CobolFlow.Proofs.Writing.Finished

/-!
# The replay keeps to the protocol

A builder takes any list of notifications, and records those that make no sense where they come. The
replay of a tree gives it none to record. Statements come while a division is open and there is a
block to write them into, and leave the stack of forks as they found it. So no fork is open when a
sentence ends, nor when the division does.

## Main definitions

* `Builder.Lawful` — nothing has been done against the protocol
* `Builder.Passes` — a replay of several programs, step by step

## Main results

* `StatementTree.replay_lawful` — the replay of a tree keeps to the protocol
-/

namespace CobolFlow

/-! ### Divisions -/

/-- A replay that answers passes to where it ends. -/
theorem Scope.Passes.determined {o : Options} {events : List Notification} {s s' : Scope}
    {P : Scope → Prop} (h : s.Passes o events P)
    (hplay : Build.play o events s = .ok ((), s')) : s.Passes o events (· = s') := by
  induction events generalizing s with
  | nil =>
    cases hplay
    rfl
  | cons e rest ih =>
    obtain ⟨⟨⟩, s₁, htake, hrest⟩ := exists_of_run_bind_eq_ok hplay
    obtain ⟨hsame, hpasses⟩ := h.2 ⟨⟩ s₁ htake
    refine ⟨h.1, fun _ s₂ htake₂ => ?_⟩
    obtain rfl := congrArg Prod.snd (Except.ok.inj (htake.symm.trans htake₂))
    exact ⟨hsame, ih hpasses hrest⟩

/-- **A division** is replayed as the protocol asks. -/
theorem DivisionText.passes_division (d : DivisionText) (o : Options) (program : Option String)
    (id : NodeId) : ({ procedures := { program } } : Scope).Passes o
      ((Script.division d).run id).1 fun _ => True := by
  obtain ⟨s₁, -, -, -, hitems, -⟩ := d.exists_play_items o program id
  obtain ⟨s, -, s₂, -, -, ⟨hplay, hprints, -⟩, hlawful, -⟩ := d.exists_finished o program id
  have hpasses := d.passes_items o program id
  have hrecorded := hpasses.of_play hitems
  rw [run_division, List.cons_append] at hplay ⊢
  rw [Build.play_cons (Build.take_division o program id), Build.play_append hitems] at hplay
  obtain ⟨⟨⟩, t, hleave, hdone⟩ := exists_of_run_bind_eq_ok hplay
  cases hdone
  change Scope.Passes o (.enter { id, kind := .procedureDivision } :: (_ ++ [.leave _])) _ _
  refine ⟨fun hstatement => (nomatch hstatement), fun _ s₀ htake => ?_⟩
  obtain rfl := congrArg Prod.snd (Except.ok.inj
    ((Build.take_division o program id).symm.trans htake))
  refine ⟨rfl, .append ((hpasses.determined hitems).mono ?_)⟩
  rintro _ rfl
  refine ⟨fun _ => hrecorded.forks, fun _ s₃ htake₃ => ⟨?_, trivial⟩⟩
  obtain rfl := congrArg Prod.snd (Except.ok.inj (hleave.symm.trans htake₃))
  exact (hprints.violations.trans hlawful).trans hrecorded.lawful.symm

/-! ### Replays of several programs -/

/-- Nothing has been done against the protocol, neither in a program that is open nor in one that
has been left. -/
structure Builder.Lawful (b : Builder) : Prop where
  closed : b.violations = []
  scopes : ∀ p ∈ b.scopes, p.scope.violations = []

namespace Notification

/-- What is true when a notification comes. What lies inside a program comes to the innermost. -/
def FitsIn (e : Notification) (b : Builder) : Prop :=
  e.IsInner → ∃ p outer, b.scopes = p :: outer ∧ e.Fits p.scope

/-- A sentence ends, or the division. -/
def Closes : Notification → Prop
  | .sentenceEnd => True
  | .leave n => n.tag = .procedureDivision
  | _ => False

end Notification

namespace Builder

/-- All notifications come when they may, each is taken and none is against the protocol, and when
they have been taken, `post` is true. -/
def Passes : List Notification → Builder → (Builder → Prop) → Prop
  | [], b, post => b.Lawful ∧ post b
  | e :: rest, b, post =>
    b.Lawful ∧ e.FitsIn b ∧ ∃ b', b.step e = .ok b' ∧ b'.options = b.options ∧ Passes rest b' post

variable {b b' : Builder} {p : OpenProgram} {outer : List OpenProgram} {s : Scope}
  {events events' : List Notification} {e : Notification} {P Q : Builder → Prop}

namespace Passes

theorem lawful (h : Passes events b P) : b.Lawful := by
  cases events with
  | nil => exact h.1
  | cons e rest => exact h.1

theorem append (h : Passes events b fun b' => Passes events' b' Q) :
    Passes (events ++ events') b Q := by
  induction events generalizing b with
  | nil => exact h.2
  | cons e rest ih =>
    obtain ⟨hlawful, hfits, b', hstep, hoptions, hrest⟩ := h
    exact ⟨hlawful, hfits, b', hstep, hoptions, ih hrest⟩

theorem mono (h : Passes events b P) (hP : ∀ b', b'.Lawful → P b' → Q b') :
    Passes events b Q := by
  induction events generalizing b with
  | nil => exact ⟨h.1, hP b h.1 h.2⟩
  | cons e rest ih =>
    obtain ⟨hlawful, hfits, b', hstep, hoptions, hrest⟩ := h
    exact ⟨hlawful, hfits, b', hstep, hoptions, ih hrest⟩

/-- Between two notifications. -/
theorem split (h : Passes (events ++ events') b P) :
    ∃ b', events.foldlM step b = .ok b' ∧ b'.options = b.options ∧ Passes events' b' P := by
  induction events generalizing b with
  | nil => exact ⟨b, rfl, rfl, h⟩
  | cons e rest ih =>
    obtain ⟨-, -, b₁, hstep, hoptions, hrest⟩ := h
    obtain ⟨b', hrun, hoptions', hpasses⟩ := ih hrest
    refine ⟨b', ?_, hoptions'.trans hoptions, hpasses⟩
    rw [List.foldlM_cons, hstep, ok_bind, hrun]

end Passes

/-- What is played inside a program. -/
theorem passes_inner (hinner : ∀ e ∈ events, e.IsInner) (hb : b.scopes = p :: outer)
    (hlawful : b.Lawful) {K : Scope → Prop} (h : p.scope.Passes b.options events K)
    (hplay : Build.play b.options events p.scope = .ok ((), s)) :
    Passes events b (· = { b with scopes := { p with scope := s } :: outer }) := by
  induction events generalizing b p with
  | nil =>
    cases hplay
    refine ⟨hlawful, ?_⟩
    rw [← hb]
  | cons e rest ih =>
    obtain ⟨⟨⟩, t, htake, hrest⟩ := exists_of_run_bind_eq_ok hplay
    obtain ⟨hsame, hpasses⟩ := h.2 ⟨⟩ t htake
    refine ⟨hlawful, fun _ => ⟨p, outer, hb, h.1⟩, _, step_inner (hinner e (by simp)) hb htake, rfl,
      ?_⟩
    refine ih (b := { b with scopes := { p with scope := t } :: outer })
      (p := { p with scope := t }) (fun e he => hinner e (by simp [he])) rfl
      ⟨hlawful.closed, fun q hq => ?_⟩ hpasses hrest
    obtain rfl | hq := List.mem_cons.1 hq
    · exact hsame.trans (hlawful.scopes p (by simp [hb]))
    · exact hlawful.scopes q (by simp [hb, hq])

/-- What has been played inside a program. -/
theorem exists_play_of_foldlM (hinner : ∀ e ∈ events, e.IsInner) (hb : b.scopes = p :: outer)
    (h : events.foldlM step b = .ok b') : ∃ s, Build.play b.options events p.scope = .ok ((), s) ∧
      b' = { b with scopes := { p with scope := s } :: outer } := by
  induction events generalizing b p with
  | nil =>
    cases h
    exact ⟨p.scope, rfl, by rw [← hb]⟩
  | cons e rest ih =>
    rw [List.foldlM_cons, step_eq_inScope (hinner e (by simp)) hb, inScope, hb] at h
    change ((Build.take b.options e p.scope >>= _) >>= _) = _ at h
    cases htake : Build.take b.options e p.scope with
    | error fault =>
      rw [htake] at h
      cases h
    | ok r =>
      rw [htake] at h
      obtain ⟨s, hplay, rfl⟩ := ih (b := { b with scopes := { p with scope := r.2 } :: outer })
        (fun e he => hinner e (by simp [he])) rfl h
      exact ⟨s, (run_bind htake _).trans hplay, rfl⟩

theorem lawful_openProgram (h : b.Lawful) (name : String) (kind : ProgramKind) :
    (b.openProgram name kind).Lawful where
  closed := h.closed
  scopes q hq := by
    obtain rfl | hq := List.mem_cons.1 hq
    · rfl
    · exact h.scopes q hq

/-- After whole programs, the builder goes on where it was. -/
structure Resumes (b b' : Builder) : Prop where
  options : b'.options = b.options
  scopes : b'.scopes = b.scopes
  size_le : b.finished.size ≤ b'.finished.size

theorem passes_program (hb : b.Lawful) (name : String) (kind : ProgramKind)
    (body : Option DivisionText) (nested : List ProgramText) (id : NodeId)
    (hnested : ∀ (b : Builder) (id : NodeId), b.Lawful →
      Passes ((Script.programs nested).run id).1 b b.Resumes) :
    Passes ((Script.program (.mk name kind body nested)).run id).1 b b.Resumes := by
  obtain ⟨n, houter, hn, hscript, -⟩ := run_program name kind body nested id
  rw [hscript, List.cons_append, List.append_assoc]
  set u : ProgramUnit := { name, kind, id := id + 1, division := body }
  set opened : OpenProgram :=
    { name, kind, slot := b.finished.size, parent := b.scopes.head?.map (·.slot)
      scope := { procedures := { program := u.program } } }
  obtain ⟨hinner, s, hplay⟩ := exists_play_events u b.options
  have hdivision : opened.scope.Passes b.options u.events fun _ => True := by
    cases body with
    | none => trivial
    | some d => exact d.passes_division b.options u.program (id + 1)
  refine ⟨hb, fun h => absurd h houter, _, (hn b).1, rfl, ?_⟩
  refine .append ((passes_inner (b := b.openProgram name kind) hinner rfl
    (lawful_openProgram hb name kind) hdivision hplay).mono ?_)
  rintro _ hlawful rfl
  refine .append ((hnested _ _ hlawful).mono fun b₂ hb₂ h₂ => ?_)
  have hsize : b.finished.size < b₂.finished.size := by
    refine (Nat.lt_succ_self _).trans_le ((le_of_eq ?_).trans h₂.size_le)
    exact (Array.size_push _).symm
  have hclose := closeProgram_eq_ok (b := b₂) (p := { opened with scope := s }) h₂.scopes hsize
  refine ⟨hb₂, fun h => absurd h houter, _, (hn b₂).2.trans hclose, rfl, ⟨?_, hb.scopes⟩,
    h₂.options, rfl, ?_⟩
  · have hmem : { opened with scope := s } ∈ b₂.scopes := by
      rw [h₂.scopes]
      exact List.mem_cons_self
    exact List.append_eq_nil_iff.2 ⟨hb₂.closed, hb₂.scopes _ hmem⟩
  · exact hsize.le.trans (le_of_eq Array.size_setIfInBounds.symm)

mutual

theorem passes_of_program : ∀ (p : ProgramText) (b : Builder) (id : NodeId), b.Lawful →
    Passes ((Script.program p).run id).1 b b.Resumes
  | .mk name kind body nested, _, id, hb =>
    passes_program hb name kind body nested id (passes_of_programs nested)

theorem passes_of_programs : ∀ (l : List ProgramText) (b : Builder) (id : NodeId), b.Lawful →
    Passes ((Script.programs l).run id).1 b b.Resumes
  | [], b, _, hb => by
    rw [Script.programs]
    exact ⟨hb, rfl, rfl, le_rfl⟩
  | p :: rest, b, id, hb => by
    rw [Script.programs]
    refine .append ((passes_of_program p b id hb).mono fun b₁ hb₁ h₁ => ?_)
    refine (passes_of_programs rest b₁ _ hb₁).mono fun b₂ _ h₂ => ?_
    exact ⟨h₂.options.trans h₁.options, h₂.scopes.trans h₁.scopes, h₁.size_le.trans h₂.size_le⟩

end

end Builder

namespace StatementTree

variable (t : StatementTree) (o : Options)

theorem passes : Builder.Passes t.notifications { options := o } fun _ => True :=
  (Builder.passes_of_programs t.programs { options := o } 0 ⟨rfl, by simp⟩).mono
    fun _ _ _ => trivial

/-- **The replay of a tree keeps to the protocol**: at no point has anything been done against it.
Each statement leaves the forks as it found them, and when a sentence or a division ends, no fork is
open. -/
theorem replay_lawful :
    (∀ before after, t.notifications = before ++ after →
      ∃ b, Builder.replay o before = .ok b ∧ b.Lawful) ∧
    (∀ before after st id,
      t.notifications = before ++ ((Script.statement st).run id).1 ++ after →
        ∃ b p outer b' p', Builder.replay o before = .ok b ∧ b.scopes = p :: outer ∧
          Builder.replay o (before ++ ((Script.statement st).run id).1) = .ok b' ∧
            b'.scopes = p' :: outer ∧ p'.scope.forks = p.scope.forks) ∧
    ∀ before after e, t.notifications = before ++ e :: after → e.Closes →
      ∃ b p outer, Builder.replay o before = .ok b ∧ b.scopes = p :: outer ∧
        p.scope.forks = [] := by
  have hpasses := t.passes o
  refine ⟨fun before after h => ?_, fun before after st id h => ?_, fun before after e h he => ?_⟩
  · rw [h] at hpasses
    obtain ⟨b, hrun, -, hrest⟩ := hpasses.split
    exact ⟨b, hrun, hrest.lawful⟩
  · rw [h, List.append_assoc] at hpasses
    obtain ⟨b, hrun, hoptions, hrest⟩ := hpasses.split
    obtain ⟨n, events, hevents, hstatement, -⟩ := Script.exists_enter st id
    have hinner := (Script.orderly_statement st).inner id
    obtain ⟨p, outer, hb, hsteady⟩ : ∃ p outer, b.scopes = p :: outer ∧ p.scope.Steady := by
      have hfits := hevents ▸ hrest
      obtain ⟨p, outer, hb, hfit⟩ := hfits.2.1 (hinner _ (by simp [hevents]))
      exact ⟨p, outer, hb, hfit hstatement⟩
    obtain ⟨b', hrun', -, -⟩ := hrest.split
    obtain ⟨s, hplay, rfl⟩ := Builder.exists_play_of_foldlM hinner hb hrun'
    obtain ⟨_, hwrote, -⟩ := ((Script.replay_statement st id).writes p.scope hsteady).of_play hplay
    refine ⟨b, p, outer, { b with scopes := { p with scope := s } :: outer }, _, hrun, hb, ?_, rfl,
      hwrote.forks⟩
    rw [Builder.replay, List.foldlM_append, show before.foldlM Builder.step _ = _ from hrun]
    exact hrun'
  · rw [h] at hpasses
    obtain ⟨b, hrun, -, -, hfits, -⟩ := hpasses.split
    cases e with
    | sentenceEnd =>
      obtain ⟨p, outer, hb, hforks⟩ := hfits trivial
      exact ⟨b, p, outer, hrun, hb, hforks⟩
    | leave n =>
      have htag : n.tag = .procedureDivision := he
      obtain ⟨p, outer, hb, hforks⟩ := hfits ⟨by simp [htag], by simp [htag]⟩
      exact ⟨b, p, outer, hrun, hb, hforks htag⟩
    | _ => exact False.elim he

end StatementTree

end CobolFlow
