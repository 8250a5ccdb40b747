import CobolFlow.Proofs.Faultless.Decision
import CobolFlow.Proofs.Trace.Advance

/-!
# Statements with branches

IF, exception phrases and the direct EVALUATE keep one fork open while their branches are replayed.
`Fork.Holds` says which bundle the fork stands for. A branch adds to it, and the join at the end
turns it into a fragment.

## Main definitions

* `Fork.Holds` — an open fork and its bundle

## Main results

* `Scope.Plays.ifThen`, `ifThenElse`, `exception` — one for each form
-/

namespace CobolFlow

open Scope

/-- A block that the program may go on in, whatever it says. -/
structure Spot.Fresh (t : Spot) : Prop where
  next : t.next = []
  ending : t.flags.ending = false
  finish : t.flags.finish = false

theorem Spot.Fresh.open_branch {Γ : Sketch} {t : Spot} {b : ℕ} (ht : t.Fresh) (hb : b ≠ Γ.size) :
    (Γ.branch b t).Open := by
  have hnew : (Γ.branch b t).chart Γ.size = t := by simp [Sketch.chart_branch hb]
  have hhere : (Γ.branch b t).here = Γ.size := rfl
  exact ⟨Nat.lt_succ_self Γ.size, by rw [hhere, hnew, ht.next], by rw [hhere, hnew, ht.ending],
    by rw [hhere, hnew, ht.finish]⟩

theorem Scope.spot_fresh (s : Scope) (leading : List Instruction) : (s.spot leading).Fresh :=
  ⟨rfl, rfl, rfl⟩

/-- A fork that is open at the end of `Γ₀`, with the bundle it stands for. -/
structure Fork.Holds (f : Fork) (Γ₀ Γ : Sketch) (ext : List Instruction) (branches : List Branch)
    (L : Landmarks) : Prop where
  bundle : Bundle Γ₀ Γ ext L.exits branches
  ranged : L.Ranged Γ₀.size Γ.size
  origin : f.origin = some Γ₀.here
  entries : f.branches = branches.map (·.entry)

namespace Fork.Holds

variable {f : Fork} {Γ₀ Γ Γ' : Sketch} {ext : List Instruction} {branches : List Branch}
  {L L' : Landmarks} {B : Behaviour} {t s : Spot}

theorem «open» (h₀ : Γ₀.Open) (horigin : f.origin = some Γ₀.here) (hnil : f.branches = [])
    (ext : List Instruction) : f.Holds Γ₀ (Γ₀.say ext) ext [] [] where
  bundle := by
    rw [Landmarks.exits_nil]
    exact .open h₀ ext
  ranged := .nil _ _
  origin := horigin
  entries := hnil

/-- A branch is a fragment from a new block on. -/
theorem add (h : f.Holds Γ₀ Γ ext branches L) (h₀ : Γ₀.Open)
    (hf : Fragment (Γ.branch Γ₀.here t) Γ' L'.exits B) (hplaced : L'.Placed (Γ.branch Γ₀.here t) Γ')
    (k : SlotId) : (f.trackBranch Γ.size k).Holds Γ₀ Γ' ext
      (branches ++ [⟨Γ.size, Γ'.here, B.saying t.nodes⟩]) (L ++ L') where
  bundle := by
    rw [Landmarks.exits_append]
    exact h.bundle.add h₀.here_lt hf
  ranged := by
    have hhere := hf.here_between
    have hlt := hf.opened.here_lt
    have hle : Γ.size ≤ Γ'.here := by
      obtain heq | hge := hhere
      · exact heq.ge
      · exact (Nat.le_succ Γ.size).trans hge.1
    exact h.ranged.append ((hplaced.ranged (Nat.le_succ Γ.size)).mono le_rfl hlt.le)
      h.bundle.size_le (hle.trans hlt.le)
  origin := h.origin
  entries := by
    rw [Fork.trackBranch, h.entries, List.map_append]
    rfl

/-- The join of a fork. -/
theorem close (h : f.Holds Γ₀ Γ ext branches L) (h₀ : Γ₀.Open) (hs : s.Blank) {onward : Bool}
    (hne : branches ≠ [] ∨ onward = true) {sources : List ℕ}
    (hsources : ∀ b, b ∈ sources ↔ b ≠ Γ.size ∧ (Γ.fresh s).chart.OpenEnd f.branches b ∨
      onward = true ∧ b ∈ f.origin) :
    Fragment Γ₀ (Γ.join s sources) L.exits
        (((branches.map (·.behaviour)).sum + if onward then .skip else 0).saying ext) ∧
      L.Placed Γ₀ (Γ.join s sources) := by
  refine ⟨h.bundle.close h₀ hs hne _ fun b => ?_,
    h.ranged.placed le_rfl le_rfl (Nat.lt_succ_self Γ.size)⟩
  rw [hsources, h.entries, h.origin, Option.mem_some, eq_comm (a := Γ₀.here)]

end Fork.Holds

namespace Scope

variable {s₀ s : Scope} {Γ : Sketch} {fs : List Fork} {f : Fork} {l : Ledger} {c : ℕ}
  {o : Options} {n m : Node} {B C : Behaviour} {events events' : List Notification}

namespace Since

theorem exists_enterIf (h : Since s₀ s Γ fs l) (i : Instruction) :
    ∃ k s', Build.enterIf i s = .ok ((), s') ∧
      Since s₀ s' ((Γ.say [i]).branch Γ.here s₀.spot)
        ((Fork.openedBy i Γ.here).trackBranch Γ.size k :: fs) l := by
  have hlt : Γ.here < s.graph.size := h.sound.currentBlock _ h.here
  obtain ⟨s₁, hpush, h₁⟩ := h.exists_pushFork (f := .openedBy i Γ.here)
    (Build.inside_openedBy i hlt)
  obtain ⟨s₂, hsay, h₂⟩ := h₁.exists_addInstruction i
  obtain ⟨s₃, hnew, h₃⟩ := h₂.exists_newBlock none
  obtain ⟨k, s₄, hopen, h₄⟩ := h₃.exists_openBranch (b := Γ.size) (Nat.lt_succ_self _)
    (c := Γ.here) rfl
  refine ⟨k, s₄, ?_, h₄⟩
  rw [Build.enterIf, run_bind h.current?]
  exact (run_bind hpush _).trans ((run_bind hsay _).trans ((run_bind hnew _).trans hopen))

theorem exists_enterElse (h : Since s₀ s Γ (f :: fs) l) (horigin : f.origin = some c)
    (i : Option Instruction) :
    ∃ k s', Build.enterElse i s = .ok ((), s') ∧
      Since s₀ s' (Γ.branch c (s₀.spot i.toList)) (f.trackBranch Γ.size k :: fs) l := by
  obtain ⟨s₁, hnew, h₁⟩ := h.exists_newBlock i
  obtain ⟨k, s₂, hopen, h₂⟩ := h₁.exists_openBranch (b := Γ.size) (Nat.lt_succ_self _) horigin
  exact ⟨k, s₂, by rw [Build.enterElse, run_bind hnew, hopen], h₂⟩

/-- A branch of the innermost fork is replayed. -/
theorem exists_branch {Γ : Sketch} {t : Spot} {L : Landmarks} {ext : List Instruction}
    {branches : List Branch} {k : SlotId}
    (h : Since s₀ s (Γ.branch s₀.sketch.here t) (f.trackBranch Γ.size k :: fs)
      (L.foldl (Ledger.post s₀.currentSentence) s₀.ledger)) (h₀ : Ready s₀)
    (hf : f.Holds s₀.sketch Γ ext branches L) (ht : t.Fresh)
    (hplays : Ready s → s.enclosing = s₀.enclosing → Plays o s events B) :
    ∃ (Γ' : Sketch) (s' : Scope) (L' : Landmarks), Build.play o events s = .ok ((), s') ∧
      Since s₀ s' Γ' (f.trackBranch Γ.size k :: fs)
        ((L ++ L').foldl (Ledger.post s₀.currentSentence) s₀.ledger) ∧
      (f.trackBranch Γ.size k).Holds s₀.sketch Γ' ext
        (branches ++ [⟨Γ.size, Γ'.here, B.saying t.nodes⟩]) (L ++ L') ∧
      L'.map (·.2) = events.filterMap (·.landmark?) ∧
      (∀ b < Γ.size, (Γ'.chart b).flags.default = (Γ.chart b).flags.default) ∧
      (Γ'.chart Γ.size).flags.default = t.flags.default := by
  have hne : s₀.sketch.here ≠ Γ.size := (h₀.opened.here_lt.trans_le hf.bundle.size_le).ne
  obtain ⟨Γ', s', L', hplay, h', hfrag, hplaced, hkinds, hdefault⟩ :=
    h.exists_play h₀ (ht.open_branch hne) hplays
  rw [← List.foldl_append] at h'
  refine ⟨Γ', s', L', hplay, h', hf.add h₀.opened hfrag hplaced k, hkinds, fun b hb => ?_, ?_⟩
  · rw [hdefault b (Nat.lt_succ_of_lt hb), Sketch.chart_branch hne, if_neg hb.ne]
    split <;> rfl
  · rw [hdefault _ (Nat.lt_succ_self _), Sketch.chart_branch hne, if_pos rfl]

/-- The innermost fork is closed. -/
theorem exists_close {L : Landmarks} {ext : List Instruction} {branches : List Branch}
    (h : Since s₀ s Γ fs (L.foldl (Ledger.post s₀.currentSentence) s₀.ledger))
    (hinside : f.Inside s.graph) (h₀ : Ready s₀) (hf : f.Holds s₀.sketch Γ ext branches L)
    (onward : Bool) (hne : branches ≠ [] ∨ onward = true) :
    ∃ s', Build.joinFork f onward s = .ok ((), s') ∧
      Since s₀ s' s'.sketch fs (L.foldl (Ledger.post s₀.currentSentence) s₀.ledger) ∧
      Fragment s₀.sketch s'.sketch L.exits
        (((branches.map (·.behaviour)).sum + if onward then .skip else 0).saying ext) ∧
      L.Placed s₀.sketch s'.sketch := by
  obtain ⟨sources, s', hjoin, h', hsources⟩ := h.exists_joinFork hinside onward
  obtain ⟨hfrag, hplaced⟩ := hf.close h₀.opened s₀.spot_blank hne hsources
  refine ⟨s', hjoin, ?_, ?_, ?_⟩ <;> rwa [h'.scope_sketch]

end Since

/-! ### IF -/

namespace Plays

theorem exists_leaveIf {L : Landmarks} {ext : List Instruction} {branches : List Branch}
    (h : Since s₀ s Γ (f :: s₀.forks) (L.foldl (Ledger.post s₀.currentSentence) s₀.ledger))
    (h₀ : Ready s₀) (hf : f.Holds s₀.sketch Γ ext branches L) (hne : branches ≠ []) :
    ∃ s', Build.leaveIf s = .ok ((), s') ∧
      Since s₀ s' s'.sketch s₀.forks (L.foldl (Ledger.post s₀.currentSentence) s₀.ledger) ∧
      Fragment s₀.sketch s'.sketch L.exits (((branches.map (·.behaviour)).sum +
        if branches.length == 1 then .skip else 0).saying ext) ∧
      L.Placed s₀.sketch s'.sketch := by
  obtain ⟨s₁, hpop, h₁, hinside⟩ := h.exists_popFork
  obtain ⟨s₂, hjoin, h₂⟩ := h₁.exists_close hinside h₀ hf (branches.length == 1) (.inl hne)
  refine ⟨s₂, ?_, h₂⟩
  have hlength : f.branches.length = branches.length := by rw [hf.entries, List.length_map]
  rw [← hlength] at hjoin
  rw [Build.leaveIf, run_bind hpop]
  exact hjoin

/-- IF has been entered, and its first branch replayed. -/
theorem exists_then (h₀ : Ready s) (hn : n.kind = .ifThen)
    (hbody : ∀ s, Ready s → Plays o s events B) :
    ∃ (Γ : Sketch) (s' : Scope) (f : Fork) (L : Landmarks) (b c : ℕ),
      Build.play o (.enter n :: events) s = .ok ((), s') ∧
      Since (s.under n.tag) s' Γ (f :: s.forks)
        (L.foldl (Ledger.post s.currentSentence) s.ledger) ∧
      f.Holds s.sketch Γ [⟨n.id, n.tag⟩] [⟨b, c, B⟩] L ∧
      L.map (·.2) = events.filterMap (·.landmark?) := by
  set i : Instruction := ⟨n.id, n.tag⟩ with hi
  obtain ⟨s₁, henter, k, h₁⟩ := h₀.since.exists_enter (o := o) (n := n) h₀
    (by simp [Node.tag, hn, NodeKind.tag])
    (P := fun s' => ∃ k, Since s s' ((s.sketch.say [i]).branch s.sketch.here s.spot)
      ((Fork.openedBy i s.sketch.here).trackBranch s.sketch.size k :: s.forks) s.ledger)
    fun s₁ h => by
      obtain ⟨k, s', hrun, h'⟩ := h.exists_enterIf i
      exact ⟨s', by simpa only [Build.enterKind, hn] using hrun, k, h'⟩
  have hopen : (Fork.openedBy i s.sketch.here).Holds s.sketch (s.sketch.say [i]) [i] [] [] :=
    .open h₀.opened rfl rfl [i]
  obtain ⟨Γ, s₂, L, hplay, h₂, hf, hkinds, -⟩ := Since.exists_branch (Γ := s.sketch.say [i])
    (L := []) (h₁.under n.tag) (h₀.under n.tag) hopen (s.spot_fresh []) fun h _ => hbody _ h
  have hlead : B.saying (s.spot).nodes = B := B.saying_nil
  rw [List.nil_append, List.nil_append, hlead] at hf
  exact ⟨Γ, s₂, _, L, _, _, by rw [Build.play_cons henter, hplay], h₂, hf, hkinds⟩

/-- IF without ELSE. -/
theorem ifThen (h₀ : Ready s) (hn : n.kind = .ifThen)
    (hbody : ∀ s, Ready s → Plays o s events B) :
    Plays o s (.enter n :: events ++ [.leave n]) ((B + .skip).saying [⟨n.id, n.tag⟩]) := by
  obtain ⟨Γ, s₁, f, L, b, c, hplay, h₁, hf, hkinds⟩ := exists_then h₀ hn hbody
  obtain ⟨s₂, hleave, h₂, hfrag, hplaced⟩ := h₁.exists_leave (o := o) h₀ fun s₁ h _ => by
    obtain ⟨s', hrun, h'⟩ := exists_leaveIf h h₀ hf (by simp)
    exact ⟨s', by simpa only [Build.leaveInside, hn] using hrun, h'⟩
  refine ⟨s₂, L, ?_, h₂, ?_, hplaced, ?_⟩
  · rw [Build.play_append hplay, Build.play_cons hleave, Build.play_nil]
  · simpa using hfrag
  · rw [hkinds]
    simp [Notification.landmark?, Node.landmark?, hn]

/-- IF with ELSE, whose block begins with it. -/
theorem ifThenElse (h₀ : Ready s) (hn : n.kind = .ifThen) (hm : m.kind = .elsePart)
    (hbody : ∀ s, Ready s → Plays o s events B) (helse : ∀ s, Ready s → Plays o s events' C) :
    Plays o s (.enter n :: (events ++ .enter m :: events' ++ [.leave m]) ++ [.leave n])
      ((B + C.saying [⟨m.id, m.tag⟩]).saying [⟨n.id, n.tag⟩]) := by
  obtain ⟨Γ, s₁, f, L, b, c, hplay, h₁, hf, hkinds⟩ := exists_then h₀ hn hbody
  obtain ⟨s₂, henter, k, h₂⟩ := h₁.exists_enter (o := o) (n := m) (h₀.under n.tag)
    (by simp [Node.tag, hm, NodeKind.tag])
    (P := fun s' => ∃ k, Since (s.under n.tag) s'
      (Γ.branch s.sketch.here (s.spot [⟨m.id, m.tag⟩])) (f.trackBranch Γ.size k :: s.forks)
      (L.foldl (Ledger.post s.currentSentence) s.ledger)) fun s₁ h => by
      obtain ⟨k, s', hrun, h'⟩ := h.exists_enterElse hf.origin (some ⟨m.id, m.tag⟩)
      exact ⟨s', by simpa only [Build.enterKind, hm] using hrun, k, h'⟩
  obtain ⟨Γ', s₃, L', hplay', h₃, hf', hkinds', -⟩ := Since.exists_branch (h₂.under m.tag)
    ((h₀.under n.tag).under m.tag) hf (s.spot_fresh _) fun h _ => helse _ h
  obtain ⟨s₄, hleave', h₄⟩ := h₃.exists_leave_pure (o := o) (h₀.under n.tag)
    (by simp only [Build.leaveInside, hm])
  obtain ⟨s₅, hleave, h₅, hfrag, hplaced⟩ := h₄.exists_leave (o := o) h₀ fun s₁ h _ => by
    obtain ⟨s', hrun, h'⟩ := exists_leaveIf h h₀ hf' (by simp)
    exact ⟨s', by simpa only [Build.leaveInside, hn] using hrun, h'⟩
  refine ⟨s₅, L ++ L', ?_, h₅, ?_, hplaced, ?_⟩
  · have hmid : Build.play o (.enter n :: (events ++ .enter m :: events' ++ [.leave m])) s =
        .ok ((), s₄) := by
      rw [← List.cons_append, ← List.cons_append, List.append_assoc, Build.play_append hplay,
        List.cons_append, Build.play_cons henter, Build.play_append hplay',
        Build.play_cons hleave', Build.play_nil]
    rw [Build.play_append hmid, Build.play_cons hleave, Build.play_nil]
  · simpa using hfrag
  · rw [List.map_append, hkinds, hkinds']
    simp [Notification.landmark?, Node.landmark?, hn, hm]

end Plays

end Scope

end CobolFlow
