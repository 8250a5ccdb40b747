import CobolFlow.Proofs.Trace.Alternatives

/-!
# EVALUATE in the cascade lowering

Each WHEN is a two-way decision of its own, a *level*, in the else-branch of the one before it. No
level is closed before the EVALUATE ends; then they are closed from the innermost outwards. So what
is kept while the clauses are replayed is a nest of open bundles, one in the last branch of the
other.

## Main definitions

* `Nest` — levels that are open, and what they do once they are closed
* `Clause.cascade` — what a list of clauses does

## Main results

* `Nest.exists_close` — a nest is closed to a fragment
* `Scope.Plays.evaluateCascade` — EVALUATE in the cascade lowering
-/

namespace CobolFlow

open Scope

/-- What is done by the first of some clauses whose phrases apply. -/
def Clause.cascade (other : Option Clause) : List Clause → Behaviour
  | [] => (other.map (·.body)).getD .skip
  | c :: rest => (c.body + cascade other rest).saying c.said

/-- A level of a cascade that is opened at a block, above a fork. -/
def Fork.levelAbove (below : Fork) (origin : BlockId) : Fork :=
  { opener := none, origin := some origin, root := below.root, rootSlot := below.rootSlot }

/-- Levels that are open, innermost first. The else-branches of all but the innermost begin in a
block `t` and hold the levels above. -/
inductive Nest (t : Spot) : Sketch → Sketch → List Fork → Landmarks → Behaviour → Prop
  | single {Γ₀ Γ : Sketch} {f : Fork} {said : List Instruction} {br : Branch} {L : Landmarks}
    (h : f.Holds Γ₀ Γ said [br] L) : Nest t Γ₀ Γ [f] L ((br.behaviour + .skip).saying said)
  | other {Γ₀ Γ : Sketch} {f : Fork} {said : List Instruction} {br br' : Branch} {L : Landmarks}
    (h : f.Holds Γ₀ Γ said [br, br'] L) :
    Nest t Γ₀ Γ [f] L ((br.behaviour + br'.behaviour).saying said)
  | above {Γ₀ Γ₁ Γ : Sketch} {f : Fork} {said : List Instruction} {br : Branch}
    {L L' : Landmarks} {levels : List Fork} {B : Behaviour} (h : f.Holds Γ₀ Γ₁ said [br] L)
    (habove : Nest t (Γ₁.branch Γ₀.here t) Γ levels L' B) (k : SlotId) :
    Nest t Γ₀ Γ (levels ++ [f.trackBranch Γ₁.size k]) (L ++ L') ((br.behaviour + B).saying said)

namespace Scope

variable {s₀ s : Scope} {Γ Γ₀ : Sketch} {fs levels : List Fork} {f : Fork} {l : Ledger}
  {o : Options} {n : Node} {B : Behaviour} {L : Landmarks} {said : List Instruction} {br : Branch}

/-- A loop without early return. -/
theorem forIn_eq_forM {α : Type} (l : List α) (f : α → Build Unit) :
    (forIn l PUnit.unit fun a _ => do
      f a
      pure (ForInStep.yield PUnit.unit)) = l.forM f := by
  induction l with
  | nil => rfl
  | cons a l ih =>
    rw [List.forIn_cons, bind_assoc]
    simp only [pure_bind, ih]
    rfl

/-- Levels are closed, innermost first. -/
def closeLevels (levels : List Fork) : Build Unit :=
  levels.forM fun level => Build.joinFork level (level.branches.length == 1)

theorem closeLevels_cons {f : Fork} {s' : Scope}
    (h : Build.joinFork f (f.branches.length == 1) s = .ok ((), s')) (levels : List Fork) :
    closeLevels (f :: levels) s = closeLevels levels s' := by
  have hcons : closeLevels (f :: levels) = (do
      Build.joinFork f (f.branches.length == 1)
      closeLevels levels) := rfl
  rw [hcons, run_bind h]

theorem closeLevels_append {l : List Fork} {s' : Scope}
    (h : closeLevels l s = .ok ((), s')) (f : Fork) :
    closeLevels (l ++ [f]) s = Build.joinFork f (f.branches.length == 1) s' := by
  have happend : closeLevels (l ++ [f]) = (do
      closeLevels l
      closeLevels [f]) := List.forM_append
  have hsingle : closeLevels [f] = (do
      Build.joinFork f (f.branches.length == 1)
      pure ()) := rfl
  rw [happend, run_bind h, hsingle, bind_pure_unit]

/-- A nest is closed to a fragment. -/
theorem Nest.exists_close {t : Spot} (hnest : Nest t Γ₀ Γ levels L B) (ht : t = s.spot)
    (h₀ : Γ₀.Open) (h : Since s s Γ fs l) (hinside : ∀ f ∈ levels, f.Inside s.graph) :
    ∃ Γ' s', closeLevels levels s = .ok ((), s') ∧ Since s s' Γ' fs l ∧
      Fragment Γ₀ Γ' L.exits B ∧ L.Placed Γ₀ Γ' := by
  have hsingle : ∀ (f : Fork) (s : Scope), closeLevels [f] s =
      Build.joinFork f (f.branches.length == 1) s := fun f s =>
    closeLevels_append (l := []) rfl f
  induction hnest with
  | @single Γ₀ Γ f said br L hf =>
    obtain ⟨sources, s', hjoin, h', hsources⟩ := h.exists_joinFork (hinside f (by simp)) true
    obtain ⟨hfrag, hplaced⟩ := hf.close h₀ s.spot_blank (.inr rfl) hsources
    have hcount : f.branches.length = 1 := by rw [hf.entries]; rfl
    exact ⟨_, s', by rw [hsingle, hcount]; exact hjoin, h', by simpa using hfrag, hplaced⟩
  | @other Γ₀ Γ f said br br' L hf =>
    obtain ⟨sources, s', hjoin, h', hsources⟩ := h.exists_joinFork (hinside f (by simp)) false
    obtain ⟨hfrag, hplaced⟩ := hf.close h₀ s.spot_blank (.inl (by simp)) hsources
    have hcount : f.branches.length = 2 := by rw [hf.entries]; rfl
    exact ⟨_, s', by rw [hsingle, hcount]; exact hjoin, h', by simpa using hfrag, hplaced⟩
  | @above Γ₀ Γ₁ Γ f said br L L' levels B hf habove k ih =>
    subst ht
    have hne : Γ₀.here ≠ Γ₁.size := (h₀.here_lt.trans_le hf.bundle.size_le).ne
    obtain ⟨Γ₂, s₂, hclose, h₂, hfrag, hplaced⟩ := ih ((s.spot_fresh []).open_branch hne) h
      fun g hg => hinside g (by simp [hg])
    have hf₂ := hf.add h₀ hfrag hplaced k
    have hinside₂ : (f.trackBranch Γ₁.size k).Inside s₂.graph :=
      (hinside _ (by simp)).mono h₂.le
    obtain ⟨sources, s', hjoin, h', hsources⟩ := h₂.exists_joinFork hinside₂ false
    obtain ⟨hfrag', hplaced'⟩ := hf₂.close h₀ s.spot_blank (.inl (by simp)) hsources
    have hcount : (f.trackBranch Γ₁.size k).branches.length = 2 := by rw [hf₂.entries]; rfl
    refine ⟨_, s', ?_, h', by simpa using hfrag', hplaced'⟩
    rw [closeLevels_append hclose, hcount]
    exact hjoin

/-- Instructions are put into the current block. -/
theorem Since.exists_addAll (h : Since s₀ s Γ fs l) (is : List Instruction) :
    ∃ s', is.forM Build.addInstruction s = .ok ((), s') ∧ Since s₀ s' (Γ.say is) fs l := by
  induction is generalizing s Γ with
  | nil => exact ⟨s, rfl, by simpa using h⟩
  | cons i rest ih =>
    obtain ⟨s₁, hsay, h₁⟩ := h.exists_addInstruction i
    obtain ⟨s₂, hrest, h₂⟩ := ih h₁
    refine ⟨s₂, (run_bind hsay _).trans hrest, ?_⟩
    have hsame : (Γ.say [i]).say rest = Γ.say (i :: rest) := by
      simp only [Sketch.say, Sketch.sayAt, Sketch.mk.injEq, and_true]
      funext c
      by_cases hc : c = Γ.here <;> simp [hc]
    rwa [hsame] at h₂

/-- A further level is opened: the current block tests the waiting phrases. -/
theorem Since.exists_pushLevel (h : Since s₀ s Γ (f :: fs) l) :
    ∃ k s', Build.pushLevel s = .ok ((), s') ∧
      Since s₀ s' ((Γ.say f.phrases).branch Γ.here s₀.spot)
        ((f.levelAbove Γ.here).trackBranch Γ.size k :: { f with phrases := [] } :: fs) l := by
  have hf := h.inside
  have hlt : Γ.here < s.graph.size := h.sound.currentBlock _ h.here
  obtain ⟨s₁, hpush, h₁⟩ := h.exists_pushFork (f := f.levelAbove Γ.here)
    { origin := fun b hb => Option.mem_some.1 hb ▸ hlt, branches := by simp [Fork.levelAbove]
      branchSlots := by simp [Fork.levelAbove], root := hf.root, rootSlot := hf.rootSlot }
  obtain ⟨s₂, htake, h₂⟩ := h₁.exists_takePhrases_one
  obtain ⟨s₃, hsay, h₃⟩ : ∃ s₃, (forIn f.phrases PUnit.unit fun phrase _ => do
      Build.addInstruction phrase
      pure (ForInStep.yield PUnit.unit) : Build PUnit) s₂ = .ok (⟨⟩, s₃) ∧
      Since s₀ s₃ (Γ.say f.phrases) (f.levelAbove Γ.here :: { f with phrases := [] } :: fs) l := by
    rw [forIn_eq_forM]
    exact h₂.exists_addAll f.phrases
  obtain ⟨s₄, hnew, h₄⟩ := h₃.exists_newBlock none
  obtain ⟨k, s₅, hopen, h₅⟩ := h₄.exists_openBranch (b := Γ.size) (Nat.lt_succ_self _)
    (c := Γ.here) rfl
  refine ⟨k, s₅, ?_, h₅⟩
  rw [Build.pushLevel, run_bind h.current?]
  refine (run_bind (a := s) (t := s) rfl _).trans ?_
  simp only [h.forks, List.head?_cons, Option.bind_some]
  refine (run_bind hpush _).trans ((run_bind htake _).trans ((run_bind hsay _).trans ?_))
  exact (run_bind hnew _).trans hopen

/-- The phrases of a clause wait: the current block tests them, and the clause is replayed. -/
theorem Since.exists_test (h : Since s₀ s Γ (f :: fs) l) (h₀ : Ready s₀) {c : Clause}
    (hphrases : f.phrases = c.said) (hplays : ∀ s, Ready s → Plays o s c.events c.body) :
    ∃ (k : SlotId) (Γ' : Sketch) (s₁ s' : Scope) (L : Landmarks),
      Build.pushLevel s = .ok ((), s₁) ∧ Build.play o c.events s₁ = .ok ((), s') ∧
      Since s₀ s' Γ'
        ((f.levelAbove Γ.here).trackBranch Γ.size k :: { f with phrases := [] } :: fs)
        (L.foldl (Ledger.post s₀.currentSentence) l) ∧
      Fragment ((Γ.say c.said).branch Γ.here s₀.spot) Γ' L.exits c.body ∧
      L.Placed ((Γ.say c.said).branch Γ.here s₀.spot) Γ' ∧
      L.map (·.2) = c.events.filterMap (·.landmark?) := by
  obtain ⟨k, s₁, hpush, h₁⟩ := h.exists_pushLevel
  rw [hphrases] at h₁
  have hlt : Γ.here < (Γ.say c.said).size := h.size ▸ h.sound.currentBlock _ h.here
  obtain ⟨Γ', s', L, hplay, h', hfrag, hplaced, hkinds, -⟩ :=
    h₁.exists_play h₀ ((s₀.spot_fresh []).open_branch hlt.ne) fun h _ => hplays _ h
  exact ⟨k, Γ', s₁, s', L, hpush, hplay, h', hfrag, hplaced, hkinds⟩

/-- The level that this opens. -/
theorem Since.exists_level (h : Since s₀ s Γ (f :: fs) l) (h₀ : Ready s₀) (hΓ : Γ.Open)
    {c : Clause} (hphrases : f.phrases = c.said)
    (hplays : ∀ s, Ready s → Plays o s c.events c.body) :
    ∃ Γ' s₁ s' level br L, Build.pushLevel s = .ok ((), s₁) ∧
      Build.play o c.events s₁ = .ok ((), s') ∧
      Since s₀ s' Γ' (level :: { f with phrases := [] } :: fs)
        (L.foldl (Ledger.post s₀.currentSentence) l) ∧
      level.Holds Γ Γ' c.said [br] L ∧ br.behaviour = c.body ∧ level.opener = none ∧
      level.phrases = [] ∧ L.map (·.2) = c.events.filterMap (·.landmark?) := by
  obtain ⟨k, Γ', s₁, s', L, hpush, hplay, h', hfrag, hplaced, hkinds⟩ :=
    h.exists_test (o := o) h₀ hphrases hplays
  have hholds : (f.levelAbove Γ.here).Holds Γ (Γ.say c.said) c.said [] [] := .open hΓ rfl rfl c.said
  have hholds' := hholds.add hΓ hfrag hplaced k
  exact ⟨Γ', s₁, s', _, _, L, hpush, hplay, h', hholds', c.body.saying_nil, rfl, rfl, hkinds⟩

/-- The WHEN OTHER is the else-branch of the innermost level. -/
theorem Since.exists_nest_other (h : Since s₀ s Γ (f :: fs) l) (h₀ : Ready s₀) (hΓ₀ : Γ₀.Open)
    (hf : f.Holds Γ₀ Γ said [br] L) (hphrases : f.phrases = []) (c : Clause)
    (hc : ∀ m ∈ c.phrases, m.IsPhrase) (hplays : ∀ s, Ready s → Plays o s c.events c.body) :
    ∃ Γ' s' k L', Build.play o (c.replay .whenOtherClause) s = .ok ((), s') ∧
      Since s₀ s' Γ' (f.trackBranch Γ.size k :: fs)
        (L'.foldl (Ledger.post s₀.currentSentence) l) ∧
      Nest s₀.spot Γ₀ Γ' [f.trackBranch Γ.size k] (L ++ L')
        ((br.behaviour + c.body).saying said) ∧
      L'.map (·.2) = c.events.filterMap (·.landmark?) := by
  obtain ⟨s₁, hdefer, h₁⟩ := h.exists_phrases (o := o) h₀ hc
  obtain ⟨k, s₂, hopen, h₂⟩ := h₁.exists_startWhenOther hf.origin
  set t : Spot := { s₀.spot with flags := (s₀.spot).flags.union { default := true } } with ht
  have hfresh : t.Fresh := ⟨rfl, by simp [ht, Scope.spot, BlockFlags.union], by
    simp [ht, Scope.spot, BlockFlags.union]⟩
  have hne : Γ₀.here ≠ Γ.size := (hΓ₀.here_lt.trans_le hf.bundle.size_le).ne
  obtain ⟨Γ', s', L', hplay, h', hfrag, hplaced, hkinds, -⟩ :=
    h₂.exists_play h₀ (hfresh.open_branch hne) fun h _ => hplays _ h
  have hf' := hf.add hΓ₀ hfrag hplaced k
  have hsame : ({ f with phrases := [] } : Fork).trackBranch Γ.size k = f.trackBranch Γ.size k := by
    rw [← hphrases]
  rw [hsame] at h'
  have hbr : c.body.saying t.nodes = c.body := c.body.saying_nil
  rw [hbr] at hf'
  refine ⟨Γ', s', k, L', ?_, h', .other hf', hkinds⟩
  have hstart : Build.take o .whenOtherClause s₁ = .ok ((), s₂) := hopen
  rw [Clause.replay, Build.play_append hdefer, Build.play_cons hstart, hplay]

/-- The clauses after the first, and the WHEN OTHER. -/
theorem Since.exists_nest (ho : o.evaluateCascade = true) (h : Since s₀ s Γ (f :: fs) l)
    (h₀ : Ready s₀) (hΓ₀ : Γ₀.Open) (hf : f.Holds Γ₀ Γ said [br] L) (hlevel : f.opener = none)
    (hphrases : f.phrases = []) (rest : List Clause) {other : Option Clause}
    (hrest : ∀ c ∈ rest, ∀ m ∈ c.phrases, m.IsPhrase)
    (hother : ∀ c ∈ other, ∀ m ∈ c.phrases, m.IsPhrase)
    (hplays : ∀ c ∈ rest, ∀ s, Ready s → Plays o s c.events c.body)
    (hplay : ∀ c ∈ other, ∀ s, Ready s → Plays o s c.events c.body) :
    ∃ Γ' s' levels L', Build.play o (rest.flatMap (·.replay .whenClause) ++
        other.toList.flatMap (·.replay .whenOtherClause)) s = .ok ((), s') ∧
      Since s₀ s' Γ' (levels ++ fs) (L'.foldl (Ledger.post s₀.currentSentence) l) ∧
      Nest s₀.spot Γ₀ Γ' levels (L ++ L')
        ((br.behaviour + Clause.cascade other rest).saying said) ∧
      (∀ g ∈ levels, g.opener = none) ∧
      L'.map (·.2) = (rest.flatMap (·.replay .whenClause) ++
        other.toList.flatMap (·.replay .whenOtherClause)).filterMap (·.landmark?) := by
  induction rest generalizing s Γ f fs l Γ₀ L said br with
  | nil =>
    cases other with
    | none => exact ⟨Γ, s, [f], [], rfl, h, by simpa using .single hf, by simpa using hlevel, rfl⟩
    | some c =>
      obtain ⟨Γ', s', k, L', hplay, h', hnest, hkinds⟩ :=
        h.exists_nest_other h₀ hΓ₀ hf hphrases c (hother c rfl) (hplay c rfl)
      refine ⟨Γ', s', [f.trackBranch Γ.size k], L', by simpa using hplay, h', hnest,
        fun g hg => List.mem_singleton.1 hg ▸ hlevel, ?_⟩
      simp [hkinds, c.filterMap_replay (hother c rfl) (e := .whenOtherClause) rfl]
  | cons c rest ih =>
    -- the else-branch of the innermost level
    obtain ⟨s₁, hdefer, h₁⟩ := h.exists_phrases (o := o) h₀ (hrest c (by simp))
    rw [hphrases, List.nil_append] at h₁
    set waiting : Fork := { f with phrases := c.phrases.map (·.instruction) }
    obtain ⟨k, s₂, helse, h₂⟩ := h₁.exists_enterElse (f := waiting) hf.origin none
    have hne : Γ₀.here ≠ Γ.size := (hΓ₀.here_lt.trans_le hf.bundle.size_le).ne
    -- it tests the phrases of the clause
    obtain ⟨Γ₄, s₃, s₄, level, br₂, L₁, hpush, hplay₁, h₄, hholds, hbr₂, hopener, hnil, hkinds₁⟩ :=
      h₂.exists_level (o := o) (c := c) h₀ ((s₀.spot_fresh []).open_branch hne) rfl
        (hplays c (by simp))
    have hsame : { waiting.trackBranch Γ.size k with phrases := [] } = f.trackBranch Γ.size k := by
      rw [← hphrases]
      rfl
    rw [hsame] at h₄
    obtain ⟨Γ', s', levels, L₂, hplay₂, h', hnest, hlevels, hkinds₂⟩ :=
      ih h₄ ((s₀.spot_fresh []).open_branch hne) hholds hopener hnil
        (fun c hc => hrest c (by simp [hc])) fun c hc => hplays c (by simp [hc])
    rw [hbr₂] at hnest
    refine ⟨Γ', s', levels ++ [f.trackBranch Γ.size k], L₁ ++ L₂, ?_, ?_, .above hf hnest k, ?_, ?_⟩
    · have hstart : Build.take o .whenClause s₁ = .ok ((), s₃) := by
        rw [Build.take, Build.startWhen, run_bind (a := s₁) (t := s₁) rfl]
        have htop : waiting.isEvaluate = false := by simp [Fork.isEvaluate, waiting, hlevel]
        have hhead : s₁.forks.head? = some waiting := by rw [h₁.forks]; rfl
        simp only [hhead, ho, if_true, htop]
        exact (run_bind helse fun _ => Build.pushLevel).trans hpush
      rw [List.flatMap_cons, List.append_assoc, Clause.replay, List.append_assoc, List.cons_append,
        Build.play_append hdefer, Build.play_cons hstart, Build.play_append hplay₁, hplay₂]
    · rw [List.append_assoc, List.foldl_append]
      exact h'
    · intro g hg
      obtain hg | hg := List.mem_append.1 hg
      · exact hlevels g hg
      · rw [List.mem_singleton.1 hg]
        exact hlevel
    · simp only [List.map_append, hkinds₁, hkinds₂, List.flatMap_cons, List.append_assoc,
        List.filterMap_append, c.filterMap_replay (hrest c (by simp)) (e := .whenClause) rfl]

/-- The levels of a cascade are taken off the stack together with their statement. -/
theorem Since.exists_popCascade (levels : List Fork) (h : Since s₀ s Γ (levels ++ f :: fs) l)
    (hlevels : ∀ g ∈ levels, g.opener = none) (hf : f.opener.isSome) :
    ∃ s', Build.popCascade s = .ok ((levels, some f), s') ∧ Since s₀ s' Γ fs l ∧
      s'.graph = s.graph := by
  have hlevel : ∀ g ∈ levels, g.isLevel = true := fun g hg => by simp [Fork.isLevel, hlevels g hg]
  have hstop : f.isLevel = false := by simpa [Fork.isLevel] using hf
  have htake : s.forks.takeWhile (·.isLevel) = levels := by
    rw [h.forks, List.takeWhile_append_of_pos hlevel, List.takeWhile_cons_of_neg (by simp [hstop]),
      List.append_nil]
  have hdrop : s.forks.dropWhile (·.isLevel) = f :: fs := by
    rw [h.forks, List.dropWhile_append_of_pos hlevel, List.dropWhile_cons_of_neg (by simp [hstop])]
  refine ⟨{ s with forks := fs }, ?_, h.withForks fs fun g hg => h.sound.forks g ?_, rfl⟩
  · rw [Build.popCascade, run_bind (a := s) (t := s) rfl]
    refine (run_bind (a := ⟨⟩) (t := { s with forks := f :: fs }) (by rw [hdrop]; rfl) _).trans ?_
    rw [htake]
    rfl
  · rw [h.forks]
    exact List.mem_append_right _ (List.mem_cons_of_mem _ hg)

namespace Plays

/-- An EVALUATE without clauses. -/
theorem evaluateNothing (ho : o.evaluateCascade = true) (h₀ : Ready s) (hn : n.kind = .evaluate) :
    Plays o s [.enter n, .leave n] (Behaviour.skip.saying [n.instruction]) := by
  obtain ⟨s₁, henter, hways, hsketch⟩ := exists_openFork (o := o) (n := n) h₀
    (by simp [Node.tag, hn, NodeKind.tag]) fun s₁ h => by
      simp only [Build.enterKind, hn]
      exact run_bind h.current? _
  obtain ⟨s₂, hleave, h₂⟩ := hways.since.exists_leave (o := o) h₀
    (P := fun s' => Since s s' (s.sketch.say [n.instruction]) s.forks s.ledger) fun s₂ h _ => by
      obtain ⟨s₃, hpop, h₃, -⟩ := Since.exists_popCascade [] h (by simp) rfl
      refine ⟨s₃, ?_, hsketch ▸ h₃⟩
      simp only [Build.leaveInside, hn]
      rw [Build.leaveEvaluate, if_pos ho]
      exact run_bind hpop _
  refine ⟨s₂, [], ?_, ?_, ?_, .nil _ _, ?_⟩
  · rw [Build.play_cons henter, Build.play_cons hleave, Build.play_nil]
  · rwa [h₂.scope_sketch]
  · rw [h₂.scope_sketch, Landmarks.exits_nil]
    exact .say h₀.opened _
  · simp [Notification.landmark?, Node.landmark?, hn]

/-- An EVALUATE with nothing but WHEN OTHER, which is a branch of the statement itself. -/
theorem evaluateOther (ho : o.evaluateCascade = true) (h₀ : Ready s) (hn : n.kind = .evaluate)
    (c : Clause) (hc : ∀ m ∈ c.phrases, m.IsPhrase)
    (hplays : ∀ s, Ready s → Plays o s c.events c.body) :
    Plays o s (.enter n :: c.replay .whenOtherClause ++ [.leave n])
      (c.body.saying [n.instruction]) := by
  obtain ⟨s₁, henter, hways₁, -⟩ := exists_openFork (o := o) (n := n) h₀
    (by simp [Node.tag, hn, NodeKind.tag]) fun s₁ h => by
      simp only [Build.enterKind, hn]
      exact run_bind h.current? _
  obtain ⟨s₂, f, L, br, hplay, hways₂, hbr, hidentity, hkinds⟩ :=
    hways₁.exists_other (o := o) (h₀.under n.tag) c hc hplays
  obtain ⟨s₃, hleave, h₃, hfrag, hplaced⟩ := exists_leaveFork (o := o) (n := n) h₀ hways₂
    (.inl (by simp) : _ ∨ false = true) fun s₁ s₂ s₃ hways hpop hgraph hjoin => by
      have hpop' : Build.popCascade s₁ = .ok (([], some f), s₂) := by
        have hlevel : f.isLevel = false := by
          rw [Fork.isLevel, show f.opener = _ from congrArg Prod.fst hidentity]
          rfl
        have hforks := hways.since.forks
        rw [Build.popCascade, run_bind (a := s₁) (t := s₁) rfl]
        simp only [hforks, List.dropWhile_cons, List.takeWhile_cons, hlevel]
        refine (run_bind (a := ⟨⟩) (t := s₁) (by rw [← hforks]; rfl) _).trans ?_
        exact run_bind hpop _
      have hdefault : Build.isDefault f.lastBranch? s₂ = .ok (true, s₂) := by
        rw [Fork.lastBranch?, List.getLast?_eq_getElem?, hways.isDefault_eq hgraph,
          hways.length_eq]
        rfl
      have hbranches : f.branches.isEmpty = false := by
        rw [hways.holds.entries]
        simp
      simp only [Build.leaveInside, hn]
      rw [Build.leaveEvaluate, if_pos ho]
      refine (run_bind hpop' _).trans ?_
      simp only [hbranches]
      exact (run_bind hdefault fun b => Build.joinFork f !b).trans hjoin
  refine ⟨s₃, L, ?_, h₃, by simpa [hbr] using hfrag, hplaced, ?_⟩
  · rw [List.cons_append, Build.play_cons henter, Build.play_append hplay, Build.play_cons hleave,
      Build.play_nil]
  · rw [filterMap_landmark?_node (by simp [Node.landmark?, hn]),
      c.filterMap_replay hc (e := .whenOtherClause) rfl]
    exact hkinds

/-- An EVALUATE with a WHEN is left: its levels are closed. -/
theorem exists_leaveEvaluate (ho : o.evaluateCascade = true) (hnest : Nest s₀.spot Γ₀ Γ levels L B)
    (h₀ : Γ₀.Open) (h : Since s₀ s Γ (levels ++ f :: fs) l)
    (hlevels : ∀ g ∈ levels, g.opener = none)
    (hopener : f.opener.isSome) (hbranches : f.branches = []) :
    ∃ Γ' s', Build.leaveEvaluate o s = .ok ((), s') ∧ Since s₀ s' Γ' fs l ∧
      Fragment Γ₀ Γ' L.exits B ∧ L.Placed Γ₀ Γ' := by
  obtain ⟨s₁, hpop, h₁, hgraph⟩ := Since.exists_popCascade _ h hlevels hopener
  obtain ⟨Γ', s', hclose, h', hfrag, hplaced⟩ := Nest.exists_close (s := s₁) hnest
    (h₁.spot []).symm h₀ h₁.self fun g hg => by
      rw [hgraph]
      exact h.sound.forks g (by simp [h.forks, hg])
  refine ⟨Γ', s', ?_, h₁.trans h', hfrag, hplaced⟩
  rw [Build.leaveEvaluate, if_pos ho]
  refine (run_bind hpop _).trans ?_
  simp only [forIn_eq_forM, hbranches]
  exact (run_bind (a := ()) hclose _).trans rfl

/-- EVALUATE in the cascade lowering. -/
theorem evaluateCascade (ho : o.evaluateCascade = true) (h₀ : Ready s) (hn : n.kind = .evaluate)
    {cs : List Clause} {other : Option Clause}
    (hcs : ∀ c ∈ cs, ∀ m ∈ c.phrases, m.IsPhrase)
    (hother : ∀ c ∈ other, ∀ m ∈ c.phrases, m.IsPhrase)
    (hplays : ∀ c ∈ cs, ∀ s, Ready s → Plays o s c.events c.body)
    (hplay : ∀ c ∈ other, ∀ s, Ready s → Plays o s c.events c.body) :
    Plays o s (.enter n :: (cs.flatMap (·.replay .whenClause) ++
        other.toList.flatMap (·.replay .whenOtherClause)) ++ [.leave n])
      ((Clause.cascade other cs).saying [n.instruction]) := by
  cases cs with
  | nil =>
    cases other with
    | none => exact evaluateNothing ho h₀ hn
    | some c => simpa [Clause.cascade] using evaluateOther ho h₀ hn c (hother c rfl) (hplay c rfl)
  | cons c rest =>
    have h₁ := h₀.under n.tag
    obtain ⟨s₁, henter, hways₁, hsketch₁⟩ := exists_openFork (o := o) (n := n) h₀
      (by simp [Node.tag, hn, NodeKind.tag]) fun s₁ h => by
        simp only [Build.enterKind, hn]
        exact run_bind h.current? _
    have hopen₁ : s₁.sketch.Open := hsketch₁ ▸ (Fragment.say h₀.opened [n.instruction]).opened
    obtain ⟨s₂, hdefer, h₂⟩ := hways₁.since.exists_phrases (o := o) h₁ (hcs c (by simp))
    obtain ⟨Γ₄, s₃, s₄, level, br, L₁, hpush, hplay₁, h₄, hholds, hbr, hopener, hnil, hkinds₁⟩ :=
      h₂.exists_level (o := o) (c := c) h₁ hopen₁ rfl (hplays c (by simp))
    obtain ⟨Γ', s₅, levels, L₂, hplay₂, h₅, hnest, hlevels, hkinds₂⟩ := Since.exists_nest ho h₄
      h₁ hopen₁ hholds hopener hnil rest (fun c hc => hcs c (by simp [hc])) hother
      (fun c hc => hplays c (by simp [hc])) hplay
    have hstart : Build.take o .whenClause s₂ = .ok ((), s₃) := by
      rw [Build.take, Build.startWhen, run_bind (a := s₂) (t := s₂) rfl]
      simpa [h₂.forks, ho, Fork.isEvaluate, Fork.openedBy, Node.instruction, Node.tag, hn,
        NodeKind.tag] using hpush
    obtain ⟨s₆, hleave, Γ₆, h₆, hfrag, hplaced⟩ := h₅.exists_leave (o := o) h₀ (P := fun s' => ∃ Γ',
      Since s s' Γ' s.forks ((L₁ ++ L₂).foldl (Ledger.post s.currentSentence) s.ledger) ∧
      Fragment s₁.sketch Γ' (L₁ ++ L₂).exits (Clause.cascade other (c :: rest)) ∧
      (L₁ ++ L₂).Placed s₁.sketch Γ') fun s₅ h _ => by
        obtain ⟨Γ₇, s₇, hrun, h₇, hfrag, hplaced⟩ :=
          exists_leaveEvaluate ho (show Nest s.spot _ _ _ _ _ from hnest) hopen₁ h hlevels rfl rfl
        refine ⟨s₇, ?_, Γ₇, List.foldl_append ▸ h₇, by simpa [hbr, Clause.cascade] using hfrag,
          hplaced⟩
        simp only [Build.leaveInside, hn]
        exact hrun
    obtain rfl := h₆.scope_sketch
    rw [hsketch₁] at hfrag hplaced
    refine ⟨s₆, L₁ ++ L₂, ?_, h₆, ?_, ⟨hplaced.ascending, hplaced.between⟩, ?_⟩
    · rw [List.flatMap_cons, List.append_assoc, Clause.replay, List.append_assoc, List.cons_append,
        List.cons_append, Build.play_cons henter, List.append_assoc, Build.play_append hdefer,
        List.cons_append, Build.play_cons hstart,
        List.append_assoc, Build.play_append hplay₁, Build.play_append hplay₂,
        Build.play_cons hleave, Build.play_nil]
    · have hfrag' := (Fragment.say h₀.opened [n.instruction]).trans h₀.opened.here_lt hfrag
      have hmarks : (fun e b => False ∨ (L₁ ++ L₂).exits e b) = (L₁ ++ L₂).exits := by
        funext e b
        simp
      rwa [hmarks, Behaviour.skip_saying_seq] at hfrag'
    · rw [filterMap_landmark?_node (by simp [Node.landmark?, hn])]
      simp [hkinds₁, hkinds₂, c.filterMap_replay (hcs c (by simp)) (e := .whenClause) rfl]

end Plays

end Scope

end CobolFlow
