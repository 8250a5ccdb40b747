import CobolFlow.Build.Replay
import CobolFlow.Proofs.Faultless

/-!
# What a build does not look at

While a division is read, jumps and calls are put aside and problems are reported, but nobody looks
at what has been put aside before the division ends, and nobody ever looks at what has been
reported. So a build does the same if other things wait and if more has been reported before.

Two steps are in lockstep if they do the same in two scopes that differ in this way: either both
fail alike, or both answer alike and leave scopes that differ in this way again. A step is unaware
of the difference if it is in lockstep with itself.

## Main definitions

* `Scope.revised` — a scope in which other things wait and more has been reported
* `Scope.withProblems` — a scope in which something else has been reported
* `Lockstep`, `Unaware` — two steps do the same, and a step does the same, in a revised scope
* `Pending.Regular` — a revision that leaves new calls and sentences alone
-/

namespace CobolFlow

variable {f : Pending → Pending} {ps : List Problem} {α β γ : Type}

/-- The scope in which other things wait for the end of the division, and more has been reported
before. -/
def Scope.revised (s : Scope) (f : Pending → Pending) (ps : List Problem) : Scope :=
  { s with pending := f s.pending, problems := ps ++ s.problems }

/-- The scope in which other problems have been reported. -/
def Scope.withProblems (s : Scope) (qs : List Problem) : Scope := { s with problems := qs }

/-- The second step does in a revised scope what the first does in the scope as it was. -/
def Lockstep (f : Pending → Pending) (ps : List Problem) (x y : Build α) : Prop :=
  ∀ s, y (s.revised f ps) = (x s).map fun r => (r.1, r.2.revised f ps)

/-- The step does the same in a revised scope. -/
abbrev Unaware (f : Pending → Pending) (ps : List Problem) (x : Build α) : Prop := Lockstep f ps x x

namespace Lockstep

variable {x y : Build α} {k k' : α → Build β} {s s' : Scope} {a : α}

theorem run (h : Lockstep f ps x y) (hx : x s = .ok (a, s')) :
    y (s.revised f ps) = .ok (a, s'.revised f ps) := by
  rw [h s, hx]
  rfl

theorem pure (a : α) : Lockstep f ps (Pure.pure a) (Pure.pure a) := fun _ => rfl

theorem bind (h : Lockstep f ps x y) (hk : ∀ a, Lockstep f ps (k a) (k' a)) :
    Lockstep f ps (x >>= k) (y >>= k') := by
  intro s
  change (y (s.revised f ps) >>= fun r => k' r.1 r.2) = (x s >>= fun r => k r.1 r.2).map _
  rw [h s]
  cases x s with
  | error fault => rfl
  | ok r => exact hk r.1 r.2

theorem lift (e : Except Fault α) :
    Lockstep f ps (liftM e : Build α) (liftM e) := by
  intro s
  cases e <;> rfl

theorem modify {g g' : Scope → Scope} (h : ∀ s, g' (s.revised f ps) = (g s).revised f ps) :
    Lockstep f ps (modify g : Build PUnit) (modify g') :=
  fun s => congrArg (fun s => Except.ok (PUnit.unit, s)) (h s)

theorem modifyGet {g : Scope → α × Scope}
    (h : ∀ s, g (s.revised f ps) = ((g s).1, (g s).2.revised f ps)) :
    Unaware f ps (modifyGet g : Build α) :=
  fun s => congrArg Except.ok (h s)

/-- A step that reads the scope goes on alike if it does not look at what has been revised. -/
theorem get_bind {k k' : Scope → Build β} (hread : ∀ s, k' (s.revised f ps) = k' s)
    (hk : ∀ s, Lockstep f ps (k s) (k' s)) : Lockstep f ps (get >>= k) (get >>= k') := by
  intro s
  change k' (s.revised f ps) (s.revised f ps) = _
  rw [hread s]
  exact hk s s

/-- A step that writes back what it has read, changed in one place. -/
theorem get_set_bind {g : Scope → Scope} {k : Scope → Build β}
    (hg : ∀ s, g (s.revised f ps) = (g s).revised f ps)
    (hread : ∀ s, k (s.revised f ps) = k s) (hk : ∀ s, Unaware f ps (k s)) : Unaware f ps
      (MonadState.get >>= fun s => MonadStateOf.set (g s) >>= fun _ : PUnit => k s) := by
  intro s
  change k (s.revised f ps) (g (s.revised f ps)) = _
  rw [hread s, hg s]
  exact hk s (g s)

theorem editGraph (e : Graph.Edit α) : Unaware f ps (Build.editGraph e) := by
  intro s
  change (e s.graph >>= fun r => _) = (e s.graph >>= fun r => _).map _
  cases e s.graph <;> rfl

theorem editProcedures (e : Procedures.Edit α) : Unaware f ps (Build.editProcedures e) := by
  intro s
  change (e s.procedures >>= fun r => _) = (e s.procedures >>= fun r => _).map _
  cases e s.procedures <;> rfl

/-! ### Loops -/

variable {l : List γ}

theorem foldlM {g : α → γ → Build α} {init : α} (hg : ∀ a, ∀ c ∈ l, Unaware f ps (g a c)) :
    Unaware f ps (l.foldlM g init) := by
  induction l generalizing init with
  | nil => exact pure init
  | cons c l ih =>
    rw [List.foldlM_cons]
    exact bind (hg init c (by simp)) fun a => ih fun a c hc => hg a c (by simp [hc])

theorem forIn {init : α} {g : γ → α → Build (ForInStep α)} (hg : ∀ c a, Unaware f ps (g c a)) :
    Unaware f ps (ForIn.forIn l init g) := by
  induction l generalizing init with
  | nil => exact pure init
  | cons c l ih =>
    rw [List.forIn_cons]
    refine bind (hg c init) fun r => ?_
    cases r with
    | done a => exact pure a
    | yield a => exact ih

end Lockstep

/-- What a step reports is put behind what has been reported, and does not depend on it. -/
theorem Unaware.exists_reported {x : Build α} {s s' : Scope} {a : α}
    (h : ∀ ps, Unaware id ps x) (hx : x s = .ok (a, s')) : ∃ more,
      s'.problems = s.problems ++ more ∧
      ∀ qs, x (s.withProblems qs) = .ok (a, s'.withProblems (qs ++ more)) := by
  -- whatever has been reported, the scope is one in which nothing has been, revised
  have hbase (qs : List Problem) : s.withProblems qs = (s.withProblems []).revised id qs := by
    rw [Scope.revised, Scope.withProblems, Scope.withProblems, List.append_nil]
    rfl
  rw [show s = _ from hbase s.problems, h] at hx
  cases hrun : x (s.withProblems []) with
  | error fault =>
    rw [hrun] at hx
    exact nomatch hx
  | ok r =>
    rw [hrun] at hx
    obtain ⟨rfl, rfl⟩ := Prod.mk.inj (Except.ok.inj hx)
    refine ⟨r.2.problems, rfl, fun qs => ?_⟩
    rw [hbase, h, hrun]
    rfl

namespace Build

theorem report_unaware (p : Problem) : Unaware f ps (report p) :=
  .modify fun s => congrArg (fun problems => { s.revised f ps with problems })
    (List.append_assoc ..)

theorem violate_unaware (v : Violation) : Unaware f ps (violate v) := .modify fun _ => rfl

theorem setCurrent_unaware (b : BlockId) : Unaware f ps (setCurrent b) := .modify fun _ => rfl

theorem currentTag_unaware : Unaware f ps currentTag := by
  refine .get_bind (fun _ => rfl) fun s => ?_
  split
  · refine .bind (.lift _) fun procedure => ?_
    split <;> exact .pure _
  · exact .pure _

theorem newBlock_unaware (leading : Option Instruction) : Unaware f ps (newBlock leading) := by
  refine .bind (.editGraph _) fun b => .bind currentTag_unaware fun tag =>
    .get_bind (fun _ => rfl) fun s => .bind (.editGraph _) fun _ => ?_
  rcases leading with _ | i
  -- A leading instruction is one more edit; the rest is the same in both cases.
  on_goal 2 => refine .bind (.editGraph _) fun _ => ?_
  all_goals
    refine .get_bind (fun _ => rfl) fun s => ?_
    split
    · exact .bind (.editProcedures _) fun _ => .pure b
    · exact .pure b

theorem current?_unaware : Unaware f ps current? := by
  refine .get_bind (fun _ => rfl) fun s => ?_
  dsimp only
  split
  · exact .bind (violate_unaware _) fun _ => .pure _
  · exact .pure _

theorem addInstruction_unaware (i : Instruction) : Unaware f ps (addInstruction i) := by
  refine .bind current?_unaware fun b? => ?_
  split
  · exact .editGraph _
  · exact .pure _

theorem markCurrent_unaware (m : BlockFlags) : Unaware f ps (markCurrent m) := by
  refine .bind current?_unaware fun b? => ?_
  split
  · exact .editGraph _
  · exact .pure _

end Build

/-! ### Sections, sentences and calls -/

/-- What is revised is neither a call nor a NEXT SENTENCE that is put aside. -/
structure Pending.Regular (f : Pending → Pending) : Prop where
  perform : ∀ (p : Pending) (w : PendingPerform),
    f { p with performs := p.performs ++ [w] } = { f p with performs := (f p).performs ++ [w] }
  nextSentence : ∀ (p : Pending) (w : PendingNextSentence),
    f { p with nextSentences := p.nextSentences ++ [w] } =
      { f p with nextSentences := (f p).nextSentences ++ [w] }

namespace Build

theorem startSentence_unaware : Unaware f ps startSentence := by
  refine .get_bind (fun _ => rfl) fun s => .bind (.editProcedures _) fun i =>
    .bind (.modify fun _ => rfl) fun _ => .bind (newBlock_unaware none) fun b =>
    .get_set_bind (fun _ => rfl) (fun _ => rfl) fun s => ?_
  split
  · exact .bind (.editGraph _) fun _ => setCurrent_unaware b
  · split
    · exact .bind (.editGraph _) fun k => .bind (.editProcedures _) fun _ => setCurrent_unaware b
    · exact setCurrent_unaware b

theorem ensureSentence_unaware : Unaware f ps ensureSentence := by
  refine .get_bind (fun _ => rfl) fun s => ?_
  split
  · exact startSentence_unaware
  · exact .pure _

theorem endSentence_unaware : Unaware f ps endSentence := by
  refine .get_bind (fun _ => rfl) fun s => ?_
  split
  · exact .bind ensureSentence_unaware fun _ => .modify fun _ => rfl
  · exact .pure _

theorem finishBlocks_unaware : Unaware f ps finishBlocks := by
  refine .bind (.modify fun _ => rfl) fun _ => .bind (.editGraph _) fun b =>
    .bind (.editGraph _) fun _ => .get_bind (fun _ => rfl) fun s => ?_
  split
  · exact .bind (.editGraph _) fun _ => setCurrent_unaware b
  · exact setCurrent_unaware b

theorem enterSection_unaware (name : String) (span : Span) :
    Unaware f ps (enterSection name span) :=
  .get_bind (fun _ => rfl) fun _ => .bind (.editProcedures _) fun _ => .modify fun _ => rfl

theorem enterParagraph_unaware (name : String) (span : Span) :
    Unaware f ps (enterParagraph name span) :=
  .get_bind (fun _ => rfl) fun _ => .bind (.editProcedures _) fun _ => .modify fun _ => rfl

theorem enterDeclaratives_unaware : Unaware f ps enterDeclaratives := by
  refine .get_bind (fun _ => rfl) fun s => ?_
  cases s.currentBlock with
  | none =>
    dsimp only
    split
    · exact .bind (violate_unaware _) fun _ => .pure _
    · exact .pure _
  | some origin =>
    dsimp only
    split
    · exact .bind (violate_unaware _) fun _ => .modify fun _ => rfl
    · exact .modify fun _ => rfl

theorem leaveDeclaratives_unaware : Unaware f ps leaveDeclaratives := by
  refine .bind (.editProcedures _) fun root => .get_bind (fun _ => rfl) fun s =>
    .bind (.modify fun _ => rfl) fun _ => ?_
  split
  · exact .bind (newBlock_unaware none) fun next => .bind (.editGraph _) fun _ =>
      setCurrent_unaware next
  · exact .pure _

theorem breakBlock_unaware : Unaware f ps breakBlock :=
  .bind (newBlock_unaware none) fun _ => .bind (setCurrent_unaware _) fun _ => .pure _

theorem enterEnding_unaware (i : Instruction) : Unaware f ps (enterEnding i) :=
  .bind (addInstruction_unaware i) fun _ => .bind (markCurrent_unaware _) fun _ =>
    .bind breakBlock_unaware fun _ => .pure _

theorem enterNextSentence_unaware (hf : Pending.Regular f) (i : Instruction) :
    Unaware f ps (enterNextSentence i) := by
  refine .bind current?_unaware fun b? => ?_
  split
  · refine .bind (addInstruction_unaware i) fun _ => .bind (markCurrent_unaware _) fun _ =>
      .get_bind (fun _ => rfl) fun s => ?_
    split
    · refine .bind (.modify fun s => ?_) fun _ => .bind breakBlock_unaware fun _ => .pure _
      simp only [Scope.revised, hf.nextSentence]
    · exact .bind breakBlock_unaware fun _ => .pure _
  · exact .pure _

theorem enterPerform_unaware (hf : Pending.Regular f) (i : Instruction) (span : Span)
    (range : PerformRange) : Unaware f ps (enterPerform i span range) := by
  refine .bind current?_unaware fun b? => ?_
  split
  · refine .bind (newBlock_unaware _) fun callSite => .bind (.editGraph _) fun group =>
      .bind (.editGraph _) fun _ => .bind (.editGraph _) fun _ =>
      .bind breakBlock_unaware fun next => .bind (.editGraph _) fun _ => .modify fun s => ?_
    simp only [Scope.revised, hf.perform]
  · exact .pure _

end Build

end CobolFlow
