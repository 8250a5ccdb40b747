import CobolFlow.Proofs.Place.Clear
import CobolFlow.Proofs.Place.Passage
import CobolFlow.Proofs.Place.Step

/-!
# Where statements begin

Whenever a statement of a sentence is entered the current block is clear, and whenever an in-line
PERFORM is left its own fork is the innermost. Between clauses nothing of the sort is true: an
EVALUATE or a SEARCH that has been entered stands at a block at which nothing has been done yet.
`Scope.Deciding` is what is known then, and it is enough for the next clause to begin in a clear
block.

## Main definitions

* `Scope.Deciding` — a decision is open, and a clause may begin
* `Scope.place` — where the next statement goes
* `Scope.Begins` — a statement begins in a clear block

## Main results

* `Scope.Deciding.exists_startWhen` and others — a clause begins in a clear block
* `Scope.Clear.exists_enterIf` and others — what is true when a node has been entered
-/

namespace CobolFlow

open Scope
open Notification (enclosed)

namespace Scope

/-- A decision is open, and its next clause may begin. Nothing need have been done yet at the block
at which it was opened if this is still the current one. -/
structure Deciding (s : Scope) (f : Fork) (fs : List Fork) : Prop where
  ready : Ready s
  forks : s.forks = f :: fs
  held : ∀ g ∈ fs, g.Held s.sketch
  origin : ∃ c, f.origin = some c ∧ (c = s.sketch.here ∨ s.sketch.Busy c)
  loop : f.IsLoop → f.Held s.sketch

variable {o : Options} {s s₀ s' : Scope} {Γ : Sketch} {f : Fork} {fs : List Fork} {n : Node}

/-- A new block in which a sentence goes on is clear, if something has been done wherever forks come
back to. -/
theorem Clear.of_since (h₀ : Ready s₀) (h : Since s₀ s Γ fs s₀.ledger) (hΓ : Γ.Open)
    (hnew : s₀.graph.size ≤ Γ.here) (hheld : ∀ f ∈ fs, f.Held Γ) : s.Clear := by
  obtain rfl := h.scope_sketch
  refine ⟨h.ready h₀ hΓ, fun f hf => hheld f (h.forks ▸ hf), fun hb => ?_, fun hb => ?_⟩
  · rw [awaiting_eq, h.ledger] at hb
    exact hnew.not_gt (awaiting_lt h₀.sound hb)
  · rw [h.keeps Scope.declaratives fun _ => rfl] at hb
    exact hnew.not_gt (h₀.sound.declaratives _ hb)

/-- Nothing has been done, but something been noted. -/
theorem Clear.of_still (h₀ : s₀.Clear) (h : Since s₀ s s₀.sketch s₀.forks s₀.ledger) : s.Clear := by
  have hsketch := h.scope_sketch
  refine ⟨h.ready h₀.ready h₀.ready.opened, fun f hf => ?_, fun hb => ?_, fun hb => ?_⟩
  · exact hsketch ▸ h₀.held f (h.forks ▸ hf)
  · rw [awaiting_eq, h.ledger, hsketch] at hb
    exact h₀.awaiting hb
  · rw [h.keeps Scope.declaratives fun _ => rfl, hsketch] at hb
    exact h₀.declaratives hb

theorem Clear.under (h : s.Clear) (t : NodeTag) : (s.under t).Clear :=
  ⟨h.ready.under t, h.held, h.awaiting, h.declaratives⟩

theorem Clear.deciding (h : s.Clear) (hforks : s.forks = f :: fs) : s.Deciding f fs where
  ready := h.ready
  forks := hforks
  held g hg := h.held g (hforks ▸ List.mem_cons_of_mem f hg)
  origin := (h.held f (hforks ▸ List.mem_cons_self)).origin.imp fun _ hc => ⟨hc.1, .inr hc.2⟩
  loop _ := h.held f (hforks ▸ List.mem_cons_self)

namespace Deciding

theorem under (h : s.Deciding f fs) (t : NodeTag) : (s.under t).Deciding f fs :=
  ⟨h.ready.under t, h.forks, h.held, h.origin, h.loop⟩

theorem since (h : s.Deciding f fs) : Since s s s.sketch (f :: fs) s.ledger :=
  h.forks ▸ h.ready.since

theorem exists_origin (h : s.Deciding f fs) : ∃ c, f.origin = some c ∧ c < s.sketch.size := by
  obtain ⟨c, hc, rfl | hbusy⟩ := h.origin
  · exact ⟨_, hc, h.ready.opened.here_lt⟩
  · exact ⟨c, hc, hbusy.1⟩

/-- Another branch. -/
theorem held_branch (h : s.Deciding f fs) {c : BlockId} (hc : f.origin = some c) (t : Spot)
    (phrases : List Instruction) (k : SlotId) : ∀ g ∈
      ({ f with phrases } : Fork).trackBranch s.sketch.size k :: fs,
        g.Held (s.sketch.branch c t) := by
  obtain ⟨c', hc', hlt⟩ := h.exists_origin
  obtain rfl : c = c' := Option.some.inj (hc.symm.trans hc')
  refine List.forall_mem_cons.2 ⟨⟨⟨c, hc, Sketch.busy_branch hlt t⟩, fun hloop => ?_⟩,
    fun g hg => (h.held g hg).mono fun b hb => hb.branch hlt t⟩
  obtain ⟨test, body, rest, hbranches, hbusy⟩ := (h.loop hloop).test hloop
  refine ⟨test, body, rest ++ [s.sketch.size], ?_, hbusy.branch hlt t⟩
  change f.branches ++ _ = _
  rw [hbranches]
  rfl

theorem clear_branch (h : s.Deciding f fs) {c : BlockId} (hc : f.origin = some c) {t : Spot}
    (ht : t.Fresh) (phrases : List Instruction) {k : SlotId}
    (hsince : Since s s' (s.sketch.branch c t)
      (({ f with phrases } : Fork).trackBranch s.sketch.size k :: fs) s.ledger) :
    s'.Clear ∧ ∃ f', s'.forks = f' :: fs ∧ f'.opener = f.opener := by
  obtain ⟨c', hc', hlt⟩ := h.exists_origin
  obtain rfl : c = c' := Option.some.inj (hc.symm.trans hc')
  exact ⟨.of_since h.ready hsince (Sketch.Open.branch ⟨ht.next, ht.ending, ht.finish⟩ hlt) le_rfl
    (h.held_branch hc t phrases k), _, hsince.forks, rfl⟩

/-! ### Beginning a clause -/

theorem exists_openPhraseBranch (h : s.Deciding f fs) (flags : BlockFlags)
    (hflags : flags.start = false ∧ flags.ending = false ∧ flags.finish = false) :
    ∃ s', Build.openPhraseBranch flags s = .ok ((), s') ∧ s'.Clear ∧
      ∃ f', s'.forks = f' :: fs ∧ f'.opener = f.opener := by
  obtain ⟨c, hc, -⟩ := h.origin
  obtain ⟨k, s', hrun, hsince⟩ := h.since.exists_openPhraseBranch hc hflags.1
  refine ⟨s', hrun, h.clear_branch hc ⟨rfl, ?_, ?_⟩ [] hsince⟩ <;>
    simp [Scope.spot, BlockFlags.union, hflags]

theorem exists_enterElse (h : s.Deciding f fs) (i : Option Instruction) :
    ∃ s', Build.enterElse i s = .ok ((), s') ∧ s'.Clear ∧
      ∃ f', s'.forks = f' :: fs ∧ f'.opener = f.opener := by
  obtain ⟨c, hc, -⟩ := h.origin
  obtain ⟨k, s', hrun, hsince⟩ := h.since.exists_enterElse hc i
  exact ⟨s', hrun, h.clear_branch hc (s.spot_fresh _) f.phrases hsince⟩

theorem exists_startWhenOther (h : s.Deciding f fs) :
    ∃ s', Build.startWhenOther s = .ok ((), s') ∧ s'.Clear ∧
      ∃ f', s'.forks = f' :: fs ∧ f'.opener = f.opener := by
  obtain ⟨c, hc, -⟩ := h.origin
  obtain ⟨k, s', hrun, hsince⟩ := h.since.exists_startWhenOther hc
  refine ⟨s', hrun, h.clear_branch hc ⟨rfl, ?_, ?_⟩ [] hsince⟩ <;>
    simp [Scope.spot, BlockFlags.union]

/-- A level of a cascade is opened at the current block. -/
theorem exists_pushLevel_of_since (h₀ : Ready s₀) (h : Since s₀ s Γ (f :: fs) s₀.ledger)
    (hlt : Γ.here < Γ.size) (hheld : ∀ g ∈ fs, g.Held Γ)
    (horigin : ∃ c, f.origin = some c ∧ (c = Γ.here ∨ Γ.Busy c)) (hloop : f.IsLoop → f.Held Γ) :
    ∃ s', Build.pushLevel s = .ok ((), s') ∧ s'.Clear ∧ s'.forks ≠ [] := by
  obtain ⟨k, s', hrun, hsince⟩ := h.exists_pushLevel
  have hbusy : ∀ b, Γ.Busy b → ((Γ.say f.phrases).branch Γ.here s₀.spot).Busy b :=
    fun b hb => (hb.say _).branch (Γ := Γ.say f.phrases) hlt _
  have hhere := Sketch.busy_branch (Γ := Γ.say f.phrases) hlt s₀.spot
  refine ⟨s', hrun, .of_since h₀ hsince (Sketch.Open.branch ⟨rfl, rfl, rfl⟩ hlt) ?_ ?_,
    by simp [hsince.forks]⟩
  · exact h.draws.size_le.trans h.size.le
  refine List.forall_mem_cons.2 ⟨⟨⟨_, rfl, hhere⟩, by simp [Fork.IsLoop, Fork.trackBranch,
    Fork.levelAbove]⟩, List.forall_mem_cons.2 ⟨⟨?_, fun hl => ?_⟩, fun g hg =>
      (hheld g hg).mono hbusy⟩⟩
  · obtain ⟨c, hc, rfl | hb⟩ := horigin
    · exact ⟨_, hc, hhere⟩
    · exact ⟨c, hc, hbusy c hb⟩
  · exact ((hloop hl).mono hbusy).test hl

theorem exists_pushLevel (h : s.Deciding f fs) :
    ∃ s', Build.pushLevel s = .ok ((), s') ∧ s'.Clear ∧ s'.forks ≠ [] :=
  exists_pushLevel_of_since h.ready h.since h.ready.opened.here_lt h.held h.origin h.loop

theorem exists_startWhen (h : s.Deciding f fs) (o : Options) :
    ∃ s', Build.startWhen o s = .ok ((), s') ∧ s'.Clear ∧ s'.forks ≠ [] := by
  rw [Build.startWhen, run_bind (a := s) (t := s) rfl]
  simp only [h.forks, List.head?_cons]
  split
  · cases htop : f.isEvaluate with
    | true => exact h.exists_pushLevel
    | false =>
      obtain ⟨s₁, helse, hclear, f', hforks, -⟩ := h.exists_enterElse none
      obtain ⟨s', hpush, h'⟩ := (hclear.deciding hforks).exists_pushLevel
      exact ⟨s', (run_bind helse _).trans hpush, h'⟩
  · obtain ⟨s', hrun, hclear, f', hforks, -⟩ :=
      h.exists_openPhraseBranch .none ⟨rfl, rfl, rfl⟩
    exact ⟨s', hrun, hclear, by simp [hforks]⟩

theorem exists_startSearchWhen (h : s.Deciding f fs) (o : Options) :
    ∃ s', Build.startSearchWhen o false s = .ok ((), s') ∧ s'.Clear ∧ s'.forks ≠ [] := by
  rw [Build.startSearchWhen, run_bind (a := s) (t := s) rfl]
  simp only [h.forks, List.head?_cons, Bool.false_or]
  split
  · obtain ⟨s', hrun, hclear, f', hforks, -⟩ :=
      h.exists_openPhraseBranch { default := false } ⟨rfl, rfl, rfl⟩
    exact ⟨s', hrun, hclear, by simp [hforks]⟩
  · cases htop : f.isSearch with
    | true =>
      cases hone : f.branches.length == 1 with
      | true =>
        obtain ⟨c, hc, hlt⟩ := h.exists_origin
        obtain ⟨s₁, hcurrent, h₁⟩ := h.since.exists_setCurrent hlt
        obtain ⟨s', hpush, h'⟩ := exists_pushLevel_of_since h.ready h₁ hlt
          (fun g hg => (h.held g hg).mono fun b hb => hb) ⟨c, hc, .inl rfl⟩
          fun hloop => (h.loop hloop).mono fun b hb => hb
        refine ⟨s', ?_, h'⟩
        rw [hc]
        exact (run_bind hcurrent _).trans hpush
      | false => exact h.exists_pushLevel
    | false =>
      obtain ⟨s₁, helse, hclear, f', hforks, -⟩ := h.exists_enterElse none
      obtain ⟨s', hpush, h'⟩ := (hclear.deciding hforks).exists_pushLevel
      exact ⟨s', (run_bind helse _).trans hpush, h'⟩

/-- The fork stays as it is but for the phrases that wait in it. -/
theorem of_since {s₁ : Scope} {phrases : List Instruction} {l : Ledger} (h : s.Deciding f fs)
    (h₁ : Since s s₁ s.sketch ({ f with phrases } :: fs) l) :
    s₁.Deciding { f with phrases } fs := by
  have hsketch := h₁.scope_sketch
  refine ⟨h₁.ready h.ready h.ready.opened, h₁.forks, hsketch ▸ h.held, hsketch ▸ h.origin,
    fun hloop => ?_⟩
  have hheld := h.loop hloop
  exact ⟨hsketch ▸ hheld.origin, fun hl => hsketch ▸ hheld.test hl⟩

/-- Phrases wait in the fork. -/
theorem exists_phrases (h : s.Deciding f fs) (o : Options) {ms : List Node}
    (hms : ∀ m ∈ ms, m.IsPhrase) :
    ∃ s' f', Build.play o (ms.flatMap fun m => [.enter m, .leave m]) s = .ok ((), s') ∧
      s'.Deciding f' fs := by
  obtain ⟨s', hrun, hsince⟩ := h.since.exists_phrases (o := o) h.ready hms
  exact ⟨s', _, hrun, h.of_since hsince⟩

end Deciding

/-! ### Entering and leaving nodes -/

/-- IF has been entered. -/
theorem Clear.exists_enterIf (h : s.Clear) (o : Options) (hn : n.kind = .ifThen) :
    ∃ s' f, Build.take o (.enter n) s = .ok ((), s') ∧ s'.Clear ∧ s'.forks = f :: s.forks := by
  obtain ⟨s₁, hrun, hclear, f, hforks⟩ := h.ready.since.exists_enter (o := o) (n := n) h.ready
    (by simp [Node.tag, hn, NodeKind.tag])
    (P := fun s' => s'.Clear ∧ ∃ f, s'.forks = f :: s.forks) fun s₁ h₁ => by
      obtain ⟨k, s₂, hrun, h₂⟩ := h₁.exists_enterIf n.instruction
      have hlt := h.ready.opened.here_lt
      refine ⟨s₂, by simp only [Build.enterKind, hn]; exact hrun,
        .of_since h.ready h₂ (Sketch.Open.branch ⟨rfl, rfl, rfl⟩ hlt) le_rfl ?_, _, h₂.forks⟩
      refine List.forall_mem_cons.2 ⟨⟨⟨_, rfl, Sketch.busy_branch (Γ := s.sketch.say _) hlt _⟩,
        fun hloop => ?_⟩, fun g hg => (h.held g hg).mono fun b hb =>
          (hb.say _).branch (Γ := s.sketch.say _) hlt _⟩
      simp [Fork.IsLoop, Fork.trackBranch, Fork.openedBy, Node.instruction, Node.tag, hn,
        NodeKind.tag] at hloop
  exact ⟨_, f, hrun, hclear.under n.tag, hforks⟩

/-- ELSE has been entered. -/
theorem Clear.exists_enterElse (h : s.Clear) (o : Options) (hn : n.kind = .elsePart)
    (hforks : s.forks = f :: fs) :
    ∃ s', Build.take o (.enter n) s = .ok ((), s') ∧ s'.Clear := by
  obtain ⟨s₁, hrun, hclear⟩ := h.ready.since.exists_enter (o := o) (n := n) h.ready
    (by simp [Node.tag, hn, NodeKind.tag]) (P := Clear) fun s₁ h₁ => by
      obtain ⟨s₂, hrun, hclear, -⟩ := ((h.deciding hforks).of_since
        (hforks ▸ h₁)).exists_enterElse (some n.instruction)
      exact ⟨s₂, by simp only [Build.enterKind, hn]; exact hrun, hclear⟩
  exact ⟨_, hrun, hclear.under n.tag⟩

/-- A verb has been entered. -/
theorem Clear.exists_enterVerb (h : s.Clear) (o : Options) (hn : n.IsVerb) :
    ∃ s', Build.take o (.enter n) s = .ok ((), s') ∧ s'.Clear ∧
      s'.enclosing.head? = some n.tag := by
  have hsaid : ∀ is, Fragment s.sketch (s.sketch.say is) (fun _ _ => False) _ := .say h.ready.opened
  obtain ⟨s₁, hrun, hclear⟩ := h.ready.since.exists_enter (o := o) (n := n) h.ready
    (by rw [Node.IsVerb] at hn; cases hkind : n.kind <;> simp_all [Node.tag, NodeKind.tag])
    (P := Clear) fun s₁ h₁ => by
      obtain ⟨s₂, hrun, h₂⟩ := h₁.exists_addInstruction n.instruction
      have hsketch := h₂.scope_sketch
      refine ⟨s₂, ?_, h₂.ready h.ready (hsaid _).opened, fun f hf => ?_, fun hb => ?_, fun hb => ?_⟩
      · rw [Node.IsVerb] at hn
        cases hkind : n.kind <;> simp only [hkind] at hn <;> first
          | exact hn.elim
          | (simp only [Build.enterKind, hkind]; exact hrun)
      · exact (h.held f (h₂.forks ▸ hf)).mono fun b hb => hsketch ▸ hb.say _
      · rw [awaiting_eq, h₂.ledger, hsketch] at hb
        exact h.awaiting hb
      · rw [h₂.keeps Scope.declaratives fun _ => rfl, hsketch] at hb
        exact h.declaratives hb
  exact ⟨_, hrun, hclear.under n.tag, rfl⟩

/-- An in-line PERFORM has been entered. -/
theorem Clear.exists_enterLoop (h : s.Clear) (o : Options) {repetition : Repetition}
    {testAfter : Bool} (hn : n.kind = .loop repetition testAfter) :
    ∃ s' f, Build.take o (.enter n) s = .ok ((), s') ∧ s'.Clear ∧ s'.forks = f :: s.forks ∧
      f.IsLoop := by
  have htag : n.tag = .loop := by simp [Node.tag, hn, NodeKind.tag]
  obtain ⟨s₁, hrun, hclear, f, hforks, hloop⟩ := h.ready.since.exists_enter (o := o) (n := n)
    h.ready (by simp [htag])
    (P := fun s' => s'.Clear ∧ ∃ f, s'.forks = f :: s.forks ∧ f.IsLoop) fun s₁ h₁ => by
      obtain ⟨k₁, k₂, s₂, hrun, h₂, -⟩ := h₁.exists_enterLoop n.instruction testAfter
      have hlt := h.ready.opened.here_lt
      refine ⟨s₂, by simp only [Build.enterKind, hn]; exact hrun, .of_since h.ready h₂
        (Sketch.Open.openLoop rfl hlt ⟨rfl, rfl, rfl⟩) (Nat.le_succ _) ?_, _, h₂.forks, ?_⟩
      · obtain ⟨horigin, htest⟩ : Sketch.Busy (s.sketch.openLoop (s.spot [n.instruction]) s.spot
          testAfter) s.sketch.here ∧ _ := Sketch.busy_openLoop rfl hlt
        refine List.forall_mem_cons.2 ⟨⟨⟨_, rfl, horigin⟩, fun _ => ⟨_, _, _, rfl, htest⟩⟩,
          fun g hg => (h.held g hg).mono fun b hb => hb.openLoop rfl hlt⟩
      · simp [Fork.IsLoop, Fork.trackBranch, Fork.openedBy, Node.instruction, htag]
  exact ⟨_, f, hrun, hclear.under n.tag, hforks, hloop⟩

/-- A node has been entered that says itself and opens a fork. -/
theorem Clear.exists_openFork (h : s.Clear) (o : Options) (htag : n.tag ≠ .procedureDivision)
    (hloop : n.tag ≠ .loop) (henter : ∀ s₁, Since s s₁ s.sketch s.forks s.ledger →
      Build.enterKind o n s₁ = (do
        Build.pushFork (.openedBy n.instruction s.sketch.here)
        Build.addInstruction n.instruction : Build Unit) s₁) :
    ∃ s' f, Build.take o (.enter n) s = .ok ((), s') ∧ s'.Deciding f s.forks ∧
      f.opener = some n.instruction ∧ s'.enclosing = n.tag :: s.enclosing := by
  obtain ⟨s', hrun, hways, hsketch⟩ := Plays.exists_openFork (o := o) h.ready htag henter
  have hopen : s'.sketch.Open := hsketch ▸ (Fragment.say h.ready.opened _).opened
  refine ⟨s', _, hrun, ⟨hways.since.ready (h.ready.under n.tag) hopen, hways.since.forks,
    fun g hg => (h.held g hg).mono fun b hb => hsketch ▸ hb.say _, ⟨_, rfl, .inl ?_⟩,
    fun hl => ?_⟩, rfl, hways.since.keeps Scope.enclosing fun _ => rfl⟩
  · rw [hsketch]
    rfl
  · exact absurd (beq_iff_eq.1 hl) hloop

theorem Clear.exists_enterEvaluate (h : s.Clear) (o : Options) (hn : n.kind = .evaluate) :
    ∃ s' f, Build.take o (.enter n) s = .ok ((), s') ∧ s'.Deciding f s.forks := by
  obtain ⟨s', f, hrun, hd, -⟩ := h.exists_openFork (n := n) o (by simp [Node.tag, hn, NodeKind.tag])
    (by simp [Node.tag, hn, NodeKind.tag]) fun s₁ h₁ => by
      simp only [Build.enterKind, hn]
      exact run_bind h₁.current? _
  exact ⟨s', f, hrun, hd⟩

theorem Clear.exists_enterSearch (h : s.Clear) (o : Options) (hn : n.kind = .search) :
    ∃ s' f, Build.take o (.enter n) s = .ok ((), s') ∧ s'.Deciding f s.forks ∧
      f.opener = some n.instruction ∧ s'.enclosing = n.tag :: s.enclosing := by
  have htag : n.tag = .search := by simp [Node.tag, hn, NodeKind.tag]
  cases ho : o.searchCascade with
  | false =>
    refine h.exists_openFork (n := n) o (by simp [htag]) (by simp [htag]) fun s₁ h₁ => ?_
    simp only [Build.enterKind, hn]
    refine (run_bind h₁.current? _).trans ?_
    simp only [ho]
    rfl
  | true =>
    obtain ⟨s₁, hrun, ⟨f, hd, hopener⟩, henclosing⟩ := h.ready.since.exists_enter (o := o) (n := n)
      h.ready (by simp [htag]) (P := fun s' => (∃ f, s'.Deciding f s.forks ∧
        f.opener = some n.instruction) ∧ s'.enclosing = s.enclosing) fun s₁ h₁ => by
        obtain ⟨Γᵣ, rootSlot, s₂, hrun, hfragment, -, h₂, -⟩ :=
          h₁.exists_enterSearch ho h.ready.opened n.instruction
        have hlt := hfragment.opened.here_lt
        have hsketch := h₂.scope_sketch
        refine ⟨s₂, by simp only [Build.enterKind, hn]; exact hrun,
          ⟨_, ⟨h₂.ready h.ready (Sketch.Open.branch ⟨rfl, rfl, rfl⟩ hlt), h₂.forks, fun g hg => ?_,
            ⟨_, rfl, .inl ?_⟩, fun hloop => ?_⟩, rfl⟩, h₂.keeps Scope.enclosing fun _ => rfl⟩
        · refine (h.held g hg).mono fun b hb => hsketch ▸ Sketch.Busy.branch (Γ := Γᵣ) ?_ hlt _
          refine hb.of_chart hfragment.size_le (hfragment.frame b hb.1 fun he => ?_)
          exact h.ready.opened.not_busy (he ▸ hb)
        · rw [hsketch]
          rfl
        · simp [Fork.IsLoop, Fork.openedBy, Node.instruction, htag] at hloop
    exact ⟨_, f, hrun, hd.under n.tag, hopener, congrArg (n.tag :: ·) henclosing⟩

/-- The exception phrase of a verb has been entered. -/
theorem Clear.exists_enterCondition (h : s.Clear) (o : Options) {phrase : ExceptionPhrase}
    (hn : n.kind = .exception phrase) (henclosing : s.enclosing.head? ≠ some .search) :
    ∃ s', Build.take o (.enter n) s = .ok ((), s') ∧ s'.Clear := by
  obtain ⟨s₁, hrun, hclear⟩ := h.ready.since.exists_enter (o := o) (n := n) h.ready
    (by simp [Node.tag, hn, NodeKind.tag]) (P := Clear) fun s₁ h₁ => by
      have hlt := h.ready.opened.here_lt
      obtain ⟨s₂, hpush, h₂⟩ := h₁.exists_pushFork (f := .openedBy n.instruction s.sketch.here)
        (Build.inside_openedBy _ (h₁.sound.currentBlock _ h₁.here))
      obtain ⟨k, s₃, hopen, h₃⟩ := h₂.exists_enterElse rfl (some n.instruction)
      refine ⟨s₃, ?_, .of_since h.ready h₃ (Sketch.Open.branch ⟨rfl, rfl, rfl⟩ hlt) le_rfl ?_⟩
      · have hatEnd := isSearchAtEnd_eq_false
          ((h₁.keeps Scope.enclosing fun _ => rfl) ▸ henclosing : s₁.enclosing.head? ≠ _) phrase
        simp only [Build.enterKind, hn]
        rw [Build.enterException, run_bind hatEnd]
        exact (run_bind h₁.current? _).trans ((run_bind hpush _).trans hopen)
      · refine List.forall_mem_cons.2 ⟨⟨⟨_, rfl, Sketch.busy_branch hlt _⟩, fun hloop => ?_⟩,
          fun g hg => (h.held g hg).mono fun b hb => hb.branch hlt _⟩
        simp [Fork.IsLoop, Fork.trackBranch, Fork.openedBy, Node.instruction, Node.tag, hn,
          NodeKind.tag] at hloop
  exact ⟨_, hrun, hclear.under n.tag⟩

/-- An AT END belongs to the SEARCH right above it. -/
theorem isSearchAtEnd_eq_true (henclosing : s.enclosing.head? = some .search)
    (hforks : s.forks = f :: fs) (hsearch : f.isSearch = true) :
    Build.isSearchAtEnd .atEnd s = .ok (true, s) := by
  refine (run_bind (a := s) (t := s) rfl _).trans ?_
  simp only [henclosing, hforks, List.head?_cons, Option.any_some, hsearch]
  rfl

/-- The AT END phrase of a SEARCH has been entered. -/
theorem Deciding.exists_enterAtEnd (h : s.Deciding f fs) (o : Options)
    (hn : n.kind = .exception .atEnd) (henclosing : s.enclosing.head? = some .search)
    (hsearch : f.isSearch = true) :
    ∃ s' f', Build.take o (.enter n) s = .ok ((), s') ∧ s'.Clear ∧ s'.forks = f' :: fs ∧
      f'.isSearch = true ∧ s'.enclosing = n.tag :: s.enclosing := by
  obtain ⟨s₁, hrun, hclear, ⟨f', hforks, hopener⟩, henclosing'⟩ := h.since.exists_enter
    (o := o) (n := n) h.ready (by simp [Node.tag, hn, NodeKind.tag]) (P := fun s' => s'.Clear ∧
      (∃ f', s'.forks = f' :: fs ∧ f'.opener = f.opener) ∧ s'.enclosing = s.enclosing)
    fun s₁ h₁ => by
      have hkeep : s₁.enclosing = s.enclosing := h₁.keeps Scope.enclosing fun _ => rfl
      obtain ⟨s₂, hdefer, h₂⟩ := h₁.exists_deferPhrase n.instruction
      obtain ⟨c, hc, -⟩ := h.origin
      obtain ⟨k, s₃, hopen, h₃⟩ := h₂.exists_openPhraseBranch hc
        (rfl : ({ default := true } : BlockFlags).start = false)
      obtain ⟨hclear, hforks⟩ := h.clear_branch hc
        ⟨rfl, by simp [Scope.spot, BlockFlags.union], by simp [Scope.spot, BlockFlags.union]⟩ [] h₃
      refine ⟨s₃, ?_, hclear, hforks, h₃.keeps Scope.enclosing fun _ => rfl⟩
      simp only [Build.enterKind, hn]
      rw [Build.enterException, run_bind (isSearchAtEnd_eq_true (hkeep ▸ henclosing) h₁.forks
        hsearch)]
      refine (run_bind hdefer _).trans ?_
      rw [Build.startSearchWhen, run_bind (a := s₂) (t := s₂) rfl]
      simpa only [h₂.forks, List.head?_cons, Bool.true_or, if_true] using hopen
  exact ⟨_, f', hrun, hclear.under n.tag, hforks, by rw [Fork.isSearch, hopener]; exact hsearch,
    congrArg (n.tag :: ·) henclosing'⟩

/-- The AT END phrase of a SEARCH is left. -/
theorem Clear.exists_leaveAtEnd (h : s.Clear) (o : Options) (hn : n.kind = .exception .atEnd)
    {l : List NodeTag} (henclosing : s.enclosing = n.tag :: .search :: l)
    (hforks : s.forks = f :: fs) (hsearch : f.isSearch = true) :
    ∃ s', Build.take o (.leave n) s = .ok ((), s') ∧ s'.Clear ∧ s'.forks = f :: fs := by
  set s₀ : Scope := { s with enclosing := .search :: l } with hs₀
  have hs : s = s₀.under n.tag := by rw [hs₀, Scope.under, ← henclosing]
  have h₀ : s₀.Clear := ⟨⟨{ h.ready.sound with }, h.ready.inDivision, h.ready.currentSentence,
    h.ready.currentBlock, h.ready.opened⟩, h.held, h.awaiting, h.declaratives⟩
  have hsince : Since (s₀.under n.tag) s s.sketch s.forks s.ledger := hs ▸ h.ready.since
  obtain ⟨s', hrun, h'⟩ := hsince.exists_leave (o := o) h₀.ready
    (P := fun s' => Since s₀ s' s₀.sketch s₀.forks s₀.ledger) fun s₁ h₁ _ => by
      have hkeep : s₁.enclosing = s₀.enclosing := h₁.keeps Scope.enclosing fun _ => rfl
      refine ⟨s₁, ?_, h₁⟩
      simp only [Build.leaveInside, hn]
      rw [Build.leaveException, run_bind (isSearchAtEnd_eq_true (by rw [hkeep]; rfl)
        (h₁.forks.trans hforks) hsearch)]
      rfl
  exact ⟨s', hrun, h₀.of_still h', h'.forks.trans hforks⟩

/-- Where the next statement goes. -/
def place (s : Scope) : Place :=
  if s.currentSentence.isSome then s.sketch.place else ⟨s.graph.size, 0⟩

theorem Ready.place_eq (h : Ready s) : s.place = s.sketch.place := if_pos h.currentSentence

/-- A statement begins in a clear block, once its sentence is open. -/
def Begins (o : Options) (n : Node) (s : Scope) : Prop :=
  ∃ s' : Scope, s'.Clear ∧ s'.place = s.place ∧
    Build.take o (.enter n) s' = Build.take o (.enter n) s

theorem Clear.begins (h : s.Clear) (o : Options) (n : Node) : s.Begins o n := ⟨s, h, rfl, rfl⟩

end Scope

end CobolFlow
