import CobolFlow.Proofs.Trace.Advance

/-!
# Statements without parts

Each of these is one node with nothing inside: what it does to the graph is one of the edits that
`Fragment` knows, and its landmark is its node.

## Main results

* `Scope.Plays.say`, `alter`, `halt`, `jump`, `nextSentence`, `call` — one for each form
-/

namespace CobolFlow

namespace Scope

variable {s₀ s : Scope} {Γ : Sketch} {fs : List Fork} {l : Ledger} {o : Options} {n : Node}

namespace Since

theorem exists_breakBlock (h : Since s₀ s Γ fs l) :
    ∃ s', Build.breakBlock s = .ok (Γ.size, s') ∧
      Since s₀ s' ((Γ.fresh s₀.spot).goTo Γ.size) fs l := by
  obtain ⟨s₁, hnew, h₁⟩ := h.exists_newBlock none
  obtain ⟨s₂, hcurrent, h₂⟩ := h₁.exists_setCurrent (b := Γ.size) (Nat.lt_succ_self _)
  refine ⟨s₂, ?_, h₂⟩
  rw [Build.breakBlock, run_bind hnew, run_bind hcurrent]
  rfl

/-- Something is put aside. -/
theorem withPending (h : Since s₀ s Γ fs l) (pending : Pending)
    (hjumps : ∀ w ∈ pending.jumps, w.block < s.graph.size)
    (hsentences : ∀ w ∈ pending.nextSentences, w.block < s.graph.size)
    (hperforms : ∀ w ∈ pending.performs, w.group < s.graph.groups.size) :
    Since s₀ { s with pending } Γ fs (pending, l.2) :=
  { h with
    sound := { h.sound with
      jumps := hjumps, nextSentences := hsentences, performs := hperforms }
    ledger := by
      rw [← h.ledger]
      rfl }

/-- A jump is put aside. -/
theorem withJump (h : Since s₀ s Γ fs l) (node : NodeId) (span : Span) (jump : Jump) :
    Since s₀ { s with pending := { s.pending with
        jumps := s.pending.jumps ++ [{ node, span, jump, block := Γ.here }] } } Γ fs
      (l.post s₀.currentSentence (Γ.here, .jump node span jump)) := by
  have hlt : Γ.here < s.graph.size := h.sound.currentBlock _ h.here
  have h₁ := h.withPending { s.pending with
    jumps := s.pending.jumps ++ [{ node, span, jump, block := Γ.here }] }
    (fun w hw => (List.mem_append.1 hw).elim (h.sound.jumps w) fun hw => by
      rw [List.mem_singleton.1 hw]
      exact hlt) h.sound.nextSentences h.sound.performs
  rwa [← h.ledger] at h₁ ⊢

theorem exists_enterEnding (h : Since s₀ s Γ fs l) (i : Instruction) :
    ∃ s', Build.enterEnding i s = .ok ((), s') ∧ Since s₀ s' (Γ.depart i s₀.spot) fs l := by
  obtain ⟨s₁, hsay, h₁⟩ := h.exists_addInstruction i
  obtain ⟨s₂, hmark, h₂⟩ := h₁.exists_markCurrent (f := { ending := true }) rfl rfl
  obtain ⟨s₃, hbreak, h₃⟩ := h₂.exists_breakBlock
  refine ⟨s₃, ?_, h₃⟩
  rw [Build.enterEnding, run_bind hsay, run_bind hmark, run_bind hbreak]
  rfl

theorem exists_enterJump_simple (h : Since s₀ s Γ fs l) (i : Instruction) (span : Span)
    {jump : Jump} (hjump : jump.isSimple = true) :
    ∃ s', Build.enterJump i span jump s = .ok ((), s') ∧ Since s₀ s' (Γ.depart i s₀.spot) fs
      (l.post s₀.currentSentence (Γ.here, .jump i.node span jump)) := by
  obtain ⟨s₂, hending, h₂⟩ := (h.withJump i.node span jump).exists_enterEnding i
  refine ⟨s₂, ?_, h₂⟩
  rw [Build.enterJump, run_bind h.current?]
  refine (run_bind (a := ⟨⟩) rfl _).trans ?_
  simp only [hjump, if_true]
  exact hending

theorem exists_enterJump_conditional (h : Since s₀ s Γ fs l) (i : Instruction) (span : Span)
    {jump : Jump} (hjump : jump.isSimple = false) :
    ∃ s', Build.enterJump i span jump s = .ok ((), s') ∧ Since s₀ s' (Γ.depend i s₀.spot) fs
      (l.post s₀.currentSentence (Γ.here, .jump i.node span jump)) := by
  have hlt : Γ.here < Γ.size := h.size ▸ h.sound.currentBlock _ h.here
  obtain ⟨s₁, hsay, h₁⟩ := (h.withJump i.node span jump).exists_addInstruction i
  obtain ⟨s₂, hbreak, h₂⟩ := h₁.exists_breakBlock
  obtain ⟨k, s₃, hedge, h₃, -⟩ := h₂.exists_addEdge (b := Γ.here) (c := Γ.size)
    (Nat.lt_succ_of_lt hlt) (Nat.lt_succ_self _)
  refine ⟨s₃, ?_, h₃⟩
  rw [Build.enterJump, run_bind h.current?]
  refine (run_bind (a := ⟨⟩) rfl _).trans ((run_bind hsay _).trans ?_)
  rw [hjump]
  exact (run_bind hbreak _).trans (run_bind hedge _)

theorem exists_enterNextSentence (h : Since s₀ s Γ fs l) (h₀ : Ready s₀) (i : Instruction) :
    ∃ s', Build.enterNextSentence i s = .ok ((), s') ∧ Since s₀ s' (Γ.depart i s₀.spot) fs
      (l.post s₀.currentSentence (Γ.here, .nextSentence)) := by
  obtain ⟨sentence, hsentence⟩ := Option.isSome_iff_exists.1 h₀.currentSentence
  obtain ⟨s₁, hsay, h₁⟩ := h.exists_addInstruction i
  obtain ⟨s₂, hmark, h₂⟩ := h₁.exists_markCurrent (f := { ending := true }) rfl rfl
  have hlt : Γ.here < s₂.graph.size := h₂.sound.currentBlock _ h₂.here
  have h₃ := h₂.withPending { s₂.pending with
    nextSentences := s₂.pending.nextSentences ++ [{ block := Γ.here, sentence }] }
    h₂.sound.jumps (fun w hw => (List.mem_append.1 hw).elim (h₂.sound.nextSentences w) fun hw => by
      rw [List.mem_singleton.1 hw]
      exact hlt) h₂.sound.performs
  obtain ⟨s₄, hbreak, h₄⟩ := h₃.exists_breakBlock
  refine ⟨s₄, ?_, ?_⟩
  · have hsentence₂ : s₂.currentSentence = some sentence := h₂.currentSentence.trans hsentence
    rw [Build.enterNextSentence, run_bind h.current?]
    refine (run_bind hsay _).trans ((run_bind hmark _).trans ?_)
    refine (run_bind (a := s₂) (t := s₂) rfl _).trans ?_
    rw [hsentence₂]
    exact (run_bind (a := ⟨⟩) rfl _).trans (run_bind hbreak _)
  · rw [← h₂.ledger] at h₄ ⊢
    rw [hsentence]
    exact h₄

theorem exists_enterAlter (h : Since s₀ s Γ fs l) (i : Instruction) (span : Span)
    (clauses : List AlterClause) (b : ℕ) :
    ∃ s', Build.enterAlter i span clauses s = .ok ((), s') ∧ Since s₀ s' (Γ.say [i]) fs
      (l.post s₀.currentSentence (b, .alter span clauses)) := by
  obtain ⟨s₁, hsay, h₁⟩ := h.exists_addInstruction i
  have h₂ := h₁.withPending { s₁.pending with alters := s₁.pending.alters ++ [{ span, clauses }] }
    h₁.sound.jumps h₁.sound.nextSentences h₁.sound.performs
  refine ⟨_, by rw [Build.enterAlter, run_bind hsay]; rfl, ?_⟩
  rwa [← h₁.ledger] at h₂ ⊢

/-- A call: a block of its own, with a group still empty. -/
theorem exists_enterPerform (h : Since s₀ s Γ fs l) (i : Instruction) (span : Span)
    (range : PerformRange) :
    ∃ s', Build.enterPerform i span range s = .ok ((), s') ∧
      Since s₀ s' (Γ.call { s₀.spot [i] with group := some l.2.size } s₀.spot) fs
        (l.post s₀.currentSentence (Γ.size, .call i.node span range)) := by
  have hlt : Γ.here < Γ.size := h.size ▸ h.sound.currentBlock _ h.here
  obtain ⟨s₁, hnew, h₁⟩ := h.exists_newBlock (some i)
  -- the group
  have hgroups : s₁.graph.groups = s.graph.groups :=
    congrArg Prod.snd (h₁.ledger.trans h.ledger.symm)
  have hfree : ¬ s₁.graph.IsCallSite Γ.size := fun hsite => by
    have hsize := ((Graph.isCallSite_congr hgroups).1 hsite).lt_size h.sound.graph
    exact (h.size ▸ hsize).false
  obtain ⟨g₂, hgroup, hsound₂, hle₂, hdraws₂, hgroups₂, hsize₂, hchart₂⟩ :=
    Graph.exists_addGroup_draws s₀.tag h₁.sound.graph
      (h₁.size.symm ▸ Nat.lt_succ_self Γ.size : Γ.size < s₁.graph.size) hfree i.node range.display
  have hgroups₁ : s₁.graph.groups = l.2 := congrArg Prod.snd h₁.ledger
  have hpending₁ : s₁.pending = l.1 := congrArg Prod.fst h₁.ledger
  rw [hgroups₁] at hgroup hgroups₂ hchart₂
  set t := { s₀.spot [i] with group := some l.2.size } with ht
  set group : Group :=
    { id := l.2.size, callSite := Γ.size, node := i.node, range := range.display }
  have h₂ : Since s₀ { s₁ with graph := g₂ } (Γ.fresh t) fs (l.1, l.2.push group) := by
    refine ⟨h₁.sound.withGraph hsound₂ hle₂, h₁.le.trans hle₂, h₁.setting,
      h₁.draws.trans hdraws₂, by rw [hsize₂]; exact h₁.procedures, h₁.here, ?_, h₁.forks, ?_,
      fun b hb => ?_⟩
    · simp only [Graph.sketch, hchart₂, hsize₂, h₁.size, h₁.chart, Sketch.fresh, Sketch.mk.injEq,
        and_true]
      funext c
      by_cases hc : c = Γ.size <;> simp [hc, ht]
    · simp only [Scope.ledger, hgroups₂, hpending₁]
    · have hb' : b < Γ.size := hb.trans_le (h.size ▸ h.le.1)
      have hdefaults := h₁.defaults b hb
      simp only [Sketch.fresh, hb'.ne, if_false] at hdefaults ⊢
      exact hdefaults
  obtain ⟨s₃, hcompound, h₃, -⟩ := h₂.exists_edit (e := Graph.markCompound) (a := ()) rfl
    (.of_same ((Graph.markCompound_faultless).of_eq_ok hsound₂ rfl).1
      ((Graph.markCompound_faultless).of_eq_ok hsound₂ rfl).2.1 rfl rfl rfl rfl) rfl fun _ _ => rfl
  obtain ⟨k₁, s₄, hedge₁, h₄, -⟩ := h₃.exists_addEdge (b := Γ.here) (c := Γ.size)
    (Nat.lt_succ_of_lt hlt) (Nat.lt_succ_self _)
  obtain ⟨s₅, hbreak, h₅⟩ := h₄.exists_breakBlock
  obtain ⟨k₂, s₆, hedge₂, h₆, -⟩ := h₅.exists_addEdge (b := Γ.size) (c := Γ.size + 1)
    (Nat.lt_succ_of_lt (Nat.lt_succ_self _)) (Nat.lt_succ_self _)
  have hpending₆ : s₆.pending = l.1 := congrArg Prod.fst h₆.ledger
  have hgroups₆ : s₆.graph.groups.size = l.2.size + 1 :=
    (congrArg (·.2.size) h₆.ledger).trans (Array.size_push ..)
  have h₇ := h₆.withPending { s₆.pending with
      performs := s₆.pending.performs ++ [{ span, range, group := l.2.size }] }
    h₆.sound.jumps h₆.sound.nextSentences fun w hw =>
      (List.mem_append.1 hw).elim (h₆.sound.performs w) fun hw => by
        rw [List.mem_singleton.1 hw, hgroups₆]
        exact Nat.lt_succ_self _
  have hpost : ({ s₆.pending with
      performs := s₆.pending.performs ++ [{ span, range, group := l.2.size }] }, l.2.push group) =
        l.post s₀.currentSentence (Γ.size, .call i.node span range) := by
    rw [hpending₆]
    rfl
  refine ⟨_, ?_, hpost ▸ h₇⟩
  rw [Build.enterPerform, run_bind h.current?]
  refine (run_bind hnew _).trans ((run_bind (Build.editGraph_eq_ok hgroup) _).trans ?_)
  refine (run_bind hcompound _).trans ((run_bind hedge₁ _).trans ?_)
  exact (run_bind hbreak _).trans (run_bind hedge₂ _)

end Since

/-! ### One node -/

namespace Plays

theorem exits_singleton (b : ℕ) (m : Landmark) :
    Landmarks.exits [(b, m)] = fun e c => m.exit = some e ∧ c = b := by
  funext e c
  simp [Landmarks.exits, and_comm]

theorem placed_singleton {Γ Γ' : Sketch} {b : ℕ} {m : Landmark} (hb : Γ.Between Γ' b)
    (hlt : b < Γ'.here) : Landmarks.Placed [(b, m)] Γ Γ' := by
  cases hm : m.isLast <;> constructor <;> simp [Landmarks.blocks, hm, hb, hlt]

theorem exit (h₀ : Ready s) (hn : n.kind = .exit) :
    Plays o s [.enter n, .leave n] (Behaviour.skip.saying [⟨n.id, n.tag⟩]) := by
  refine leaf h₀ (by simp [Node.tag, hn, NodeKind.tag]) (by simp [Build.leaveInside, hn])
    (s.sketch.say [⟨n.id, n.tag⟩]) [] (fun s₁ h => ?_) ?_ (.nil _ _) (by simp [Node.landmark?, hn])
  · simp only [Build.enterKind, hn]
    exact h.exists_addInstruction _
  · rw [Landmarks.exits_nil]
    exact .say h₀.opened _

theorem alter (h₀ : Ready s) {clauses : List AlterClause} (hn : n.kind = .alter clauses) :
    Plays o s [.enter n, .leave n] (Behaviour.skip.saying [⟨n.id, n.tag⟩]) := by
  refine leaf h₀ (by simp [Node.tag, hn, NodeKind.tag]) (by simp [Build.leaveInside, hn])
    (s.sketch.say [⟨n.id, n.tag⟩])
    [(s.sketch.here, .alter n.span clauses)] (fun s₁ h => ?_) ?_ ?_
    (by simp [Node.landmark?, hn])
  · simp only [Build.enterKind, hn]
    exact h.exists_enterAlter _ _ _ s.sketch.here
  · have hexits : Landmarks.exits [(s.sketch.here, .alter n.span clauses)] =
        fun _ _ => False := by
      rw [exits_singleton]
      simp [Landmark.exit]
    rw [hexits]
    exact .say h₀.opened _
  · constructor <;> simp [Landmarks.blocks, Landmark.isLast]

theorem halt (h₀ : Ready s) {ending : Ending} (hn : n.kind = .terminate ending) :
    Plays o s [.enter n, .leave n] ((Behaviour.leave .halt).saying [⟨n.id, n.tag⟩]) := by
  refine leaf h₀ (by simp [Node.tag, hn, NodeKind.tag]) (by simp [Build.leaveInside, hn])
    (s.sketch.depart ⟨n.id, n.tag⟩ s.spot) [] (fun s₁ h => ?_) ?_ (.nil _ _)
    (by simp [Node.landmark?, hn])
  · simp only [Build.enterKind, hn]
    exact h.exists_enterEnding _
  · rw [Landmarks.exits_nil]
    exact .halt h₀.opened s.spot_blank

/-- What a jump does: it leaves, or may go on if it is conditional. -/
def jumping (jump : Jump) (node : NodeId) : Behaviour :=
  (if jump.isSimple then 0 else .skip) + .leave (.jump node)

theorem jump (h₀ : Ready s) {jump : Jump} (hn : n.kind = .goTo jump) :
    Plays o s [.enter n, .leave n] ((jumping jump n.id).saying [⟨n.id, n.tag⟩]) := by
  have htag : n.tag ≠ .procedureDivision := by
    rw [Node.tag, hn, NodeKind.tag_goTo]
    split <;> simp
  cases hjump : jump.isSimple with
  | true =>
    refine leaf h₀ htag (by simp [Build.leaveInside, hn])
      (s.sketch.depart ⟨n.id, n.tag⟩ s.spot)
      [(s.sketch.here, .jump n.id n.span jump)] (fun s₁ h => ?_) ?_ ?_
      (by simp [Node.landmark?, hn])
    · simp only [Build.enterKind, hn]
      exact h.exists_enterJump_simple _ _ hjump
    · have hzero : (0 : Behaviour) + .leave (.jump n.id) = .leave (.jump n.id) := by
        ext <;> simp
      simp only [exits_singleton, Landmark.exit, jumping, hjump, if_true, hzero,
        Option.some.injEq, eq_comm (a := Exit.jump n.id)]
      exact .jump h₀.opened s.spot_blank rfl
    · exact placed_singleton (.inl rfl) h₀.opened.here_lt
  | false =>
    refine leaf h₀ htag (by simp [Build.leaveInside, hn])
      (s.sketch.depend ⟨n.id, n.tag⟩ s.spot)
      [(s.sketch.here, .jump n.id n.span jump)] (fun s₁ h => ?_) ?_ ?_
      (by simp [Node.landmark?, hn])
    · simp only [Build.enterKind, hn]
      exact h.exists_enterJump_conditional _ _ hjump
    · simp only [exits_singleton, Landmark.exit, jumping, hjump, Bool.false_eq_true, if_false,
        Option.some.injEq, eq_comm (a := Exit.jump n.id)]
      exact .depend h₀.opened s.spot_blank rfl
    · exact placed_singleton (.inl rfl) h₀.opened.here_lt

theorem nextSentence (h₀ : Ready s) (hn : n.kind = .nextSentence) :
    Plays o s [.enter n, .leave n] ((Behaviour.leave .nextSentence).saying [⟨n.id, n.tag⟩]) := by
  refine leaf h₀ (by simp [Node.tag, hn, NodeKind.tag]) (by simp [Build.leaveInside, hn])
    (s.sketch.depart ⟨n.id, n.tag⟩ s.spot)
    [(s.sketch.here, .nextSentence)] (fun s₁ h => ?_) ?_ ?_
    (by simp [Node.landmark?, hn])
  · simp only [Build.enterKind, hn]
    exact h.exists_enterNextSentence h₀ _
  · simp only [exits_singleton, Landmark.exit, Option.some.injEq, eq_comm (a := Exit.nextSentence)]
    refine .jump h₀.opened s.spot_blank ?_
    simp [Exit.IsBy, Node.tag, hn, NodeKind.tag]
  · exact placed_singleton (.inl rfl) h₀.opened.here_lt

theorem call (h₀ : Ready s) {range : PerformRange} (hn : n.kind = .perform range) :
    Plays o s [.enter n, .leave n] (Behaviour.skip.saying [⟨n.id, n.tag⟩]) := by
  refine leaf h₀ (by simp [Node.tag, hn, NodeKind.tag]) (by simp [Build.leaveInside, hn])
    (s.sketch.call { s.spot [⟨n.id, n.tag⟩] with group := some s.ledger.2.size } s.spot)
    [(s.sketch.size, .call n.id n.span range)] (fun s₁ h => ?_) ?_ ?_
    (by simp [Node.landmark?, hn])
  · simp only [Build.enterKind, hn]
    exact h.exists_enterPerform _ _ _
  · have hexits : Landmarks.exits [(s.sketch.size, .call n.id n.span range)] =
        fun _ _ => False := by
      rw [exits_singleton]
      simp [Landmark.exit]
    rw [hexits]
    exact .call h₀.opened ⟨rfl, rfl⟩ rfl rfl s.spot_blank
  · exact placed_singleton (.inr ⟨le_rfl, Nat.lt_succ_of_lt (Nat.lt_succ_self _)⟩)
      (Nat.lt_succ_self _)

end Plays

end Scope

end CobolFlow
