import CobolFlow.Proofs.Trace.Decisions

/-!
# Alternatives side by side

Exception phrases, and EVALUATE and SEARCH in the direct lowering, keep one fork open and add one
branch after another to it. `Scope.Ways` is the state in which some branches have been replayed;
it also says which of them is the default one, because that decides how the fork is closed.

## Main definitions

* `Clause` — a WHEN clause as it is replayed
* `Scope.Ways` — an open decision with its branches so far

## Main results

* `Scope.Plays.exception`, `evaluateDirect`, `searchDirect` — one for each form
-/

namespace CobolFlow

open Scope

/-- A node as a block remembers it. -/
def Node.instruction (n : Node) : Instruction := ⟨n.id, n.tag⟩

/-- A clause whose phrases wait until its block is made: the phrases, and what is done then. -/
structure Clause where
  phrases : List Node
  events : List Notification
  body : Behaviour

namespace Clause

/-- The phrases as they are said. -/
def said (c : Clause) : List Instruction := c.phrases.map (·.instruction)

/-- The replay of the clause; `begins` tells that all its phrases have been entered. -/
def replay (begins : Notification) (c : Clause) : List Notification :=
  (c.phrases.flatMap fun m => [.enter m, .leave m]) ++ begins :: c.events

/-- What the clause does when it is chosen. -/
def behaviour (c : Clause) : Behaviour := c.body.saying c.said

end Clause

/-- A node around a piece, which is said before it: the node, and what is done inside. -/
structure Enclosure where
  node : Node
  events : List Notification
  body : Behaviour

namespace Enclosure

/-- The replay of the node with what it contains. -/
def replay (p : Enclosure) : List Notification := .enter p.node :: p.events ++ [.leave p.node]

/-- What is done. -/
def behaviour (p : Enclosure) : Behaviour := p.body.saying [p.node.instruction]

end Enclosure

/-- What stays of a fork while branches are added to it. -/
def Fork.identity (f : Fork) : Option Instruction × Option BlockId × Option SlotId :=
  (f.opener, f.root, f.rootSlot)

/-- A node that waits in a fork. -/
def Node.IsPhrase (n : Node) : Prop :=
  n.kind = .whenPhrase ∨ n.kind = .whenOther ∨ n.kind = .searchWhen

namespace Node.IsPhrase

variable {n : Node}

theorem tag_ne (h : n.IsPhrase) : n.tag ≠ .procedureDivision := by
  obtain h | h | h := h <;> simp [Node.tag, h, NodeKind.tag]

theorem enterKind_eq (h : n.IsPhrase) (o : Options) :
    Build.enterKind o n = Build.deferPhrase n.instruction := by
  obtain h | h | h := h <;> simp only [Build.enterKind, h] <;> rfl

theorem leaveInside_eq (h : n.IsPhrase) (o : Options) : Build.leaveInside o n = pure () := by
  obtain h | h | h := h <;> simp only [Build.leaveInside, h]

theorem landmark?_eq (h : n.IsPhrase) : n.landmark? = none := by
  obtain h | h | h := h <;> simp [Node.landmark?, h]

end Node.IsPhrase

/-- Phrases leave no landmarks. -/
theorem Clause.filterMap_replay (c : Clause) (hphrases : ∀ m ∈ c.phrases, m.IsPhrase)
    {e : Notification} (hbegins : e.landmark? = none) :
    (c.replay e).filterMap (·.landmark?) = c.events.filterMap (·.landmark?) := by
  have hnone : (c.phrases.flatMap fun m => [Notification.enter m, .leave m]).filterMap
      (·.landmark?) = [] := by
    rw [List.filterMap_eq_nil_iff]
    intro e he
    obtain ⟨m, hm, he⟩ := List.mem_flatMap.1 he
    obtain rfl | he := List.mem_cons.1 he
    · exact (hphrases m hm).landmark?_eq
    · rw [List.mem_singleton.1 he]
      rfl
  rw [Clause.replay, List.filterMap_append, hnone, List.nil_append, List.filterMap_cons, hbegins]

namespace Scope

variable {s₀ s : Scope} {Γ : Sketch} {fs : List Fork} {f : Fork} {l : Ledger} {o : Options}
  {n m : Node} {B C : Behaviour} {events : List Notification} {ext : List Instruction}
  {branches : List Branch} {L : Landmarks} {ds : List Bool} {begins : Notification}
  {flags : BlockFlags}

/-- Phrases wait in the innermost fork. -/
theorem Since.exists_phrases (h : Since s₀ s Γ (f :: fs) l) (h₀ : Ready s₀) {ms : List Node}
    (hms : ∀ m ∈ ms, m.IsPhrase) :
    ∃ s', Build.play o (ms.flatMap fun m => [.enter m, .leave m]) s = .ok ((), s') ∧
      Since s₀ s' Γ ({ f with phrases := f.phrases ++ ms.map (·.instruction) } :: fs) l := by
  induction ms generalizing s f with
  | nil => exact ⟨s, rfl, by simpa using h⟩
  | cons m rest ih =>
    have hm := hms m (by simp)
    obtain ⟨s₁, henter, h₁⟩ := h.exists_enter (o := o) h₀ hm.tag_ne
      (P := fun s' => Since s₀ s' Γ ({ f with phrases := f.phrases ++ [m.instruction] } :: fs) l)
      fun s₁ h => by
        rw [hm.enterKind_eq]
        exact h.exists_deferPhrase _
    obtain ⟨s₂, hleave, h₂⟩ := (h₁.under m.tag).exists_leave_pure h₀ (hm.leaveInside_eq o)
    obtain ⟨s₃, hrest, h₃⟩ := ih h₂ fun m' hm' => hms m' (by simp [hm'])
    refine ⟨s₃, ?_, ?_⟩
    · rw [List.flatMap_cons, List.cons_append, List.cons_append, List.nil_append,
        Build.play_cons henter, Build.play_cons hleave, hrest]
    · simpa using h₃

/-- A block that begins with phrases. -/
theorem fresh_phrases (s : Scope) (said : List Instruction) :
    Spot.Fresh { s.spot said with flags := (s.spot).flags.union .none } :=
  ⟨rfl, rfl, rfl⟩

/-! ### An open decision -/

/-- A decision that was opened after `s₀`. Its fork has the given branches, with nothing waiting,
and `ds` says which of them are taken by default. -/
structure Ways (s₀ s : Scope) (f : Fork) (ext : List Instruction) (branches : List Branch)
    (L : Landmarks) (ds : List Bool) : Prop where
  since : Since s₀ s s.sketch (f :: s₀.forks)
    (L.foldl (Ledger.post s₀.currentSentence) s₀.ledger)
  holds : f.Holds s₀.sketch s.sketch ext branches L
  phrases : f.phrases = []
  defaults : branches.map (fun br => (s.sketch.chart br.entry).flags.default) = ds

namespace Ways

/-- Another branch has been opened, and is replayed. -/
theorem exists_branch (h : Ways s₀ s f ext branches L ds) (h₀ : Ready s₀) {s₁ : Scope} {t : Spot}
    {k : SlotId} (ht : t.Fresh) (h₁ : Since s₀ s₁ (s.sketch.branch s₀.sketch.here t)
      (f.trackBranch s.sketch.size k :: s₀.forks)
      (L.foldl (Ledger.post s₀.currentSentence) s₀.ledger))
    (hplays : Ready s₁ → s₁.enclosing = s₀.enclosing → Plays o s₁ events B) :
    ∃ s' f' L' br, Build.play o events s₁ = .ok ((), s') ∧
      Ways s₀ s' f' ext (branches ++ [br]) (L ++ L') (ds ++ [t.flags.default]) ∧
      br.behaviour = B.saying t.nodes ∧ f'.identity = f.identity ∧
      L'.map (·.2) = events.filterMap (·.landmark?) := by
  obtain ⟨Γ', s', L', hplay, h', hf, hkinds, hdefaults, hdefault⟩ :=
    Since.exists_branch h₁ h₀ h.holds ht hplays
  obtain rfl := h'.scope_sketch
  refine ⟨s', _, L', ⟨s.sketch.size, s'.sketch.here, B.saying t.nodes⟩, hplay,
    ⟨h', hf, h.phrases, ?_⟩, rfl, rfl, hkinds⟩
  have hsame : branches.map (fun br => (s'.sketch.chart br.entry).flags.default) = ds := by
    rw [← h.defaults, List.map_inj_left]
    exact fun br hbr => hdefaults _ (h.holds.bundle.fits br hbr).entry.1.2
  rw [List.map_append, hsame]
  simp [hdefault]

variable (begins) in
/-- A clause is replayed; its notification opens the branch at `t`. -/
theorem exists_clause (h : Ways s₀ s f ext branches L ds) (h₀ : Ready s₀) (c : Clause)
    (hphrases : ∀ m ∈ c.phrases, m.IsPhrase) {t : Spot} (ht : t.Fresh)
    (hbegins : ∀ s₁, Since s₀ s₁ s.sketch ({ f with phrases := c.said } :: s₀.forks)
        (L.foldl (Ledger.post s₀.currentSentence) s₀.ledger) →
      ∃ k s₂, Build.take o begins s₁ = .ok ((), s₂) ∧
        Since s₀ s₂ (s.sketch.branch s₀.sketch.here t)
          ({ f with phrases := [] }.trackBranch s.sketch.size k :: s₀.forks)
          (L.foldl (Ledger.post s₀.currentSentence) s₀.ledger))
    (hplays : ∀ s, Ready s → Plays o s c.events c.body) :
    ∃ s' f' L' br, Build.play o (c.replay begins) s = .ok ((), s') ∧
      Ways s₀ s' f' ext (branches ++ [br]) (L ++ L') (ds ++ [t.flags.default]) ∧
      br.behaviour = c.body.saying t.nodes ∧ f'.identity = f.identity ∧
      L'.map (·.2) = c.events.filterMap (·.landmark?) := by
  obtain ⟨s₁, hdefer, h₁⟩ := h.since.exists_phrases (o := o) h₀ hphrases
  rw [h.phrases, List.nil_append] at h₁
  obtain ⟨k, s₂, hopen, h₂⟩ := hbegins s₁ h₁
  have hsame : { f with phrases := [] } = f := by rw [← h.phrases]
  rw [hsame] at h₂
  obtain ⟨s', f', L', br, hplay, h'⟩ := h.exists_branch h₀ ht h₂ fun h _ => hplays _ h
  refine ⟨s', f', L', br, ?_, h'⟩
  rw [Clause.replay, Build.play_append hdefer, Build.play_cons hopen, hplay]

/-- Some clauses, one after another. -/
theorem exists_clauses (h : Ways s₀ s f ext branches L ds) (h₀ : Ready s₀) {cs : List Clause}
    (hphrases : ∀ c ∈ cs, ∀ m ∈ c.phrases, m.IsPhrase)
    (hbegins : ∀ s₁ Γ₁ f₁ l₁, Since s₀ s₁ Γ₁ (f₁ :: s₀.forks) l₁ → f₁.identity = f.identity →
      Build.take o begins s₁ = Build.openPhraseBranch .none s₁)
    (hlandmark : begins.landmark? = none)
    (hplays : ∀ c ∈ cs, ∀ s, Ready s → Plays o s c.events c.body) :
    ∃ s' f' L' brs, Build.play o (cs.flatMap (Clause.replay begins)) s = .ok ((), s') ∧
      Ways s₀ s' f' ext (branches ++ brs) (L ++ L') (ds ++ cs.map fun _ => false) ∧
      brs.map (·.behaviour) = cs.map (·.behaviour) ∧ f'.identity = f.identity ∧
      L'.map (·.2) = (cs.flatMap (Clause.replay begins)).filterMap (·.landmark?) := by
  induction cs generalizing s f branches L ds with
  | nil => exact ⟨s, f, [], [], rfl, by simpa using h, rfl, rfl, rfl⟩
  | cons c rest ih =>
    obtain ⟨s₁, f₁, L₁, br, hplay₁, h₁, hbr, hidentity₁, hkinds₁⟩ := h.exists_clause begins h₀ c
      (hphrases c (by simp)) (s₀.fresh_phrases c.said) (fun s₁ h₁ => by
        rw [hbegins s₁ _ _ _ h₁ rfl]
        exact h₁.exists_openPhraseBranch h.holds.origin rfl) (hplays c (by simp))
    obtain ⟨s₂, f₂, L₂, brs, hplay₂, h₂, hbrs, hidentity₂, hkinds₂⟩ := ih h₁
      (fun c hc => hphrases c (by simp [hc]))
      (fun s₁ Γ₁ g l₁ h hg => hbegins s₁ Γ₁ g l₁ h (hg.trans hidentity₁))
      (fun c hc => hplays c (by simp [hc]))
    refine ⟨s₂, f₂, L₁ ++ L₂, br :: brs, ?_, ?_, by simp [hbr, hbrs, Clause.behaviour],
      hidentity₂.trans hidentity₁, ?_⟩
    · rw [List.flatMap_cons, Build.play_append hplay₁, hplay₂]
    · simpa [Scope.spot, List.append_assoc] using h₂
    · rw [List.map_append, hkinds₁, hkinds₂, List.flatMap_cons, List.filterMap_append,
        c.filterMap_replay (hphrases c (by simp)) hlandmark]

theorem under (h : Ways s₀ s f ext branches L ds) (t : NodeTag) :
    Ways (s₀.under t) (s.under t) f ext branches L ds :=
  ⟨h.since.under t, h.holds, h.phrases, h.defaults⟩

/-- The AT END of a search is a branch like that of a WHEN, which is taken by default. -/
theorem exists_atEnd (h : Ways s₀ s f ext branches L ds) (h₀ : Ready s₀)
    (hsearch : f.isSearch = true) (henclosing : s₀.enclosing.head? = some .search)
    (p : Enclosure) (hp : p.node.kind = .exception .atEnd)
    (hplays : ∀ s, Ready s → Plays o s p.events p.body) :
    ∃ s' f' L' br, Build.play o p.replay s = .ok ((), s') ∧
      Ways s₀ s' f' ext (branches ++ [br]) (L ++ L') (ds ++ [true]) ∧
      br.behaviour = p.behaviour ∧ f'.identity = f.identity ∧
      L'.map (·.2) = p.replay.filterMap (·.landmark?) := by
  have htag : p.node.tag ≠ .procedureDivision := by simp [Node.tag, hp, NodeKind.tag]
  have hatEnd : ∀ s₁ Γ₁ f₁ l₁, Since s₀ s₁ Γ₁ (f₁ :: s₀.forks) l₁ → f₁.identity = f.identity →
      Build.isSearchAtEnd .atEnd s₁ = .ok (true, s₁) := fun s₁ Γ₁ f₁ l₁ h₁ hidentity => by
    refine (run_bind (a := s₁) (t := s₁) rfl _).trans ?_
    have hkeep : s₁.enclosing = s₀.enclosing := h₁.keeps Scope.enclosing fun _ => rfl
    have hsearch₁ : f₁.isSearch = true := by
      rw [Fork.isSearch, show f₁.opener = f.opener from congrArg Prod.fst hidentity]
      exact hsearch
    simp only [hkeep, henclosing, h₁.forks, List.head?_cons, Option.any_some, hsearch₁]
    rfl
  set t : Spot := { s₀.spot [p.node.instruction] with
    flags := (s₀.spot).flags.union { default := true } } with ht
  obtain ⟨s₁, henter, k, h₁⟩ := h.since.exists_enter (o := o) (n := p.node) h₀ htag
    (P := fun s' => ∃ k, Since s₀ s' (s.sketch.branch s₀.sketch.here t)
      (f.trackBranch s.sketch.size k :: s₀.forks)
      (L.foldl (Ledger.post s₀.currentSentence) s₀.ledger)) fun s₁ h₁ => by
      obtain ⟨s₂, hdefer, h₂⟩ := h₁.exists_deferPhrase p.node.instruction
      rw [h.phrases, List.nil_append] at h₂
      obtain ⟨k, s₃, hopen, h₃⟩ := h₂.exists_openPhraseBranch h.holds.origin
        (rfl : ({ default := true } : BlockFlags).start = false)
      have hsame : { f with phrases := [] } = f := by rw [← h.phrases]
      refine ⟨s₃, ?_, k, hsame ▸ h₃⟩
      simp only [Build.enterKind, hp]
      rw [Build.enterException, run_bind (hatEnd s₁ _ _ _ h₁ rfl)]
      refine (run_bind hdefer _).trans ?_
      rw [Build.startSearchWhen, run_bind (a := s₂) (t := s₂) rfl]
      simpa only [h₂.forks, List.head?_cons, Bool.true_or, if_true] using hopen
  obtain ⟨s₂, f', L', br, hplay, hways, hbr, hidentity, hkinds⟩ :=
    (h.under p.node.tag).exists_branch (h₀.under _) (t := t)
      ⟨rfl, by simp [ht, Scope.spot, BlockFlags.union], by simp [ht, Scope.spot, BlockFlags.union]⟩
      (h₁.under p.node.tag) fun h _ => hplays _ h
  obtain ⟨s₃, hleave, h₃⟩ := hways.since.exists_leave (o := o) h₀ (P := fun s₃ =>
    Ways s₀ s₃ f' ext (branches ++ [br]) (L ++ L') (ds ++ [true])) fun s₃ h₃ _ => by
      have hsketch := h₃.scope_sketch
      refine ⟨s₃, ?_, hsketch ▸ h₃, hsketch ▸ hways.holds, hways.phrases, ?_⟩
      · simp only [Build.leaveInside, hp]
        rw [Build.leaveException, run_bind (hatEnd s₃ _ _ _ h₃ hidentity)]
        rfl
      · rw [hsketch, hways.defaults]
        simp [ht, Scope.spot, BlockFlags.union]
  refine ⟨s₃, f', L', br, ?_, h₃, hbr, hidentity, ?_⟩
  · rw [Enclosure.replay, List.cons_append, Build.play_cons henter, Build.play_append hplay,
      Build.play_cons hleave, Build.play_nil]
  · rw [hkinds, Enclosure.replay]
    simp [Notification.landmark?, Node.landmark?, hp]

/-- The fork is taken off the stack and closed. -/
theorem exists_join (h : Ways s₀ s f ext branches L ds) (h₀ : Ready s₀) (onward : Bool)
    (hne : branches ≠ [] ∨ onward = true) :
    ∃ s₁ s', Build.popFork? s = .ok (some f, s₁) ∧ s₁.graph = s.graph ∧
      Build.joinFork f onward s₁ = .ok ((), s') ∧
      Since s₀ s' s'.sketch s₀.forks (L.foldl (Ledger.post s₀.currentSentence) s₀.ledger) ∧
      Fragment s₀.sketch s'.sketch L.exits
        (((branches.map (·.behaviour)).sum + if onward then .skip else 0).saying ext) ∧
      L.Placed s₀.sketch s'.sketch := by
  have h₁ := h.since.withForks s₀.forks h.since.inside_outer
  obtain ⟨s₂, hjoin, h₂⟩ := h₁.exists_close h.since.inside h₀ h.holds onward hne
  exact ⟨_, s₂, h.since.popFork?_eq, rfl, hjoin, h₂⟩

theorem length_eq (h : Ways s₀ s f ext branches L ds) : f.branches.length = ds.length := by
  rw [h.holds.entries, ← h.defaults, List.length_map, List.length_map]

/-- Whether a branch is the default one can be read off its block. -/
theorem isDefault_eq (h : Ways s₀ s f ext branches L ds) {s₁ : Scope} (hs₁ : s₁.graph = s.graph)
    (k : ℕ) : Build.isDefault f.branches[k]? s₁ = .ok (ds[k]?.getD false, s₁) := by
  rw [h.holds.entries, List.getElem?_map, ← h.defaults, List.getElem?_map]
  cases hbr : branches[k]? with
  | none => rfl
  | some br =>
    have hlt : br.entry < s.graph.size := by
      rw [h.since.size]
      exact (h.holds.bundle.fits br (List.mem_of_getElem? hbr)).entry.1.2
    obtain ⟨block, hblock, hget⟩ := Graph.exists_block_eq_ok hlt
    have hchart : (s.sketch.chart br.entry).flags = block.flags := by
      rw [← h.since.chart, Graph.chart_of_getElem? hget]
      rfl
    simp only [Option.map_some, Option.getD_some, hchart, Build.isDefault]
    refine (run_bind (a := s₁) (t := s₁) rfl _).trans ?_
    rw [hs₁]
    exact (run_bind (run_lift hblock s₁) _).trans rfl

/-- A branch that WHEN OTHER opens, which says nothing of it. -/
theorem exists_other (h : Ways s₀ s f ext branches L ds) (h₀ : Ready s₀) (c : Clause)
    (hphrases : ∀ m ∈ c.phrases, m.IsPhrase) (hplays : ∀ s, Ready s → Plays o s c.events c.body) :
    ∃ s' f' L' br, Build.play o (c.replay .whenOtherClause) s = .ok ((), s') ∧
      Ways s₀ s' f' ext (branches ++ [br]) (L ++ L') (ds ++ [true]) ∧ br.behaviour = c.body ∧
      f'.identity = f.identity ∧ L'.map (·.2) = c.events.filterMap (·.landmark?) := by
  obtain ⟨s', f', L', br, hplay, hways, hbr, hidentity, hkinds⟩ :=
    h.exists_clause .whenOtherClause (o := o) h₀ c hphrases
      ⟨rfl, by simp [Scope.spot, BlockFlags.union], by
      simp [Scope.spot, BlockFlags.union]⟩
    (fun s₁ h₁ => h₁.exists_startWhenOther h.holds.origin) hplays
  refine ⟨s', f', L', br, hplay, ?_, hbr.trans c.body.saying_nil, hidentity, hkinds⟩
  simpa [Scope.spot, BlockFlags.union] using hways

end Ways

/-! ### Exception phrases -/

/-- A phrase is no AT END of a search. -/
theorem isSearchAtEnd_eq_false (henclosing : s.enclosing.head? ≠ some .search)
    (phrase : ExceptionPhrase) : Build.isSearchAtEnd phrase s = .ok (false, s) := by
  have hfalse : (s.enclosing.head? == some NodeTag.search) = false := by simpa using henclosing
  refine (run_bind (a := s) (t := s) rfl _).trans ?_
  simp only [hfalse, Bool.and_false, Bool.false_and]
  rfl

/-- A decision of which nothing has been replayed yet. -/
theorem Ways.begin (h₀ : Ready s₀) (horigin : f.origin = some s₀.sketch.here)
    (hbranches : f.branches = []) (hphrases : f.phrases = [])
    (h : Since s₀ s (s₀.sketch.say ext) (f :: s₀.forks) s₀.ledger) :
    Ways s₀ s f ext [] [] [] := by
  obtain hsketch := h.scope_sketch
  exact ⟨hsketch ▸ h, hsketch ▸ .open h₀.opened horigin hbranches ext, hphrases, rfl⟩

namespace Plays

/-- An exception phrase, whose block begins with it. -/
theorem exception (h₀ : Ready s) {phrase : ExceptionPhrase} (hn : n.kind = .exception phrase)
    (henclosing : s.enclosing.head? ≠ some .search)
    (hbody : ∀ s, Ready s → Plays o s events B) :
    Plays o s (.enter n :: events ++ [.leave n]) (B.saying [n.instruction] + .skip) := by
  have htag : n.tag ≠ .procedureDivision := by simp [Node.tag, hn, NodeKind.tag]
  obtain ⟨s₁, henter, k, h₁⟩ := h₀.since.exists_enter (o := o) (n := n) h₀ htag
    (P := fun s' => ∃ k, Since s s' (s.sketch.branch s.sketch.here (s.spot [n.instruction]))
      ((Fork.openedBy n.instruction s.sketch.here).trackBranch s.sketch.size k :: s.forks)
      s.ledger) fun s₁ h => by
      have hlt : s.sketch.here < s₁.graph.size := h.sound.currentBlock _ h.here
      obtain ⟨s₂, hpush, h₂⟩ := h.exists_pushFork
        (f := .openedBy n.instruction s.sketch.here) (Build.inside_openedBy _ hlt)
      obtain ⟨s₃, hnew, h₃⟩ := h₂.exists_newBlock (some n.instruction)
      obtain ⟨k, s₄, hopen, h₄⟩ := h₃.exists_openBranch (b := s.sketch.size)
        (Nat.lt_succ_self _) (c := s.sketch.here) rfl
      refine ⟨s₄, ?_, k, h₄⟩
      have hatEnd := isSearchAtEnd_eq_false
        ((h.keeps Scope.enclosing fun _ => rfl) ▸ henclosing : s₁.enclosing.head? ≠ _) phrase
      simp only [Build.enterKind, hn]
      rw [Build.enterException, run_bind hatEnd]
      refine (run_bind h.current? _).trans ((run_bind hpush _).trans ?_)
      exact (run_bind hnew _).trans hopen
  have hopen : (Fork.openedBy n.instruction s.sketch.here).Holds s.sketch s.sketch [] [] [] := by
    have hopen := Fork.Holds.open h₀.opened (f := .openedBy n.instruction s.sketch.here) rfl rfl []
    rwa [Sketch.say_nil] at hopen
  obtain ⟨Γ, s₂, L, hplay, h₂, hf, hkinds, -⟩ := Since.exists_branch (L := [])
    (h₁.under n.tag) (h₀.under n.tag) hopen (s.spot_fresh _) fun h _ => hbody _ h
  obtain ⟨s₃, hleave, h₃, hfrag, hplaced⟩ := h₂.exists_leave (o := o) h₀ fun s₃ h _ => by
    have hatEnd := isSearchAtEnd_eq_false
      ((h.keeps Scope.enclosing fun _ => rfl) ▸ henclosing : s₃.enclosing.head? ≠ _) phrase
    obtain ⟨s₄, hpop, h₄, hinside⟩ := h.exists_popFork
    obtain ⟨s₅, hjoin, h₅⟩ := h₄.exists_close hinside h₀ hf true (.inr rfl)
    refine ⟨s₅, ?_, h₅⟩
    simp only [Build.leaveInside, hn]
    rw [Build.leaveException, run_bind hatEnd]
    exact (run_bind hpop _).trans hjoin
  refine ⟨s₃, L, ?_, h₃, ?_, hplaced, ?_⟩
  · rw [List.cons_append, Build.play_cons henter, Build.play_append hplay, Build.play_cons hleave,
      Build.play_nil]
  · simpa [Behaviour.saying_nil] using hfrag
  · refine hkinds.trans ?_
    simp [Notification.landmark?, Node.landmark?, hn]

/-! ### Decisions with clauses -/

/-- A node that opens a fork at the block that says it. -/
theorem exists_openFork (h₀ : Ready s) (htag : n.tag ≠ .procedureDivision)
    (henter : ∀ s₁, Since s s₁ s.sketch s.forks s.ledger → Build.enterKind o n s₁ = (do
      Build.pushFork (.openedBy n.instruction s.sketch.here)
      Build.addInstruction n.instruction : Build Unit) s₁) :
    ∃ s', Build.take o (.enter n) s = .ok ((), s') ∧ Ways (s.under n.tag) s'
        (.openedBy n.instruction s.sketch.here) [n.instruction] [] [] [] ∧
      s'.sketch = s.sketch.say [n.instruction] := by
  obtain ⟨s₁, henter, h₁⟩ := h₀.since.exists_enter (o := o) (n := n) h₀ htag
    (P := fun s' => Since s s' (s.sketch.say [n.instruction])
      (.openedBy n.instruction s.sketch.here :: s.forks) s.ledger) fun s₁ h => by
      have hlt : s.sketch.here < s₁.graph.size := h.sound.currentBlock _ h.here
      obtain ⟨s₂, hpush, h₂⟩ := h.exists_pushFork
        (f := .openedBy n.instruction s.sketch.here) (Build.inside_openedBy _ hlt)
      obtain ⟨s₃, hsay, h₃⟩ := h₂.exists_addInstruction n.instruction
      exact ⟨s₃, (henter s₁ h).trans ((run_bind hpush _).trans hsay), h₃⟩
  exact ⟨_, henter, .begin (h₀.under n.tag) rfl rfl rfl (h₁.under n.tag), h₁.scope_sketch⟩

/-- The node of an open decision is left. -/
theorem exists_leaveFork (h₀ : Ready s₀) {s' : Scope}
    (h : Ways (s₀.under n.tag) s' f ext branches L ds) {onward : Bool}
    (hne : branches ≠ [] ∨ onward = true)
    (hleave : ∀ s₁ s₂ s₃, Ways s₀ s₁ f ext branches L ds → Build.popFork? s₁ = .ok (some f, s₂) →
      s₂.graph = s₁.graph → Build.joinFork f onward s₂ = .ok ((), s₃) →
      Build.leaveInside o n s₁ = .ok ((), s₃)) :
    ∃ s₁, Build.take o (.leave n) s' = .ok ((), s₁) ∧
      Since s₀ s₁ s₁.sketch s₀.forks (L.foldl (Ledger.post s₀.currentSentence) s₀.ledger) ∧
      Fragment s₀.sketch s₁.sketch L.exits
        (((branches.map (·.behaviour)).sum + if onward then .skip else 0).saying ext) ∧
      L.Placed s₀.sketch s₁.sketch := by
  refine h.since.exists_leave (o := o) h₀ fun s₁ h₁ _ => ?_
  have hsketch := h₁.scope_sketch
  have hways : Ways s₀ s₁ f ext branches L ds :=
    ⟨hsketch ▸ h₁, hsketch ▸ h.holds, h.phrases, hsketch ▸ h.defaults⟩
  obtain ⟨s₂, s₃, hpop, hgraph, hjoin, h₃⟩ := hways.exists_join h₀ onward hne
  exact ⟨s₃, hleave s₁ s₂ s₃ hways hpop hgraph hjoin, h₃⟩

/-- EVALUATE in the direct lowering. -/
theorem evaluateDirect (ho : o.evaluateCascade = false) (h₀ : Ready s) (hn : n.kind = .evaluate)
    {cs : List Clause} {other : Option Clause}
    (hcs : ∀ c ∈ cs, ∀ m ∈ c.phrases, m.IsPhrase)
    (hother : ∀ c ∈ other, ∀ m ∈ c.phrases, m.IsPhrase)
    (hplays : ∀ c ∈ cs, ∀ s, Ready s → Plays o s c.events c.body)
    (hplay : ∀ c ∈ other, ∀ s, Ready s → Plays o s c.events c.body) :
    Plays o s (.enter n :: (cs.flatMap (·.replay .whenClause) ++
        other.toList.flatMap (·.replay .whenOtherClause)) ++ [.leave n])
      (((cs.map (·.behaviour)).sum + (other.map (·.body)).getD .skip).saying [n.instruction]) := by
  have h₁ := h₀.under n.tag
  obtain ⟨s₁, henter, hways₁, -⟩ := exists_openFork (o := o) (n := n) h₀
    (by simp [Node.tag, hn, NodeKind.tag]) fun s₁ h => by
      simp only [Build.enterKind, hn]
      exact run_bind h.current? _
  obtain ⟨s₂, f, L₁, brs, hplay₁, hways₂, hbrs, -, hkinds₁⟩ := hways₁.exists_clauses (o := o) h₁
    hcs (fun s₁ Γ₁ f₁ l₁ h _ => by
      rw [Build.take, Build.startWhen, run_bind (a := s₁) (t := s₁) rfl]
      simp [h.forks, ho]) (rfl : Notification.whenClause.landmark? = none) hplays
  rw [List.nil_append, List.nil_append, List.nil_append] at hways₂
  -- the last branch is the default one exactly if there is a WHEN OTHER
  obtain ⟨s₃, f', L₂, brs', hplay₂, hways₃, hbrs', hkinds₂⟩ :
      ∃ s₃ f' L₂ brs', Build.play o (other.toList.flatMap (·.replay .whenOtherClause)) s₂ =
        .ok ((), s₃) ∧ Ways (s.under n.tag) s₃ f' [n.instruction] (brs ++ brs') (L₁ ++ L₂)
          ((cs.map fun _ => false) ++ other.toList.map fun _ => true) ∧
        brs'.map (·.behaviour) = other.toList.map (·.body) ∧
        L₂.map (·.2) =
          (other.toList.flatMap (·.replay .whenOtherClause)).filterMap (·.landmark?) := by
    cases other with
    | none => exact ⟨s₂, f, [], [], rfl, by simpa using hways₂, rfl, rfl⟩
    | some c =>
      obtain ⟨s₃, f', L₂, br, hplay, hways, hbr, -, hkinds⟩ := hways₂.exists_other (o := o) h₁ c
        (hother c rfl) (hplay c rfl)
      refine ⟨s₃, f', L₂, [br], by simpa using hplay, by simpa using hways, by simp [hbr], ?_⟩
      simp [hkinds, c.filterMap_replay (hother c rfl) (e := .whenOtherClause) rfl]
  have hne : brs ++ brs' ≠ [] ∨ (!other.isSome) = true := by
    cases other with
    | none => simp
    | some c =>
      refine .inl fun hnil => ?_
      rw [(List.append_eq_nil_iff.1 hnil).2] at hbrs'
      simp at hbrs'
  obtain ⟨s₄, hleave, h₄, hfrag, hplaced⟩ := exists_leaveFork (o := o) (n := n) h₀ hways₃ hne
    fun s₁ s₂ s₃ hways hpop hgraph hjoin => by
      have hdefault : Build.isDefault f'.lastBranch? s₂ = .ok (other.isSome, s₂) := by
        rw [Fork.lastBranch?, List.getLast?_eq_getElem?, hways.isDefault_eq hgraph,
          hways.length_eq, ← List.getLast?_eq_getElem?]
        cases other with
        | none =>
          have hfalse : (cs.map fun _ => false).getLast?.getD false = false := by
            rw [List.getLast?_map]
            cases cs.getLast? <;> rfl
          rw [Option.toList_none, List.map_nil, List.append_nil, hfalse]
          rfl
        | some c => simp
      simp only [Build.leaveInside, hn]
      rw [Build.leaveEvaluate, if_neg (by simp [ho])]
      refine (run_bind hpop _).trans ((run_bind hdefault _).trans ?_)
      exact hjoin
  refine ⟨s₄, L₁ ++ L₂, ?_, h₄, ?_, hplaced, ?_⟩
  · rw [List.cons_append, Build.play_cons henter, List.append_assoc, Build.play_append hplay₁,
      Build.play_append hplay₂, Build.play_cons hleave, Build.play_nil]
  · rw [List.map_append, List.sum_append, hbrs, hbrs'] at hfrag
    cases other <;> simpa using hfrag
  · rw [List.map_append, hkinds₁, hkinds₂]
    simp [Notification.landmark?, Node.landmark?, hn]

/-- SEARCH in the direct lowering. -/
theorem searchDirect (ho : o.searchCascade = false) (h₀ : Ready s) (hn : n.kind = .search)
    {cs : List Clause} {atEnd : Option Enclosure}
    (hcs : ∀ c ∈ cs, ∀ m ∈ c.phrases, m.IsPhrase)
    (hatEnd : ∀ p ∈ atEnd, p.node.kind = .exception .atEnd)
    (hplays : ∀ c ∈ cs, ∀ s, Ready s → Plays o s c.events c.body)
    (hplay : ∀ p ∈ atEnd, ∀ s, Ready s → Plays o s p.events p.body) :
    Plays o s (.enter n :: (atEnd.toList.flatMap (·.replay) ++
        cs.flatMap (·.replay (.searchClause false))) ++ [.leave n])
      (((atEnd.map (·.behaviour)).getD .skip + (cs.map (·.behaviour)).sum).saying
        [n.instruction]) := by
  have h₁ := h₀.under n.tag
  have hntag : n.tag = .search := by simp [Node.tag, hn, NodeKind.tag]
  obtain ⟨s₁, henter, hways₁, -⟩ := exists_openFork (o := o) (n := n) h₀ (by simp [hntag])
    fun s₁ h => by
      simp only [Build.enterKind, hn]
      refine (run_bind h.current? _).trans ?_
      simp only [ho]
      rfl
  -- the first branch is the default one exactly if there is an AT END
  obtain ⟨s₂, f, L₁, brs, hplay₁, hways₂, hbrs, hkinds₁⟩ :
      ∃ s₂ f L₁ brs, Build.play o (atEnd.toList.flatMap (·.replay)) s₁ = .ok ((), s₂) ∧
        Ways (s.under n.tag) s₂ f [n.instruction] brs L₁ (atEnd.toList.map fun _ => true) ∧
        brs.map (·.behaviour) = atEnd.toList.map (·.behaviour) ∧
        L₁.map (·.2) = (atEnd.toList.flatMap (·.replay)).filterMap (·.landmark?) := by
    cases atEnd with
    | none => exact ⟨s₁, _, [], [], rfl, hways₁, rfl, rfl⟩
    | some p =>
      obtain ⟨s₂, f, L₁, br, hplay, hways, hbr, -, hkinds⟩ := hways₁.exists_atEnd (o := o) h₁
        (by simp [Fork.isSearch, Fork.openedBy, Node.instruction, hntag])
        (by simp [Scope.under, hntag]) p (hatEnd p rfl) (hplay p rfl)
      exact ⟨s₂, f, L₁, [br], by simpa using hplay, by simpa using hways, by simp [hbr],
        by simpa using hkinds⟩
  obtain ⟨s₃, f', L₂, brs', hplay₂, hways₃, hbrs', -, hkinds₂⟩ := hways₂.exists_clauses (o := o)
    h₁ hcs (fun s₁ Γ₁ f₁ l₁ h _ => by
      rw [Build.take, Build.startSearchWhen, run_bind (a := s₁) (t := s₁) rfl]
      simp only [h.forks, List.head?_cons, ho]
      rfl) (rfl : (Notification.searchClause false).landmark? = none) hplays
  have hne : brs ++ brs' ≠ [] ∨ (!atEnd.isSome) = true := by
    cases atEnd with
    | none => simp
    | some p =>
      refine .inl fun hnil => ?_
      rw [(List.append_eq_nil_iff.1 hnil).1] at hbrs
      simp at hbrs
  obtain ⟨s₄, hleave, h₄, hfrag, hplaced⟩ := exists_leaveFork (o := o) (n := n) h₀ hways₃ hne
    fun s₁ s₂ s₃ hways hpop hgraph hjoin => by
      have hdefault : Build.isDefault f'.branches.head? s₂ = .ok (atEnd.isSome, s₂) := by
        rw [List.head?_eq_getElem?, hways.isDefault_eq hgraph, ← List.head?_eq_getElem?]
        cases atEnd with
        | none => cases cs <;> rfl
        | some p => rfl
      simp only [Build.leaveInside, hn]
      rw [Build.leaveSearch, if_neg (by simp [ho])]
      refine (run_bind hpop _).trans ((run_bind hdefault _).trans ?_)
      exact hjoin
  refine ⟨s₄, L₁ ++ L₂, ?_, h₄, ?_, hplaced, ?_⟩
  · rw [List.cons_append, Build.play_cons henter, List.append_assoc, Build.play_append hplay₁,
      Build.play_append hplay₂, Build.play_cons hleave, Build.play_nil]
  · rw [List.map_append, List.sum_append, hbrs, hbrs'] at hfrag
    cases atEnd with
    | none => simpa [add_comm] using hfrag
    | some p => simpa using hfrag
  · rw [List.map_append, hkinds₁, hkinds₂]
    simp [Notification.landmark?, Node.landmark?, hn]

end Plays

end Scope

end CobolFlow
