import CobolFlow.Proofs.Trace.Looping
import CobolFlow.Proofs.Trace.Searching
import CobolFlow.Tree.Script

/-!
# What a statement does

The behaviour of a statement, read off the statement alone: what it says, on which ways control
runs through it, and by which it leaves. Nodes are numbered as in the replay of the statement. The
lowerings differ in which phrases are said on the way to a chosen clause, and in nothing else.

## Main definitions

* `Meaning.statements` — the behaviour of a list of statements
* `Scope.Says` — a script whose replay does what a meaning says

## Main results

* `Scope.says_statements` — every list of statements can be replayed, and does what it means
-/

namespace CobolFlow

namespace Behaviour

/-- What is done by the first of some clauses whose phrases apply, or else by `D`. -/
def cascade (D : Behaviour) : List (List Instruction × Behaviour) → Behaviour
  | [] => D
  | (phrases, B) :: rest => (B + cascade D rest).saying phrases

/-- What is done by one of some clauses, or else by `D`. -/
def direct (D : Behaviour) (clauses : List (List Instruction × Behaviour)) : Behaviour :=
  (clauses.map fun c => c.2.saying c.1).sum + D

end Behaviour

theorem Clause.cascade_eq (other : Option Clause) (cs : List Clause) :
    Clause.cascade other cs = Behaviour.cascade ((other.map (·.body)).getD .skip)
      (cs.map fun c => (c.said, c.body)) := by
  induction cs with
  | nil => rfl
  | cons c rest ih => rw [Clause.cascade, ih, List.map_cons, Behaviour.cascade]

/-- Something that is read off a piece of a tree, given the number of the next node. -/
abbrev Numbered := StateM NodeId

theorem Numbered.run_bind {α β : Type} {x : Numbered α} {i j : NodeId} {a : α}
    (h : x.run i = (a, j)) (f : α → Numbered β) : (x >>= f).run i = (f a).run j := by
  change (f (x.run i).1).run (x.run i).2 = _
  rw [h]

namespace Meaning

/-- The instruction of a node of a kind. -/
def said (kind : NodeKind) : Numbered Instruction := do
  return ⟨← getModify (· + 1), kind.tag⟩

/-- What is done by a node of a kind that goes on with what is inside. -/
def within (kind : NodeKind) (inside : Numbered Behaviour) : Numbered Behaviour := do
  let i ← said kind
  return (← inside).saying [i]

/-- The phrases of a WHEN clause; a clause without any has one without text. -/
def phrases (kind : NodeKind) (texts : List String) : Numbered (List Instruction) :=
  match texts with
  | [] => do return [← said kind]
  | _ => texts.mapM fun _ => said kind

/-- EVALUATE, by its lowering. -/
def evaluation (o : Options) (clauses : List (List Instruction × Behaviour)) (other : Behaviour) :
    Behaviour :=
  if o.evaluateCascade then .cascade other clauses else .direct other clauses

/-- SEARCH, by its lowering. -/
def searching (o : Options) (i : Instruction) (atEnd : Behaviour)
    (clauses : List (List Instruction × Behaviour)) : Behaviour :=
  if o.searchCascade then .search i atEnd clauses else .direct atEnd clauses

mutual

/-- The behaviour of a statement. -/
def statement (o : Options) : Statement → Numbered Behaviour
  | .mk form _ _ =>
    match form with
    | .ifThen body otherwise =>
      within .ifThen do return (← statements o body) + (← elsePart o otherwise)
    | .evaluate whens other =>
      within .evaluate do
        return evaluation o (← whenClauses o .whenPhrase whens) (← whenOther o other)
    | .search atEnd whens => do
      let i ← said .search
      let D ← searchAtEnd o atEnd
      return (searching o i D (← whenClauses o .searchWhen whens)).saying [i]
    | .alter clauses => within (.alter clauses) (pure .skip)
    | .exit => within .exit (pure .skip)
    | .goTo targets depending => do
      let jump := Jump.ofTargets targets depending
      let i ← said (.goTo jump)
      return (Scope.Plays.jumping jump i.node).saying [i]
    | .nextSentence => within .nextSentence (pure (.leave .nextSentence))
    | .perform range => within (.perform range) (pure .skip)
    | .loop repetition testAfter body => do
      let i ← said (.loop repetition testAfter)
      return (← statements o body).loop i repetition.isIterative testAfter
    | .terminate ending => within (.terminate ending) (pure (.leave .halt))
    | .call program conditions => within (.call program) (exceptionClauses o conditions)
    | .ordinary verb conditions => within (.ordinary verb) (exceptionClauses o conditions)

/-- One statement after the other, until one leaves. -/
def statements (o : Options) : List Statement → Numbered Behaviour
  | [] => pure .skip
  | s :: rest => do return (← statement o s).seq (← statements o rest)

def elsePart (o : Options) : Option (List Statement) → Numbered Behaviour
  | none => pure .skip
  | some body => within .elsePart (statements o body)

def whenOther (o : Options) : Option (List Statement) → Numbered Behaviour
  | none => pure .skip
  | some body => do
    let _ ← said .whenOther
    statements o body

def searchAtEnd (o : Options) : Option (List Statement) → Numbered Behaviour
  | none => pure .skip
  | some body => within (.exception .atEnd) (statements o body)

/-- The phrases and the body of each clause. -/
def whenClauses (o : Options) (kind : NodeKind) :
    List WhenClause → Numbered (List (List Instruction × Behaviour))
  | [] => pure []
  | .mk texts body :: rest => do
    let is ← phrases kind texts
    let B ← statements o body
    return (is, B) :: (← whenClauses o kind rest)

/-- Each clause may apply or not. -/
def exceptionClauses (o : Options) : List ExceptionClause → Numbered Behaviour
  | [] => pure .skip
  | .mk phrase body :: rest => do
    let B ← within (.exception phrase) (statements o body)
    return (B + .skip).seq (← exceptionClauses o rest)

end

end Meaning

namespace Scope

variable {o : Options} {s : Scope} {n : Node} {events : List Notification} {B : Behaviour}

/-- A statement that is put into the current block, with what it contains. -/
theorem Plays.around (h₀ : Ready s) (htag : n.tag ≠ .procedureDivision)
    (henter : Build.enterKind o n = Build.addInstruction n.instruction)
    (hleave : Build.leaveInside o n = pure ()) (hn : n.landmark? = none)
    (hbody : ∀ s, Ready s → s.enclosing.head? = some n.tag → Plays o s events B) :
    Plays o s (.enter n :: events ++ [.leave n]) (B.saying [n.instruction]) := by
  obtain ⟨s₁, hrun, h₁⟩ := h₀.since.exists_enter (o := o) h₀ htag fun s₁ h => by
    rw [henter]
    exact h.exists_addInstruction n.instruction
  have hsay := Fragment.say h₀.opened [n.instruction]
  obtain ⟨Γ, s₂, L, hplay, h₂, hfrag, hplaced, hkinds, -⟩ :=
    (h₁.under n.tag).exists_play (h₀.under n.tag) hsay.opened fun h henclosing =>
      hbody _ h (by rw [henclosing]; rfl)
  obtain ⟨s₃, hrun', h₃⟩ := h₂.exists_leave_pure (o := o) h₀ hleave
  obtain rfl := h₃.scope_sketch
  refine ⟨s₃, L, ?_, h₃, ?_, ?_, ?_⟩
  · rw [List.cons_append, Build.play_cons hrun, Build.play_append hplay, Build.play_cons hrun',
      Build.play_nil]
  · have hfrag' := hsay.trans h₀.opened.here_lt hfrag
    have hmarks : (fun e b => False ∨ L.exits e b) = L.exits := by
      funext e b
      simp
    rwa [hmarks, Behaviour.skip_saying_seq] at hfrag'
  · exact ⟨hplaced.ascending, hplaced.between⟩
  · rw [filterMap_landmark?_node hn, hkinds]

variable {script script' : Script} {meaning meaning' : Numbered Behaviour} {kind : NodeKind}

/-- Wherever it is replayed, the script does what the meaning says; both use up as many nodes. -/
def Says (o : Options) (script : Script) (meaning : Numbered Behaviour) : Prop :=
  ∀ id, (script.run id).2 = (meaning.run id).2 ∧
    ∀ s, Ready s → Plays o s (script.run id).1 (meaning.run id).1

namespace Says

theorem nil : Says o (pure []) (pure .skip) := fun _ => ⟨rfl, fun _ => Plays.nil⟩

theorem append (h : Says o script meaning) (h' : Says o script' meaning') :
    Says o (do return (← script) ++ (← script')) (do return (← meaning).seq (← meaning')) := by
  intro id
  obtain ⟨hid, hplays⟩ := h id
  obtain ⟨hid', hplays'⟩ := h' (meaning.run id).2
  refine ⟨?_, fun s hs => ?_⟩
  · change (script'.run (script.run id).2).2 = (meaning'.run (meaning.run id).2).2
    rw [hid, hid']
  · change Plays o s ((script.run id).1 ++ (script'.run (script.run id).2).1) _
    rw [hid]
    exact (hplays s hs).append hs fun s' hs' _ => hplays' s' hs'

variable {span : Span} {text : Option String}

/-- A node that contains nothing. -/
theorem leaf {B : NodeId → Behaviour} (h : ∀ (n : Node), n.kind = kind → ∀ s, Ready s →
      Plays o s [.enter n, .leave n] ((B n.id).saying [n.instruction])) :
    Says o (Script.node kind span text (pure []))
      (do let i ← Meaning.said kind; return (B i.node).saying [i]) :=
  fun id => ⟨rfl, fun s hs => h ⟨id, kind, span, text⟩ rfl s hs⟩

/-- A node around a piece. -/
theorem node {B : Instruction → Behaviour → Behaviour} (h : Says o script meaning)
    (hnode : ∀ (n : Node) (events : List Notification) (C : Behaviour), n.kind = kind →
      (∀ s, Ready s → Plays o s events C) → ∀ s, Ready s →
        Plays o s (.enter n :: events ++ [.leave n]) (B n.instruction C)) :
    Says o (Script.node kind span text script)
      (do let i ← Meaning.said kind; return B i (← meaning)) := by
  intro id
  obtain ⟨hid, hplays⟩ := h (id + 1)
  exact ⟨hid, fun s hs => hnode ⟨id, kind, span, text⟩ _ _ rfl hplays s hs⟩

end Says

/-- The exception clauses of a statement, anywhere but in a SEARCH. -/
def SaysInside (o : Options) (t : NodeTag) (script : Script) (meaning : Numbered Behaviour) :
    Prop :=
  ∀ id, (script.run id).2 = (meaning.run id).2 ∧
    ∀ s, Ready s → s.enclosing.head? = some t → Plays o s (script.run id).1 (meaning.run id).1

/-- Clauses that wait in a fork until their phrases have all been entered. -/
def SaysClauses (o : Options) (begins : Notification) (script : Script)
    (meaning : Numbered (List (List Instruction × Behaviour))) : Prop :=
  ∀ id, (script.run id).2 = (meaning.run id).2 ∧ ∃ cs : List Clause,
    (script.run id).1 = cs.flatMap (·.replay begins) ∧
    (meaning.run id).1 = cs.map (fun c => (c.said, c.body)) ∧
    ∀ c ∈ cs, (∀ m ∈ c.phrases, m.IsPhrase) ∧ ∀ s, Ready s → Plays o s c.events c.body

theorem exists_run_mapM_leaf (kind : NodeKind) (texts : List String) (id : NodeId) :
    ∃ (ms : List Node) (next : NodeId), (∀ m ∈ ms, m.kind = kind) ∧
      ((texts.map fun text => Script.leaf kind (some text)).mapM fun piece => piece).run id =
        (ms.map fun m => [.enter m, .leave m], next) ∧
      (texts.mapM fun _ => Meaning.said kind).run id = (ms.map (·.instruction), next) := by
  induction texts generalizing id with
  | nil => exact ⟨[], id, by simp, rfl, rfl⟩
  | cons text rest ih =>
    obtain ⟨ms, next, hkind, hscript, hmeaning⟩ := ih (id + 1)
    refine ⟨⟨id, kind, .unknown, some text⟩ :: ms, next, by simpa using hkind, ?_, ?_⟩
    · rw [List.map_cons, List.mapM_cons]
      refine (Numbered.run_bind (j := id + 1) rfl _).trans ?_
      exact (Numbered.run_bind hscript _).trans rfl
    · rw [List.mapM_cons]
      refine (Numbered.run_bind (j := id + 1) rfl _).trans ?_
      exact (Numbered.run_bind hmeaning _).trans rfl

/-- The phrases of a clause are nodes that wait in a fork. -/
theorem exists_phrases (kind : NodeKind) (texts : List String) (id : NodeId) :
    ∃ (ms : List Node) (next : NodeId), (∀ m ∈ ms, m.kind = kind) ∧
      (Script.whenPhrases kind texts).run id =
        (ms.flatMap fun m => [.enter m, .leave m], next) ∧
      (Meaning.phrases kind texts).run id = (ms.map (·.instruction), next) := by
  cases texts with
  | nil => exact ⟨[⟨id, kind, .unknown, none⟩], id + 1, by simp, rfl, rfl⟩
  | cons text rest =>
    obtain ⟨ms, next, hkind, hscript, hmeaning⟩ := exists_run_mapM_leaf kind (text :: rest) id
    refine ⟨ms, next, hkind, ?_, hmeaning⟩
    rw [List.flatMap_def]
    exact (Numbered.run_bind hscript _).trans rfl

/-- The clauses of an EVALUATE or a SEARCH, given that their bodies say what they mean. -/
theorem SaysClauses.cons {begins : Notification} (hkind : ∀ n : Node, n.kind = kind → n.IsPhrase)
    (texts : List String) (hbody : Says o script meaning) {rest : Script}
    {restMeaning : Numbered (List (List Instruction × Behaviour))}
    (hrest : SaysClauses o begins rest restMeaning) :
    SaysClauses o begins
      (do return (← Script.whenPhrases kind texts) ++ begins :: (← script) ++ (← rest))
      (do
        let is ← Meaning.phrases kind texts
        let B ← meaning
        return (is, B) :: (← restMeaning)) := by
  intro id
  obtain ⟨ms, next, hms, hscript, hmeaning⟩ := exists_phrases kind texts id
  obtain ⟨hid, hplays⟩ := hbody next
  obtain ⟨hid', cs, hcs, hmeans, hall⟩ := hrest (meaning.run next).2
  rw [Numbered.run_bind hscript, Numbered.run_bind hmeaning]
  refine ⟨?_, ⟨ms, _, _⟩ :: cs, ?_, ?_, List.forall_mem_cons.2
    ⟨⟨fun m hm => hkind m (hms m hm), hplays⟩, hall⟩⟩
  · change (rest.run (script.run next).2).2 = (restMeaning.run (meaning.run next).2).2
    rw [hid, hid']
  · change (_ ++ begins :: (script.run next).1) ++ (rest.run (script.run next).2).1 = _
    rw [hid, hcs, List.flatMap_cons, Clause.replay]
  · change (_, (meaning.run next).1) :: (restMeaning.run (meaning.run next).2).1 = _
    rw [hmeans]
    rfl

variable {span : Span} {text : Option String}

theorem Says.ifThen (h : Says o script meaning) (otherwise : Option (List Statement))
    (helse : ∀ body ∈ otherwise, Says o (Script.statements body) (Meaning.statements o body)) :
    Says o (Script.node .ifThen span text do return (← script) ++ (← Script.elsePart otherwise))
      (Meaning.within .ifThen do return (← meaning) + (← Meaning.elsePart o otherwise)) := by
  intro id
  obtain ⟨hid, hplays⟩ := h (id + 1)
  cases otherwise with
  | none =>
    rw [Script.elsePart, Meaning.elsePart]
    refine ⟨hid, fun s hs => ?_⟩
    change Plays o s (.enter ⟨id, .ifThen, span, text⟩ :: ((script.run (id + 1)).1 ++ []) ++ _) _
    rw [List.append_nil]
    exact .ifThen (n := ⟨id, .ifThen, span, text⟩) hs rfl hplays
  | some body =>
    obtain ⟨hid', hplays'⟩ := helse body rfl ((meaning.run (id + 1)).2 + 1)
    rw [Script.elsePart, Meaning.elsePart]
    refine ⟨?_, fun s hs => ?_⟩
    · change ((Script.statements body).run ((script.run (id + 1)).2 + 1)).2 = _
      rw [hid, hid']
      rfl
    · change Plays o s (.enter ⟨id, .ifThen, span, text⟩ :: ((script.run (id + 1)).1 ++
        (.enter ⟨(script.run (id + 1)).2, .elsePart, .unknown, none⟩ ::
          ((Script.statements body).run ((script.run (id + 1)).2 + 1)).1 ++
            [.leave ⟨(script.run (id + 1)).2, .elsePart, .unknown, none⟩])) ++ _) _
      rw [hid, ← List.append_assoc]
      exact .ifThenElse (n := ⟨id, .ifThen, span, text⟩)
        (m := ⟨(meaning.run (id + 1)).2, .elsePart, .unknown, none⟩) hs rfl rfl hplays hplays'

theorem Says.around {kind : NodeKind} (hkind : ∀ n : Node, n.kind = kind →
      n.tag ≠ .procedureDivision ∧ Build.enterKind o n = Build.addInstruction n.instruction ∧
        Build.leaveInside o n = pure () ∧ n.landmark? = none)
    (h : SaysInside o kind.tag script meaning) :
    Says o (Script.node kind span text script) (Meaning.within kind meaning) := by
  intro id
  obtain ⟨hid, hplays⟩ := h (id + 1)
  obtain ⟨htag, henter, hleave, hn⟩ := hkind ⟨id, kind, span, text⟩ rfl
  exact ⟨hid, fun s hs => Plays.around (n := ⟨id, kind, span, text⟩) hs htag henter hleave hn
    hplays⟩

theorem SaysInside.cons {t : NodeTag} (ht : t ≠ .search) (phrase : ExceptionPhrase)
    (h : Says o script meaning) (h' : SaysInside o t script' meaning') :
    SaysInside o t
      (do return (← Script.node (.exception phrase) .unknown none script) ++ (← script'))
      (do
        let B ← Meaning.within (.exception phrase) meaning
        return (B + .skip).seq (← meaning')) := by
  intro id
  obtain ⟨hid, hplays⟩ := h (id + 1)
  obtain ⟨hid', hplays'⟩ := h' (meaning.run (id + 1)).2
  refine ⟨?_, fun s hs henclosing => ?_⟩
  · change (script'.run (script.run (id + 1)).2).2 = _
    rw [hid, hid']
    rfl
  · change Plays o s ((.enter ⟨id, .exception phrase, .unknown, none⟩ ::
      (script.run (id + 1)).1 ++ [.leave _]) ++ (script'.run (script.run (id + 1)).2).1) _
    rw [hid]
    have hexception := Plays.exception (n := ⟨id, .exception phrase, .unknown, none⟩) hs rfl
      (by simpa [henclosing] using ht) hplays
    exact hexception.append hs fun s' hs' heq => hplays' s' hs' (by rw [heq, henclosing])

theorem Says.evaluate (whens : List WhenClause) (other : Option (List Statement))
    (hwhens : SaysClauses o .whenClause (Script.whenClauses .whenPhrase .whenClause whens)
      (Meaning.whenClauses o .whenPhrase whens))
    (hother : ∀ body ∈ other, Says o (Script.statements body) (Meaning.statements o body)) :
    Says o (Script.node .evaluate span text do
        return (← Script.whenClauses .whenPhrase .whenClause whens) ++ (← Script.whenOther other))
      (Meaning.within .evaluate do
        return Meaning.evaluation o (← Meaning.whenClauses o .whenPhrase whens)
          (← Meaning.whenOther o other)) := by
  intro id
  obtain ⟨hid, cs, hcs, hmeans, hall⟩ := hwhens (id + 1)
  set next := ((Meaning.whenClauses o .whenPhrase whens).run (id + 1)).2
  obtain ⟨hid', c?, hother', hmeans', hall'⟩ :
      ((Script.whenOther other).run next).2 = ((Meaning.whenOther o other).run next).2 ∧
      ∃ c? : Option Clause, ((Script.whenOther other).run next).1 =
          c?.toList.flatMap (·.replay .whenOtherClause) ∧
        ((Meaning.whenOther o other).run next).1 = (c?.map (·.body)).getD .skip ∧
        ∀ c ∈ c?, (∀ m ∈ c.phrases, m.IsPhrase) ∧ ∀ s, Ready s → Plays o s c.events c.body := by
    cases other with
    | none =>
      rw [Script.whenOther, Meaning.whenOther]
      exact ⟨rfl, none, rfl, rfl, by simp⟩
    | some body =>
      obtain ⟨hbody, hplays⟩ := hother body rfl (next + 1)
      rw [Script.whenOther, Meaning.whenOther]
      refine ⟨hbody, some ⟨[⟨next, .whenOther, .unknown, none⟩], _, _⟩, (List.append_nil _).symm,
        rfl, fun c hc => ?_⟩
      obtain rfl := Option.some.inj hc
      exact ⟨by simp [Node.IsPhrase], hplays⟩
  refine ⟨?_, fun s hs => ?_⟩
  · change ((Script.whenOther other).run
      ((Script.whenClauses .whenPhrase .whenClause whens).run (id + 1)).2).2 = _
    rw [hid, hid']
    rfl
  · change Plays o s (.enter ⟨id, .evaluate, span, text⟩ ::
      (((Script.whenClauses .whenPhrase .whenClause whens).run (id + 1)).1 ++
        ((Script.whenOther other).run
          ((Script.whenClauses .whenPhrase .whenClause whens).run (id + 1)).2).1) ++ [.leave _])
      ((Meaning.evaluation o ((Meaning.whenClauses o .whenPhrase whens).run (id + 1)).1
        ((Meaning.whenOther o other).run next).1).saying [_])
    rw [hid, hcs, hother', hmeans, hmeans']
    cases ho : o.evaluateCascade with
    | true =>
      have h := Plays.evaluateCascade (n := ⟨id, .evaluate, span, text⟩) ho hs rfl
        (fun c hc => (hall c hc).1) (fun c hc => (hall' c hc).1) (fun c hc => (hall c hc).2)
        fun c hc => (hall' c hc).2
      rw [Clause.cascade_eq] at h
      rw [Meaning.evaluation, if_pos ho]
      exact h
    | false =>
      have h := Plays.evaluateDirect (n := ⟨id, .evaluate, span, text⟩) ho hs rfl
        (fun c hc => (hall c hc).1) (fun c hc => (hall' c hc).1) (fun c hc => (hall c hc).2)
        fun c hc => (hall' c hc).2
      rw [Meaning.evaluation, if_neg (by simp [ho]), Behaviour.direct, List.map_map]
      exact h

theorem Says.search (atEnd : Option (List Statement)) (whens : List WhenClause)
    (hatEnd : ∀ body ∈ atEnd, Says o (Script.statements body) (Meaning.statements o body))
    (hwhens : SaysClauses o (.searchClause false)
      (Script.whenClauses .searchWhen (.searchClause false) whens)
      (Meaning.whenClauses o .searchWhen whens)) :
    Says o (Script.node .search span text do
        return (← Script.searchAtEnd atEnd) ++
          (← Script.whenClauses .searchWhen (.searchClause false) whens))
      (do
        let i ← Meaning.said .search
        let D ← Meaning.searchAtEnd o atEnd
        return (Meaning.searching o i D
          (← Meaning.whenClauses o .searchWhen whens)).saying [i]) := by
  intro id
  obtain ⟨hid, p?, hsearchAtEnd, hmeans, hall⟩ :
      ((Script.searchAtEnd atEnd).run (id + 1)).2 =
        ((Meaning.searchAtEnd o atEnd).run (id + 1)).2 ∧
      ∃ p? : Option Enclosure, ((Script.searchAtEnd atEnd).run (id + 1)).1 =
          p?.toList.flatMap (·.replay) ∧
        ((Meaning.searchAtEnd o atEnd).run (id + 1)).1 = (p?.map (·.behaviour)).getD .skip ∧
        ∀ p ∈ p?, p.node.kind = .exception .atEnd ∧ ∀ s, Ready s → Plays o s p.events p.body := by
    cases atEnd with
    | none =>
      rw [Script.searchAtEnd, Meaning.searchAtEnd]
      exact ⟨rfl, none, rfl, rfl, by simp⟩
    | some body =>
      obtain ⟨hbody, hplays⟩ := hatEnd body rfl (id + 1 + 1)
      rw [Script.searchAtEnd, Meaning.searchAtEnd]
      refine ⟨hbody, some ⟨⟨id + 1, .exception .atEnd, .unknown, none⟩, _, _⟩,
        (List.append_nil _).symm, rfl, fun p hp => ?_⟩
      obtain rfl := Option.some.inj hp
      exact ⟨rfl, hplays⟩
  set next := ((Meaning.searchAtEnd o atEnd).run (id + 1)).2
  obtain ⟨hid', cs, hcs, hmeans', hall'⟩ := hwhens next
  refine ⟨?_, fun s hs => ?_⟩
  · change ((Script.whenClauses .searchWhen (.searchClause false) whens).run
      ((Script.searchAtEnd atEnd).run (id + 1)).2).2 = _
    rw [hid, hid']
    rfl
  · change Plays o s (.enter ⟨id, .search, span, text⟩ ::
      (((Script.searchAtEnd atEnd).run (id + 1)).1 ++
        ((Script.whenClauses .searchWhen (.searchClause false) whens).run
          ((Script.searchAtEnd atEnd).run (id + 1)).2).1) ++ [.leave _])
      ((Meaning.searching o ⟨id, .search⟩ ((Meaning.searchAtEnd o atEnd).run (id + 1)).1
        ((Meaning.whenClauses o .searchWhen whens).run next).1).saying [_])
    rw [hid, hcs, hsearchAtEnd, hmeans, hmeans']
    cases ho : o.searchCascade with
    | true =>
      have h := Plays.searchCascade (n := ⟨id, .search, span, text⟩) ho hs rfl
        (fun c hc => (hall' c hc).1) (fun p hp => (hall p hp).1) (fun c hc => (hall' c hc).2)
        fun p hp => (hall p hp).2
      rw [Meaning.searching, if_pos ho]
      exact h
    | false =>
      have h := Plays.searchDirect (n := ⟨id, .search, span, text⟩) ho hs rfl
        (fun c hc => (hall' c hc).1) (fun p hp => (hall p hp).1) (fun c hc => (hall' c hc).2)
        fun p hp => (hall p hp).2
      rw [Meaning.searching, if_neg (by simp [ho]), Behaviour.direct, List.map_map, add_comm]
      exact h

mutual

theorem says_statement (o : Options) : ∀ st, Says o (Script.statement st) (Meaning.statement o st)
  | .mk form text span => by
    match form with
    | .ifThen body otherwise =>
      rw [Script.statement, Meaning.statement]
      exact .ifThen (says_statements o body) otherwise (says_option o otherwise)
    | .evaluate whens other =>
      rw [Script.statement, Meaning.statement]
      exact .evaluate whens other (says_whenClauses o (fun _ => .inl) whens) (says_option o other)
    | .search atEnd whens =>
      rw [Script.statement, Meaning.statement]
      exact .search atEnd whens (says_option o atEnd)
        (says_whenClauses o (fun _ h => .inr (.inr h)) whens)
    | .alter clauses =>
      rw [Script.statement, Meaning.statement]
      exact .leaf (B := fun _ => .skip) fun n hn s hs => .alter hs hn
    | .exit =>
      rw [Script.statement, Meaning.statement]
      exact .leaf (B := fun _ => .skip) fun n hn s hs => .exit hs hn
    | .goTo targets depending =>
      rw [Script.statement, Meaning.statement]
      exact .leaf (B := Plays.jumping _) fun n hn s hs => .jump hs hn
    | .nextSentence =>
      rw [Script.statement, Meaning.statement]
      exact .leaf (B := fun _ => .leave .nextSentence) fun n hn s hs => .nextSentence hs hn
    | .perform range =>
      rw [Script.statement, Meaning.statement]
      exact .leaf (B := fun _ => .skip) fun n hn s hs => .call hs hn
    | .loop repetition testAfter body =>
      rw [Script.statement, Meaning.statement]
      exact .node (says_statements o body) fun n events C hn hbody s hs => .loop hs hn hbody
    | .terminate ending =>
      rw [Script.statement, Meaning.statement]
      exact .leaf (B := fun _ => .leave .halt) fun n hn s hs => .halt hs hn
    | .call program conditions =>
      rw [Script.statement, Meaning.statement]
      exact .around (fun n hn => by
          simp [Node.tag, hn, NodeKind.tag, Build.enterKind, Build.leaveInside, Node.landmark?,
            Node.instruction]) (says_exceptionClauses o (by simp [NodeKind.tag]) conditions)
    | .ordinary verb conditions =>
      rw [Script.statement, Meaning.statement]
      exact .around (fun n hn => by
          simp [Node.tag, hn, NodeKind.tag, Build.enterKind, Build.leaveInside, Node.landmark?,
            Node.instruction]) (says_exceptionClauses o (by simp [NodeKind.tag]) conditions)

/-- Statements can be replayed, and do what they mean. -/
theorem says_statements (o : Options) :
    ∀ l, Says o (Script.statements l) (Meaning.statements o l)
  | [] => by
    rw [Script.statements, Meaning.statements]
    exact .nil
  | st :: rest => by
    rw [Script.statements, Meaning.statements]
    exact (says_statement o st).append (says_statements o rest)

theorem says_option (o : Options) : ∀ part : Option (List Statement), ∀ body ∈ part,
    Says o (Script.statements body) (Meaning.statements o body)
  | none => by simp
  | some body => by
    rintro _ ⟨⟩
    exact says_statements o body

theorem says_whenClauses (o : Options) {kind : NodeKind} {begins : Notification}
    (hkind : ∀ n : Node, n.kind = kind → n.IsPhrase) : ∀ whens,
      SaysClauses o begins (Script.whenClauses kind begins whens) (Meaning.whenClauses o kind whens)
  | [] => by
    rw [Script.whenClauses, Meaning.whenClauses]
    exact fun _ => ⟨rfl, [], rfl, rfl, by simp⟩
  | .mk texts body :: rest => by
    rw [Script.whenClauses, Meaning.whenClauses]
    exact .cons hkind texts (says_statements o body) (says_whenClauses o hkind rest)

theorem says_exceptionClauses (o : Options) {t : NodeTag} (ht : t ≠ .search) : ∀ conditions,
    SaysInside o t (Script.exceptionClauses conditions) (Meaning.exceptionClauses o conditions)
  | [] => by
    rw [Script.exceptionClauses, Meaning.exceptionClauses]
    exact fun _ => ⟨rfl, fun s hs _ => Plays.nil hs⟩
  | .mk phrase body :: rest => by
    rw [Script.exceptionClauses, Meaning.exceptionClauses]
    exact .cons ht phrase (says_statements o body) (says_exceptionClauses o ht rest)

end

end Scope

end CobolFlow
