import CobolFlow.Proofs.Trace.Meaning

/-!
# The grammar of replays

The replay of a list of statements has a shape that does not depend on how its nodes are numbered:
every node is left where it was entered, clauses begin after their phrases, and what stands inside
of a branch is again the replay of a list of statements. `Replay` is this shape. What is to be
known of every replay is proved by induction over it, so that the scripts have to be taken apart
only once.

## Main definitions

* `Replay` — the notifications of some statements
* `Node.IsLeaf`, `Node.IsVerb`, `Case` — what occurs in them

## Main results

* `Script.replay_statements` — what a script of statements replays has this shape
-/

namespace CobolFlow

/-- The node contains nothing and is left as soon as it is entered. -/
def Node.IsLeaf (n : Node) : Prop :=
  match n.kind with
  | .alter _ | .exit | .goTo _ | .nextSentence | .perform _ | .terminate _ => True
  | _ => False

/-- The node may contain exception phrases. -/
def Node.IsVerb (n : Node) : Prop :=
  match n.kind with
  | .call _ | .ordinary _ => True
  | _ => False

/-- Nodes with the statements that belong to them. -/
abbrev Case := List Node × List Notification

namespace Case

/-- The nodes are entered and left, something begins, and the statements follow. -/
def clause (begins : Notification) (p : Case) : List Notification :=
  (p.1.flatMap fun m => [.enter m, .leave m]) ++ begins :: p.2

end Case

/-- The statements stand inside of a node. -/
def Notification.enclosed (p : Node × List Notification) : List Notification :=
  .enter p.1 :: p.2 ++ [.leave p.1]

/-- The notifications of a single statement. -/
def Script.IsStatement (l : List Notification) : Prop :=
  ∃ (st : Statement) (id : NodeId), ((statement st).run id).1 = l

open Script (IsStatement) in
/-- The notifications of some statements, one after the other. -/
inductive Replay : List Notification → Prop
  | nil : Replay []
  | append {l l' : List Notification} (h : Replay l) (h' : Replay l') : Replay (l ++ l')
  | leaf {n : Node} (hn : n.IsLeaf) (hst : IsStatement [.enter n, .leave n]) :
    Replay [.enter n, .leave n]
  | verb {n : Node} {conditions : List (Node × List Notification)} (hn : n.IsVerb)
    (hconditions : ∀ c ∈ conditions, ∃ phrase, c.1.kind = .exception phrase)
    (h : ∀ c ∈ conditions, Replay c.2)
    (hst : IsStatement (Notification.enclosed (n, conditions.flatMap Notification.enclosed))) :
    Replay (Notification.enclosed (n, conditions.flatMap Notification.enclosed))
  | ifThen {n : Node} {body : List Notification} (hn : n.kind = .ifThen) (h : Replay body)
    (hst : IsStatement (Notification.enclosed (n, body))) : Replay (Notification.enclosed (n, body))
  | ifThenElse {n m : Node} {body body' : List Notification} (hn : n.kind = .ifThen)
    (hm : m.kind = .elsePart) (h : Replay body) (h' : Replay body')
    (hst : IsStatement
      (Notification.enclosed (n, body ++ Notification.enclosed (m, body')))) :
    Replay (Notification.enclosed (n, body ++ Notification.enclosed (m, body')))
  | evaluate {n : Node} {clauses other : List Case} (hn : n.kind = .evaluate)
    (hclauses : ∀ c ∈ clauses, ∀ m ∈ c.1, m.kind = .whenPhrase)
    (hother : ∀ c ∈ other, ∀ m ∈ c.1, m.kind = .whenOther)
    (h : ∀ c ∈ clauses, Replay c.2) (h' : ∀ c ∈ other, Replay c.2)
    (hst : IsStatement (Notification.enclosed (n, clauses.flatMap (Case.clause .whenClause) ++
      other.flatMap (Case.clause .whenOtherClause)))) :
    Replay (Notification.enclosed (n, clauses.flatMap (Case.clause .whenClause) ++
      other.flatMap (Case.clause .whenOtherClause)))
  | search {n : Node} {atEnd : Option (Node × List Notification)} {clauses : List Case}
    (hn : n.kind = .search) (hatEnd : ∀ c ∈ atEnd, c.1.kind = .exception .atEnd)
    (hclauses : ∀ c ∈ clauses, ∀ m ∈ c.1, m.kind = .searchWhen)
    (h : ∀ c ∈ atEnd, Replay c.2) (h' : ∀ c ∈ clauses, Replay c.2)
    (hst : IsStatement (Notification.enclosed (n, atEnd.toList.flatMap Notification.enclosed ++
      clauses.flatMap (Case.clause (.searchClause false))))) :
    Replay (Notification.enclosed (n, atEnd.toList.flatMap Notification.enclosed ++
      clauses.flatMap (Case.clause (.searchClause false))))
  | loop {n : Node} {repetition : Repetition} {testAfter : Bool} {body : List Notification}
    (hn : n.kind = .loop repetition testAfter) (h : Replay body)
    (hst : IsStatement (Notification.enclosed (n, body))) : Replay (Notification.enclosed (n, body))

namespace Script

variable {id : NodeId}

theorem run_node (kind : NodeKind) (span : Span) (text : Option String) (inside : Script)
    (id : NodeId) : ((node kind span text inside).run id).1 =
      Notification.enclosed (⟨id, kind, span, text⟩, (inside.run (id + 1)).1) := rfl

mutual

theorem replay_statement : ∀ st id, Replay ((statement st).run id).1
  | .mk form text span, id => by
    have hst : IsStatement ((statement (.mk form text span)).run id).1 := ⟨_, id, rfl⟩
    match form with
    | .ifThen body none =>
      rw [statement, run_node, elsePart] at hst ⊢
      have hbody := replay_statements body (id + 1)
      rw [← List.append_nil ((statements body).run (id + 1)).1] at hbody
      exact .ifThen rfl hbody hst
    | .ifThen body (some otherwise) =>
      rw [statement, run_node, elsePart] at hst ⊢
      exact .ifThenElse rfl rfl (replay_statements body (id + 1))
        (replay_statements otherwise (((statements body).run (id + 1)).2 + 1)) hst
    | .evaluate whens other =>
      obtain ⟨clauses, hclauses, hkinds, hreplay⟩ :=
        replay_whenClauses .whenPhrase .whenClause whens (id + 1)
      obtain ⟨others, hothers, hkinds', hreplay'⟩ := replay_whenOther other
        ((whenClauses .whenPhrase .whenClause whens).run (id + 1)).2
      have hinside : (((do
          return (← whenClauses .whenPhrase .whenClause whens) ++ (← whenOther other)) :
            Script).run (id + 1)).1 = clauses.flatMap (Case.clause .whenClause) ++
              others.flatMap (Case.clause .whenOtherClause) := congrArg₂ _ hclauses hothers
      rw [statement, run_node, hinside] at hst ⊢
      exact .evaluate rfl hkinds hkinds' hreplay hreplay' hst
    | .search atEnd whens =>
      obtain ⟨part, hpart, hkinds, hreplay⟩ := replay_searchAtEnd atEnd (id + 1)
      obtain ⟨clauses, hclauses, hkinds', hreplay'⟩ := replay_whenClauses .searchWhen
        (.searchClause false) whens ((searchAtEnd atEnd).run (id + 1)).2
      have hinside : (((do
          return (← searchAtEnd atEnd) ++ (← whenClauses .searchWhen (.searchClause false) whens)) :
            Script).run (id + 1)).1 = part.toList.flatMap Notification.enclosed ++
              clauses.flatMap (Case.clause (.searchClause false)) := congrArg₂ _ hpart hclauses
      rw [statement, run_node, hinside] at hst ⊢
      exact .search rfl hkinds hkinds' hreplay hreplay' hst
    | .alter clauses | .exit | .goTo targets depending | .nextSentence | .perform range
    | .terminate ending =>
      rw [statement, run_node] at hst ⊢
      exact .leaf trivial hst
    | .loop repetition testAfter body =>
      rw [statement, run_node] at hst ⊢
      exact .loop rfl (replay_statements body (id + 1)) hst
    | .call program conditions =>
      obtain ⟨l, hl, hkinds, hreplay⟩ := replay_exceptionClauses conditions (id + 1)
      rw [statement, run_node, hl] at hst ⊢
      exact .verb trivial hkinds hreplay hst
    | .ordinary verb conditions =>
      obtain ⟨l, hl, hkinds, hreplay⟩ := replay_exceptionClauses conditions (id + 1)
      rw [statement, run_node, hl] at hst ⊢
      exact .verb trivial hkinds hreplay hst

/-- What a script of statements replays. -/
theorem replay_statements : ∀ l id, Replay ((statements l).run id).1
  | [], id => by
    rw [statements]
    exact .nil
  | st :: rest, id => by
    rw [statements]
    exact (replay_statement st id).append (replay_statements rest _)

theorem replay_whenOther : ∀ (other : Option (List Statement)) id, ∃ parts : List Case,
    ((whenOther other).run id).1 = parts.flatMap (Case.clause .whenOtherClause) ∧
      (∀ c ∈ parts, ∀ m ∈ c.1, m.kind = .whenOther) ∧ ∀ c ∈ parts, Replay c.2
  | none, id => by
    rw [whenOther]
    exact ⟨[], rfl, by simp, by simp⟩
  | some body, id => by
    rw [whenOther]
    refine ⟨[([⟨id, .whenOther, .unknown, none⟩], ((statements body).run (id + 1)).1)],
      (List.append_nil _).symm, by simp, by simpa using replay_statements body (id + 1)⟩

theorem replay_searchAtEnd : ∀ (atEnd : Option (List Statement)) id,
    ∃ part : Option (Node × List Notification),
      ((searchAtEnd atEnd).run id).1 = part.toList.flatMap Notification.enclosed ∧
        (∀ c ∈ part, c.1.kind = .exception .atEnd) ∧ ∀ c ∈ part, Replay c.2
  | none, id => by
    rw [searchAtEnd]
    exact ⟨none, rfl, by simp, by simp⟩
  | some body, id => by
    rw [searchAtEnd]
    refine ⟨some (⟨id, .exception .atEnd, .unknown, none⟩, ((statements body).run (id + 1)).1),
      (List.append_nil _).symm, by simp, by simpa using replay_statements body (id + 1)⟩

theorem replay_whenClauses (kind : NodeKind) (begins : Notification) :
    ∀ (whens : List WhenClause) id, ∃ parts : List Case,
      ((whenClauses kind begins whens).run id).1 = parts.flatMap (Case.clause begins) ∧
        (∀ c ∈ parts, ∀ m ∈ c.1, m.kind = kind) ∧ ∀ c ∈ parts, Replay c.2
  | [], id => by
    rw [whenClauses]
    exact ⟨[], rfl, by simp, by simp⟩
  | .mk texts body :: rest, id => by
    rw [whenClauses]
    obtain ⟨ms, next, hkind, hscript, -⟩ := Scope.exists_phrases kind texts id
    obtain ⟨parts, hparts, hkinds, hreplay⟩ :=
      replay_whenClauses kind begins rest ((statements body).run next).2
    refine ⟨(ms, ((statements body).run next).1) :: parts, ?_,
      List.forall_mem_cons.2 ⟨hkind, hkinds⟩,
      List.forall_mem_cons.2 ⟨replay_statements body next, hreplay⟩⟩
    rw [Numbered.run_bind hscript, List.flatMap_cons, ← hparts]
    rfl

theorem replay_exceptionClauses : ∀ (conditions : List ExceptionClause) id,
    ∃ parts : List (Node × List Notification),
      ((exceptionClauses conditions).run id).1 = parts.flatMap Notification.enclosed ∧
        (∀ c ∈ parts, ∃ phrase, c.1.kind = .exception phrase) ∧ ∀ c ∈ parts, Replay c.2
  | [], id => by
    rw [exceptionClauses]
    exact ⟨[], rfl, by simp, by simp⟩
  | .mk phrase body :: rest, id => by
    rw [exceptionClauses]
    obtain ⟨parts, hparts, hkinds, hreplay⟩ :=
      replay_exceptionClauses rest ((statements body).run (id + 1)).2
    refine ⟨(⟨id, .exception phrase, .unknown, none⟩, ((statements body).run (id + 1)).1) :: parts,
      ?_, List.forall_mem_cons.2 ⟨⟨phrase, rfl⟩, hkinds⟩,
      List.forall_mem_cons.2 ⟨replay_statements body (id + 1), hreplay⟩⟩
    rw [List.flatMap_cons, ← hparts]
    rfl

end

end Script

end CobolFlow
