import CobolFlow.Proofs.Division.Units

/-!
# Trees from which references are taken out

A GO TO that depends on a value names any number of procedures, and an ALTER has any number of
clauses. Some of them can be taken out, and the tree that is left has the same statements. So it is
replayed by the same notifications, with the same numbers; only the two kinds of statements carry
less.

Which references are kept is said program by program, since the same name may stand for something
else in each of them.

## Main definitions

* `Reference` — a place where GO TO and ALTER name procedures
* `StatementTree.pruned` — a tree with some of its references only

## Main results

* `StatementTree.units_pruned` — the programs of a tree are pruned one by one
* `ProgramUnit.events_pruned` — what is replayed of a pruned program
-/

namespace CobolFlow

/-- A place where a GO TO or an ALTER names procedures, with the position of the statement. -/
inductive Reference
  /-- A clause of an ALTER. -/
  | clause (c : AlterClause) (span : Span)
  /-- The target of a simple GO TO. -/
  | target (n : QualifiedName) (span : Span)
  /-- A target of a GO TO that depends on a value. -/
  | choice (n : QualifiedName) (span : Span)

/-! ### Statements -/

section Statements

variable (keep : Reference → Bool)

/-- A simple GO TO keeps its target. Of one that depends on a value some targets are kept; if one is
left of several, the jump depends on a value as before. -/
def StatementForm.prunedGoTo (span : Span) (targets : List QualifiedName) (depending : Bool) :
    StatementForm :=
  match Jump.ofTargets targets depending with
  | .simple _ => .goTo targets depending
  | .conditional _ =>
    let kept := targets.filter fun n => keep (.choice n span)
    .goTo kept (depending || kept.length == 1)

mutual

/-- A statement with some of its references only. -/
def Statement.pruned : Statement → Statement
  | .mk form text span =>
    match form with
    | .ifThen body otherwise => .mk (.ifThen (prunedBody body) (prunedPart otherwise)) text span
    | .evaluate whens other => .mk (.evaluate (prunedWhens whens) (prunedPart other)) text span
    | .search atEnd whens => .mk (.search (prunedPart atEnd) (prunedWhens whens)) text span
    | .alter clauses => .mk (.alter (clauses.filter fun c => keep (.clause c span))) text span
    | .exit => .mk .exit text span
    | .goTo targets depending => .mk (.prunedGoTo keep span targets depending) text span
    | .nextSentence => .mk .nextSentence text span
    | .perform range => .mk (.perform range) text span
    | .loop repetition testAfter body =>
      .mk (.loop repetition testAfter (prunedBody body)) text span
    | .terminate ending => .mk (.terminate ending) text span
    | .call program conditions => .mk (.call program (prunedConditions conditions)) text span
    | .ordinary verb conditions => .mk (.ordinary verb (prunedConditions conditions)) text span

def Statement.prunedBody : List Statement → List Statement
  | [] => []
  | s :: rest => s.pruned :: prunedBody rest

def Statement.prunedPart : Option (List Statement) → Option (List Statement)
  | none => none
  | some body => some (prunedBody body)

def Statement.prunedWhens : List WhenClause → List WhenClause
  | [] => []
  | .mk phrases body :: rest => .mk phrases (prunedBody body) :: prunedWhens rest

def Statement.prunedConditions : List ExceptionClause → List ExceptionClause
  | [] => []
  | .mk phrase body :: rest => .mk phrase (prunedBody body) :: prunedConditions rest

end

def ParagraphText.pruned (p : ParagraphText) : ParagraphText :=
  { p with sentences := p.sentences.map (Statement.prunedBody keep) }

def SectionText.pruned (s : SectionText) : SectionText :=
  { s with
    sentences := s.sentences.map (Statement.prunedBody keep)
    paragraphs := s.paragraphs.map (·.pruned keep) }

/-- A division with some of its references only. -/
def DivisionText.pruned (d : DivisionText) : DivisionText where
  declaratives := d.declaratives.map (·.pruned keep)
  sentences := d.sentences.map (Statement.prunedBody keep)
  paragraphs := d.paragraphs.map (·.pruned keep)
  sections := d.sections.map (·.pruned keep)

/-- A program with some of its references only. -/
def ProgramUnit.pruned (u : ProgramUnit) : ProgramUnit :=
  { u with division := u.division.map (·.pruned keep) }

end Statements

/-! ### Programs -/

section Programs

variable (keep : ℕ → Reference → Bool)

mutual

/-- A program and those contained in it, pruned as the number of each says. -/
def ProgramText.pruned : ProgramText → Numbered ProgramText
  | .mk name kind body nested => do
    let i ← getModify (· + 1)
    return .mk name kind (body.map (·.pruned (keep i))) (← ProgramText.allPruned nested)

def ProgramText.allPruned : List ProgramText → Numbered (List ProgramText)
  | [] => pure []
  | p :: rest => do return (← p.pruned) :: (← ProgramText.allPruned rest)

end

/-- A tree with some of its references only. The programs are counted in source order. -/
def StatementTree.pruned (t : StatementTree) : StatementTree where
  programs := ((ProgramText.allPruned keep t.programs).run 0).1

end Programs

/-! ### What is replayed -/

section Replays

variable (keep : Reference → Bool)

def Jump.pruned (span : Span) : Jump → Jump
  | .simple target => .simple target
  | .conditional targets => .conditional (targets.filter fun n => keep (.choice n span))

/-- A node that carries some of its references only. -/
def Node.pruned (n : Node) : Node :=
  { n with kind :=
      match n.kind with
      | .goTo j => .goTo (j.pruned keep n.span)
      | .alter clauses => .alter (clauses.filter fun c => keep (.clause c n.span))
      | kind => kind }

def Notification.pruned : Notification → Notification
  | .enter n => .enter (n.pruned keep)
  | .leave n => .leave (n.pruned keep)
  | e => e

variable {keep}

@[simp] theorem Jump.isSimple_pruned (span : Span) (j : Jump) :
    (j.pruned keep span).isSimple = j.isSimple := by
  cases j <;> rfl

@[simp] theorem Node.tag_pruned (n : Node) : (n.pruned keep).tag = n.tag := by
  obtain ⟨id, kind, span, text⟩ := n
  cases kind with
  | goTo j => cases j <;> rfl
  | _ => rfl

@[simp] theorem Node.info_pruned (n : Node) : (n.pruned keep).info = n.info := by
  obtain ⟨id, kind, span, text⟩ := n
  cases kind <;> rfl

/-- A GO TO that depends on a value still does if one target is left. -/
theorem Jump.ofTargets_pruned (keep : Reference → Bool) (span : Span) (targets : List QualifiedName)
    (depending : Bool) : ∃ targets' depending',
      StatementForm.prunedGoTo keep span targets depending = .goTo targets' depending' ∧
      Jump.ofTargets targets' depending' = (Jump.ofTargets targets depending).pruned keep span := by
  rw [StatementForm.prunedGoTo]
  cases hj : Jump.ofTargets targets depending with
  | simple target => exact ⟨targets, depending, rfl, hj⟩
  | conditional all =>
    refine ⟨_, _, rfl, ?_⟩
    obtain rfl : targets = all := by
      unfold Jump.ofTargets at hj
      split at hj
      · exact nomatch hj
      · exact Jump.conditional.inj hj
    rw [Jump.pruned]
    rcases targets.filter fun n => keep (.choice n span) with _ | ⟨n, _ | ⟨m, rest⟩⟩
    · rfl
    · simp [Jump.ofTargets]
    · rfl

end Replays

namespace Script

variable {keep : Reference → Bool} {script script' rest rest' : Script}

/-- The second script replays what the first does with some of the references only, under the same
numbers. -/
def Prunes (keep : Reference → Bool) (script script' : Script) : Prop :=
  ∀ id, script'.run id = ((script.run id).1.map (·.pruned keep), (script.run id).2)

namespace Prunes

theorem nil : Prunes keep (pure []) (pure []) := fun _ => rfl

theorem append (h : Prunes keep script script') (hrest : Prunes keep rest rest') :
    Prunes keep (do return (← script) ++ (← rest)) (do return (← script') ++ (← rest')) := by
  intro id
  rw [Numbered.run_bind (h id), Numbered.run_bind (hrest _)]
  exact congrArg (·, _) List.map_append.symm

/-- A notification in front that carries nothing. -/
theorem cons (h : Prunes keep script script') {begins : Notification}
    (hbegins : begins.pruned keep = begins) :
    Prunes keep (do return begins :: (← script)) (do return begins :: (← script')) := by
  intro id
  rw [Numbered.run_bind (h id)]
  exact congrArg (fun e => (e :: (script.run id).1.map (·.pruned keep), _)) hbegins.symm

theorem node (h : Prunes keep script script') {kind kind' : NodeKind} {span : Span}
    (hkind : ∀ id text, ({ id, kind, span, text } : Node).pruned keep =
      { id, kind := kind', span, text }) (text : Option String) :
    Prunes keep (Script.node kind span text script) (Script.node kind' span text script') := by
  intro id
  refine (Numbered.run_bind (j := id + 1) rfl _).trans ?_
  refine (Numbered.run_bind (h (id + 1)) _).trans ?_
  change _ = ((Notification.enter { id, kind, span, text } :: (script.run (id + 1)).1 ++
    [Notification.leave { id, kind, span, text }]).map (·.pruned keep), (script.run (id + 1)).2)
  simp only [List.map_cons, List.map_append, List.map_nil, Notification.pruned, hkind]
  rfl

theorem leaf {kind : NodeKind}
    (hkind : ∀ id text, ({ id, kind, span := Span.unknown, text } : Node).pruned keep =
      { id, kind, span := Span.unknown, text }) (text : Option String) :
    Prunes keep (Script.leaf kind text) (Script.leaf kind text) :=
  nil.node hkind text

theorem seq_cons {piece piece' : Script} {pieces pieces' : List Script}
    (h : Prunes keep piece piece') (hrest : Prunes keep (seq pieces) (seq pieces')) :
    Prunes keep (seq (piece :: pieces)) (seq (piece' :: pieces')) := by
  have hseq (piece : Script) (pieces : List Script) : seq (piece :: pieces) =
      (do return (← piece) ++ (← seq pieces) : Script) := by
    simp [seq]
  rw [hseq, hseq]
  exact h.append hrest

/-- The pieces are pruned one by one, and then what comes after them. -/
theorem seq_map_append {α : Type} {piece : α → Script} {g : α → α}
    (h : ∀ a, Prunes keep (piece a) (piece (g a))) {pieces pieces' : List Script}
    (hrest : Prunes keep (seq pieces) (seq pieces')) (l : List α) :
    Prunes keep (seq (l.map piece ++ pieces)) (seq ((l.map g).map piece ++ pieces')) := by
  induction l with
  | nil => exact hrest
  | cons a l ih => exact (h a).seq_cons ih

theorem seq_map {α : Type} {piece : α → Script} {g : α → α}
    (h : ∀ a, Prunes keep (piece a) (piece (g a))) (l : List α) :
    Prunes keep (seq (l.map piece)) (seq ((l.map g).map piece)) := by
  have hseq : Prunes keep (seq (l.map piece ++ [])) (seq ((l.map g).map piece ++ [])) :=
    seq_map_append h nil l
  rwa [List.append_nil, List.append_nil] at hseq

theorem whenPhrases {kind : NodeKind}
    (hkind : ∀ id text, ({ id, kind, span := Span.unknown, text } : Node).pruned keep =
      { id, kind, span := Span.unknown, text }) (phrases : List String) :
    Prunes keep (Script.whenPhrases kind phrases) (Script.whenPhrases kind phrases) := by
  unfold Script.whenPhrases
  split
  · exact leaf hkind none
  · have hseq := seq_map (g := id) (fun phrase => leaf hkind (some phrase)) phrases
    rwa [List.map_id] at hseq

/-- The phrases of a clause, its beginning and its statements, before other clauses. -/
theorem clause {phrases : Script} (hphrases : Prunes keep phrases phrases) {begins : Notification}
    (hbegins : begins.pruned keep = begins) (h : Prunes keep script script')
    (hrest : Prunes keep rest rest') :
    Prunes keep (do return (← phrases) ++ begins :: (← script) ++ (← rest))
      (do return (← phrases) ++ begins :: (← script') ++ (← rest')) :=
  (hphrases.append (h.cons hbegins)).append hrest

end Prunes

mutual

theorem prunes_statement : ∀ st, Prunes keep (statement st) (statement (st.pruned keep))
  | .mk form text span => by
    match form with
    | .ifThen body otherwise =>
      rw [Statement.pruned, statement, statement]
      exact ((prunes_body body).append (prunes_elsePart otherwise)).node (fun _ _ => rfl) _
    | .evaluate whens other =>
      rw [Statement.pruned, statement, statement]
      exact ((prunes_whens (fun _ _ => rfl) rfl whens).append (prunes_whenOther other)).node
        (fun _ _ => rfl) _
    | .search atEnd whens =>
      rw [Statement.pruned, statement, statement]
      exact ((prunes_searchAtEnd atEnd).append (prunes_whens (fun _ _ => rfl) rfl whens)).node
        (fun _ _ => rfl) _
    | .alter clauses =>
      rw [Statement.pruned, statement, statement]
      exact Prunes.nil.node (fun _ _ => rfl) _
    | .goTo targets depending =>
      obtain ⟨targets', depending', hform, hj⟩ := Jump.ofTargets_pruned keep span targets depending
      rw [Statement.pruned, hform, statement, statement, hj]
      exact Prunes.nil.node (fun _ _ => rfl) _
    | .exit | .nextSentence | .perform range | .terminate ending =>
      rw [Statement.pruned, statement]
      exact Prunes.nil.node (fun _ _ => rfl) _
    | .loop repetition testAfter body =>
      rw [Statement.pruned, statement, statement]
      exact (prunes_body body).node (fun _ _ => rfl) _
    | .call program conditions | .ordinary verb conditions =>
      rw [Statement.pruned, statement, statement]
      exact (prunes_conditions conditions).node (fun _ _ => rfl) _

theorem prunes_body : ∀ l, Prunes keep (statements l) (statements (Statement.prunedBody keep l))
  | [] => by
    rw [Statement.prunedBody, statements]
    exact .nil
  | st :: rest => by
    rw [Statement.prunedBody, statements, statements]
    exact (prunes_statement st).append (prunes_body rest)

theorem prunes_elsePart : ∀ part,
    Prunes keep (elsePart part) (elsePart (Statement.prunedPart keep part))
  | none => by
    rw [Statement.prunedPart, elsePart]
    exact .nil
  | some body => by
    rw [Statement.prunedPart, elsePart, elsePart]
    exact (prunes_body body).node (fun _ _ => rfl) _

theorem prunes_whenOther : ∀ part,
    Prunes keep (whenOther part) (whenOther (Statement.prunedPart keep part))
  | none => by
    rw [Statement.prunedPart, whenOther]
    exact .nil
  | some body => by
    rw [Statement.prunedPart, whenOther, whenOther]
    exact (Prunes.leaf (fun _ _ => rfl) none).append
      ((prunes_body body).cons (rfl : Notification.whenOtherClause.pruned keep = _))

theorem prunes_searchAtEnd : ∀ part,
    Prunes keep (searchAtEnd part) (searchAtEnd (Statement.prunedPart keep part))
  | none => by
    rw [Statement.prunedPart, searchAtEnd]
    exact .nil
  | some body => by
    rw [Statement.prunedPart, searchAtEnd, searchAtEnd]
    exact (prunes_body body).node (fun _ _ => rfl) _

theorem prunes_whens {kind : NodeKind} {begins : Notification}
    (hkind : ∀ id text, ({ id, kind, span := Span.unknown, text } : Node).pruned keep =
      { id, kind, span := Span.unknown, text }) (hbegins : begins.pruned keep = begins) :
    ∀ whens, Prunes keep (whenClauses kind begins whens)
      (whenClauses kind begins (Statement.prunedWhens keep whens))
  | [] => by
    rw [Statement.prunedWhens, whenClauses]
    exact .nil
  | .mk phrases body :: rest => by
    rw [Statement.prunedWhens, whenClauses, whenClauses]
    exact (Prunes.whenPhrases hkind phrases).clause hbegins (prunes_body body)
      (prunes_whens hkind hbegins rest)

theorem prunes_conditions : ∀ conditions, Prunes keep (exceptionClauses conditions)
    (exceptionClauses (Statement.prunedConditions keep conditions))
  | [] => by
    rw [Statement.prunedConditions, exceptionClauses]
    exact .nil
  | .mk phrase body :: rest => by
    rw [Statement.prunedConditions, exceptionClauses, exceptionClauses]
    exact ((prunes_body body).node (fun _ _ => rfl) _).append (prunes_conditions rest)

end

theorem prunes_sentence (text : SentenceText) :
    Prunes keep (sentence text) (sentence (Statement.prunedBody keep text)) := by
  have hend : Prunes keep (pure [.sentenceEnd]) (pure [.sentenceEnd]) := fun _ => rfl
  exact (prunes_body text).append hend

theorem prunes_sentences (l : List SentenceText) :
    Prunes keep (sentences l) (sentences (l.map (Statement.prunedBody keep))) :=
  .seq_map prunes_sentence l

theorem prunes_paragraph (p : ParagraphText) :
    Prunes keep (paragraph p) (paragraph (p.pruned keep)) :=
  (prunes_sentences p.sentences).node (fun _ _ => rfl) _

theorem prunes_sectionText (s : SectionText) :
    Prunes keep (sectionText s) (sectionText (s.pruned keep)) :=
  ((prunes_sentences s.sentences).seq_cons (.seq_map prunes_paragraph s.paragraphs)).node
    (fun _ _ => rfl) _

theorem prunes_declaratives (l : List SectionText) :
    Prunes keep (declaratives l) (declaratives (l.map (·.pruned keep))) := by
  cases l with
  | nil => exact .nil
  | cons s rest => exact (Prunes.seq_map prunes_sectionText (s :: rest)).node (fun _ _ => rfl) _

theorem prunes_division (keep : Reference → Bool) (d : DivisionText) :
    Prunes keep (division d) (division (d.pruned keep)) := by
  refine Prunes.node ?_ (fun _ _ => rfl) _
  refine (prunes_declaratives d.declaratives).seq_cons ?_
  refine (prunes_sentences d.sentences).seq_cons ?_
  exact .seq_map_append prunes_paragraph (.seq_map prunes_sectionText d.sections) d.paragraphs

end Script

/-! ### The programs of a pruned tree -/

/-- What is replayed of a pruned program. -/
theorem ProgramUnit.events_pruned (keep : Reference → Bool) (u : ProgramUnit) :
    (u.pruned keep).events = u.events.map (·.pruned keep) := by
  obtain ⟨name, kind, id, _ | d⟩ := u
  · rfl
  · exact congrArg Prod.fst (Script.prunes_division keep d id)

/-- The items of a division are replayed with some of their references only. -/
theorem DivisionText.events_items_pruned (keep : Reference → Bool) (d : DivisionText)
    (id : NodeId) :
    ((d.pruned keep).items.run (id + 1)).1.flatMap Item.events =
      ((d.items.run (id + 1)).1.flatMap Item.events).map (·.pruned keep) := by
  have hdivision := congrArg Prod.fst (Script.prunes_division keep d id)
  rw [run_division, run_division, List.map_append, List.map_cons] at hdivision
  exact (List.cons.inj (List.append_inj_left' hdivision rfl)).2

namespace ProgramText

variable {keep : ℕ → Reference → Bool}

/-- The programs come one by one and are numbered as before. -/
def PrunesUnits (keep : ℕ → Reference → Bool) (i : ℕ) (units units' : List ProgramUnit × NodeId)
    (next : ℕ) : Prop :=
  units' = (units.1.mapIdx fun k u => u.pruned (keep (i + k)), units.2) ∧ next = i + units.1.length

theorem prunesUnits_mk (name : String) (kind : ProgramKind) (body : Option DivisionText)
    {nested : List ProgramText} {i : ℕ}
    (h : ∀ id, PrunesUnits keep (i + 1) ((allUnits nested).run id)
      ((allUnits ((allPruned keep nested).run (i + 1)).1).run id)
      ((allPruned keep nested).run (i + 1)).2) (id : NodeId) :
    PrunesUnits keep i ((units (.mk name kind body nested)).run id)
      ((units ((pruned keep (.mk name kind body nested)).run i).1).run id)
      ((pruned keep (.mk name kind body nested)).run i).2 := by
  have hpruned : (pruned keep (.mk name kind body nested)).run i =
      (.mk name kind (body.map (·.pruned (keep i))) ((allPruned keep nested).run (i + 1)).1,
        ((allPruned keep nested).run (i + 1)).2) := by
    rw [pruned]
    rfl
  have hnext : ((((body.map (·.pruned (keep i))).map Script.division).getD (pure [])).run
      (id + 1)).2 = (((body.map Script.division).getD (pure [])).run (id + 1)).2 := by
    cases body with
    | none => rfl
    | some d =>
      have hd := congrArg Prod.snd (Script.prunes_division (keep i) d (id + 1))
      exact hd
  obtain ⟨-, -, -, -, hunits⟩ := Builder.run_program name kind body nested id
  obtain ⟨-, -, -, -, hunits'⟩ := Builder.run_program name kind (body.map (·.pruned (keep i)))
    ((allPruned keep nested).run (i + 1)).1 id
  obtain ⟨hnested, hcount⟩ := h (((body.map Script.division).getD (pure [])).run (id + 1)).2
  rw [hpruned, hunits]
  dsimp only
  rw [hunits', hnext, hnested]
  refine ⟨?_, ?_⟩
  · rw [List.mapIdx_cons]
    simp only [Nat.add_assoc, Nat.add_comm 1]
    rfl
  · rw [hcount, List.length_cons, Nat.add_assoc, Nat.add_comm 1]

mutual

theorem units_pruned : ∀ (p : ProgramText) (i : ℕ) (id : NodeId),
    PrunesUnits keep i (p.units.run id) ((units ((p.pruned keep).run i).1).run id)
      ((p.pruned keep).run i).2
  | .mk name kind body nested, i, id =>
    prunesUnits_mk name kind body (allUnits_pruned nested (i + 1)) id

theorem allUnits_pruned : ∀ (l : List ProgramText) (i : ℕ) (id : NodeId),
    PrunesUnits keep i ((allUnits l).run id) ((allUnits ((allPruned keep l).run i).1).run id)
      ((allPruned keep l).run i).2
  | [], i, id => by
    rw [allPruned, allUnits]
    refine ⟨?_, rfl⟩
    rw [show ((pure [] : Numbered (List ProgramText)).run i).1 = [] from rfl, allUnits]
    rfl
  | p :: rest, i, id => by
    obtain ⟨hp, hi⟩ := units_pruned p i id
    obtain ⟨hrest, hi'⟩ := allUnits_pruned rest ((p.pruned keep).run i).2 (p.units.run id).2
    have hpruned : (allPruned keep (p :: rest)).run i =
        (((p.pruned keep).run i).1 :: ((allPruned keep rest).run ((p.pruned keep).run i).2).1,
          ((allPruned keep rest).run ((p.pruned keep).run i).2).2) := by
      rw [allPruned]
      rfl
    rw [hpruned, PrunesUnits]
    dsimp only
    rw [run_allUnits, run_allUnits, hp, hrest, hi', hi, List.mapIdx_append, List.length_append]
    simp only [Nat.add_assoc, Nat.add_comm (p.units.run id).1.length, true_and]

end

end ProgramText

/-- The programs of a tree are pruned one by one. -/
theorem StatementTree.units_pruned (keep : ℕ → Reference → Bool) (t : StatementTree) :
    (t.pruned keep).units = t.units.mapIdx fun i u => u.pruned (keep i) := by
  have hunits := congrArg Prod.fst (@ProgramText.allUnits_pruned keep t.programs 0 0).1
  simp only [Nat.zero_add] at hunits
  exact hunits

end CobolFlow
