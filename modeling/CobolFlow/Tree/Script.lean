import CobolFlow.Build.Replay
import CobolFlow.Tree.Basic

/-!
# From a tree to a replay

A statement tree is replayed as a reader of the source text would: each node is entered, what it
contains is replayed, and it is left; clauses begin after their phrases, and every sentence ends
with a period. Nodes are numbered from zero in the order in which they are entered.

## Main definitions

* `StatementTree.notifications` — the replay of a whole tree
* `StatementTree.build` — the programs it describes
-/

namespace CobolFlow

/-- A piece of a replay, given the number of the next node. -/
abbrev Script := StateM NodeId (List Notification)

namespace Script

/-- One piece after another. -/
def seq (pieces : List Script) : Script := do return (← pieces.mapM id).flatten

/-- A single notification. -/
def notify (e : Notification) : Script := pure [e]

/-- A node around a piece. -/
def node (kind : NodeKind) (span : Span) (text : Option String) (inside : Script) : Script := do
  let id ← getModify (· + 1)
  let n : Node := { id, kind, span, text }
  return .enter n :: (← inside) ++ [.leave n]

/-- A node that contains nothing. -/
def leaf (kind : NodeKind) (text : Option String) : Script := node kind Span.unknown text (pure [])

/-- The phrases of a WHEN clause; a clause without any has one without text. -/
def whenPhrases (kind : NodeKind) (phrases : List String) : Script :=
  match phrases with
  | [] => leaf kind none
  | _ => seq (phrases.map fun phrase => leaf kind (some phrase))

mutual

def statement : Statement → Script
  | .mk form text span =>
    match form with
    | .ifThen body otherwise =>
      node .ifThen span text do
        return (← statements body) ++ (← elsePart otherwise)
    | .evaluate whens other =>
      node .evaluate span text do
        return (← whenClauses .whenPhrase .whenClause whens) ++ (← whenOther other)
    | .search atEnd whens =>
      node .search span text do
        return (← searchAtEnd atEnd) ++ (← whenClauses .searchWhen (.searchClause false) whens)
    | .alter clauses => node (.alter clauses) span text (pure [])
    | .exit => node .exit span text (pure [])
    | .goTo targets depending => node (.goTo (.ofTargets targets depending)) span text (pure [])
    | .nextSentence => node .nextSentence span text (pure [])
    | .perform range => node (.perform range) span text (pure [])
    | .loop repetition testAfter body =>
      node (.loop repetition testAfter) span text (statements body)
    | .terminate ending => node (.terminate ending) span text (pure [])
    | .call program conditions => node (.call program) span text (exceptionClauses conditions)
    | .ordinary verb conditions => node (.ordinary verb) span text (exceptionClauses conditions)

def statements : List Statement → Script
  | [] => pure []
  | s :: rest => do return (← statement s) ++ (← statements rest)

def elsePart : Option (List Statement) → Script
  | none => pure []
  | some body => node .elsePart Span.unknown none (statements body)

def whenOther : Option (List Statement) → Script
  | none => pure []
  | some body => do
    return (← leaf .whenOther none) ++ .whenOtherClause :: (← statements body)

def searchAtEnd : Option (List Statement) → Script
  | none => pure []
  | some body => node (.exception .atEnd) Span.unknown none (statements body)

def whenClauses (kind : NodeKind) (begins : Notification) : List WhenClause → Script
  | [] => pure []
  | .mk phrases body :: rest => do
    return (← whenPhrases kind phrases) ++ begins :: (← statements body) ++
      (← whenClauses kind begins rest)

def exceptionClauses : List ExceptionClause → Script
  | [] => pure []
  | .mk phrase body :: rest => do
    return (← node (.exception phrase) Span.unknown none (statements body)) ++
      (← exceptionClauses rest)

end

def sentence (s : SentenceText) : Script := do return (← statements s) ++ [.sentenceEnd]

def sentences (s : List SentenceText) : Script := seq (s.map sentence)

def paragraph (p : ParagraphText) : Script :=
  node (.paragraphHeader p.name) p.span none (sentences p.sentences)

def sectionText (s : SectionText) : Script :=
  node (.sectionHeader s.name) s.span none <|
    seq (sentences s.sentences :: s.paragraphs.map paragraph)

def declaratives : List SectionText → Script
  | [] => pure []
  | sections => node .declaratives Span.unknown none (seq (sections.map sectionText))

def division (d : DivisionText) : Script :=
  node .procedureDivision Span.unknown none <|
    seq (declaratives d.declaratives :: sentences d.sentences ::
      d.paragraphs.map paragraph ++ d.sections.map sectionText)

mutual

def program : ProgramText → Script
  | .mk name kind body nested =>
    let header :=
      match kind with
      | .program => NodeKind.program name
      | .function => NodeKind.function name
    node header Span.unknown none do
      return (← (body.map division).getD (pure [])) ++ (← programs nested)

def programs : List ProgramText → Script
  | [] => pure []
  | p :: rest => do return (← program p) ++ (← programs rest)

end

end Script

namespace StatementTree

/-- The replay of a tree. -/
def notifications (t : StatementTree) : List Notification := ((Script.programs t.programs).run 0).1

/-- The programs that a tree describes. -/
def build (o : Options) (t : StatementTree) : Except Fault (List ProgramFlow) :=
  Builder.run o t.notifications

end StatementTree

end CobolFlow
