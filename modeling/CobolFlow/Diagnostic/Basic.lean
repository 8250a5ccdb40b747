import CobolFlow.Problem

/-!
# Diagnostics

A message about a program with what helps to understand it: labels that point into the source text,
and notes. Every problem of a build can be put as a diagnostic.
-/

namespace CobolFlow

inductive Severity
  | error
  | warning
  | note
deriving DecidableEq

instance : Vocabulary Severity where
  all := [.error, .warning, .note]
  word
    | .error => "error" | .warning => "warning" | .note => "note"
  find_word a := by cases a <;> rfl

/-- A remark on a stretch of a source file, which is named by its number. -/
structure Label where
  file : Nat
  start : UInt64
  stop : UInt64
  message : String
deriving DecidableEq

structure Diagnostic where
  severity : Severity
  message : String
  code : Option String := none
  labels : List Label := []
  notes : List String := []
deriving DecidableEq

namespace Diagnostic

def withCode (d : Diagnostic) (code : String) : Diagnostic := { d with code := some code }

/-- Labels a stretch of source text. There is no label where there is no text. -/
def withLabel (d : Diagnostic) (file : Nat) (span : Span) (message : String) : Diagnostic :=
  if span.isEmpty then d
  else { d with labels := d.labels ++ [⟨file, span.start, span.stop, message⟩] }

def withNote (d : Diagnostic) (note : String) : Diagnostic :=
  { d with notes := d.notes ++ [note] }

/-- Help is a note that says so. -/
def withHelp (d : Diagnostic) (help : String) : Diagnostic := d.withNote ("help: " ++ help)

/-- What is said at the place where a problem was found. -/
def remark : ProblemKind → String
  | .unknownProcedure _ => "referenced here"
  | .ambiguousProcedure _ candidates => s!"{candidates} declarations match"
  | .invalidPerformRange _ _ => "empty range"
  | .recursivePerform _ _ => "performed here"
  | .branchOutOfRange _ _ _ => "performed here"
  | .malformedAlter _ => "altered here"

/-- Adds what can be said about a problem without pointing at the text. -/
def explain (kind : ProblemKind) (d : Diagnostic) : Diagnostic :=
  match kind with
  | .unknownProcedure name => d.withNote s!"no section or paragraph is named '{name}'"
  | .ambiguousProcedure name _ => d.withHelp s!"qualify the reference, e.g. '{name} IN <section>'"
  | .invalidPerformRange _ _ => d.withNote "the performed range has no blocks"
  | .recursivePerform _ _ =>
    d.withNote "the recursive call site keeps its edge but is never grafted"
  | .branchOutOfRange _ tag _ =>
    d.withNote s!"the jump in '{tag}' leaves the range and is kept as is"
  | .malformedAlter _ => d.withHelp "an altered paragraph must consist of a single GO TO"

/-- A problem found in the file of number `file`. It is a warning, since the build goes on. -/
def ofProblem (p : Problem) (file : Nat) : Diagnostic :=
  explain p.kind
    ((withCode { severity := .warning, message := p.message } p.code).withLabel file p.span
      (remark p.kind))

@[simp]
theorem code_ofProblem (p : Problem) (file : Nat) : (ofProblem p file).code = some p.code := by
  unfold ofProblem withLabel
  cases p.kind <;> simp only [explain, withHelp, withNote] <;> split <;> rfl

theorem labels_ofProblem (p : Problem) (file : Nat) :
    (ofProblem p file).labels =
      if p.span.isEmpty then [] else [⟨file, p.span.start, p.span.stop, remark p.kind⟩] := by
  unfold ofProblem withLabel
  cases p.kind <;> simp only [explain, withHelp, withNote] <;> split <;> rfl

end Diagnostic

end CobolFlow
