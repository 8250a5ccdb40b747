import CobolFlow.Source

/-!
# Problems in a program

What a build reports about the program it reads. A problem never stops a build: the reference in
question is left out of the graph and everything else goes on.
-/

namespace CobolFlow

inductive ProblemKind
  /-- A reference to no section or paragraph. -/
  | unknownProcedure (name : String)
  /-- A reference that several sections or paragraphs answer to. -/
  | ambiguousProcedure (name : String) (candidates : Nat)
  /-- `PERFORM A THRU B` where `B` is declared before `A`. -/
  | invalidPerformRange (first through : String)
  /-- A performed range that meets one of its blocks again. -/
  | recursivePerform (range : String) (block : Nat)
  /-- A block of a performed range, other than the last, that jumps out of it. -/
  | branchOutOfRange (range : String) (tag : String) (block : Nat)
  /-- `ALTER L` where `L` does not begin with a simple GO TO. -/
  | malformedAlter (paragraph : String)
deriving DecidableEq

/-- A problem and the statement it was found at. -/
structure Problem where
  kind : ProblemKind
  span : Span
deriving DecidableEq

namespace Problem

/-- The code by which a kind of problem is known. -/
def code (p : Problem) : String :=
  match p.kind with
  | .unknownProcedure _ => "CFG001"
  | .ambiguousProcedure _ _ => "CFG002"
  | .invalidPerformRange _ _ => "CFG003"
  | .recursivePerform _ _ => "CFG004"
  | .branchOutOfRange _ _ _ => "CFG005"
  | .malformedAlter _ => "CFG006"

/-- The sentence in which a problem is reported. -/
def message (p : Problem) : String :=
  match p.kind with
  | .unknownProcedure name => s!"Unknown section or paragraph '{name}'"
  | .ambiguousProcedure name candidates =>
    s!"Ambiguous reference to section or paragraph '{name}' ({candidates} candidates)"
  | .invalidPerformRange first through =>
    s!"PERFORM {first} THRU {through}: '{through}' is declared before '{first}'"
  | .recursivePerform range block =>
    s!"Recursive PERFORM of '{range}': block {block} is already part of the range"
  | .branchOutOfRange range tag block =>
    s!"PERFORM {range}: block {block} of '{tag}' branches outside the performed range"
  | .malformedAlter paragraph =>
    s!"ALTER of '{paragraph}': its first statement is not a simple GO TO"

end Problem

end CobolFlow
