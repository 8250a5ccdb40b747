import CobolFlow.Diagnostic.Basic
import CobolFlow.Diagnostic.SourceFile

/-!
# Marks

What the labels of a diagnostic leave on the lines of a source file. A label within one line leaves
a caret there. A label over several lines leaves a bar on each of them, in a lane of its own at the
left: it opens on the line where the label starts, runs through, and closes where the label stops.

## Scope

This file says which lines are marked and how, and which of them are to be shown. It draws nothing.
-/

namespace CobolFlow

/-- A label within a line, by its offsets in that line. -/
structure Caret where
  start : UInt64
  stop : UInt64
  message : String
deriving DecidableEq

/-- A label over several lines, on one of them. Offsets are those in the line. -/
inductive Arm
  | opening (start : UInt64)
  | through
  | closing (stop : UInt64) (message : String)
deriving DecidableEq

structure Bar where
  lane : Nat
  arm : Arm
deriving DecidableEq

/-- The marks on a line. -/
structure MarkedLine where
  number : Nat
  /-- Sorted by their offsets. -/
  carets : List Caret := []
  /-- Sorted by their lanes. -/
  bars : List Bar := []
  shown : Bool := false
deriving DecidableEq

/-- The marks in a file. -/
structure Marks where
  /-- Sorted by their numbers. -/
  lines : List MarkedLine := []
  /-- How many labels run over several lines. -/
  lanes : Nat := 0

namespace Marks

/-- Changes the marks on the line of the given number. -/
def onLine (number : Nat) (change : MarkedLine → MarkedLine) : List MarkedLine → List MarkedLine
  | [] => [change { number }]
  | line :: rest =>
    if number < line.number then change { number } :: line :: rest
    else if number = line.number then change line :: rest
    else line :: onLine number change rest

/-- Whether a caret comes before another: by its start, then by its stop. -/
def before (a b : Caret) : Bool := a.start < b.start || (a.start == b.start && a.stop < b.stop)

/-- Inserts a caret where it keeps the order. Among carets at one place it takes the last place but
one. -/
def insert (c : Caret) : List Caret → List Caret
  | [] => [c]
  | d :: rest =>
    if before c d || (!before d c && rest.head?.all (before c)) then c :: d :: rest
    else d :: insert c rest

/-- Inserting loses nothing. -/
theorem insert_perm (c : Caret) (l : List Caret) : (insert c l).Perm (c :: l) := by
  induction l with
  | nil => exact .refl _
  | cons d rest ih =>
    rw [insert]
    split
    · exact .refl _
    · exact (ih.cons d).trans (List.Perm.swap c d rest)

def addCaret (c : Caret) (line : MarkedLine) : MarkedLine :=
  { line with carets := insert c line.carets, shown := true }

def addBar (b : Bar) (shown : Bool) (line : MarkedLine) : MarkedLine :=
  { line with bars := line.bars ++ [b], shown := line.shown || shown }

/-- How many lines are shown after the one on which a label starts. -/
def linesAfterStart : Nat := 3

/-- How many lines are shown before the one on which a label stops. -/
def linesBeforeStop : Nat := 1

/-- Adds the marks of a label. A caret is at least one byte wide. -/
def add (f : SourceFile) (m : Marks) (l : Label) : Marks :=
  let first := f.lineAt l.start
  let last := f.lineAt l.stop
  let start := l.start - first.start
  if first.number = last.number then
    { m with
      lines := onLine first.number
        (addCaret ⟨start, max (l.stop - first.start) (start + 1), l.message⟩) m.lines }
  else
    let opened := onLine first.number (addBar ⟨m.lanes, .opening start⟩ true) m.lines
    let inner := (List.range last.number).drop (first.number + 1)
    let crossed := inner.foldl (fun lines number =>
      let near :=
        number - first.number ≤ linesAfterStart || last.number - number ≤ linesBeforeStop
      onLine number (addBar ⟨m.lanes, .through⟩ near) lines) opened
    { lines := onLine last.number (addBar ⟨m.lanes, .closing (l.stop - last.start) l.message⟩ true)
        crossed
      lanes := m.lanes + 1 }

/-- The marks that labels leave in a file. -/
def ofLabels (f : SourceFile) (labels : List Label) : Marks := labels.foldl (add f) {}

/-- The bars on the line of the given number. -/
def barsOn (m : Marks) (number : Nat) : List Bar :=
  match m.lines.find? (·.number = number) with
  | some line => line.bars
  | none => []

end Marks

end CobolFlow
