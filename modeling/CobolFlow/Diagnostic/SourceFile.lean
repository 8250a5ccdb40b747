import CobolFlow.Source
import CobolFlow.Text.Lines

/-!
# Source files

A source text by lines, and the line and column in which an offset lies. Offsets count bytes;
lines and columns count from one, and a column is a character.

No offset is out of bounds: one beyond the end of the text lies in its last line, behind the last
character.
-/

namespace CobolFlow

/-- A line of a source text, with the line feed that ends it. -/
structure SourceLine where
  number : Nat
  start : UInt64
  text : List Char

/-- A named source text. -/
structure SourceFile where
  name : String
  lines : List SourceLine

namespace SourceFile

/-- How many bytes a character takes in a source text. -/
def bytes (c : Char) : UInt64 := c.utf8Size.toUInt64

/-- How many bytes a piece of text takes. -/
def size (s : List Char) : UInt64 := s.foldl (fun n c => n + bytes c) 0

/-- Numbers lines from `number` on and lays them out from the offset `start`. -/
def layOut (number : Nat) (start : UInt64) : List (List Char) → List SourceLine
  | [] => []
  | line :: rest => ⟨number, start, line⟩ :: layOut (number + 1) (start + size line) rest

def ofText (name text : String) : SourceFile :=
  ⟨name, layOut 1 0 (Text.cutLines text.toList)⟩

/-- The line in which an offset lies: the last that begins at or before it. -/
def lineAt (f : SourceFile) (offset : UInt64) : SourceLine :=
  (f.lines.takeWhile (·.start ≤ offset)).getLastD ⟨1, 0, []⟩

/-- How many characters of a text that begins at `start` end at or before `offset`. -/
def charsBefore (offset start : UInt64) : List Char → Nat
  | [] => 0
  | c :: rest =>
    if start + bytes c ≤ offset then charsBefore offset (start + bytes c) rest + 1 else 0

/-- A line and a column. -/
structure Location where
  line : Nat
  column : Nat

def location (f : SourceFile) (offset : UInt64) : Location :=
  let line := f.lineAt offset
  ⟨line.number, charsBefore offset line.start line.text + 1⟩

end SourceFile

end CobolFlow
