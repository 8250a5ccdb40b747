import CobolFlow.Diagnostic.Ink
import CobolFlow.Diagnostic.Marks
import CobolFlow.Text.Width

/-!
# Snippets

How a marked line of source text is drawn: the line itself, then the carets below it with their
messages, then the ends of the bars that open or close there.

Every drawn line begins with a margin: the number of the line or blanks, a border, and the lanes of
the bars. Columns of the terminal are counted from the first character of the source line.
-/

namespace CobolFlow.Snippet

/-- A character of a line with its place in the line and the columns that it takes. -/
structure Cell where
  char : Char
  start : UInt64
  width : Nat

/-- The offset at which the character ends. -/
def Cell.stop (c : Cell) : UInt64 := c.start + SourceFile.bytes c.char

/-- A tab reaches to the next multiple of this column. -/
def tabWidth : Nat := 4

/-- The cells of a text that begins at the given offset and column. -/
def cellsFrom (start : UInt64) (column : Nat) : List Char → List Cell
  | [] => []
  | c :: rest =>
    let width := if c = '\t' then tabWidth - column % tabWidth else Text.width c
    ⟨c, start, width⟩ :: cellsFrom (start + SourceFile.bytes c) (column + width) rest

def cells (line : List Char) : List Cell := cellsFrom 0 0 line

/-- `n` times the same character. -/
def times (n : Nat) (c : Char) : String := String.ofList (List.replicate n c)

/-- What all lines of a snippet have in common. -/
structure Frame where
  /-- The style of labels. -/
  accent : TextStyle
  /-- The width of the line numbers. -/
  digits : Nat
  lanes : Nat

/-- The style of line numbers and borders. -/
def frameStyle : TextStyle := { hue := some .blue }

/-! ### The margin -/

/-- The place of the line number where there is none. -/
def gutter (digits : Nat) : Ink := .blanks (digits + 1)

/-- A line number, set to the right. -/
def numberGutter (digits number : Nat) : List Ink :=
  let text := toString number
  Ink.styled frameStyle (times (digits - text.length) ' ' ++ text) ++ [.text " "]

def border : List Ink := Ink.styled frameStyle "│"

/-- The lanes, each drawn by what the bar in it says. -/
def lanes (f : Frame) (bars : List Bar) (draw : Nat → Option Arm → List Ink) : List Ink :=
  (List.range f.lanes).flatMap fun lane => draw lane ((bars.find? (·.lane = lane)).map (·.arm))

def emptyLane : List Ink := [.text "  "]

/-- A stroke in a lane. -/
def laneStroke (f : Frame) (stroke : String) : List Ink := .text " " :: Ink.styled f.accent stroke

/-- The lanes below a source line: bars that came from above go on. -/
def plainLanes (f : Frame) (bars : List Bar) : List Ink :=
  lanes f bars fun _ arm =>
    match arm with
    | some .through | some (.closing _ _) => laneStroke f "│"
    | _ => emptyLane

/-- A line below a source line, which has no number. -/
def below (f : Frame) (bars : List Bar) (content : List Ink) : List Ink :=
  gutter f.digits :: border ++ plainLanes f bars ++ content ++ [.text "\n"]

/-! ### The source line -/

/-- How many bytes of a line are blank before anything else. -/
def indent (line : List Char) : UInt64 := SourceFile.size (line.takeWhile Text.isBlank)

/-- Whether a bar opens in front of the text of the line, so that it needs no line of its own. -/
def opensInFront (line : List Char) (start : UInt64) : Bool := start ≤ indent line

/-- Whether two stretches have a byte in common. -/
def overlap (a b c d : UInt64) : Bool := max a c < min b d

/-- Whether a caret is below a cell. -/
def Cell.under (c : Cell) (caret : Caret) : Bool := overlap caret.start caret.stop c.start c.stop

/-- Whether a bar covers a cell. -/
def Cell.within (c : Cell) (bar : Bar) : Bool :=
  match bar.arm with
  | .opening start => start ≤ c.start
  | .through => true
  | .closing stop _ => c.stop ≤ stop

def sourceText (f : Frame) (marks : MarkedLine) (line : List Char) : List Ink :=
  Ink.runs f.accent false ((cells line).map fun c =>
    (marks.carets.any c.under || marks.bars.any c.within,
      if c.char = '\t' then times c.width ' ' else c.char.toString))

def sourceLine (f : Frame) (marks : MarkedLine) (line : List Char) : List Ink :=
  numberGutter f.digits marks.number ++ border ++
    lanes f marks.bars (fun _ arm =>
      match arm with
      | some (.opening start) =>
        if opensInFront line start then laneStroke f "╭" else emptyLane
      | some _ => laneStroke f "│"
      | none => emptyLane) ++
    .text " " :: sourceText f marks line ++ [.text "\n"]

/-! ### Carets -/

/-- The caret whose message can stand behind the carets: the last that reaches as far as any before
it, if it has a message. -/
def lastReaching (carets : List Caret) : Option Nat :=
  (carets.zipIdx.foldl (fun (reach, found) (caret, i) =>
    if reach ≤ caret.stop then
      (caret.stop, if caret.message.isEmpty then none else some i)
    else (reach, found)) ((0 : UInt64), (none : Option Nat))).2

/-- The caret whose message does stand behind the carets: no other may overlap it. -/
def trailing (carets : List Caret) : Option (Nat × Caret) := do
  let i ← lastReaching carets
  let caret ← carets[i]?
  if (carets.eraseIdx i).any fun other =>
      overlap caret.start caret.stop other.start other.stop then none
  else some (i, caret)

/-- The carets whose messages hang below them. -/
def hanging (carets : List Caret) : List Caret :=
  let rest := match trailing carets with
    | some (i, _) => carets.eraseIdx i
    | none => carets
  rest.filter (!·.message.isEmpty)

/-- A row of carets, with a place behind the end of the line. -/
def caretRow (f : Frame) (carets : List Caret) (line : List Char) : List Ink :=
  let reach := (carets.map (·.stop)).foldl max 0
  let behind : Cell := ⟨'\x00', SourceFile.size line, 1⟩
  Ink.runs f.accent false ((cells line ++ [behind]).map fun c =>
    if carets.any c.under then (true, times c.width '^')
    else (false, if c.start < reach then times c.width ' ' else ""))

/-- Strokes that lead from carets to the messages below them. -/
def pointers (f : Frame) (carets : List Caret) (row : List Cell) : List Ink :=
  let reach := (carets.map (·.start)).foldl max 0
  let starts := (hanging carets).map (·.start)
  row.flatMap fun c =>
    let blank := fun n => if c.start ≤ reach then [Ink.blanks n] else []
    if starts.any fun s => c.start ≤ s && s < c.stop then
      Ink.styled f.accent "│" ++ blank (c.width - 1)
    else blank c.width

def caretLines (f : Frame) (marks : MarkedLine) (line : List Char) : List Ink :=
  if marks.carets.isEmpty then []
  else
    let carets := marks.carets
    let message := match trailing carets with
      | some (_, caret) => .text " " :: Ink.styled f.accent caret.message
      | none => []
    let first := below f marks.bars (.text " " :: caretRow f carets line ++ message)
    let hung := hanging carets
    if hung.isEmpty then first
    else
      let row := cells line
      first ++ below f marks.bars (.text " " :: pointers f carets row) ++
        hung.reverse.flatMap fun caret =>
          below f marks.bars
            (.text " " :: pointers f carets (row.takeWhile (·.start < caret.start)) ++
              Ink.styled f.accent caret.message)

/-! ### The ends of bars -/

/-- The lanes of a line on which the bar in the lane `own` ends. Behind its corner an underline
runs to the right; bars that opened in an earlier lane or close in a later one cross. -/
def endLanes (f : Frame) (bars : List Bar) (own : Nat) (corner : String) : List Ink :=
  lanes f bars fun lane arm =>
    let crosses := match arm with
      | some .through => true
      | some (.opening _) => lane < own
      | some (.closing _ _) => own < lane
      | none => false
    if lane = own then laneStroke f corner
    else if lane < own then (if crosses then laneStroke f "│" else emptyLane)
    else if crosses then Ink.styled f.accent "─" ++ Ink.styled f.accent "│"
    else Ink.styled f.accent "──"

/-- The line on which a bar ends: corner, underline up to the offset `stop`, caret, message. -/
def endLine (f : Frame) (bars : List Bar) (own : Nat) (corner : String) (line : List Char)
    (stop : UInt64) (message : String) : List Ink :=
  let underline := ((cells line).takeWhile (·.start < stop)).foldl (fun n c => n + c.width) 0
  let text := if message.isEmpty then "" else " " ++ message
  gutter f.digits :: border ++ endLanes f bars own corner ++
    Ink.styled f.accent (times underline '─' ++ "^" ++ text) ++ [.text "\n"]

def barLines (f : Frame) (marks : MarkedLine) (line : List Char) : List Ink :=
  marks.bars.flatMap fun bar =>
    match bar.arm with
    | .through => []
    | .opening start =>
      if opensInFront line start then []
      else endLine f marks.bars bar.lane "╭" line (start + 1) ""
    | .closing stop message => endLine f marks.bars bar.lane "╰" line stop message

/-- A line of the source and everything below it. What ends the line is not drawn. -/
def draw (f : Frame) (marks : MarkedLine) (line : List Char) : List Ink :=
  let line := Text.dropEnd (fun c => c = '\n' || c = '\r' || c = '\x00') line
  sourceLine f marks line ++ caretLines f marks line ++ barLines f marks line

/-! ### Lines without source text -/

/-- A line of a snippet that holds nothing but its border. -/
def emptyLine (f : Frame) : List Ink := below f [] []

/-- The line that stands for lines left out. -/
def breakLine (f : Frame) (bars : List Bar) : List Ink :=
  gutter f.digits :: Ink.styled frameStyle "·" ++ plainLanes f bars ++ [.text "\n"]

end CobolFlow.Snippet
