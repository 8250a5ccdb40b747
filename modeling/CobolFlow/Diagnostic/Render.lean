import CobolFlow.Diagnostic.Snippet
import CobolFlow.Json.Value

/-!
# Written diagnostics

A diagnostic as a reader sees it, with the labelled lines of its source file, and as a JSON value.

A diagnostic is written over one source file, which has the number zero.
-/

namespace CobolFlow

def Severity.hue : Severity → Hue
  | .error => .red
  | .warning => .yellow
  | .note => .green

namespace Diagnostic

/-- Why a diagnostic cannot be written. -/
inductive RenderError
  /-- A label names a file that is not there. -/
  | fileMissing
deriving DecidableEq

/-- How many digits a number has. -/
def digits (n : Nat) : Nat := (toString n).length

/-- The line that says what the diagnostic is. -/
def header (d : Diagnostic) : List Ink :=
  let code := match d.code with
    | some code => if code.isEmpty then "" else "[" ++ code ++ "]"
    | none => ""
  [.style { hue := some d.severity.hue, bold := true, bright := true },
    .text (Vocabulary.word d.severity ++ code), .style { bold := true, bright := true },
    .text (": " ++ d.message), .reset, .text "\n"]

/-- The digits of the largest line number that a label touches. -/
def numberWidth (f : SourceFile) (labels : List Label) : Nat :=
  let touched := labels.flatMap fun l => [(f.lineAt l.start).number, (f.lineAt l.stop).number]
  (touched.map digits).foldl max 0

/-- Where a snippet is said to be: at the label that starts first. -/
def origin (labels : List Label) : UInt64 :=
  match labels with
  | [] => 0
  | l :: rest => rest.foldl (fun least l => min least l.start) l.start

/-- The line above a snippet. -/
def place (f : SourceFile) (frame : Snippet.Frame) (offset : UInt64) : List Ink :=
  let here := f.location offset
  Snippet.gutter frame.digits :: Ink.styled Snippet.frameStyle "┌─" ++
    [.text s!" {f.name}:{here.line}:{here.column}\n"]

/-- The text of a line of the file. -/
def lineText (f : SourceFile) (number : Nat) : List Char :=
  match f.lines[number - 1]? with
  | some line => line.text
  | none => []

/-- The shown lines. A single line that is left out between two is drawn after all, without its
carets; more than one give way to a break. -/
def shownLines (f : SourceFile) (frame : Snippet.Frame) (marks : Marks) : List MarkedLine → List Ink
  | [] => []
  | line :: rest =>
    let drawn := Snippet.draw frame line (lineText f line.number)
    let between := match rest with
      | [] => []
      | next :: _ =>
        if next.number = line.number + 1 then []
        else if next.number = line.number + 2 then
          let skipped : MarkedLine :=
            { number := line.number + 1, bars := marks.barsOn (line.number + 1) }
          Snippet.draw frame skipped (lineText f skipped.number)
        else Snippet.breakLine frame line.bars
    drawn ++ between ++ shownLines f frame marks rest

/-- A note, marked at its first line. -/
def noteLines (frame : Snippet.Frame) (note : String) : List Ink :=
  (Text.lines note.toList).zipIdx.flatMap fun (line, i) =>
    let mark := if i = 0 then Ink.styled Snippet.frameStyle "=" else [.text " "]
    Snippet.gutter frame.digits :: mark ++ [.text (" " ++ String.ofList line ++ "\n")]

/-- The diagnostic for a reader. -/
def render (f : SourceFile) (d : Diagnostic) : Except RenderError (List Ink) :=
  if d.labels.any (·.file ≠ 0) then .error .fileMissing
  else
    let marks := Marks.ofLabels f d.labels
    let frame : Snippet.Frame :=
      { accent := { hue := some d.severity.hue }
        digits := numberWidth f d.labels
        lanes := marks.lanes }
    let snippet :=
      if d.labels.isEmpty then []
      else
        place f frame (origin d.labels) ++ Snippet.emptyLine frame ++
          shownLines f frame marks (marks.lines.filter (·.shown)) ++
          if d.notes.isEmpty then [] else Snippet.emptyLine frame
    .ok (header d ++ snippet ++ d.notes.flatMap (noteLines frame) ++ [.text "\n"])

/-! ### As a JSON value -/

def labelJson (f : SourceFile) (l : Label) : Json :=
  let start := f.location l.start
  let stop := f.location l.stop
  .object
    [("file", .string f.name), ("start_line", .number start.line),
     ("start_column", .number start.column), ("end_line", .number stop.line),
     ("end_column", .number stop.column), ("message", .string l.message),
     ("style", .string "primary")]

/-- The diagnostic as a JSON value. Labels of files that are not there are left out. -/
def toJson (f : SourceFile) (d : Diagnostic) : Json :=
  .object
    [("code", match d.code with
      | some code => .string code
      | none => .null),
     ("severity", .string (Vocabulary.word d.severity)), ("message", .string d.message),
     ("labels", .array ((d.labels.filter (·.file = 0)).map (labelJson f))),
     ("notes", .array (d.notes.map .string))]

end Diagnostic

end CobolFlow
