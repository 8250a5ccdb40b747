/-!
# Coloured text

Text that is to be shown on a terminal, as a list of strokes: pieces of text and, between them,
changes of style. It can be written without any style or with the escape sequences of a terminal.
-/

namespace CobolFlow

/-- The colours in use. -/
inductive Hue
  | red
  | green
  | yellow
  | blue
  | cyan
deriving DecidableEq

/-- The number of a colour on a terminal. -/
def Hue.number : Hue → Nat
  | .red => 1
  | .green => 2
  | .yellow => 3
  | .blue => 4
  | .cyan => 6

structure TextStyle where
  hue : Option Hue := none
  bold : Bool := false
  bright : Bool := false
deriving DecidableEq

/-- A stroke of coloured text. -/
inductive Ink
  /-- What follows is in this style. -/
  | style (s : TextStyle)
  /-- What follows is in the plain style. -/
  | reset
  | text (s : String)
deriving DecidableEq

namespace Ink

/-- A piece of text in a style of its own. -/
def styled (s : TextStyle) (t : String) : List Ink := [.style s, .text t, .reset]

/-- `n` blanks. -/
def blanks (n : Nat) : Ink := .text (String.ofList (List.replicate n ' '))

/-- The sequence that gives a terminal the code of a style. -/
def escape (code : String) : String := "\x1b[" ++ code ++ "m"

/-- The sequence that sets a colour. The bright ones are the second eight of the palette. -/
def escapeHue (bright : Bool) (h : Hue) : String :=
  if bright then escape s!"38;5;{8 + h.number}" else escape s!"3{h.number}"

/-- The text without its styles. -/
def plain (strokes : List Ink) : String :=
  String.join (strokes.map fun
    | .text s => s
    | _ => "")

/-- The text with the escape sequences of a terminal. A style replaces the one before it. -/
def ansi (strokes : List Ink) : String :=
  String.join (strokes.map fun
    | .text s => s
    | .reset => escape "0"
    | .style s =>
      escape "0" ++ (if s.bold then escape "1" else "") ++
        (s.hue.map (escapeHue s.bright)).getD "")

/-- The text with its styles if `colour` says so. -/
def write (colour : Bool) (strokes : List Ink) : String :=
  if colour then ansi strokes else plain strokes

/-- Text in which some pieces are in the style `s`; `on` says whether the style is set. -/
def runs (s : TextStyle) : Bool → List (Bool × String) → List Ink
  | on, [] => if on then [.reset] else []
  | on, (inStyle, t) :: rest =>
    let change := if inStyle == on then [] else if inStyle then [.style s] else [.reset]
    change ++ .text t :: runs s inStyle rest

private theorem join_append (a b : List String) :
    String.join (a ++ b) = String.join a ++ String.join b := by
  induction a with
  | nil => simp [String.join]
  | cons s rest ih => simp [String.join_cons, ih, String.append_assoc]

@[simp]
theorem plain_append (a b : List Ink) : plain (a ++ b) = plain a ++ plain b := by
  simp [plain]

@[simp]
theorem plain_styled (s : TextStyle) (t : String) : plain (styled s t) = t := by
  simp [plain, styled]

/-- A style changes nothing of the text. -/
theorem plain_runs (s : TextStyle) (on : Bool) (pieces : List (Bool × String)) :
    plain (runs s on pieces) = String.join (pieces.map (·.2)) := by
  induction pieces generalizing on with
  | nil => cases on <;> simp [runs, plain]
  | cons piece rest ih =>
    obtain ⟨inStyle, t⟩ := piece
    cases on <;> cases inStyle <;> simp_all [runs, plain]

end Ink

end CobolFlow
