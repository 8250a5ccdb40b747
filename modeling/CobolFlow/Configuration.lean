import CobolFlow.Decimal.Shortest
import CobolFlow.Document.Mismatch
import CobolFlow.Options
import CobolFlow.Toml.Read

/-!
# Configurations

The options of a build as a TOML document. Keys that mean nothing here are passed over, and what is
not said keeps its default. Options that contradict each other are refused, so that an accepted
configuration can be built with.
-/

namespace CobolFlow

open CobolFlow.Document

namespace Configuration

/-- Why a value does not name a word of a vocabulary. -/
inductive WordMismatch
  /-- A value that is neither a string nor a table. -/
  | notAWord
  /-- A table without a key. -/
  | noKey
  /-- A table with several keys. -/
  | severalKeys
  /-- Tables of a repeated header, beside the word. -/
  | tablesBeside
  /-- An array or a table that is not empty, beside the word. -/
  | contentsBeside
  /-- A plain value, called by its kind, beside the word. -/
  | valueBeside (kind : String)
deriving DecidableEq

def WordMismatch.message : WordMismatch → String
  | .notAWord => "wanted string or table"
  | .noKey => "wanted exactly 1 element, found 0 elements"
  | .severalKeys => "wanted exactly 1 element, more than 1 element"
  | .tablesBeside => "expected empty array"
  | .contentsBeside => "expected empty table"
  | .valueBeside kind => s!"expected table, found {kind}"

/-- Why a configuration is refused. -/
inductive Error
  /-- The text is no TOML document. -/
  | malformed
  | mismatch (m : Mismatch)
  | word (m : WordMismatch)
  | contradiction (c : Options.Contradiction)
deriving DecidableEq

/-- Floating-point numbers are written out in full, whatever their size. -/
def numberStyle : Decimal.Style where
  least := -400
  greatest := 400
  positiveMark := "e"
  negativeMark := "e"

/-- The text of a floating-point number. -/
def floatText (x : Float) : String :=
  if x.isNaN then "NaN"
  else if x.isInf then (if x < 0.0 then "-inf" else "inf")
  else numberStyle.render x

/-- What a value is, for a report that something else was wanted. -/
def found : Toml → Found
  | .string s => .string s
  | .integer n => .integer n
  | .float x => .float (floatText x)
  | .bool b => .bool b
  | .array _ | .tables _ => .sequence
  | .dateTime | .table _ _ => .map

/-- A natural number. -/
def size : Toml → Except Error Nat
  | .integer n =>
    if n < 0 then .error (.mismatch (.invalidValue (.integer n) "usize")) else .ok n.toNat
  | v => .error (.mismatch (.invalidType (found v) "usize"))

variable {α : Type} [Vocabulary α]

/-- The value that a word stands for. -/
def ofWord (w : String) : Except Error α :=
  match Vocabulary.ofWord? w with
  | some a => .ok a
  | none => .error (.mismatch (.unknownWord w (Vocabulary.words α)))

/-- What stands beside a word that is written as a key: nothing that says anything. -/
def checkBeside : Toml → Except Error Unit
  | .array [] | .tables [] | .table _ [] => .ok ()
  | .tables _ => .error (.word .tablesBeside)
  | .array _ | .table _ _ => .error (.word .contentsBeside)
  | .string _ => .error (.word (.valueBeside "string"))
  | .integer _ => .error (.word (.valueBeside "integer"))
  | .float _ => .error (.word (.valueBeside "float"))
  | .bool _ => .error (.word (.valueBeside "boolean"))
  | .dateTime => .error (.word (.valueBeside "datetime"))

/-- A word of a vocabulary: a string, or the only key of a table. -/
def word : Toml → Except Error α
  | .string s => ofWord s
  | .table _ [] => .error (.word .noKey)
  | .table _ [(key, beside)] => do
    let a ← ofWord key
    checkBeside beside
    return a
  | .table _ _ => .error (.word .severalKeys)
  | _ => .error (.word .notAWord)

/-- The options with one more entry. -/
def set (o : Options) (key : String) (value : Toml) : Except Error Options := do
  match key with
  | "mode" => return { o with mode := ← word value }
  | "evaluate" => return { o with evaluate := ← word value }
  | "search" => return { o with search := ← word value }
  | "max_graft_depth" => return { o with maxGraftDepth := ← size value }
  | _ => return o

/-- The options that a document says. -/
def ofEntries (entries : Toml.Entries) : Except Error Options :=
  entries.foldlM (fun o (key, value) => set o key value) {}

/-- Reads a configuration. -/
def read (text : String) : Except Error Options := do
  match Toml.read text with
  | none => .error .malformed
  | some entries =>
    let o ← ofEntries entries
    match o.check with
    | .ok () => return o
    | .error c => .error (.contradiction c)

/-- An accepted configuration does not contradict itself. -/
theorem check_of_read {text : String} {o : Options} (h : read text = .ok o) : o.check = .ok () := by
  unfold read at h
  split at h
  · simp at h
  · simp only [bind, Except.bind] at h
    split at h
    · simp at h
    · split at h
      · simp_all [pure, Except.pure]
      · simp at h

end Configuration

end CobolFlow
