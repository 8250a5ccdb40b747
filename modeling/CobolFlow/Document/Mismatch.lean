import CobolFlow.Text.Quoted

/-!
# Documents of the wrong shape

What can be wrong with a document that is well formed: a value of another kind than is wanted
there, a word that is not in the list, a member that is missing or comes twice. The causes are
the same for every format; how a format names the kinds of its values is its own affair.
-/

namespace CobolFlow.Document

/-- A value that was found where another was wanted. -/
inductive Found
  | null
  | bool (b : Bool)
  | integer (n : Int)
  /-- A number with a fraction or too large to be exact, with its text. -/
  | float (text : String)
  | string (s : String)
  | sequence
  | map
deriving DecidableEq

/-- The words for a value that was found. -/
def Found.describe : Found → String
  | .null => "null"
  | .bool b => s!"boolean `{b}`"
  | .integer n => s!"integer `{n}`"
  | .float text => s!"floating point `{text}`"
  | .string s => "string " ++ Text.quoted s
  | .sequence => "sequence"
  | .map => "map"

/-- Why a well-formed document is not accepted. -/
inductive Mismatch
  /-- A value of the wrong kind. -/
  | invalidType (found : Found) (wanted : String)
  /-- A value of the right kind that is out of bounds. -/
  | invalidValue (found : Found) (wanted : String)
  /-- A sequence of the wrong length. -/
  | invalidLength (length : Nat) (wanted : String)
  /-- A word that is none of those allowed. -/
  | unknownWord (word : String) (allowed : List String)
  | missingField (name : String)
  | duplicateField (name : String)
deriving DecidableEq

/-- A list of allowed words: one or two stand by themselves, more are introduced. -/
def allowedWords : List String → String
  | [a] => s!"`{a}`"
  | [a, b] => s!"`{a}` or `{b}`"
  | words => "one of " ++ ", ".intercalate (words.map fun w => s!"`{w}`")

/-- The sentence in which a mismatch is reported. -/
def Mismatch.message : Mismatch → String
  | .invalidType found wanted => s!"invalid type: {found.describe}, expected {wanted}"
  | .invalidValue found wanted => s!"invalid value: {found.describe}, expected {wanted}"
  | .invalidLength length wanted => s!"invalid length {length}, expected {wanted}"
  | .unknownWord word allowed => s!"unknown variant `{word}`, expected {allowedWords allowed}"
  | .missingField name => s!"missing field `{name}`"
  | .duplicateField name => s!"duplicate field `{name}`"

/-- `n` of something, with its plural. -/
def counted (n : Nat) (noun : String) : String :=
  if n = 1 then s!"{n} {noun}" else s!"{n} {noun}s"

end CobolFlow.Document
