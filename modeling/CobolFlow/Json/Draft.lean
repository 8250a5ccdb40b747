import CobolFlow.Json.Numeral

/-!
# Reading JSON

Reading never fails. A text that breaks off or goes wrong is read up to that point: the `Draft` of
a value holds everything before the flaw, in the order of the text, and says what the flaw is. What
is read from a draft can then report the first thing wrong with a text, be it the form or the
content, by going through it in order.

A draft keeps the text's own detail where it matters who asks. Numbers keep their digits, and
strings their escapes, because a value that nobody looks at may hold an escape that is no
character or a number that is out of range.

## Main definitions

* `Draft` — a value as far as it could be read
* `Draft.read` — the value at the beginning of a text, and the rest
* `Draft.inspect` — what is wrong with the form of a value that nobody looks at
-/

namespace CobolFlow.Json

/-- What is wrong with the form of a text. -/
inductive Flaw
  | endOfText
  | malformed
deriving DecidableEq

/-- An element of a written string. -/
inductive Piece
  | char (c : Char)
  /-- An escape that gives a 16-bit unit by its number. -/
  | unit (n : Nat)
deriving DecidableEq

/-- What a value that went wrong had begun as. -/
inductive Beginning
  /-- No value begins here. -/
  | nothing
  | word
  | number
  | string (pieces : List Piece)
deriving DecidableEq

/-- How the items of an array or the members of an object end. -/
inductive Ending
  | closed
  /-- The text ends where a comma or the closing bracket could stand. -/
  | unfinished
  /-- The text ends after a comma. -/
  | dangling
  | malformed
deriving DecidableEq

/-- A value as far as it could be read. Where something is broken nothing follows. -/
inductive Draft
  | null
  | bool (b : Bool)
  | number (n : Numeral)
  | string (pieces : List Piece)
  | array (items : List Draft) (ending : Ending)
  | object (members : List (Draft × Draft)) (ending : Ending)
  | broken (beginning : Beginning) (flaw : Flaw)

/-! ### Strings -/

def isLeading (n : Nat) : Bool := 0xD800 ≤ n && n < 0xDC00

def isTrailing (n : Nat) : Bool := 0xDC00 ≤ n && n < 0xE000

/-- The text that some pieces spell, where units outside the basic plane come in pairs. `flaw` is
what is wrong after the last piece, if anything is. -/
def spell (flaw : Option Flaw) : List Piece → Except Flaw (List Char)
  | [] =>
    match flaw with
    | none => .ok []
    | some f => .error f
  | .char c :: rest => return c :: (← spell flaw rest)
  | .unit n :: rest =>
    if isTrailing n then
      .error .malformed
    else if isLeading n then
      match rest with
      | .unit m :: rest =>
        if isTrailing m then
          return Char.ofNat (0x10000 + (n - 0xD800) * 0x400 + (m - 0xDC00)) :: (← spell flaw rest)
        else
          .error .malformed
      | [] => .error (flaw.getD .malformed)
      | _ => .error .malformed
    else
      return Char.ofNat n :: (← spell flaw rest)

/-- The value of a hexadecimal digit. -/
def hexValue? (c : Char) : Option Nat :=
  if '0' ≤ c && c ≤ '9' then some (c.toNat - '0'.toNat)
  else if 'a' ≤ c && c ≤ 'f' then some (c.toNat - 'a'.toNat + 10)
  else if 'A' ≤ c && c ≤ 'F' then some (c.toNat - 'A'.toNat + 10)
  else none

/-- The character that an escape by a letter stands for. -/
def letterEscape? (c : Char) : Option Char :=
  match c with
  | '"' => some '"'
  | '\\' => some '\\'
  | '/' => some '/'
  | 'b' => some '\x08'
  | 'f' => some '\x0c'
  | 'n' => some '\n'
  | 'r' => some '\r'
  | 't' => some '\t'
  | _ => none

/-- The number of bytes of a text, counted up to `limit`. -/
def bytesUpTo (limit : Nat) : List Char → Nat
  | [] => 0
  | c :: rest =>
    if limit ≤ c.utf8Size then limit else c.utf8Size + bytesUpTo (limit - c.utf8Size) rest

/-- The rest of a string after its opening quote: its pieces, and what follows the closing quote
or the flaw in it. An escape by number takes four bytes, whatever they are. -/
def scanString : List Char → List Piece × Except Flaw (List Char)
  | [] => ([], .error .endOfText)
  | '"' :: rest => ([], .ok rest)
  | '\\' :: 'u' :: rest =>
    match rest with
    | a :: b :: c :: d :: rest =>
      match hexValue? a, hexValue? b, hexValue? c, hexValue? d with
      | some a, some b, some c, some d =>
        let (pieces, after) := scanString rest
        (.unit (((a * 16 + b) * 16 + c) * 16 + d) :: pieces, after)
      | _, _, _, _ => ([], .error .malformed)
    | short => ([], .error (if bytesUpTo 4 short < 4 then .endOfText else .malformed))
  | ['\\'] => ([], .error .endOfText)
  | '\\' :: letter :: rest =>
    match letterEscape? letter with
    | some c =>
      let (pieces, after) := scanString rest
      (.char c :: pieces, after)
    | none => ([], .error .malformed)
  | c :: rest =>
    if c.toNat < 0x20 then
      ([], .error .malformed)
    else
      let (pieces, after) := scanString rest
      (.char c :: pieces, after)

/-! ### Numbers and words -/

/-- At least one digit, and what follows the digits. -/
def scanDigits (cs : List Char) : Except Flaw (List Char × List Char) :=
  match cs with
  | [] => .error .endOfText
  | c :: _ =>
    if c.isDigit then .ok (cs.takeWhile Char.isDigit, cs.dropWhile Char.isDigit)
    else .error .malformed

/-- The digits before the point: a zero, or digits that do not begin with one. -/
def scanWhole (cs : List Char) : Except Flaw (List Char × List Char) :=
  match cs with
  | '0' :: rest => if rest.head?.any Char.isDigit then .error .malformed else .ok (['0'], rest)
  | _ => scanDigits cs

def scanFraction (n : Numeral) (cs : List Char) : Except Flaw (Numeral × List Char) :=
  match cs with
  | '.' :: rest => do
    let (digits, rest) ← scanDigits rest
    return ({ n with fraction := digits, pointed := true }, rest)
  | _ => .ok (n, cs)

def scanExponent (n : Numeral) (cs : List Char) : Except Flaw (Numeral × List Char) :=
  match cs with
  | e :: rest =>
    if e = 'e' || e = 'E' then do
      let (negative, rest) :=
        match rest with
        | '-' :: rest => (true, rest)
        | '+' :: rest => (false, rest)
        | _ => (false, rest)
      let (digits, rest) ← scanDigits rest
      return ({ n with exponent := some (negative, digits) }, rest)
    else
      .ok (n, cs)
  | [] => .ok (n, cs)

/-- A number, and what follows it. -/
def scanNumber (cs : List Char) : Except Flaw (Numeral × List Char) := do
  let (negative, cs) :=
    match cs with
    | '-' :: rest => (true, rest)
    | _ => (false, cs)
  let (whole, cs) ← scanWhole cs
  let (n, cs) ← scanFraction { negative, whole } cs
  scanExponent n cs

/-- What follows a word that has to stand here. -/
def scanWord : List Char → List Char → Except Flaw (List Char)
  | [], cs => .ok cs
  | _ :: _, [] => .error .endOfText
  | w :: word, c :: cs => if c = w then scanWord word cs else .error .malformed

/-! ### Values -/

def isBlank (c : Char) : Bool := c = ' ' || c = '\t' || c = '\n' || c = '\r'

def skipBlanks (cs : List Char) : List Char := cs.dropWhile isBlank

namespace Draft

/-- A word that stands for `d`. -/
def ofWord (d : Draft) (word : String) (cs : List Char) : Draft × Option (List Char) :=
  match scanWord word.toList cs with
  | .ok rest => (d, some rest)
  | .error f => (.broken .word f, none)

/-- A string, after its opening quote. -/
def ofString (cs : List Char) : Draft × Option (List Char) :=
  match scanString cs with
  | (pieces, .ok rest) => (.string pieces, some rest)
  | (pieces, .error f) => (.broken (.string pieces) f, none)

def ofNumber (cs : List Char) : Draft × Option (List Char) :=
  match scanNumber cs with
  | .ok (n, rest) => (.number n, some rest)
  | .error f => (.broken .number f, none)

mutual

/-- The value at the beginning of a text, and what follows it unless something is broken. Two for
every character are enough of `fuel`. -/
def readValue (fuel : Nat) (cs : List Char) : Draft × Option (List Char) :=
  match fuel with
  | 0 => (.broken .nothing .malformed, none)
  | fuel + 1 =>
    match skipBlanks cs with
    | [] => (.broken .nothing .endOfText, none)
    | '"' :: rest => ofString rest
    | '[' :: rest =>
      let (items, ending, after) := readItems fuel true rest
      (.array items ending, after)
    | '{' :: rest =>
      let (members, ending, after) := readMembers fuel true rest
      (.object members ending, after)
    | 'n' :: rest => ofWord .null "ull" rest
    | 't' :: rest => ofWord (.bool true) "rue" rest
    | 'f' :: rest => ofWord (.bool false) "alse" rest
    | c :: rest =>
      if c = '-' || c.isDigit then ofNumber (c :: rest) else (.broken .nothing .malformed, none)

/-- The items of an array up to its closing bracket, at the first item or after a comma. -/
def readItems (fuel : Nat) (first : Bool) (cs : List Char) :
    List Draft × Ending × Option (List Char) :=
  match fuel with
  | 0 => ([], .malformed, none)
  | fuel + 1 =>
    match skipBlanks cs with
    | [] => ([], if first then .unfinished else .dangling, none)
    | ']' :: rest => if first then ([], .closed, some rest) else ([], .malformed, none)
    | cs =>
      let (item, after) := readValue fuel cs
      match after.map skipBlanks with
      | none => ([item], .malformed, none)
      | some [] => ([item], .unfinished, none)
      | some (']' :: rest) => ([item], .closed, some rest)
      | some (',' :: rest) =>
        let (items, ending, after) := readItems fuel false rest
        (item :: items, ending, after)
      | some _ => ([item], .malformed, none)

/-- The members of an object up to its closing brace, at the first member or after a comma. A key
has to be a string; where another value begins in its place, the object is malformed. -/
def readMembers (fuel : Nat) (first : Bool) (cs : List Char) :
    List (Draft × Draft) × Ending × Option (List Char) :=
  match fuel with
  | 0 => ([], .malformed, none)
  | fuel + 1 =>
    match skipBlanks cs with
    | [] => ([], if first then .unfinished else .dangling, none)
    | '}' :: rest => if first then ([], .closed, some rest) else ([], .malformed, none)
    | '"' :: rest =>
      let (key, after) := ofString rest
      match after.map skipBlanks with
      | some (':' :: rest) =>
        let (value, after) := readValue fuel rest
        match after.map skipBlanks with
        | none => ([(key, value)], .malformed, none)
        | some [] => ([(key, value)], .unfinished, none)
        | some ('}' :: rest) => ([(key, value)], .closed, some rest)
        | some (',' :: rest) =>
          let (members, ending, after) := readMembers fuel false rest
          ((key, value) :: members, ending, after)
        | some _ => ([(key, value)], .malformed, none)
      | some [] => ([(key, .broken .nothing .endOfText)], .malformed, none)
      | _ => ([(key, .broken .nothing .malformed)], .malformed, none)
    | _ => ([], .malformed, none)

end

/-- The value at the beginning of a text, and what follows it unless something is broken. -/
def read (cs : List Char) : Draft × Option (List Char) := readValue (2 * cs.length + 2) cs

/-! ### Values that nobody looks at -/

/-- What is wrong with the end of a container, if anything is. -/
def checkEnding : Ending → Except Flaw Unit
  | .closed => .ok ()
  | .unfinished | .dangling => .error .endOfText
  | .malformed => .error .malformed

/-- What is wrong with the form of a key: it has to be a string. -/
def inspectKey : Draft → Except Flaw Unit
  | .string _ => .ok ()
  | .broken (.string _) f => .error f
  | _ => .error .malformed

mutual

/-- The first flaw in the form of a value whose content does not matter. -/
def inspect : Draft → Except Flaw Unit
  | .array items ending => do
    inspectItems items
    checkEnding ending
  | .object members ending => do
    inspectMembers members
    checkEnding ending
  | .broken .number _ => .error .malformed
  | .broken _ f => .error f
  | _ => .ok ()

def inspectItems : List Draft → Except Flaw Unit
  | [] => .ok ()
  | item :: rest => do
    inspect item
    inspectItems rest

def inspectMembers : List (Draft × Draft) → Except Flaw Unit
  | [] => .ok ()
  | (key, value) :: rest => do
    inspectKey key
    inspect value
    inspectMembers rest

end

end Draft

end CobolFlow.Json
