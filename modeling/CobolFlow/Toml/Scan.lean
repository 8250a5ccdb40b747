import CobolFlow.Toml.Value

/-!
# The small parts of TOML

Comments, strings, keys, numbers and times, each read from the beginning of a text. A reader
answers with what it read and the rest, or with nothing if the text does not have the right form.
-/

namespace CobolFlow.Toml

/-- Reads from the beginning of a text. -/
abbrev Scan := StateT (List Char) Option

namespace Scan

/-- Whether the text goes on with the given characters, which are then passed. -/
def accept (word : String) : Scan Bool := fun cs =>
  if word.toList.isPrefixOf cs then some (true, cs.drop word.length) else some (false, cs)

/-- Passes the given characters. -/
def expect (word : String) : Scan Unit := do
  unless ← accept word do failure

/-- What `scan` reads, or nothing where it fails. -/
def optional {α : Type} (scan : Scan α) : Scan (Option α) := fun cs =>
  match scan cs with
  | some (a, rest) => some (some a, rest)
  | none => some (none, cs)

/-- The characters up to the first that is not of the class `p`. -/
def span (p : Char → Bool) : Scan (List Char) := fun cs => some (cs.takeWhile p, cs.dropWhile p)

/-- At least one character of the class `p`. -/
def span1 (p : Char → Bool) : Scan (List Char) := do
  let found ← span p
  if found.isEmpty then failure
  return found

/-! ### Blanks and comments -/

def isBlank (c : Char) : Bool := c = ' ' || c = '\t'

def blanks : Scan Unit := do
  let _ ← span isBlank

/-- A character that may stand in a line: no control character other than a tab. -/
def isPrinted (c : Char) : Bool := c = '\t' || (' ' ≤ c && c ≤ '~') || 0x80 ≤ c.toNat

/-- A comment, if one begins here. -/
def comment : Scan Unit := do
  if ← accept "#" then
    let _ ← span isPrinted

/-- The end of a line, if it is here. -/
def newline : Scan Bool := do
  return (← accept "\n") || (← accept "\r\n")

/-- What may follow an expression in its line, and the end of the line. -/
def lineEnd : Scan Unit := do
  blanks
  comment
  unless (← get).isEmpty do
    unless ← newline do failure

/-- Passes over blanks, comments and line ends. -/
def trivia : Nat → Scan Unit
  | 0 => return
  | fuel + 1 => do
    blanks
    comment
    if ← newline then trivia fuel

/-! ### Strings -/

/-- The character that the letter after a backslash stands for. -/
def letterEscape? (c : Char) : Option Char :=
  match c with
  | 'b' => some '\x08'
  | 't' => some '\t'
  | 'n' => some '\n'
  | 'f' => some '\x0c'
  | 'r' => some '\r'
  | '"' => some '"'
  | '\\' => some '\\'
  | _ => none

def isHexDigit (c : Char) : Bool :=
  c.isDigit || ('a' ≤ c && c ≤ 'f') || ('A' ≤ c && c ≤ 'F')

/-- The value of a hexadecimal digit. -/
def hexValue (c : Char) : Nat :=
  if c.isDigit then c.toNat - '0'.toNat
  else if 'a' ≤ c then c.toNat - 'a'.toNat + 10
  else c.toNat - 'A'.toNat + 10

/-- The number that digits stand for. -/
def ofDigits (base : Nat) (digits : List Char) : Nat :=
  digits.foldl (fun n c => n * base + hexValue c) 0

/-- The character with the number that the next `n` digits give. -/
def numberEscape (n : Nat) : Scan Char := do
  let digits := (← get).take n
  if digits.length < n || !digits.all isHexDigit then failure
  let code := ofDigits 16 digits
  if code < 0xD800 || (0xDFFF < code && code < 0x110000) then
    set ((← get).drop n)
    return Char.ofNat code
  else failure

/-- The character of an escape, after the backslash. -/
def escape : Scan Char := do
  match ← get with
  | 'u' :: rest =>
    set rest
    numberEscape 4
  | 'U' :: rest =>
    set rest
    numberEscape 8
  | c :: rest =>
    set rest
    letterEscape? c
  | [] => failure

/-- The rest of a string between quotes on one line. -/
def basicRest : Nat → Scan (List Char)
  | 0 => failure
  | fuel + 1 => do
    match ← get with
    | '"' :: rest =>
      set rest
      return []
    | '\\' :: rest =>
      set rest
      return (← escape) :: (← basicRest fuel)
    | c :: rest =>
      if isPrinted c then
        set rest
        return c :: (← basicRest fuel)
      else failure
    | [] => failure

/-- A string between quotes on one line. -/
def basic : Scan (List Char) := do
  expect "\""
  basicRest (← get).length

/-- A string between apostrophes on one line, without escapes. -/
def literal : Scan (List Char) := do
  expect "\x27"
  let text ← span fun c => isPrinted c && c ≠ '\''
  expect "\x27"
  return text

/-- A run of quotes within or at the end of a string over several lines, of which three are the end.
Up to two more before them belong to the string. Answers with the quotes that do, and with whether
the string ends. -/
def quoteRun (quote : Char) : Scan (List Char × Bool) := do
  let run := ((← get).takeWhile (· = quote)).length
  if run < 3 then
    set ((← get).drop run)
    return (List.replicate run quote, false)
  else if run ≤ 5 then
    set ((← get).drop run)
    return (List.replicate (run - 3) quote, true)
  else failure

/-- Passes over a line end that is escaped: it and all blanks and line ends after it. -/
def foldedLine : Scan Bool := do
  let before ← get
  blanks
  if ← newline then
    trivialLines (← get).length
    return true
  else
    set before
    return false
where
  /-- Blanks and line ends. -/
  trivialLines : Nat → Scan Unit
    | 0 => return
    | fuel + 1 => do
      blanks
      if ← newline then trivialLines fuel

/-- The rest of a string over several lines between three quotes at each end. `escaped` says whether
a backslash escapes what follows it. -/
def longRest (quote : Char) (escaped : Bool) : Nat → Scan (List Char)
  | 0 => failure
  | fuel + 1 => do
    if ← newline then
      return '\n' :: (← longRest quote escaped fuel)
    else
      match ← get with
      | c :: rest =>
        if c = quote then
          let (text, ended) ← quoteRun quote
          if ended then return text
          else return text ++ (← longRest quote escaped fuel)
        else if c = '\\' && escaped then
          set rest
          if ← foldedLine then longRest quote escaped fuel
          else return (← escape) :: (← longRest quote escaped fuel)
        else if isPrinted c then
          set rest
          return c :: (← longRest quote escaped fuel)
        else failure
      | [] => failure

/-- A string over several lines. A line end right after the opening quotes is not part of it. -/
def long (quote : Char) (escaped : Bool) : Scan (List Char) := do
  expect (String.ofList [quote, quote, quote])
  let _ ← newline
  longRest quote escaped ((← get).length + 1)

def string : Scan String := do
  let chars ←
    match ← get with
    | '"' :: '"' :: '"' :: _ => long '"' true
    | '\'' :: '\'' :: '\'' :: _ => long '\'' false
    | '"' :: _ => basic
    | _ => literal
  return String.ofList chars

/-! ### Keys -/

/-- A character of a key without quotes. -/
def isBare (c : Char) : Bool :=
  c.isDigit || ('a' ≤ c && c ≤ 'z') || ('A' ≤ c && c ≤ 'Z') || c = '_' || c = '-'

def key : Scan String := do
  let chars ←
    match (← get).head? with
    | some '"' => basic
    | some '\'' => literal
    | _ => span1 isBare
  return String.ofList chars

/-- How many keys a dotted key may have. -/
def maxKeys : Nat := 79

/-- A key, or several with dots between them: those before the last, and the last. -/
def dottedKey : Nat → Scan (List String × String)
  | 0 => failure
  | n + 1 => do
    blanks
    let first ← key
    blanks
    if ← accept "." then
      let (keys, last) ← dottedKey n
      return (first :: keys, last)
    else
      return ([], first)

/-! ### Numbers -/

/-- The digits at the beginning of a text, where an underscore may stand between two digits. -/
def digitRun (p : Char → Bool) : List Char → List Char × List Char
  | '_' :: c :: rest =>
    if p c then
      let (digits, rest) := digitRun p rest
      (c :: digits, rest)
    else ([], '_' :: c :: rest)
  | c :: rest =>
    if p c then
      let (digits, rest) := digitRun p rest
      (c :: digits, rest)
    else ([], c :: rest)
  | [] => ([], [])

/-- At least one digit of the class `p`, and more with underscores between them. -/
def digits (p : Char → Bool) : Scan (List Char) := do
  match (← get).head? with
  | some c =>
    if p c then modifyGet (digitRun p)
    else failure
  | none => failure

/-- Digits of which the first is no zero, or a zero. -/
def wholeDigits : Scan (List Char) := do
  if ← accept "0" then return ['0']
  else digits Char.isDigit

/-- Whether a sign makes a number negative. -/
def sign : Scan Bool := do
  if ← accept "-" then return true
  let _ ← accept "+"
  return false

/-- An integer that fits 64 bits. -/
def bounded (n : Int) : Scan Toml :=
  if Int64.minValue.toInt ≤ n && n ≤ Int64.maxValue.toInt then return .integer n else failure

def integer : Scan Toml := do
  if ← accept "0x" then return ← bounded (ofDigits 16 (← digits isHexDigit))
  if ← accept "0o" then
    return ← bounded (ofDigits 8 (← digits fun c => '0' ≤ c && c ≤ '7'))
  if ← accept "0b" then return ← bounded (ofDigits 2 (← digits fun c => c = '0' || c = '1'))
  let negative ← sign
  let n : Int := ofDigits 10 (← wholeDigits)
  bounded (if negative then -n else n)

/-- The floating-point number nearest to `n * 10 ^ e`. -/
def nearest (n : Nat) (e : Int) : Float :=
  let point := (Nat.toDigits 10 n).length + e
  if n = 0 || point < -400 then 0.0
  else if 400 < point then 1.0 / 0.0
  else Float.ofScientific n (e < 0) e.natAbs

/-- The exponent of ten after `e`, if there is one. -/
def exponent : Scan (Option Int) := do
  if (← accept "e") || (← accept "E") then
    let negative ← sign
    let e : Int := ofDigits 10 (← digits Char.isDigit)
    return some (if negative then -e else e)
  else return none

/-- A number with a fraction or an exponent. It must not be too large. -/
def pointed : Scan Toml := do
  let negative ← sign
  let whole ← wholeDigits
  let fraction ← if ← accept "." then some <$> digits Char.isDigit else pure none
  let e ← exponent
  if fraction.isNone && e.isNone then failure
  let places := fraction.getD []
  let x := nearest (ofDigits 10 (whole ++ places)) (e.getD 0 - places.length)
  if negative then return .float (-x)
  else if x.isInf then failure
  else return .float x

/-- The numbers that have names. -/
def named : Scan Toml := do
  let negative ← sign
  let x ← if ← accept "inf" then pure (1.0 / 0.0 : Float) else do
    expect "nan"
    pure (0.0 / 0.0)
  return .float (if negative then -x else x)

/-! ### Dates and times -/

/-- A number of exactly `n` digits within bounds. -/
def numberOf (n least greatest : Nat) : Scan Nat := do
  let digits := (← get).take n
  if digits.length < n || !digits.all Char.isDigit then failure
  let value := ofDigits 10 digits
  if value < least || greatest < value then failure
  set ((← get).drop n)
  return value

def isLeapYear (year : Nat) : Bool := year % 4 = 0 && (year % 100 ≠ 0 || year % 400 = 0)

def daysOf (year month : Nat) : Nat :=
  if month = 2 then (if isLeapYear year then 29 else 28)
  else if month = 4 || month = 6 || month = 9 || month = 11 then 30
  else 31

def date : Scan Unit := do
  let year ← numberOf 4 0 9999
  expect "-"
  let month ← numberOf 2 1 12
  expect "-"
  let _ ← numberOf 2 1 (daysOf year month)

/-- A time of day. Seconds may be one more than sixty allow, and have a fraction. -/
def time : Scan Unit := do
  let _ ← numberOf 2 0 23
  expect ":"
  let _ ← numberOf 2 0 59
  expect ":"
  let _ ← numberOf 2 0 60
  if ← accept "." then
    let _ ← span1 Char.isDigit

/-- How far a time is from universal time, if that is said. -/
def offset : Scan Unit := do
  if (← accept "Z") || (← accept "z") then return
  if (← accept "+") || (← accept "-") then
    let _ ← numberOf 2 0 23
    expect ":"
    let _ ← numberOf 2 0 59

/-- A time after a date. -/
def timeAfterDate : Scan Unit := do
  unless (← accept "T") || (← accept "t") || (← accept " ") do failure
  time
  offset

def dateTime : Scan Toml := do
  if (← optional date).isSome then
    let _ ← optional timeAfterDate
  else
    time
  return .dateTime

/-! ### Plain values -/

/-- A value that is neither an array nor a table. -/
def plain : Scan Toml := do
  match (← get).head? with
  | some '"' | some '\'' => return .string (← string)
  | some 't' =>
    expect "true"
    return .bool true
  | some 'f' =>
    expect "false"
    return .bool false
  | _ => dateTime <|> pointed <|> named <|> integer

end Scan

end CobolFlow.Toml
