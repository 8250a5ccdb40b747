import CobolFlow.Toml.Scan

/-!
# Reading TOML

A document is read line by line: a header opens a table, and every other line adds an entry to the
table that is open. A text that is no TOML document at any place is none at all.

## Main definitions

* `Scan.value` — a value, with arrays and inline tables in it
* `Toml.read` — a whole document
-/

namespace CobolFlow.Toml

namespace Scan

/-- The items of an array, after the bracket that opens it. There may be a comma after the last. -/
def arrayItems (item : Scan Toml) : Nat → Scan (List Toml)
  | 0 => failure
  | fuel + 1 => do
    trivia (← get).length
    if ← accept "]" then return []
    let first ← item
    trivia (← get).length
    if ← accept "," then return first :: (← arrayItems item fuel)
    expect "]"
    return [first]

/-- A key and its value. -/
def entry (item : Scan Toml) : Scan (List String × String × Toml) := do
  let (keys, key) ← dottedKey maxKeys
  expect "="
  blanks
  return (keys, key, ← item)

/-- The entries of an inline table from the first on. No comma may follow the last. -/
def inlineEntries (item : Scan Toml) : Nat → Scan (List (List String × String × Toml))
  | 0 => failure
  | fuel + 1 => do
    let first ← entry item
    blanks
    if ← accept "," then return first :: (← inlineEntries item fuel)
    expect "\x7d"
    return [first]

/-- The rest of an inline table, after the brace that opens it. -/
def inlineTable (item : Scan Toml) : Scan Toml := do
  blanks
  let entries ← if ← accept "\x7d" then pure [] else inlineEntries item (← get).length
  ofInline entries

/-- How many arrays and inline tables may stand in each other. -/
def maxDepth : Nat := 79

/-- A value in which arrays and inline tables stand in each other up to the given depth. -/
def value : Nat → Scan Toml
  | 0 => plain
  | depth + 1 => do
    if ← accept "[" then return .array (← arrayItems (value depth) (← get).length)
    else if ← accept "\x7b" then inlineTable (value depth)
    else plain

/-! ### Documents -/

/-- A document as far as it was read. -/
structure Progress where
  root : Entries := []
  /-- The keys of the table that is open. -/
  header : List String := []

/-- A header, after its first bracket. -/
def header (p : Progress) : Scan Progress := do
  let repeated ← accept "["
  let (keys, key) ← dottedKey maxKeys
  expect (if repeated then "]]" else "]")
  lineEnd
  let root ← if repeated then openNext keys key p.root else openTable keys key p.root
  return { root, header := keys ++ [key] }

/-- A line with an entry. -/
def entryLine (p : Progress) : Scan Progress := do
  let (keys, key, v) ← entry (value maxDepth)
  lineEnd
  return { p with root := ← assignUnder p.header keys key v p.root }

/-- The lines of a document. -/
def lines (p : Progress) : Nat → Scan Progress
  | 0 => return p
  | fuel + 1 => do
    blanks
    match (← get).head? with
    | none => return p
    | some '#' =>
      lineEnd
      lines p fuel
    | some '[' =>
      expect "["
      lines (← header p) fuel
    | some c =>
      if c = '\n' || c = '\r' then
        unless ← newline do failure
        lines p fuel
      else
        lines (← entryLine p) fuel

end Scan

/-- The entries of a document, which may begin with a byte order mark. -/
def read (text : String) : Option Entries :=
  let document : Scan Entries := do
    let _ ← Scan.accept "\uFEFF"
    return (← Scan.lines {} ((← get).length + 1)).root
  match document text.toList with
  | some (entries, []) => some entries
  | _ => none

end CobolFlow.Toml
