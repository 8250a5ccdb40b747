/-!
# TOML documents

The values of a TOML document and how its lines build it up. A table remembers how it came into
being, because that decides what may be added to it later:

* a header `[a.b]` defines `a.b`, once, and needs `a`, which a later header may still define;
* a dotted key `a.b = 1` defines `a`, which only further dotted keys may extend;
* an inline table is complete as it stands.

Entries keep the order in which their keys first came up.
-/

namespace CobolFlow

/-- How a table came into being. -/
inductive TableKind
  /-- By a header of its own. The document itself counts as such. -/
  | defined
  /-- On the way to the table of a header. -/
  | implied
  /-- On the way of a dotted key. -/
  | dotted
  /-- By braces. -/
  | inline
  /-- On the way of a dotted key between braces. -/
  | inlineDotted
deriving DecidableEq

inductive Toml
  | string (s : String)
  | integer (n : Int)
  | float (x : Float)
  | bool (b : Bool)
  /-- A date, a time or both, which are checked but not kept. -/
  | dateTime
  | array (items : List Toml)
  | table (kind : TableKind) (entries : List (String × Toml))
  /-- The tables of all headers `[[a]]` with the same name. -/
  | tables (items : List (List (String × Toml)))

namespace Toml

/-- The entries of a table. -/
abbrev Entries := List (String × Toml)

/-- Gives a key another value in its place. -/
def replace (key : String) (value : Toml) (entries : Entries) : Entries :=
  entries.map fun (k, v) => if k == key then (k, value) else (k, v)

/-- A new value leaves the keys and their order alone. -/
theorem keys_replace (key : String) (value : Toml) (entries : Entries) :
    (replace key value entries).map (·.1) = entries.map (·.1) := by
  simp only [replace, List.map_map]
  congr 1
  funext e
  simp only [Function.comp]
  split <;> simp

/-- In what a path of keys leads to a table. -/
inductive Path
  | header
  | dottedKey
  | inlineKey
deriving DecidableEq

namespace Path

/-- The kind of the tables that a path makes where there are none. -/
def makes : Path → TableKind
  | .header => .implied
  | .dottedKey => .dotted
  | .inlineKey => .inlineDotted

/-- Whether a path may lead through a table. -/
def mayPass : Path → TableKind → Bool
  | .header, .defined | .header, .implied | .header, .dotted => true
  | .dottedKey, .implied | .dottedKey, .dotted => true
  | .inlineKey, .inlineDotted => true
  | _, _ => false

end Path

/-- Changes the table to which a path leads. Of the tables of a repeated header, the last is
meant. -/
def within (path : Path) (change : TableKind → Entries → Option Entries) :
    List String → TableKind → Entries → Option Entries
  | [], kind, entries => change kind entries
  | key :: keys, _, entries =>
    match entries.lookup key with
    | none => do
      let inner ← within path change keys path.makes []
      return entries ++ [(key, .table path.makes inner)]
    | some (.table kind inner) =>
      if path.mayPass kind then do
        return replace key (.table kind (← within path change keys kind inner)) entries
      else none
    | some (.tables items) => do
      let last ← within path change keys .defined (items.getLastD [])
      return replace key (.tables (items.dropLast ++ [last])) entries
    | some _ => none

/-- Adds a new key with its value. A dotted key adds only to what a dotted key has made. -/
def assign (path : Path) (keys : List String) (key : String) (value : Toml) (kind : TableKind)
    (entries : Entries) : Option Entries :=
  within path (fun kind entries =>
    let byDots := kind = .dotted || kind = .inlineDotted
    if byDots == keys.isEmpty || (entries.lookup key).isSome then none
    else some (entries ++ [(key, value)])) keys kind entries

/-- Opens the table of a header. A table that is there has to be one that was only needed on the
way to others. -/
def openTable (keys : List String) (key : String) (root : Entries) : Option Entries :=
  within .header (fun _ entries =>
    match entries.lookup key with
    | none => some (entries ++ [(key, .table .defined [])])
    | some (.table .implied inner) =>
      some (entries.filter (·.1 != key) ++ [(key, .table .defined inner)])
    | some _ => none) keys .defined root

/-- Opens one more table of a repeated header. -/
def openNext (keys : List String) (key : String) (root : Entries) : Option Entries :=
  within .header (fun _ entries =>
    match entries.lookup key with
    | none => some (entries ++ [(key, .tables [[]])])
    | some (.tables items) => some (replace key (.tables (items ++ [[]])) entries)
    | some _ => none) keys .defined root

/-- Adds an entry to the table of the current header. -/
def assignUnder (header keys : List String) (key : String) (value : Toml) (root : Entries) :
    Option Entries :=
  within .header (fun _ entries => assign .dottedKey keys key value .defined entries) header
    .defined root

/-- The table that braces make of the entries between them. -/
def ofInline (items : List (List String × String × Toml)) : Option Toml := do
  let entries ← items.foldlM (fun entries (keys, key, value) =>
    assign .inlineKey keys key value .inline entries) []
  return .table .inline entries

end Toml

end CobolFlow
