import CobolFlow.Document.Mismatch
import CobolFlow.Json.Draft
import CobolFlow.Source

/-!
# What a JSON document says

Decoders go through a draft in the order of the text and report the first thing wrong with it,
whether the text breaks off, is nested too deep, or says something that is not wanted there.

## Two ways of reading

A value is read *directly* as long as it is known, before anything in it is seen, what it has to
be. A value whose kind depends on one of its own members is *set aside* first: it is checked as a
whole (`Draft.settle`) and decoded afterwards. The two differ in a few of the reports, and in that
nothing is ignored unseen in a value that was set aside.

## Main definitions

* `ReadError` — why a document is refused
* `Decoder` — from a draft at some place to a value
* `Decoder.record` — objects with known members, which may also be written as arrays
* `Decoder.word`, `Decoder.unsigned`, `Decoder.list`, `Decoder.optional` — the other shapes
* `decodeText` — a whole text
-/

namespace CobolFlow.Json

open CobolFlow.Document

/-- Why a document is refused. -/
inductive ReadError
  | mismatch (m : Mismatch)
  | flaw (f : Flaw)
  /-- More containers in each other than allowed. -/
  | tooDeep
deriving DecidableEq

/-- How many containers may stand in each other. -/
def maxDepth : Nat := 127

/-- Where a value stands. -/
structure Place where
  /-- The value was set aside and checked before. -/
  setAside : Bool := false
  /-- How many containers may still be opened. -/
  depth : Nat := maxDepth

/-- Reads a draft at some place. -/
abbrev Decoder (α : Type) := Place → Draft → Except ReadError α

def refuse {α : Type} (m : Mismatch) : Except ReadError α := .error (.mismatch m)

def ofFlaw {α : Type} : Except Flaw α → Except ReadError α
  | .ok a => .ok a
  | .error f => .error (.flaw f)

/-- The place inside a container. -/
def Place.enter (p : Place) : Except ReadError Place :=
  match p.depth with
  | 0 => .error .tooDeep
  | depth + 1 => .ok { p with depth }

namespace Draft

/-- The text of some pieces. -/
def text (pieces : List Piece) : Except ReadError String :=
  return String.ofList (← ofFlaw (spell none pieces))

/-- The error of a broken value. -/
def brokenError {α : Type} (beginning : Beginning) (f : Flaw) : Except ReadError α :=
  match beginning with
  | .string pieces =>
    match spell (some f) pieces with
    | .error f => .error (.flaw f)
    | .ok _ => .error (.flaw f)
  | _ => .error (.flaw f)

/-- What a value is, for a report that something else was wanted. -/
def found : Draft → Except ReadError Found
  | .null => .ok .null
  | .bool b => .ok (.bool b)
  | .number n =>
    match n.value with
    | .natural n => .ok (.integer n)
    | .negative n => .ok (.integer (-n))
    | .float x => .ok (.float (numberStyle.render x))
    | .outOfRange => .error (.flaw .malformed)
  | .string pieces => return .string (← text pieces)
  | .array _ _ => .ok .sequence
  | .object _ _ => .ok .map
  | .broken beginning f => brokenError beginning f

/-- Reports that a value is of the wrong kind. -/
def unwanted {α : Type} (d : Draft) (wanted : String) : Except ReadError α := do
  refuse (.invalidType (← d.found) wanted)

/-- The text of a key. -/
def keyText : Draft → Except ReadError String
  | .string pieces => text pieces
  | .broken (.string pieces) f => brokenError (.string pieces) f
  | _ => .error (.flaw .malformed)

/-! ### Setting aside -/

mutual

/-- Checks a value as a whole: its form, its strings and numbers, and how deep it is nested. -/
def settle (depth : Nat) : Draft → Except ReadError Unit
  | .array items ending =>
    match depth with
    | 0 => .error .tooDeep
    | depth + 1 => do
      settleItems depth items
      ofFlaw (checkEnding ending)
  | .object members ending =>
    match depth with
    | 0 => .error .tooDeep
    | depth + 1 => do
      settleMembers depth members
      ofFlaw (checkEnding ending)
  | d => do
    let _ ← d.found
    return ()

def settleItems (depth : Nat) : List Draft → Except ReadError Unit
  | [] => .ok ()
  | item :: rest => do
    settle depth item
    settleItems depth rest

def settleMembers (depth : Nat) : List (Draft × Draft) → Except ReadError Unit
  | [] => .ok ()
  | (key, value) :: rest => do
    let _ ← keyText key
    settle depth value
    settleMembers depth rest

end

/-- Passes over a value that nobody looks at. -/
def ignore (p : Place) (d : Draft) : Except ReadError Unit :=
  if p.setAside then .ok () else ofFlaw d.inspect

end Draft

namespace Decoder

variable {α : Type}

/-! ### Simple values -/

def string : Decoder String
  | _, .string pieces => Draft.text pieces
  | _, d => d.unwanted "a string"

def bool : Decoder Bool
  | _, .bool b => .ok b
  | _, d => d.unwanted "a boolean"

/-- A natural number below `limit`, which is called by a name. -/
def unsigned (limit : Nat) (name : String) : Decoder Nat
  | _, .number n =>
    match n.value with
    | .natural k => if k < limit then .ok k else refuse (.invalidValue (.integer k) name)
    | .negative k => refuse (.invalidValue (.integer (-k)) name)
    | _ => (Draft.number n).unwanted name
  | _, d => d.unwanted name

/-- A natural number that fits 64 bits. -/
def size : Decoder Nat := unsigned UInt64.size "usize"

/-- A natural number that fits 32 bits. -/
def word32 : Decoder Nat := unsigned UInt32.size "u32"

/-- A value that may be left open by `null`. -/
def optional (decode : Decoder α) : Decoder (Option α)
  | _, .null => .ok none
  | p, d => some <$> decode p d

def list (decode : Decoder α) : Decoder (List α)
  | p, .array items ending => do
    let inner ← p.enter
    let values ← items.mapM (decode inner)
    ofFlaw (Draft.checkEnding ending)
    return values
  | _, d => d.unwanted "a sequence"

/-! ### Words of a vocabulary -/

/-- The value that a word stands for. -/
def ofWord [Vocabulary α] (w : String) : Except ReadError α :=
  match Vocabulary.ofWord? w with
  | some a => .ok a
  | none => refuse (.unknownWord w (Vocabulary.words α))

/-- What the value beside a word has to be, when the word is written as the key of an object. -/
def wordArgument (p : Place) : Draft → Except ReadError Unit
  | .null => .ok ()
  | d =>
    match p.setAside, d with
    | true, .object [] _ => .ok ()
    | _, _ => d.unwanted "unit"

/-- A word of a vocabulary, or an object with the word as its only key. -/
def word [Vocabulary α] : Decoder α
  | _, .string pieces => do ofWord (← Draft.text pieces)
  | p, .object members ending => do
    let inner ← p.enter
    if p.setAside then
      match members with
      | [(key, value)] => do
        let a ← ofWord (← key.keyText)
        wordArgument inner value
        return a
      | _ => refuse (.invalidValue .map "map with a single key")
    else
      match members with
      | (key, value) :: rest => do
        let a ← ofWord (← key.keyText)
        wordArgument inner value
        match rest, ending with
        | [], .closed => return a
        | [], .unfinished => .error (.flaw .endOfText)
        | _, _ => .error (.flaw .malformed)
      | [] => .error (.flaw (if ending = .unfinished then .endOfText else .malformed))
  | p, d =>
    if p.setAside then
      d.unwanted "string or map"
    else
      match d with
      | .broken .nothing f => .error (.flaw f)
      | .broken (.string pieces) f => Draft.brokenError (.string pieces) f
      | _ => .error (.flaw .malformed)

/-! ### Records -/

/-- A member of a record that is being read into a `ρ`. -/
structure RecordField (ρ : Type) where
  name : String
  /-- Whether the record is refused without it. -/
  required : Bool
  isSet : ρ → Bool
  read : ρ → Decoder ρ

/-- A field that is kept in the record once it is read. -/
def field {ρ : Type} (name : String) (required : Bool) (get : ρ → Option α) (put : ρ → α → ρ)
    (decode : Decoder α) : RecordField ρ where
  name := name
  required := required
  isSet r := (get r).isSome
  read r p d := put r <$> decode p d

variable {ρ : Type}

/-- Reads the members of an object one after the other. A known one may not come twice; an unknown
one is passed over. -/
def readMembers (fields : List (RecordField ρ)) (p : Place) :
    List (Draft × Draft) → ρ → Except ReadError ρ
  | [], r => .ok r
  | (key, value) :: rest, r => do
    let name ← key.keyText
    match fields.find? (·.name == name) with
    | some f =>
      if f.isSet r then
        refuse (.duplicateField name)
      else
        readMembers fields p rest (← f.read r p value)
    | none =>
      value.ignore p
      readMembers fields p rest r

/-- Reads the items of an array as the fields in their order. Answers with the fields and the
items that are left. -/
def readItems (p : Place) : List (RecordField ρ) → List Draft → ρ →
    Except ReadError (ρ × List (RecordField ρ) × List Draft)
  | f :: fields, item :: rest, r => do readItems p fields rest (← f.read r p item)
  | fields, items, r => .ok (r, fields, items)

/-- What is wrong after the last field of a record that is written as an array. -/
def checkItemsEnd (p : Place) (fields : Nat) (rest : List Draft) (ending : Ending) :
    Except ReadError Unit :=
  match rest with
  | [] => ofFlaw (if ending = .dangling then .error .malformed else Draft.checkEnding ending)
  | _ :: _ =>
    if p.setAside then
      refuse (.invalidLength (fields + rest.length) (counted fields "element" ++ " in sequence"))
    else
      .error (.flaw .malformed)

/-- Reads the members of an object, of which those required have to be there. `ending` is how the
object ends. -/
def members (fields : List (RecordField ρ)) (start : ρ) (p : Place) (given : List (Draft × Draft))
    (ending : Ending) : Except ReadError ρ := do
  let r ← readMembers fields p given start
  ofFlaw (Draft.checkEnding ending)
  match fields.find? fun f => f.required && !f.isSet r with
  | some f => refuse (.missingField f.name)
  | none => return r

/-- A record: an object with known members, or an array of the fields in their order. -/
def record (name : String) (fields : List (RecordField ρ)) (start : ρ) : Decoder ρ
  | p, .object given ending => do
    let inner ← p.enter
    members fields start inner given ending
  | p, .array items ending => do
    let inner ← p.enter
    let (r, missing, rest) ← readItems inner fields items start
    if missing.isEmpty then
      checkItemsEnd p fields.length rest ending
      return r
    else
      ofFlaw (Draft.checkEnding ending)
      match missing.findIdx? (·.required) with
      | some k =>
        refuse (.invalidLength (fields.length - missing.length + k)
          ("struct " ++ name ++ " with " ++ counted fields.length "element"))
      | none => return r
  | _, d => d.unwanted s!"struct {name}"

end Decoder

/-- Reads a whole text, after which only blanks may follow. -/
def decodeText {α : Type} (decode : Decoder α) (cs : List Char) : Except ReadError α := do
  let (draft, after) := Draft.read cs
  let a ← decode {} draft
  match after.map skipBlanks with
  | some [] => return a
  | _ => .error (.flaw .malformed)

end CobolFlow.Json
