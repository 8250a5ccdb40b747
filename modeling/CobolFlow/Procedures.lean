import CobolFlow.Graph.Basic

/-!
# The procedures of a division

Sections, paragraphs and sentences in the order of their declaration, and the look-up of a
procedure by its possibly qualified name.

## Names

Names are compared without regard to the case of ASCII letters, and so are qualifiers. A section
that only collects what stands before the first header has a name that no program can write; it is
not listed in the index of names and never qualifies anything.

## Main definitions

* `Procedures` — the catalog: procedures, sentences, and an index of names
* `Procedures.resolve` — what a reference stands for
* `Procedures.sentencesOf`, `Procedures.firstSentence` — the sentences of a procedure, those of a
  section's paragraphs included
-/

namespace CobolFlow

/-- A procedure's number, in the order of declaration. -/
abbrev ProcedureId := Nat

/-- A sentence's number within its division. -/
abbrev SentenceId := Nat

inductive ProcedureKind
  | sectionProcedure | paragraphProcedure
deriving DecidableEq

/-- An element of a procedure's body. -/
inductive Part
  | sentence (id : SentenceId)
  | paragraphPart (id : ProcedureId)
deriving DecidableEq

/-- A section or a paragraph. -/
structure Procedure where
  id : ProcedureId
  name : String
  kind : ProcedureKind
  /-- The section a paragraph belongs to. -/
  owner : Option ProcedureId := none
  /-- In source order. -/
  parts : List Part := []
  declaratives : Bool := false
  span : Span := Span.unknown
deriving DecidableEq

/-- A period-terminated sentence. -/
structure Sentence where
  id : SentenceId
  owner : Option ProcedureId
  /-- The slot that leads into the first block, once there is one. -/
  entry : Option SlotId := none
  /-- The blocks made while the sentence was open, in order. -/
  blocks : List BlockId := []
  declaratives : Bool := false
deriving DecidableEq

def Sentence.firstBlock? (s : Sentence) : Option BlockId := s.blocks.head?

/-- What a reference stands for. -/
inductive Resolution
  | unique (id : ProcedureId)
  | absent
  | ambiguous (candidates : Nat)
deriving DecidableEq

/-- The answer to a list of matches. -/
def Resolution.ofMatches : List ProcedureId → Resolution
  | [] => .absent
  | [only] => .unique only
  | many => .ambiguous many.length

/-- The name of the section that holds what is written before any header. -/
def rootSectionName : String := "<< RootSection >>"

/-- A name with its ASCII letters raised, the form in which names are compared. -/
def foldCase (name : String) : String := name.map Char.toUpper

/-- The procedures declared under each folded name, oldest first. -/
abbrev NameIndex := List (String × List ProcedureId)

namespace NameIndex

/-- Lists a procedure under a folded name. -/
def insert (key : String) (id : ProcedureId) : NameIndex → NameIndex
  | [] => [(key, [id])]
  | (k, ids) :: rest => if k = key then (k, ids ++ [id]) :: rest else (k, ids) :: insert key id rest

/-- The procedures listed under a folded name. -/
def find (index : NameIndex) (key : String) : List ProcedureId := (index.lookup key).getD []

/-- Listing a procedure under a name changes what is listed under that name only. -/
theorem find_insert (index : NameIndex) (key other : String) (id : ProcedureId) :
    (index.insert key id).find other =
      if other = key then index.find key ++ [id] else index.find other := by
  have find_cons (k : String) (ids : List ProcedureId) (rest : NameIndex) (name : String) :
      find ((k, ids) :: rest) name = if name = k then ids else find rest name := by
    by_cases h : name = k
    · simp [find, h]
    · simp [find, List.lookup_cons, h, beq_false_of_ne h]
  induction index with
  | nil => by_cases h : other = key <;> simp [insert, find_cons, h] <;> simp [find]
  | cons entry rest ih =>
    obtain ⟨k, ids⟩ := entry
    by_cases hk : k = key
    · subst hk
      by_cases h : other = k <;> simp [insert, find_cons, h]
    · simp only [insert, hk, if_false, find_cons, ih]
      by_cases h : other = key
      · subst h
        simp [Ne.symm hk]
      · simp [h]

end NameIndex

/-- The procedures and sentences of a division. -/
structure Procedures where
  /-- The name of the program, which can qualify every procedure. -/
  program : Option String := none
  procedures : Array Procedure := #[]
  index : NameIndex := []
  sentences : Array Sentence := #[]
deriving DecidableEq

namespace Procedures

instance : Inhabited Procedures := ⟨{}⟩

/-! ### Reading -/

def procedure (c : Procedures) (p : ProcedureId) : Except Fault Procedure :=
  match c.procedures[p]? with
  | some procedure => .ok procedure
  | none => .error (.missingProcedure p)

def sentence (c : Procedures) (s : SentenceId) : Except Fault Sentence :=
  match c.sentences[s]? with
  | some sentence => .ok sentence
  | none => .error (.missingSentence s)

/-- Whether a procedure bears the name of the implicit section. -/
def isRoot (c : Procedures) (p : ProcedureId) : Except Fault Bool :=
  return (← c.procedure p).name == rootSectionName

/-- The sentence declared right after `s`. -/
def sentenceAfter (c : Procedures) (s : SentenceId) : Option SentenceId :=
  if s + 1 < c.sentences.size then some (s + 1) else none

/-- The sentences of a procedure in the order of declaration, those of its paragraphs included.
A paragraph always follows the section that lists it. -/
def sentencesOf (c : Procedures) (p : ProcedureId) : Except Fault (List SentenceId) :=
  if hp : p < c.procedures.size then do
    let found ← c.procedures[p].parts.mapM fun part =>
      match part with
      | .sentence s => pure [s]
      | .paragraphPart q => if h : p < q then c.sentencesOf q else pure []
    return found.flatten
  else
    .error (.missingProcedure p)
termination_by c.procedures.size - p
decreasing_by lia

/-- The first sentence of a procedure, which may stand in one of its paragraphs. -/
def firstSentence (c : Procedures) (p : ProcedureId) : Except Fault (Option SentenceId) :=
  if hp : p < c.procedures.size then
    c.procedures[p].parts.findSomeM? fun part =>
      match part with
      | .sentence s => pure (some s)
      | .paragraphPart q => if h : p < q then c.firstSentence q else pure none
  else
    .error (.missingProcedure p)
termination_by c.procedures.size - p
decreasing_by lia

/-- The names that can qualify a procedure, innermost first. -/
def ancestors (c : Procedures) (p : ProcedureId) : Except Fault (List String) := do
  let enclosing ←
    match (← c.procedure p).owner with
    | some s => do
      let owner ← c.procedure s
      pure (if owner.name == rootSectionName then [] else [owner.name])
    | none => pure []
  return enclosing ++ c.program.toList

/-- What is left of the qualifiers when each ancestor in turn takes off the next one if it bears
that name. -/
def unmatched (qualifiers : List String) : List String → List String
  | [] => qualifiers
  | name :: outer =>
    match qualifiers with
    | [] => []
    | q :: rest => unmatched (if foldCase q == foldCase name then rest else q :: rest) outer

@[simp]
theorem unmatched_nil (names : List String) : unmatched [] names = [] := by
  cases names <;> rfl

/-- No reference is qualified by more names than enclose a procedure. -/
theorem length_le_of_unmatched {qualifiers names : List String}
    (h : unmatched qualifiers names = []) : qualifiers.length ≤ names.length := by
  induction names generalizing qualifiers with
  | nil => simp [unmatched] at h; simp [h]
  | cons name outer ih =>
    cases qualifiers with
    | nil => simp
    | cons q rest =>
      simp only [unmatched] at h
      split at h
      · simpa using ih h
      · have := ih h
        simp at this ⊢; omega

/-- Whether every qualifier names an ancestor, in order from the innermost outwards. -/
def qualifiesAs (c : Procedures) (qualifiers : List String) (p : ProcedureId) :
    Except Fault Bool :=
  return (unmatched qualifiers (← c.ancestors p)).isEmpty

/-- What a reference stands for: the candidates are those of its name, less those that its
qualifiers rule out. -/
def resolve (c : Procedures) (n : QualifiedName) : Except Fault Resolution := do
  return .ofMatches (← (c.index.find (foldCase n.name)).filterM (c.qualifiesAs n.qualifiers))

/-! ### Changing -/

/-- A change to a catalog that answers with an `α`, or fails on a missing index. -/
abbrev Edit := StateT Procedures (Except Fault)

def modifyProcedure (p : ProcedureId) (f : Procedure → Procedure) : Edit Unit := fun c =>
  if p < c.procedures.size then .ok ((), { c with procedures := c.procedures.modify p f })
  else .error (.missingProcedure p)

def modifySentence (s : SentenceId) (f : Sentence → Sentence) : Edit Unit := fun c =>
  if s < c.sentences.size then .ok ((), { c with sentences := c.sentences.modify s f })
  else .error (.missingSentence s)

/-- Appends a procedure without listing its name. -/
def declare (make : ProcedureId → Procedure) : Edit ProcedureId :=
  modifyGet fun c =>
    (c.procedures.size, { c with procedures := c.procedures.push (make c.procedures.size) })

/-- Lists a procedure under its name. -/
def listName (name : String) (p : ProcedureId) : Edit Unit :=
  modify fun c => { c with index := c.index.insert (foldCase name) p }

def addPart (p : ProcedureId) (part : Part) : Edit Unit :=
  modifyProcedure p fun procedure => { procedure with parts := procedure.parts ++ [part] }

/-- The section for what stands before any header: the first procedure, made when there is
none. -/
def rootSection : Edit ProcedureId := do
  match (← get).procedures[0]? with
  | some root => return root.id
  | none => declare fun id => { id, name := rootSectionName, kind := .sectionProcedure }

def addSection (name : String) (declaratives : Bool) (span : Span) : Edit ProcedureId := do
  let p ← declare fun id => { id, name, kind := .sectionProcedure, declaratives, span }
  listName name p
  return p

def addParagraph (name : String) (owner : Option ProcedureId) (declaratives : Bool) (span : Span) :
    Edit ProcedureId := do
  let p ← declare fun id => { id, name, kind := .paragraphProcedure, owner, declaratives, span }
  if let some s := owner then
    addPart s (.paragraphPart p)
  listName name p
  return p

/-- Opens a sentence as the next part of its owner. -/
def addSentence (owner : Option ProcedureId) (declaratives : Bool) : Edit SentenceId := do
  let s ← modifyGet fun c =>
    (c.sentences.size,
      { c with sentences := c.sentences.push { id := c.sentences.size, owner, declaratives } })
  if let some p := owner then
    addPart p (.sentence s)
  return s

end Procedures

end CobolFlow
