import CobolFlow.Node

/-!
# Basic blocks

A block holds a run of instructions and a list of *edge slots*. A slot is an index into the edge
pool of the graph, not a block: several blocks may share one, and a copy of a block can be given
slots of its own without any other block being touched.

## Main definitions

* `BlockFlags` — the six marks a block can carry
* `Block`, `Block.detachedCopy` — a block, and its copy without edges
* `Group` — the private copy of a performed range, kept for one call site
-/

namespace CobolFlow

/-- A block's index in its graph. -/
abbrev BlockId := Nat

/-- An edge slot: an index into the edge pool. -/
abbrev SlotId := Nat

/-- The number of a performed group. -/
abbrev GroupId := Nat

/-- A block's number as it is shown. -/
def BlockId.display (b : BlockId) : String := s!"Block{b}"

/-- A group's number as it is shown. -/
def GroupId.display (i : GroupId) : String := s!"{i}"

/-- The marks of a block. -/
structure BlockFlags where
  /-- Where the procedure division is entered. -/
  start : Bool := false
  /-- Where the procedure division is left. -/
  finish : Bool := false
  /-- The last instruction always leaves: GO TO, NEXT SENTENCE, STOP RUN and the like. -/
  ending : Bool := false
  /-- The branch that WHEN OTHER or AT END opens. -/
  default : Bool := false
  /-- Made inside the DECLARATIVES. -/
  declaratives : Bool := false
  /-- A call site whose group was spliced in. -/
  grafted : Bool := false
deriving DecidableEq

namespace BlockFlags

def none : BlockFlags := {}

instance : Inhabited BlockFlags := ⟨none⟩

def isEmpty (f : BlockFlags) : Bool := f == none

def union (f g : BlockFlags) : BlockFlags where
  start := f.start || g.start
  finish := f.finish || g.finish
  ending := f.ending || g.ending
  default := f.default || g.default
  declaratives := f.declaratives || g.declaratives
  grafted := f.grafted || g.grafted

def difference (f g : BlockFlags) : BlockFlags where
  start := f.start && !g.start
  finish := f.finish && !g.finish
  ending := f.ending && !g.ending
  default := f.default && !g.default
  declaratives := f.declaratives && !g.declaratives
  grafted := f.grafted && !g.grafted

/-- Whether `f` carries every mark of `g`. -/
def contains (f g : BlockFlags) : Bool := g.difference f == none

/-- The marks as a sum of powers of two, in the order of the fields. -/
def bits (f : BlockFlags) : Nat :=
  f.start.toNat + 2 * f.finish.toNat + 4 * f.ending.toNat + 8 * f.default.toNat +
    16 * f.declaratives.toNat + 32 * f.grafted.toNat

/-- The marks that go by a name. -/
def ofName? (name : String) : Option BlockFlags :=
  match name with
  | "NONE" => some none
  | "START" => some { start := true }
  | "END" => some { finish := true }
  | "ENDING" => some { ending := true }
  | "DEFAULT" => some { default := true }
  | "DECLARATIVES" => some { declaratives := true }
  | "GROUP_GRAFTED" => some { grafted := true }
  | _ => Option.none

@[simp]
theorem union_none (f : BlockFlags) : f.union none = f := by
  cases f; simp [union, none]

theorem union_comm (f g : BlockFlags) : f.union g = g.union f := by
  simp [union, Bool.or_comm]

theorem union_assoc (f g h : BlockFlags) : (f.union g).union h = f.union (g.union h) := by
  simp [union, Bool.or_assoc]

@[simp]
theorem union_self (f : BlockFlags) : f.union f = f := by
  cases f; simp [union]

theorem bits_lt (f : BlockFlags) : f.bits < 64 := by
  obtain ⟨a, b, c, d, e, i⟩ := f
  cases a <;> cases b <;> cases c <;> cases d <;> cases e <;> cases i <;> decide

theorem contains_iff (f g : BlockFlags) : f.contains g = true ↔ f.union g = f := by
  obtain ⟨a, b, c, d, e, i⟩ := f
  obtain ⟨a', b', c', d', e', i'⟩ := g
  simp only [contains, difference, union, none, beq_iff_eq, mk.injEq]
  cases a <;> cases b <;> cases c <;> cases d <;> cases e <;> cases i <;> simp

theorem contains_none (f : BlockFlags) : f.contains none = true := by
  cases f; rfl

theorem contains_union_left (f g : BlockFlags) : (f.union g).contains f = true := by
  obtain ⟨a, b, c, d, e, i⟩ := f
  obtain ⟨a', b', c', d', e', i'⟩ := g
  cases a <;> cases b <;> cases c <;> cases d <;> cases e <;> cases i <;>
    simp [union, contains, difference, none]

end BlockFlags

/-- A statement as a block remembers it. -/
structure Instruction where
  node : NodeId
  tag : NodeTag
deriving DecidableEq

/-- A basic block. -/
structure Block where
  /-- The block's own index, as it is shown. -/
  id : BlockId
  /-- In the order of execution. -/
  instructions : List Instruction := []
  /-- The slots of the outgoing edges, in the order in which they are tried. -/
  successors : List SlotId := []
  flags : BlockFlags := {}
  /-- The enclosing paragraph or section. -/
  tag : Option String := none
  /-- The performed group, when the block is the call site of an out-of-line PERFORM. -/
  group : Option GroupId := none
deriving DecidableEq

namespace Block

instance : Inhabited Block := ⟨{ id := 0 }⟩

def isCallSite (b : Block) : Bool := b.group.isSome

def append (b : Block) (i : Instruction) : Block :=
  { b with instructions := b.instructions ++ [i] }

/-- Adds a slot at the end of the successors. -/
def addSuccessor (b : Block) (s : SlotId) : Block :=
  { b with successors := b.successors ++ [s] }

def mark (b : Block) (f : BlockFlags) : Block := { b with flags := b.flags.union f }

/-- The block under a new index, with everything but its edges. -/
def detachedCopy (b : Block) (id : BlockId) : Block := { b with id := id, successors := [] }

end Block

/-- The performed range of one call site, as private copies of its blocks. -/
structure Group where
  id : GroupId
  /-- The block that holds the PERFORM. -/
  callSite : BlockId
  /-- The PERFORM statement. -/
  node : NodeId
  /-- The range as written. -/
  range : String
  /-- The copies, in the order in which their originals are declared. -/
  members : List BlockId := []
  /-- The members from which no edge leads to a member. -/
  terminals : List BlockId := []
  /-- The range reaches its own call site. -/
  recursive : Bool := false
  /-- Not spliced in because the nesting limit was reached. -/
  truncated : Bool := false
deriving DecidableEq

namespace Group

def isEmpty (g : Group) : Bool := g.members.isEmpty

def first? (g : Group) : Option BlockId := g.members.head?

end Group

end CobolFlow
