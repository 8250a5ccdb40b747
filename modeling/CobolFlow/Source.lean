/-!
# Source positions and procedure names

The two things every later module takes from the source text: where something stands
(`Span`), and how a section or paragraph is referred to (`QualifiedName`).
-/

namespace CobolFlow

/-- A stretch of source text: byte offsets of its two ends, and the line and column, counted
from one, at which it begins. -/
structure Span where
  start : UInt64
  stop : UInt64
  line : UInt32
  column : UInt32
deriving DecidableEq

namespace Span

/-- The position of something that has none. -/
def unknown : Span := ⟨0, 0, 0, 0⟩

instance : Inhabited Span := ⟨unknown⟩

def isEmpty (s : Span) : Bool := s.start == s.stop

end Span

/-- A reference to a section or paragraph with the chain of names that qualifies it, innermost
first: `P IN S` is the name `P` with qualifiers `[S]`. -/
structure QualifiedName where
  name : String
  qualifiers : List String := []
deriving DecidableEq

namespace QualifiedName

/-- Adds an enclosing qualifier at the outer end. -/
def qualify (n : QualifiedName) (outer : String) : QualifiedName :=
  { n with qualifiers := n.qualifiers ++ [outer] }

def isQualified (n : QualifiedName) : Bool := !n.qualifiers.isEmpty

@[simp]
theorem isQualified_qualify (n : QualifiedName) (outer : String) :
    (n.qualify outer).isQualified = true := by
  simp [isQualified, qualify]

/-- The reference as it is written: `P IN S IN PROG`. -/
def display (n : QualifiedName) : String :=
  n.qualifiers.foldl (fun text q => text ++ " IN " ++ q) n.name

end QualifiedName

/-- A closed list of words, each standing for one value of `α`. -/
class Vocabulary (α : Type) where
  /-- The values in the order in which they are listed to a reader. -/
  all : List α
  word : α → String
  /-- Every value is found again by its word. -/
  find_word : ∀ a, all.find? (fun b => word b == word a) = some a

namespace Vocabulary

variable {α : Type} [Vocabulary α]

/-- The value a word stands for. -/
def ofWord? (w : String) : Option α := (all (α := α)).find? fun a => word a == w

variable (α) in
/-- The words of a vocabulary, in listing order. -/
def words : List String := (all (α := α)).map word

@[simp]
theorem ofWord?_word (a : α) : ofWord? (word a) = some a := find_word a

end Vocabulary

end CobolFlow
