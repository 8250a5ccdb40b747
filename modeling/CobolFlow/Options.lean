import CobolFlow.Source

/-!
# Options of a build

How a build lowers decisions, and whether it splices performed ranges in at their call sites.
-/

namespace CobolFlow

/-- What becomes of an out-of-line PERFORM. -/
inductive BuildMode
  /-- Its call site keeps a group of copied blocks beside the graph. -/
  | normal
  /-- The copies are also spliced in at the call site. -/
  | extended
deriving DecidableEq

instance : Vocabulary BuildMode where
  all := [.normal, .extended]
  word
    | .normal => "normal" | .extended => "extended"
  find_word a := by cases a <;> rfl

/-- How EVALUATE and SEARCH become branches. -/
inductive Lowering
  /-- One two-way decision after another, one for each WHEN. -/
  | cascade
  /-- One block that forks into every WHEN at once. -/
  | direct
deriving DecidableEq

instance : Vocabulary Lowering where
  all := [.cascade, .direct]
  word
    | .cascade => "cascade" | .direct => "direct"
  find_word a := by cases a <;> rfl

structure Options where
  mode : BuildMode := .normal
  evaluate : Lowering := .cascade
  search : Lowering := .cascade
  /-- How deep groups are spliced into spliced groups. -/
  maxGraftDepth : Nat := 8
deriving DecidableEq

namespace Options

instance : Inhabited Options := ⟨{}⟩

def isExtended (o : Options) : Bool := o.mode == .extended

def evaluateCascade (o : Options) : Bool := o.evaluate == .cascade

def searchCascade (o : Options) : Bool := o.search == .cascade

/-- Options that contradict each other. -/
inductive Contradiction
  /-- Extended mode with a nesting limit that lets nothing be spliced in. -/
  | noGraftDepth
deriving DecidableEq

def Contradiction.message : Contradiction → String
  | .noGraftDepth =>
    "Invalid configuration: max_graft_depth must be at least 1 in extended mode"

/-- Accepts options that do not contradict each other. -/
def check (o : Options) : Except Contradiction Unit :=
  if o.isExtended && o.maxGraftDepth == 0 then .error .noGraftDepth else .ok ()

end Options

end CobolFlow
