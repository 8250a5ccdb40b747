import CobolFlow.Graph.Walk

/-!
# Listings

A listing names each block that can be reached, in depth-first order, with the blocks it leads to:
one line `BLOCK[i] -> {a,b}` for each.
-/

namespace CobolFlow.Listing

/-- The blocks that can be reached, in depth-first order. -/
def reachedBlocks (g : Graph) : Except Fault (List Block) := do
  return (← g.dfs (fun block met => .yield (block :: met)) []).reverse

/-- A line of a listing: a block, and where it leads. -/
structure Entry where
  block : BlockId
  successors : List BlockId
deriving DecidableEq

/-- The lines of a graph's listing. -/
def entries (g : Graph) : Except Fault (List Entry) := do
  (← reachedBlocks g).mapM fun block =>
    return { block := block.id, successors := ← g.successors block.id }

/-- A line as it is written. -/
def Entry.line (e : Entry) : List Char :=
  "BLOCK[".toList ++ Nat.toDigits 10 e.block ++ "] -> \x7b".toList ++
    [','].intercalate (e.successors.map (Nat.toDigits 10)) ++ ['\x7d', '\n']

/-- A whole listing as it is written. -/
def render (g : Graph) : Except Fault String := do
  return String.ofList ((← entries g).flatMap Entry.line)

end CobolFlow.Listing
