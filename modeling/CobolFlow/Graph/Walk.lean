import CobolFlow.Graph.Basic

/-!
# Walks through a graph

Depth-first search in two forms, recursive and with a stack of its own, and what is read off a
graph by walking it: the blocks where a walk ends, and the predecessors of every block.

A search carries a state through the blocks it meets. What it does at a block says, as in a `for`
loop, whether to go on (`ForInStep.yield`) or to leave the whole walk (`ForInStep.done`).

## Main definitions

* `Graph.dfs`, `Graph.dfsFrom` — depth-first search from every root, or from one block
* `Graph.dfsStack` — the same search with an explicit stack
* `Graph.terminals`, `Graph.terminalsWithin` — blocks without a way on
* `Graph.predecessors` — the edges read backwards

## Termination

A walk marks a block when it first meets it and never unmarks one. The nesting of the recursive
search is therefore at most the number of blocks; a step of a stack walk either marks a block, or
leaves the marks alone and shortens the stack.
-/

namespace CobolFlow

/-- The blocks that a walk has met, by index. -/
abbrev Seen := Array Bool

namespace Seen

/-- Nothing met yet, in a graph of `n` blocks. -/
def fresh (n : Nat) : Seen := Array.replicate n false

/-- Whether a block was met. -/
def met (seen : Seen) (b : BlockId) : Except Fault Bool :=
  match seen[b]? with
  | some m => .ok m
  | none => .error (.missingBlock b)

/-- The number of blocks still to be met. -/
def unmet (seen : Seen) : Nat := seen.count false

theorem unmet_set_lt (seen : Seen) (b : BlockId) (h : b < seen.size) (hb : seen[b] = false) :
    unmet (seen.set b true) < unmet seen := by
  have hpos : 0 < seen.count false := Array.count_pos_iff.2 (hb ▸ Array.getElem_mem h)
  have hset : (seen.set b true).count false = seen.count false - 1 := by
    simp [Array.count_set, hb]
  unfold unmet
  omega

end Seen

namespace Graph

variable {σ : Type}

/-- Where a walk stands: what it has met, and its state or the state it was left with. -/
structure Walk (σ : Type) where
  seen : Seen
  state : ForInStep σ

/-! ### Depth-first search -/

/-- Visits `b` and, through its edges in order, all that is not yet met. `depth` bounds the
nesting of visits; as each marks one more block, the number of blocks is bound enough. -/
def visitFrom (g : Graph) (visit : Block → σ → ForInStep σ) :
    Nat → BlockId → Seen → σ → Except Fault (Walk σ)
  | 0, _, seen, s => .ok ⟨seen, .yield s⟩
  | depth + 1, b, seen, s => do
    let block ← g.block b
    let seen := seen.setIfInBounds b true
    match visit block s with
    | .done s => return ⟨seen, .done s⟩
    | .yield s =>
      block.successors.foldlM (fun w slot => do
        match w.state with
        | .done _ => return w
        | .yield s =>
          let next ← g.target slot
          if ← w.seen.met next then
            return w
          else
            visitFrom g visit depth next w.seen s) ⟨seen, .yield s⟩

/-- Depth-first search from a single block. -/
def dfsFrom (g : Graph) (visit : Block → σ → ForInStep σ) (start : BlockId) (s : σ) :
    Except Fault σ := do
  return (← g.visitFrom visit g.size start (.fresh g.size) s).state.value

/-- Depth-first search from every root, in the order of the roots. -/
def dfs (g : Graph) (visit : Block → σ → ForInStep σ) (s : σ) : Except Fault σ := do
  let w ← g.roots.foldlM (fun w root => do
    match w.state with
    | .done _ => return w
    | .yield s =>
      if ← w.seen.met root then
        return w
      else
        g.visitFrom visit g.size root w.seen s) (⟨.fresh g.size, .yield s⟩ : Walk σ)
  return w.state.value

/-- The targets of some slots that may be entered and are not yet met. -/
def unmetTargets (g : Graph) (enter : BlockId → Bool) (seen : Seen) (slots : List SlotId) :
    Except Fault (List BlockId) := do
  ((← slots.mapM g.target).filter enter).filterM fun next => return !(← seen.met next)

/-- Works a stack of blocks off, pushing what each one leads to as far as it may be entered. -/
def workStack (g : Graph) (enter : BlockId → Bool) (visit : Block → σ → ForInStep σ)
    (stack : List BlockId) (seen : Seen) (s : σ) : Except Fault (Walk σ) :=
  match stack with
  | [] => .ok ⟨seen, .yield s⟩
  | b :: rest =>
    if h : b < seen.size then
      if hb : seen[b] then
        workStack g enter visit rest seen s
      else do
        let block ← g.block b
        let seen' := seen.set b true
        match visit block s with
        | .done s => return ⟨seen', .done s⟩
        | .yield s =>
          let next ← g.unmetTargets enter seen' block.successors
          workStack g enter visit (next ++ rest) seen' s
    else
      .error (.missingBlock b)
termination_by (seen.unmet, stack.length)
decreasing_by
  · exact Prod.Lex.right _ (Nat.lt_succ_self _)
  · exact Prod.Lex.left _ _ (Seen.unmet_set_lt seen b h (by simpa using hb))

/-- Depth-first search from every root with an explicit stack. -/
def dfsStack (g : Graph) (visit : Block → σ → ForInStep σ) (s : σ) : Except Fault σ := do
  let w ← g.roots.foldlM (fun w root => do
    match w.state with
    | .done _ => return w
    | .yield s => g.workStack (fun _ => true) visit [root] w.seen s)
      (⟨.fresh g.size, .yield s⟩ : Walk σ)
  return w.state.value

/-- The numbers of the blocks a search meets, in the order of the visits; the search is left once
it has met `limit` blocks. -/
def visitOrder (search : (Block → List BlockId → ForInStep (List BlockId)) → List BlockId →
    Except Fault (List BlockId)) (limit : Option Nat) : Except Fault (List BlockId) := do
  let met ← search (fun block met =>
    let met := block.id :: met
    if limit.any (· ≤ met.length) then .done met else .yield met) []
  return met.reverse

/-! ### Where a walk ends -/

/-- Works a stack of blocks off, collecting those without successors. -/
def collectTerminals (g : Graph) (stop : Option BlockId) (stack : List BlockId) (seen : Seen)
    (found : List BlockId) : Except Fault (List BlockId) :=
  match stack with
  | [] => .ok found.reverse
  | b :: rest =>
    if h : b < seen.size then
      if hb : seen[b] || some b == stop then
        collectTerminals g stop rest seen found
      else do
        let block ← g.block b
        let seen' := seen.set b true
        if block.successors.isEmpty then
          collectTerminals g stop rest seen' (b :: found)
        else
          collectTerminals g stop ((← block.successors.mapM g.target) ++ rest) seen' found
    else
      .error (.missingBlock b)
termination_by (seen.unmet, stack.length)
decreasing_by
  · exact Prod.Lex.right _ (Nat.lt_succ_self _)
  all_goals
    refine Prod.Lex.left _ _ (Seen.unmet_set_lt seen b h ?_)
    simp only [Bool.or_eq_true, not_or] at hb
    simpa using hb.1

/-- The blocks without successors that can be reached from `start` without entering `stop`. -/
def terminals (g : Graph) (start : BlockId) (stop : Option BlockId) :
    Except Fault (List BlockId) :=
  g.collectTerminals stop [start] (.fresh g.size) []

/-- The members from which no edge leads to a member, in the order given. -/
def terminalsWithin (g : Graph) (members : List BlockId) : Except Fault (List BlockId) :=
  members.filterM fun member => do
    let leads ← (← g.block member).successors.anyM fun slot =>
      return members.contains (← g.target slot)
    return !leads

/-! ### Predecessors -/

/-- For each block the blocks that lead to it, each once, in block order. -/
def predecessors (g : Graph) : Except Fault (Array (List BlockId)) :=
  g.blocks.foldlM (fun table block => do
    (← g.successors block.id).foldlM (fun table next => do
      match table[next]? with
      | some known =>
        if known.contains block.id then
          return table
        else
          return table.setIfInBounds next (known ++ [block.id])
      | none => throw (.missingBlock next)) table) (Array.replicate g.size [])

end Graph

end CobolFlow
