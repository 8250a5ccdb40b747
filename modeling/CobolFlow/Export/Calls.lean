import CobolFlow.Build.Replay
import CobolFlow.Export.Listing

/-!
# Call reports

Which programs a program calls: one row for each CALL statement, with the procedure it stands in
and the performed ranges through which it is reached. A CALL has many blocks when it stands in a
range that is performed; it has one row all the same.
-/

namespace CobolFlow

/-- One CALL statement. -/
structure CallRow where
  program : String
  paragraph : String
  callee : String
  /-- The performed ranges that reach the call, separated by semicolons. -/
  performedThrough : String
deriving DecidableEq

/-- What stands for a callee that is not a literal. -/
def dynamicCallee : String := "<dynamic>"

/-- What is known of a CALL while the blocks are gone through. -/
structure CallSite where
  node : NodeId
  paragraph : String
  callee : String
  ranges : List String := []
deriving DecidableEq

namespace CallSite

/-- Adds a range to those that reach a call. -/
def addRange (s : CallSite) (range : Option String) : CallSite :=
  match range with
  | some r => if s.ranges.contains r then s else { s with ranges := s.ranges ++ [r] }
  | none => s

/-- Notes a CALL that stands in a block, which may be a member of the group of a range. -/
def note (g : Graph) (b : Block) (range : Option String) (sites : List CallSite)
    (i : Instruction) : List CallSite :=
  if sites.any (·.node == i.node) then
    sites.map fun s => if s.node = i.node then s.addRange range else s
  else
    let site : CallSite :=
      { node := i.node
        paragraph := b.tag.getD ""
        callee := ((g.nodeInfo i.node).bind (·.callee)).getD dynamicCallee }
    sites ++ [site.addRange range]

/-- Notes every CALL in a block. -/
def noteAll (g : Graph) (range : Option String) (sites : List CallSite) (b : Block) :
    List CallSite :=
  (b.instructions.filter (·.tag == .call)).foldl (note g b range) sites

end CallSite

namespace CallReport

/-- The calls of one graph: first those in blocks that can be reached and are no members, then
those in the members of each group. -/
def sites (g : Graph) : Except Fault (List CallSite) := do
  let members := g.groups.toList.flatMap (·.members)
  let blocks := (← Listing.reachedBlocks g).filter (!members.contains ·.id)
  let reached := blocks.foldl (CallSite.noteAll g none) []
  g.groups.toList.foldlM (fun sites group =>
    group.members.foldlM (fun sites member =>
      return CallSite.noteAll g (some group.range) sites (← g.block member)) sites) reached

/-- The rows of one program. -/
def programRows (p : ProgramFlow) : Except Fault (List CallRow) := do
  return (← sites p.graph).map fun s =>
    { program := p.name
      paragraph := s.paragraph
      callee := s.callee
      performedThrough := ";".intercalate s.ranges }

/-- The rows of all programs. -/
def rows (programs : List ProgramFlow) : Except Fault (List CallRow) := do
  return (← programs.mapM programRows).flatten

/-! ### Comma-separated values -/

/-- A field, between quotes if it holds a comma, a quote or a line break; quotes inside are
doubled. -/
def csvField (s : String) : String :=
  if s.any fun c => c = ',' || c = '"' || c = '\n' || c = '\r' then
    "\"" ++ String.ofList (s.toList.flatMap fun c => if c = '"' then ['"', '"'] else [c]) ++ "\""
  else
    s

def csvLine (fields : List String) : String := ",".intercalate (fields.map csvField) ++ "\n"

/-- The rows under a line with the names of the columns. -/
def csv (rows : List CallRow) : String :=
  csvLine ["program", "paragraph", "callee", "performed_through"] ++
    String.join (rows.map fun r => csvLine [r.program, r.paragraph, r.callee, r.performedThrough])

end CallReport

end CobolFlow
