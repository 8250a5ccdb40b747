import CobolFlow.Export.Listing
import CobolFlow.Procedures
import CobolFlow.Text.Upper

/-!
# Drawings

A graph as a Graphviz drawing. Each block that can be reached is a record of two fields, its title
and its instructions. A call site is followed by a cluster with the members of its group, which is
drawn only once and holds the members that its first one leads to, and by a dashed edge into it.
Members are drawn nowhere else.

A drawing is first made as a list of statements, so that what it declares can be asked of it, and
then written.

## Main definitions

* `Dot.Statement`, `Dot.draw` — a drawing
* `Dot.Statement.declared` — the blocks that a statement declares
* `Dot.render` — the drawing as text
-/

namespace CobolFlow.Dot

/-! ### Labels -/

/-- A character inside a record label: those that mean something there have a backslash before
them, and line breaks become blanks. -/
def escapeChar (c : Char) : List Char :=
  match c with
  | '\\' | '"' | '|' | '<' | '>' | '\x7b' | '\x7d' => ['\\', c]
  | '\n' | '\r' => [' ']
  | _ => [c]

/-- A text inside a record label. -/
def escape (s : String) : String := String.ofList (s.toList.flatMap escapeChar)

/-- What an instruction is shown as: its kind, or in full its source text. -/
def instructionText (g : Graph) (full : Bool) (i : Instruction) : String :=
  if full then
    match (g.nodeInfo i.node).bind (·.text) with
    | some text => escape text
    | none => "<null>"
  else
    i.tag.name

/-- The title of a block: its procedure in upper case, and its number or its part in the graph. -/
def title (b : Block) : String :=
  let name :=
    if b.flags.start then "START"
    else if b.flags.finish then "END"
    else BlockId.display b.id
  match b.tag with
  | some tag =>
    if b.flags.start || tag == rootSectionName then name
    else escape (Text.upper tag) ++ ". " ++ name
  | none => name

/-- The two fields of a record, as they are written. -/
structure Label where
  title : String
  lines : List String

/-- The label of a block. -/
def label (g : Graph) (full : Bool) (b : Block) : Label where
  title := title b
  lines := b.instructions.map (instructionText g full)

/-! ### Drawings -/

inductive Statement
  /-- Declares a block. -/
  | record (block : BlockId) (label : Label)
  /-- An edge of the graph. -/
  | edge (source dest : BlockId)
  /-- The dashed edge from a call site into its group, or to nowhere if the group is empty. -/
  | call (callSite : BlockId) (first : Option BlockId)
  /-- A group, with its caption if it has members. -/
  | cluster (group : GroupId) (caption : Option String) (body : List Statement)

mutual

/-- The blocks that a statement declares, in order. -/
def Statement.declared : Statement → List BlockId
  | .record b _ => [b]
  | .edge _ _ => []
  | .call _ _ => []
  | .cluster _ _ body => declaredIn body

def declaredIn : List Statement → List BlockId
  | [] => []
  | s :: rest => s.declared ++ declaredIn rest

end

/-- A part of a drawing that is being made. -/
structure Part where
  statements : List Statement := []
  /-- Edges that come after all statements of the part. -/
  edges : List Statement := []
  /-- The groups drawn so far. -/
  drawn : List GroupId := []

/-- Adds a part after another. -/
def Part.append (p q : Part) : Part where
  statements := p.statements ++ q.statements
  edges := p.edges ++ q.edges
  drawn := q.drawn

/-- Draws some blocks one after the other. -/
def drawBlocks (drawBlock : List GroupId → Block → Except Fault Part) (drawn : List GroupId)
    (blocks : List Block) : Except Fault Part :=
  blocks.foldlM (fun part block => return part.append (← drawBlock part.drawn block)) { drawn }

/-- The members of a group that its first one leads to, in depth-first order. -/
def connectedMembers (g : Graph) (members : List BlockId) (first : BlockId) :
    Except Fault (List Block) := do
  let w ← g.workStack members.contains (fun block met => .yield (block :: met)) [first]
    (.fresh g.size) []
  return w.state.value.reverse

/-- Draws a block, and after a call site its group unless that is drawn already. Each nesting draws
one more group, so their number is enough of `depth`. -/
def drawBlock (g : Graph) (full : Bool) :
    Nat → List GroupId → Block → Except Fault Part
  | 0, drawn, _ => .ok { drawn }
  | depth + 1, drawn, b => do
    let record := Statement.record b.id (label g full b)
    let edges := (← g.successors b.id).map (Statement.edge b.id)
    match b.group with
    | none => return { statements := [record], edges, drawn }
    | some i =>
      let group ← g.group i
      let call := Statement.call b.id group.first?
      if drawn.contains i then
        return { statements := [record, call], edges, drawn }
      else
        match group.first? with
        | none =>
          return { statements := [record, .cluster i none [], call], edges, drawn := i :: drawn }
        | some first =>
          let caption := escape ((← g.block first).tag.getD "")
          let inner ← drawBlocks (drawBlock g full depth) (i :: drawn)
            (← connectedMembers g group.members first)
          let cluster := Statement.cluster i (some caption) (inner.statements ++ inner.edges)
          return {
            statements := [record, cluster, call]
            edges
            drawn := inner.drawn }

/-- The statements of a graph's drawing. -/
def draw (g : Graph) (full : Bool) : Except Fault (List Statement) := do
  let members := g.groups.toList.flatMap (·.members)
  let blocks := (← Listing.reachedBlocks g).filter (!members.contains ·.id)
  let part ← drawBlocks (drawBlock g full (g.groups.size + 1)) [] blocks
  return part.statements ++ part.edges

/-! ### Text -/

/-- A label as it is written: a record of two fields, each instruction ending its line on the
left. -/
def Label.render (l : Label) : String :=
  "\x7b" ++ l.title ++ "|" ++ String.join (l.lines.map (· ++ "\\l")) ++ "\x7d"

mutual

def Statement.render : Statement → String
  | .record b label => BlockId.display b ++ " [\nlabel = \"" ++ label.render ++ "\"\n]\n"
  | .edge source dest => BlockId.display source ++ " -> " ++ BlockId.display dest ++ "\n"
  | .call callSite (some first) =>
    BlockId.display callSite ++ " -> " ++ BlockId.display first ++
      " [style=dashed, arrowhead=none]\n"
  | .call callSite none =>
    BlockId.display callSite ++ " -> \"\" [style=dashed, arrowhead=none]\n"
  | .cluster group caption body =>
    "subgraph cluster_" ++ GroupId.display group ++ "\x7b\ncolor = blue;\n" ++
      (match caption with
        | some text => "label = \"" ++ text ++ "\";\n"
        | none => "") ++
      renderAll body ++ "\x7d\n"

def renderAll : List Statement → String
  | [] => ""
  | s :: rest => s.render ++ renderAll rest

end

/-- A graph's drawing as text, with the kinds of the instructions or, in full, their texts. -/
def render (g : Graph) (full : Bool) : Except Fault String := do
  return "digraph Cfg \x7b\n" ++ (if g.compound then "compound=true;\n" else "") ++
    "node [\nshape = \"record\"\n]\n\nedge [\narrowtail = \"empty\"\n]\n" ++
    renderAll (← draw g full) ++ "\x7d\n"

end CobolFlow.Dot
