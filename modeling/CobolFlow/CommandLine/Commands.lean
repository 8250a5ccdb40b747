import CobolFlow.CommandLine.Arguments
import CobolFlow.CommandLine.Storage
import CobolFlow.Configuration
import CobolFlow.Diagnostic.Render
import CobolFlow.Export.Calls
import CobolFlow.Export.Dot
import CobolFlow.Tree.Script
import CobolFlow.Tree.Decode

/-!
# Commands

What the commands do, over any storage. A command that fails keeps what it has said and written up
to then.

## Main definitions

* `Failure`, `Failure.message` — why a command fails
* `Invocation.options` — the options of a build: defaults, configuration, command line
* `run` — what a list of arguments comes to
-/

namespace CobolFlow.CommandLine

/-- Why a command fails. -/
inductive Failure
  | load (path : String)
  | read (path : String)
  | parse (path : String)
  | create (path : String)
  | write (path : String)
  | render
  | noProgram (name : String)
  | reported (count : Nat)
  /-- A graph that points at nothing. -/
  | fault
deriving DecidableEq

def Failure.message : Failure → String
  | .load path => s!"Failed to load {path}"
  | .read path => s!"Failed to read {path}"
  | .parse path => s!"Failed to parse statement tree {path}"
  | .create path => s!"Failed to create {path}"
  | .write path => s!"Failed to write {path}"
  | .render => "Failed to render diagnostic"
  | .noProgram name => s!"No program named '{name}'"
  | .reported count => s!"{count} diagnostic(s) reported"
  | .fault => "Inconsistent graph"

/-- Whether something outside the program is behind a failure. -/
def Failure.hasCause : Failure → Bool
  | .noProgram _ | .reported _ | .fault => false
  | _ => true

/-- The code with which a failed command exits. -/
def Failure.exitCode : Failure → Nat
  | .fault => 101
  | _ => 1

/-- What a terminal is known to show. -/
structure Terminal where
  /-- Colours are not wanted. -/
  noColor : Bool := false
  /-- What the terminal calls itself. -/
  name : Option String := none

/-- Whether to write colours: never where they are not wanted, then as the command line says, then
if the terminal is one that shows them. -/
def Terminal.colored (t : Terminal) (choice : Option String) : Bool :=
  if t.noColor then false
  else if choice = some "always" then true
  else if choice = some "never" then false
  else t.name.isSome && t.name ≠ some "dumb"

/-- What a command says. -/
structure Output where
  out : String := ""
  err : String := ""

/-- A command at work. -/
abbrev Work (m : Type → Type) := ExceptT Failure (StateT Output m)

variable {m : Type → Type} [Monad m]

def say (text : String) : Work m Unit := modify fun o => { o with out := o.out ++ text }

def complain (text : String) : Work m Unit := modify fun o => { o with err := o.err ++ text }

/-- The result of a computation on graphs. -/
def sound {α : Type} : Except Fault α → Work m α
  | .ok a => return a
  | .error _ => throw .fault

variable [Storage m]

/-- The text of a file. -/
def textOf (path : String) : Work m String := do
  match ← (Storage.readFile path : m _) with
  | some text => return text
  | none => throw (.read path)

/-! ### Options and programs -/

/-- Options that the command line overrides. -/
def Invocation.override (i : Invocation) (o : Options) : Options :=
  { o with
    mode := i.mode.getD o.mode
    evaluate := i.evaluate.getD o.evaluate
    search := i.search.getD o.search }

/-- The configuration that is used, where it is there, when none is named. -/
def defaultConfig : String := "cobcfg.toml"

/-- The options that the configuration at a path says. -/
def loadOptions (path : String) : Work m Options := do
  match ← (Storage.readFile path : m _) with
  | none => throw (.load path)
  | some text =>
    match Configuration.read text with
    | .ok o => return o
    | .error _ => throw (.load path)

/-- The options of a build: those of the configuration, or else the defaults, overridden by the
command line. -/
def Invocation.options (i : Invocation) : Work m Options := do
  match i.config with
  | some path => return i.override (← loadOptions path)
  | none =>
    if ← (Storage.isThere defaultConfig : m _) then
      return i.override (← loadOptions defaultConfig)
    else
      return i.override {}

/-- Builds the programs of a file. -/
def Invocation.build (i : Invocation) (file : String) : Work m (List ProgramFlow) := do
  let o ← i.options
  let text ← textOf file
  match StatementTree.ofJson text.toList with
  | .ok tree => sound (tree.build o)
  | .error _ => throw (.parse file)

/-- The programs of a name, which is compared without regard to case in the letters of ASCII. -/
def select (programs : List ProgramFlow) : Option String → Work m (List ProgramFlow)
  | none => return programs
  | some name => do
    let selected := programs.filter fun p => p.name.toLower == name.toLower
    if selected.isEmpty then throw (.noProgram name)
    return selected

/-! ### The commands -/

def dot (i : Invocation) (file : String) (full : Bool) (program outDir : Option String) :
    Work m Unit := do
  let programs ← select (← i.build file) program
  if let some folder := outDir then
    unless ← (Storage.makeFolder folder : m _) do throw (.create folder)
  programs.forM fun p => do
    let text ← sound (Dot.render p.graph full)
    match outDir with
    | some folder =>
      let path := joinPath folder (p.name ++ ".dot")
      unless ← (Storage.writeFile path text : m _) do throw (.write path)
    | none =>
      if 1 < programs.length then say s!"// {p.name}\n"
      say text

def dump (i : Invocation) (file : String) (program : Option String) : Work m Unit := do
  let programs ← select (← i.build file) program
  programs.forM fun p => do
    if 1 < programs.length then say s!"{p.name}:\n"
    say (← sound (Listing.render p.graph))

def report (i : Invocation) (files : List String) (output : Option String) : Work m Unit := do
  let programs := (← files.mapM i.build).flatten
  let rows ← sound (CallReport.rows programs)
  match output with
  | some path =>
    unless ← (Storage.writeFile path (CallReport.csv rows) : m _) do throw (.create path)
  | none => say (CallReport.csv rows)

/-- A diagnostic on one line, with its notes below it. -/
def brief (program : String) (d : Diagnostic) : List Ink :=
  let header := match d.code with
    | some code => "warning[" ++ code ++ "]"
    | none => "warning"
  Ink.styled { hue := some .yellow, bold := true } header ++
    Ink.styled { bold := true } (": " ++ d.message) ++
    Ink.styled { hue := some .cyan } (" (" ++ program ++ ")") ++
    .text "\n" :: d.notes.map fun note => .text ("  = " ++ note ++ "\n")

/-- One line on a program: how much there is of it, and how many diagnostics. -/
def summary (p : ProgramFlow) : List Ink :=
  let badge := if p.problems.isEmpty then
      Ink.styled { hue := some .green, bold := true } " ok "
    else
      Ink.styled { hue := some .yellow, bold := true } " warn "
  let counts := s!": {p.graph.size} blocks, {p.graph.groups.size} groups, " ++
    s!"{p.problems.length} diagnostics\n"
  badge ++ Ink.styled { bold := true } p.name ++ [.text counts]

def check (i : Invocation) (colored : Bool) (file : String) (source : Option String)
    (json denyWarnings : Bool) : Work m Unit := do
  let programs ← i.build file
  let sourceFile ← match source with
    | some path => do pure (SourceFile.ofText path (← textOf path))
    | none => pure (SourceFile.ofText file "")
  let found := programs.flatMap fun p =>
    p.problems.map fun problem => (p.name, Diagnostic.ofProblem problem 0)
  if json then
    say ((Json.array (found.map fun (_, d) => d.toJson sourceFile)).toPrettyText ++ "\n")
  else
    found.forM fun (program, d) =>
      if source.isSome then
        match d.render sourceFile with
        | .ok ink => complain (Ink.write colored ink)
        | .error _ => throw .render
      else
        say (Ink.write colored (brief program d))
    programs.forM fun p => say (Ink.write colored (summary p))
  if denyWarnings && !found.isEmpty then throw (.reported found.length)

def Invocation.perform (i : Invocation) (colored : Bool) : Work m Unit :=
  match i.command with
  | .dot file full program outDir => dot i file full program outDir
  | .dump file program => dump i file program
  | .report files output => report i files output
  | .check file source json denyWarnings => check i colored file source json denyWarnings

/-! ### Running -/

/-- What running a list of arguments comes to. -/
structure Outcome where
  exit : Nat := 0
  out : String := ""
  err : String := ""
  failure : Option Failure := none
  /-- A log was asked for. -/
  verbose : Bool := false

def version : String := "cobcfg 0.2.0\n"

def usage : String :=
  "Control flow graphs for COBOL procedure divisions\n\n" ++
  "Usage: cobcfg [OPTIONS] <COMMAND>\n\n" ++
  "Commands:\n" ++
  "  dot FILE       Write the graph of each program as Graphviz DOT\n" ++
  "  dump FILE      Print block successors in depth-first order\n" ++
  "  report FILE... List CALL statements together with the PERFORM ranges reaching them\n" ++
  "  check FILE     Build the graphs and report unresolved references\n"

/-- Runs a list of arguments. -/
def run (terminal : Terminal) (args : List String) : m Outcome := do
  match Invocation.read args with
  | .error .version => return { out := version }
  | .error .help => return { out := usage }
  | .error .refused => return { exit := 2 }
  | .ok i =>
    let (result, output) ← (i.perform (terminal.colored i.color) : Work m Unit).run {}
    let done : Outcome := { out := output.out, err := output.err, verbose := i.verbose }
    match result with
    | .ok () => return done
    | .error failure => return { done with exit := failure.exitCode, failure := some failure }

end CobolFlow.CommandLine
