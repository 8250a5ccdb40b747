import CobolFlow.Options

/-!
# Command lines

What can be asked for on the command line, and how a list of arguments asks for it.

A switch is written `--name` or, if it has a letter, `-x`; letters can be run together. A setting is
a switch with a value, which follows as the next argument, after `=`, or right after the letter. The
value that follows as an argument of its own does not begin with a dash. After `--` everything is an
operand.

Switches for every command may stand before or after the name of the command; if a setting stands in
both places, the second counts. In one place no switch comes twice, other than `--verbose`.

## Main definitions

* `Invocation` — what was asked for
* `Invocation.read` — the invocation that a list of arguments spells
-/

namespace CobolFlow.CommandLine

/-- The commands. -/
inductive CommandName
  | dot
  | dump
  | report
  | check
deriving DecidableEq

instance : Vocabulary CommandName where
  all := [.dot, .dump, .report, .check]
  word
    | .dot => "dot" | .dump => "dump" | .report => "report" | .check => "check"
  find_word a := by cases a <;> rfl

/-- What a switch without a value asks for. -/
inductive Flag
  | verbose
  | version
  | help
  | fullInstruction
  | json
  | denyWarnings
deriving DecidableEq

/-- What a switch with a value asks for. -/
inductive Setting
  | config
  | mode
  | evaluate
  | search
  | color
  | program
  | outDir
  | output
  | source
deriving DecidableEq

/-- The meaning of a switch. -/
inductive Meaning
  | flag (f : Flag)
  | setting (s : Setting)
deriving DecidableEq

/-- A switch as it is written. -/
structure Switch where
  name : String
  letter : Option Char := none
  meaning : Meaning

/-- The switches that may stand anywhere. -/
def commonSwitches : List Switch :=
  [⟨"verbose", some 'v', .flag .verbose⟩, ⟨"help", some 'h', .flag .help⟩,
    ⟨"config", none, .setting .config⟩, ⟨"mode", none, .setting .mode⟩,
    ⟨"evaluate", none, .setting .evaluate⟩, ⟨"search", none, .setting .search⟩,
    ⟨"color", none, .setting .color⟩]

/-- The switches that may stand after a command, or before any. -/
def switches : Option CommandName → List Switch
  | none => ⟨"version", some 'V', .flag .version⟩ :: commonSwitches
  | some .dot =>
    ⟨"full-instruction", none, .flag .fullInstruction⟩ ::
      ⟨"program", some 'p', .setting .program⟩ :: ⟨"out-dir", some 'o', .setting .outDir⟩ ::
      commonSwitches
  | some .dump => ⟨"program", some 'p', .setting .program⟩ :: commonSwitches
  | some .report => ⟨"output", some 'o', .setting .output⟩ :: commonSwitches
  | some .check =>
    ⟨"source", none, .setting .source⟩ :: ⟨"json", none, .flag .json⟩ ::
      ⟨"deny-warnings", none, .flag .denyWarnings⟩ :: commonSwitches

/-- Why a list of arguments is no invocation. -/
inductive Stop
  /-- The version was asked for. -/
  | version
  /-- Help was asked for. -/
  | help
  /-- The arguments say nothing that can be done. -/
  | refused
deriving DecidableEq

/-- What was read before or after the name of the command. -/
structure Given where
  flags : List Flag := []
  settings : List (Setting × String) := []
  operands : List String := []

/-- Notes a flag. -/
def Given.addFlag (g : Given) (f : Flag) : Except Stop Given :=
  match f with
  | .version => .error .version
  | .help => .error .help
  | _ =>
    if f ≠ .verbose && g.flags.contains f then .error .refused
    else .ok { g with flags := f :: g.flags }

/-- Whether a setting can have a value. Paths are not empty. -/
def Setting.admits (s : Setting) (value : String) : Bool :=
  match s with
  | .config | .outDir | .output | .source => !value.isEmpty
  | .mode => (Vocabulary.ofWord? value : Option BuildMode).isSome
  | .evaluate | .search => (Vocabulary.ofWord? value : Option Lowering).isSome
  | .color | .program => true

/-- Notes a setting. -/
def Given.addSetting (g : Given) (s : Setting) (value : String) : Except Stop Given :=
  if s.admits value && (g.settings.lookup s).isNone then
    .ok { g with settings := (s, value) :: g.settings }
  else .error .refused

/-- Notes an operand, which is the path of a file. -/
def Given.addOperand (g : Given) (value : String) : Except Stop Given :=
  if value.isEmpty then .error .refused else .ok { g with operands := g.operands ++ [value] }

/-- Takes the next argument as the value of a setting. -/
def takeValue (g : Given) (s : Setting) : List String → Except Stop (Given × List String)
  | [] => .error .refused
  | value :: rest =>
    if value.startsWith "-" && value ≠ "-" then .error .refused
    else return (← g.addSetting s value, rest)

/-- Reads a switch by its name, with what follows a `=` in the same argument. -/
def readLong (known : List Switch) (g : Given) (name : String) (value : Option String)
    (rest : List String) : Except Stop (Given × List String) :=
  match known.find? (·.name == name), value with
  | none, _ => .error .refused
  | some ⟨_, _, .flag f⟩, none => return (← g.addFlag f, rest)
  | some ⟨_, _, .flag _⟩, some _ => .error .refused
  | some ⟨_, _, .setting s⟩, some value => return (← g.addSetting s value, rest)
  | some ⟨_, _, .setting s⟩, none => takeValue g s rest

/-- Reads switches by their letters. What follows the letter of a setting is its value. -/
def readLetters (known : List Switch) (g : Given) (rest : List String) :
    List Char → Except Stop (Given × List String)
  | [] => .ok (g, rest)
  | letter :: letters =>
    match known.find? (·.letter == some letter) with
    | none => .error .refused
    | some ⟨_, _, .flag f⟩ => do readLetters known (← g.addFlag f) rest letters
    | some ⟨_, _, .setting s⟩ =>
      match letters with
      | [] => takeValue g s rest
      | '=' :: value => return (← g.addSetting s (String.ofList value), rest)
      | value => return (← g.addSetting s (String.ofList value), rest)

/-- The name of a switch and the value after `=`. -/
def splitValue (cs : List Char) : String × Option String :=
  match cs.dropWhile (· ≠ '=') with
  | _ :: value => (String.ofList (cs.takeWhile (· ≠ '=')), some (String.ofList value))
  | [] => (String.ofList cs, none)

/-- Reads the arguments before a command, or after one. Answers with what was read and, before a
command, with the command and the arguments after it. Every argument takes one of `fuel`. -/
def readPart (command : Option CommandName) :
    Nat → Given → List String → Except Stop (Given × Option (CommandName × List String))
  | _, g, [] => .ok (g, none)
  | 0, _, _ :: _ => .error .refused
  | fuel + 1, g, arg :: rest =>
    match arg.toList with
    | ['-', '-'] =>
      if command.isNone && !rest.isEmpty then .error .refused
      else return (← rest.foldlM Given.addOperand g, none)
    | '-' :: '-' :: cs => do
      let (name, value) := splitValue cs
      let (g, rest) ← readLong (switches command) g name value rest
      readPart command fuel g rest
    | '-' :: c :: cs => do
      let (g, rest) ← readLetters (switches command) g rest (c :: cs)
      readPart command fuel g rest
    | _ =>
      match command with
      | some _ => do readPart command fuel (← g.addOperand arg) rest
      | none =>
        match (Vocabulary.ofWord? arg : Option CommandName) with
        | some name => .ok (g, some (name, rest))
        | none => .error (if arg = "help" then .help else .refused)

/-- A command with what belongs to it. -/
inductive Command
  | dot (file : String) (fullInstruction : Bool) (program : Option String)
      (outDir : Option String)
  | dump (file : String) (program : Option String)
  | report (files : List String) (output : Option String)
  | check (file : String) (source : Option String) (json : Bool) (denyWarnings : Bool)
deriving DecidableEq

structure Invocation where
  command : Command
  verbose : Bool := false
  /-- The path of the configuration. -/
  config : Option String := none
  mode : Option BuildMode := none
  evaluate : Option Lowering := none
  search : Option Lowering := none
  color : Option String := none
deriving DecidableEq

/-- The command that was given after its name. -/
def Given.command (g : Given) (name : CommandName) : Except Stop Command :=
  let value := fun s => g.settings.lookup s
  match name, g.operands with
  | .dot, [file] =>
    .ok (.dot file (g.flags.contains .fullInstruction) (value .program) (value .outDir))
  | .dump, [file] => .ok (.dump file (value .program))
  | .report, file :: files => .ok (.report (file :: files) (value .output))
  | .check, [file] =>
    .ok (.check file (value .source) (g.flags.contains .json) (g.flags.contains .denyWarnings))
  | _, _ => .error .refused

/-- The invocation that a list of arguments spells. -/
def Invocation.read (args : List String) : Except Stop Invocation := do
  let (before, found) ← readPart none args.length {} args
  match found with
  | none => .error .refused
  | some (name, rest) =>
    let (after, _) ← readPart (some name) rest.length {} rest
    let value := fun s => (after.settings.lookup s).or (before.settings.lookup s)
    return {
      command := ← after.command name
      verbose := before.flags.contains .verbose || after.flags.contains .verbose
      config := value .config
      mode := (value .mode).bind Vocabulary.ofWord?
      evaluate := (value .evaluate).bind Vocabulary.ofWord?
      search := (value .search).bind Vocabulary.ofWord?
      color := value .color }

end CobolFlow.CommandLine
