import LiveFormula.CommandLine.Options
import LiveFormula.Live.Config
import LiveFormula.Machine.Run
import LiveFormula.Number.Numeral

/-!
# Commands

Model of `livexpr.main._build_parser`.

The commands of the program and the options of each.

    [-v] parse   EXPR [-f infix|sexp|repr]
    [-v] compile EXPR [-f hex|json|asm|bin] [-o FILE]
    [-v] eval    EXPR [--at T U V]
    [-v] live    [--fps N] [--preview] [--width N] [--height N] [-i FILE] [--no-prompt]
-/

set_option autoImplicit false

namespace LiveFormula.CommandLine

/-- How a tree is printed. -/
inductive TreeFormat
  | parenthesized
  | dump
  | record
  deriving DecidableEq, Repr

/-- How a program is written. -/
inductive ProgramFormat
  | hexadecimal
  | json
  | listing
  | bytes
  deriving DecidableEq, Repr

/-- Prints the tree of a formula. -/
structure ParseCommand where
  text : String := ""
  format : TreeFormat := .parenthesized
  deriving DecidableEq, Repr

/-- Where a program is written. -/
inductive Destination
  | standardOutput
  | file (path : String)
  /-- A file was asked for, but no path was given. -/
  | pathless
  deriving DecidableEq, Repr

/-- Writes the program of a formula. -/
structure CompileCommand where
  text : String := ""
  format : ProgramFormat := .hexadecimal
  output : Destination := .standardOutput
  deriving DecidableEq, Repr

/-- Prints the value of a formula at a point. -/
structure EvalCommand where
  text : String := ""
  point : Point := ⟨.zero false, .zero false, .zero false⟩
  deriving DecidableEq, Repr

/-- Runs a live session. A number is missing if it was asked for without a value. -/
structure LiveCommand where
  rate : Option Int := some ({} : Config).rate
  width : Option Int := some ({} : Config).width
  height : Option Int := some ({} : Config).height
  preview : Bool := false
  prompted : Bool := true
  input : Option String := none
  deriving DecidableEq, Repr

namespace LiveCommand

/-- The settings of the session with given numbers. -/
def configOf (c : LiveCommand) (rate width height : Int) : Config :=
  let usual : Config := {}
  { usual with
    rate, width, height
    preview := c.preview
    prompt := if c.prompted then usual.prompt else "" }

/-- The settings of the session, unless a number is missing. The height is not looked at if the width
is at fault already. -/
def config? (c : LiveCommand) : Option Config :=
  match c.rate, c.width, c.height with
  | some rate, some width, some height => some (c.configOf rate width height)
  | some rate, some width, none => if width ≤ 0 then some (c.configOf rate width 0) else none
  | _, _, _ => none

end LiveCommand

inductive Command
  | parse (command : ParseCommand)
  | compile (command : CompileCommand)
  | eval (command : EvalCommand)
  | live (command : LiveCommand)
  deriving DecidableEq, Repr

/-- What the arguments ask for. -/
structure Invocation where
  verbosity : Nat := 0
  command : Option Command := none
  leftover : List String := []
  deriving DecidableEq, Repr

/-! ## Values of switches -/

/-- A choice that is not among the given ones. -/
def invalidChoice (choices : List String) (text : String) : String :=
  "invalid choice: " ++ Text.quote text ++ " (choose from " ++
    ", ".intercalate (choices.map Text.quote) ++ ")"

/-- One of the given choices. -/
def choice {α : Type} (table : List (String × α)) (text : String) : Except String α :=
  match table.lookup text with
  | some a => .ok a
  | none => .error (invalidChoice (table.map Prod.fst) text)

def integer (text : String) : Except String Int :=
  match Numeral.integer? text.toList with
  | some n => .ok n
  | none => .error ("invalid int value: " ++ Text.quote text)

def number (text : String) : Except String Double :=
  match Numeral.double? text.toList with
  | some x => .ok x
  | none => .error ("invalid float value: " ++ Text.quote text)

/-- A switch with one value, which may be missing. -/
def valueSwitch {σ α : Type} (names : List String) (value : String → Except String α)
    (store : Option α → σ → σ) : Switch σ where
  names
  arity := 1
  action := .update fun values settings =>
    match values with
    | [text] => (value text).map fun a => store (some a) settings
    | _ => .ok (store none settings)

/-- A switch without a value. -/
def flagSwitch {σ : Type} (names : List String) (store : σ → σ) : Switch σ where
  names
  arity := 0
  action := .update fun _ settings => .ok (store settings)

def helpSwitch {σ : Type} : Switch σ := ⟨["-h", "--help"], 0, .help⟩

def versionSwitch {σ : Type} : Switch σ := ⟨["--version"], 0, .version⟩

/-- The formula that a command works on. -/
def formulaOperand {σ : Type} (store : String → σ → σ) : Operand σ where
  name := "EXPR"
  required := true
  takesRest := false
  store values settings :=
    match values with
    | [text] => .ok (store text settings)
    | _ => .ok settings

/-! ## Grammars -/

def treeFormats : List (String × TreeFormat) :=
  [("infix", .parenthesized), ("sexp", .dump), ("repr", .record)]

def programFormats : List (String × ProgramFormat) :=
  [("hex", .hexadecimal), ("json", .json), ("asm", .listing), ("bin", .bytes)]

def parseGrammar : Grammar ParseCommand where
  program := "livexpr parse"
  switches :=
    [helpSwitch,
      valueSwitch ["-f", "--format"] (choice treeFormats) fun format c =>
        { c with format := format.getD .parenthesized }]
  operand := some (formulaOperand fun text c => { c with text })

/-- A hyphen stands for the standard output. -/
def Destination.ofPath : Option String → Destination
  | none => .pathless
  | some path => if path = "-" then .standardOutput else .file path

def compileGrammar : Grammar CompileCommand where
  program := "livexpr compile"
  switches :=
    [helpSwitch,
      valueSwitch ["-f", "--format"] (choice programFormats) fun format c =>
        { c with format := format.getD .hexadecimal },
      valueSwitch ["-o", "--output"] .ok fun path c => { c with output := .ofPath path }]
  operand := some (formulaOperand fun text c => { c with text })

/-- The point at which a formula is evaluated. -/
def pointSwitch : Switch EvalCommand where
  names := ["--at"]
  arity := 3
  action := .update fun values c =>
    match values with
    | [t, u, v] => do
      let t ← number t
      let u ← number u
      let v ← number v
      return { c with point := ⟨t, u, v⟩ }
    | _ => .ok c

def evalGrammar : Grammar EvalCommand where
  program := "livexpr eval"
  switches := [helpSwitch, pointSwitch]
  operand := some (formulaOperand fun text c => { c with text })

/-- An empty or missing path stands for the standard input. -/
def inputOf (path : Option String) : Option String := path.filter fun p => !p.isEmpty

def liveGrammar : Grammar LiveCommand where
  program := "livexpr live"
  switches :=
    [helpSwitch,
      valueSwitch ["--fps"] integer fun rate c => { c with rate },
      flagSwitch ["--preview"] fun c => { c with preview := true },
      valueSwitch ["--width"] integer fun width c => { c with width },
      valueSwitch ["--height"] integer fun height c => { c with height },
      valueSwitch ["-i", "--input"] .ok fun path c => { c with input := inputOf path },
      flagSwitch ["--no-prompt"] fun c => { c with prompted := false }]
  operand := none

/-- The command of a name, read from the arguments behind it, and what is left over. -/
def readCommand (name : String) (args : List String) :
    Option (Except Stop (Command × List String)) :=
  let reading {σ : Type} (g : Grammar σ) (settings : σ) (make : σ → Command) :=
    (g.read args settings).map fun (c, leftover) => (make c, leftover)
  match name with
  | "parse" => some (reading parseGrammar {} .parse)
  | "compile" => some (reading compileGrammar {} .compile)
  | "eval" => some (reading evalGrammar {} .eval)
  | "live" => some (reading liveGrammar {} .live)
  | _ => none

def commandNames : List String := ["parse", "compile", "eval", "live"]

def programName : String := "livexpr"

/-- The answer to the question for the version. -/
def versionText : String := programName ++ " 0.1.0\n"

/-- The command, with its own arguments. -/
def commandOperand : Operand Invocation where
  name := "<command>"
  required := false
  takesRest := true
  store values invocation :=
    match values with
    | [] => .ok invocation
    | name :: args =>
      match readCommand name args with
      | none =>
        .error (.usage programName ("argument <command>: " ++ invalidChoice commandNames name))
      | some (.error stop) => .error stop
      | some (.ok (command, leftover)) => .ok { invocation with command, leftover }

def mainGrammar : Grammar Invocation where
  program := programName
  switches :=
    [helpSwitch, versionSwitch,
      flagSwitch ["-v", "--verbose"] fun i => { i with verbosity := i.verbosity + 1 }]
  operand := some commandOperand

/-- What the arguments ask for. Nothing may be left over. -/
def Invocation.ofArguments (args : List String) : Except Stop Invocation :=
  match mainGrammar.read args {} with
  | .error stop => .error stop
  | .ok (invocation, leftover) =>
    match leftover ++ invocation.leftover with
    | [] => .ok invocation
    | texts =>
      .error (.usage programName ("unrecognized arguments: " ++ " ".intercalate texts))

/-! ## Help -/

/-- The switches and the operand of a grammar in one line. -/
def Grammar.usageLine {σ : Type} (g : Grammar σ) : String :=
  let switches := g.switches.map fun s => "[" ++ "|".intercalate s.names ++
    (if s.arity = 0 then "" else " ...") ++ "]"
  let operands := match g.operand with
    | some o => [if o.takesRest then o.name ++ " ..." else o.name]
    | none => []
  " ".intercalate (["usage:", g.program] ++ switches ++ operands)

def usageLines : List (String × String) :=
  [(mainGrammar.program, mainGrammar.usageLine), (parseGrammar.program, parseGrammar.usageLine),
    (compileGrammar.program, compileGrammar.usageLine),
    (evalGrammar.program, evalGrammar.usageLine), (liveGrammar.program, liveGrammar.usageLine)]

/-- The usage of one of the programs; that of the whole program also lists the commands. -/
def helpText (program : String) : String :=
  let usage := (usageLines.lookup program).getD mainGrammar.usageLine
  if program = programName then
    usage ++ "\n\ncommands:\n" ++
      "  parse      Parse a formula and print the tree.\n" ++
      "  compile    Encode a formula to instruction words.\n" ++
      "  eval       Evaluate a formula with the reference evaluator.\n" ++
      "  live       Read formulas interactively and hot-swap the running program.\n"
  else usage ++ "\n"

end LiveFormula.CommandLine
