import LiveFormula.CommandLine.Command
import LiveFormula.CommandLine.Files
import LiveFormula.Expr.Printer
import LiveFormula.Live.Play
import LiveFormula.Live.RenderLoop
import LiveFormula.Sexp.Tree
import LiveFormula.Text.Utf8

/-!
# What a command does

Model of `livexpr.main.cmd_parse`, `cmd_compile`, `cmd_eval` and `cmd_live`.

A command becomes a plan: it finishes with a status and its effects in order, or it writes or reads a
file first and goes on with what came of it. A plan is carried out on a tree of files by
`Plan.execute`.

The status is 0 for success, 1 for a formula that does not compile, and 2 for anything else.
-/

set_option autoImplicit false

namespace LiveFormula.CommandLine

/-- How a command ended, and its effects. -/
structure Outcome where
  status : Nat
  effects : List Effect
  deriving DecidableEq, Repr

namespace Outcome

/-- What was written to the standard output. -/
def outputBytes (o : Outcome) : List UInt8 := o.effects.flatMap Effect.outputBytes

/-- What was written to the standard error. -/
def errorText (verbosity : Nat) (o : Outcome) : String :=
  Effect.joined (Effect.errorText verbosity) o.effects

/-- Success. -/
def success (effects : List Effect) : Outcome := ⟨0, effects⟩

/-- A formula that does not compile. -/
def rejected (text : String) (e : CompileError) : Outcome :=
  let report := e.report text
  ⟨1, (compileEvents text (.error e)).map Effect.log ++
    [.diagnostic (report.render ++ "\n"), .log (.reported report.code.text report.message)]⟩

/-- A failure of another kind. -/
def failed (effects : List Effect) (event : Event) : Outcome := ⟨2, effects ++ [.log event]⟩

end Outcome

inductive Plan
  | finish (outcome : Outcome)
  | write (path : String) (content : List UInt8) (next : Except FileError Unit → Plan)
  /-- Reads a file, or the standard input. -/
  | read (path : Option String) (next : Except FileError (List UInt8) → Plan)

/-- Carries out a plan on a tree of files. -/
def Plan.execute (input : List UInt8) : Plan → FileTree → FileTree × Outcome
  | .finish outcome, t => (t, outcome)
  | .write path content next, t =>
    let (t', result) := t.write path content
    (next result).execute input t'
  | .read none next, t => (next (.ok input)).execute input t
  | .read (some path) next, t => (next (t.read path)).execute input t

namespace Plan

@[simp] theorem execute_finish (input : List UInt8) (outcome : Outcome) (t : FileTree) :
    (finish outcome).execute input t = (t, outcome) := rfl

theorem execute_write (input : List UInt8) (path : String) (content : List UInt8)
    (next : Except FileError Unit → Plan) (t : FileTree) :
    (write path content next).execute input t =
      (next (t.write path content).2).execute input (t.write path content).1 := rfl

theorem execute_read (input : List UInt8) (path : Option String)
    (next : Except FileError (List UInt8) → Plan) (t : FileTree) :
    (read path next).execute input t = (next (path.elim (.ok input) t.read)).execute input t := by
  cases path <;> rfl

end Plan

/-- A file that cannot be used: the event says so, unless the path itself is at fault. -/
def refused (effects : List Effect) (e : FileError) (event : String → Event) : Outcome :=
  if e.isUnhandled then .failed effects (.unhandled e.message)
  else .failed effects (event e.message)

/-! ## Trees -/

def TreeFormat.text (K : Sexp.Codec) : TreeFormat → Expr → String
  | .parenthesized, e => e.parenthesized
  | .dump, e => e.dump K
  | .record, e => e.record

def ParseCommand.plan (K : Sexp.Codec) (c : ParseCommand) : Plan :=
  match parse c.text with
  | .error e => .finish (.rejected c.text (.parse e))
  | .ok e =>
    .finish (.success [.output (c.format.text K e ++ "\n"), .log (.parsed e.nodeCount)])

/-! ## Programs -/

def jsonText (p : Program) : String :=
  "\x7b\"length\": " ++ toString p.length ++ ", \"words\": [" ++
    ", ".intercalate (p.words.map toString) ++ "]\x7d"

def listingText (p : Program) : String :=
  match p.listing with
  | .ok lines => "\n".intercalate lines
  | .error e => e.message

/-- A program in a format. All words of a compiled program have bytes and mnemonics. -/
def ProgramFormat.content : ProgramFormat → Program → List UInt8
  | .hexadecimal, p => ("\n".intercalate (p.words.map Word.hex) ++ "\n").toUTF8.toList
  | .json, p => (jsonText p ++ "\n").toUTF8.toList
  | .listing, p => (listingText p ++ "\n").toUTF8.toList
  | .bytes, p => p.toBytes?.getD []

def CompileCommand.plan (c : CompileCommand) : Plan :=
  match compile c.text with
  | .error e => .finish (.rejected c.text e)
  | .ok p =>
    let events := (compileEvents c.text (.ok p)).map Effect.log
    let content := c.format.content p
    let done := [Effect.log (.compiled p.length)]
    match c.output with
    | .standardOutput => .finish (.success (events ++ [.bytes content] ++ done))
    | .pathless => .finish (refused events .noPath (.outputRefused ""))
    | .file path =>
      .write path content fun
        | .error e => .finish (refused events e (.outputRefused path))
        | .ok _ => .finish (.success (events ++ done))

/-! ## Values -/

variable (P : Primitives)

def EvalCommand.plan (c : EvalCommand) : Plan :=
  match compile c.text with
  | .error e => .finish (.rejected c.text e)
  | .ok p =>
    let events := (compileEvents c.text (.ok p)).map Effect.log
    let installed := Session.empty.install p
    match installed.result with
    | .error e => .finish (.failed events (.unhandled e.report.diagnostic.text))
    | .ok _ =>
      let events := events ++ installed.effects
      match installed.session.evaluator.evaluate P c.point with
      | .error e => .finish (.failed events (.unhandled e.report.diagnostic.text))
      | .ok x => .finish (.success (events ++ [.output (x.text ++ "\n")]))

/-! ## Live sessions -/

/-- A session whose frames all come after the last line. -/
def playText (config : Config) (interval elapsed : Double) (s : Session) (text : List Char) :
    List Effect :=
  .log (.loopStarted interval) ::
    (Live.play P config s ((Text.lines text).map .line) 0 elapsed).2

/-- A session with the given settings on a file or the standard input. -/
def livePlan (elapsed : Double) (config : Config) (input : Option String) : Plan :=
  match config.problems with
  | problem :: problems =>
    .finish ⟨2, (problem :: problems).map fun p => .log (.badSetting p.message)⟩
  | [] =>
    match Live.opening config with
    | .error e => .finish (.rejected config.opening e)
    | .ok (session, effects) =>
      .read input fun
        | .error e => .finish (refused effects e (.inputRefused (input.getD "")))
        | .ok bytes =>
          match RenderLoop.make config.rate with
          | .error e => .finish (.failed effects (.unhandled e.message))
          | .ok loop =>
            .finish (.success (effects ++
              playText P config loop.interval elapsed session (Text.Utf8.readText bytes)))

/-- What is said of a number that is missing. -/
def missingNumber : String := "'<=' not supported between instances of 'list' and 'int'"

def LiveCommand.plan (elapsed : Double) (c : LiveCommand) : Plan :=
  match c.config? with
  | none => .finish (.failed [] (.unhandled missingNumber))
  | some config => livePlan P elapsed config c.input

/-- What a command does; `elapsed` is the time at the last frame of a live session. -/
def Command.plan (K : Sexp.Codec) (elapsed : Double) : Command → Plan
  | .parse c => c.plan K
  | .compile c => c.plan
  | .eval c => c.plan P
  | .live c => c.plan P elapsed

end LiveFormula.CommandLine
