import LiveFormula.CommandLine.Plan
import LiveFormula.Sexp.Reader

/-!
# The program

Model of `livexpr.main.main`.

Carries out plans on the real files and streams. A live session on the standard input is carried out
line by line, with a frame after each line.
-/

set_option autoImplicit false

namespace LiveFormula.CommandLine

/-- Shows effects as they come. -/
def perform (verbosity : Nat) (effects : List Effect) : IO Unit := do
  let out ← IO.getStdout
  let err ← IO.getStderr
  for effect in effects do
    out.write ⟨effect.outputBytes.toArray⟩
    err.putStr (effect.errorText verbosity)
  out.flush
  err.flush

/-- The cause of a failure of the system. -/
def fileError (path : String) : IO.Error → FileError
  | .noFileOrDirectory .. => .missing path
  | .alreadyExists .. => .occupied path
  | .inappropriateType _ 20 _ => .notDirectory path
  | .invalidArgument _ 36 _ => .tooLong path
  | .inappropriateType .. => .isDirectory path
  | e => .other (toString e)

/-- The absolute path of a path to write to. -/
def absolutePath (text : String) : IO (Except FileError Path) := do
  let here := pathNames (← IO.currentDir).toString
  let home ← IO.getEnv "HOME"
  return FileTree.resolve ⟨here, home.map pathNames, []⟩ text

/-- Tries an action on a path. -/
def attempt {α : Type} (path : String) (action : IO α) : IO (Except FileError α) := do
  try return .ok (← action)
  catch e => return .error (fileError path e)

def writeFile (text : String) (content : List UInt8) : IO (Except FileError Unit) := do
  match ← absolutePath text with
  | .error e => return .error e
  | .ok path =>
    let parent := Path.text path.dropLast
    match ← attempt parent (IO.FS.createDirAll parent) with
    | .error e => return .error e
    | .ok _ => attempt path.text (IO.FS.writeBinFile path.text ⟨content.toArray⟩)

def readFile (path : String) : IO (Except FileError (List UInt8)) := do
  if FileTree.hasNull path then return .error .nullByte
  attempt path do return (← IO.FS.readBinFile path).data.toList

/-- Reads bytes up to a line feed or the end of the input. -/
partial def readLine (input : IO.FS.Stream) (line : List UInt8) : IO (List UInt8) := do
  let chunk ← input.read 1
  match chunk.data.toList with
  | [] => return line.reverse
  | b :: _ => if b = 10 then return (b :: line).reverse else readLine input (b :: line)

/-- Reads all that is left of the input. -/
partial def readAll (input : IO.FS.Stream) (bytes : ByteArray) : IO ByteArray := do
  let chunk ← input.read 4096
  if chunk.isEmpty then return bytes else readAll input (bytes ++ chunk)

/-- Carries out a plan and gives its status. -/
def execute (verbosity : Nat) : Plan → IO UInt32
  | .finish outcome => do
    perform verbosity outcome.effects
    return UInt32.ofNat outcome.status
  | .write path content next => do
    let result ← writeFile path content
    execute verbosity (next result)
  | .read (some path) next => do
    let result ← readFile path
    execute verbosity (next result)
  | .read none next => do
    let bytes ← readAll (← IO.getStdin) .empty
    execute verbosity (next (.ok bytes.data.toList))

/-- The seconds since a moment. -/
def elapsedSince (start : Nat) : IO Double := do
  return Binary.ofRatio false ((← IO.monoMsNow) - start) 1000

/-- Takes a turn for each line of the standard input and a frame after it. -/
partial def playLines (verbosity start : Nat) (config : Config) (frames : Nat) (s : Session) :
    IO (Nat × Session) := do
  let bytes ← readLine (← IO.getStdin) []
  if bytes.isEmpty then return (frames, s)
  let lines := Text.lines (Text.Utf8.readText bytes)
  let ts := lines.map Live.Turn.line ++ [.frame frames (← elapsedSince start)]
  let (next, effects) := Live.turns .standard config s ts
  perform verbosity effects
  playLines verbosity start config (frames + 1) next

/-- A live session on the standard input. -/
def playInput (verbosity : Nat) (config : Config) (s : Session) (loop : RenderLoop) :
    IO Unit := do
  let start ← IO.monoMsNow
  perform verbosity (.log (.loopStarted loop.interval) :: Live.start config)
  let (frames, read) ← playLines verbosity start config 0 s
  perform verbosity (Live.finish .standard config read frames (← elapsedSince start)).2

/-- A live session on the standard input, if its settings allow one. -/
def runLive (verbosity : Nat) (config : Config) (plan : Plan) : IO UInt32 := do
  match config.problems, Live.opening config, RenderLoop.make config.rate with
  | [], .ok (s, effects), .ok loop =>
    perform verbosity effects
    playInput verbosity config s loop
    return 0
  | _, _, _ => execute verbosity plan

/-- Carries out a command. -/
def runCommand (verbosity : Nat) (command : Command) : IO UInt32 := do
  let plan := command.plan .standard .standard (Binary.zero false)
  match command with
  | .live c =>
    match c.config?, c.input with
    | some config, none => runLive verbosity config plan
    | _, _ => execute verbosity plan
  | _ => execute verbosity plan

/-- Answers what reading the options ended with. -/
def answerStop : Stop → IO UInt32
  | .help program => do
    IO.print (helpText program)
    return 0
  | .version => do
    IO.print versionText
    return 0
  | .usage program message => do
    IO.eprintln (program ++ ": error: " ++ message)
    return 2

end LiveFormula.CommandLine

open LiveFormula.CommandLine in
def main (args : List String) : IO UInt32 := do
  match Invocation.ofArguments args with
  | .error stop => answerStop stop
  | .ok invocation =>
    match invocation.command with
    | some command => runCommand invocation.verbosity command
    | none =>
      IO.eprint (helpText programName)
      return 2
