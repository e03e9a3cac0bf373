import LiveFormula.Text.Quoted

/-!
# Files

Model of the files that `livexpr.main._open_output` writes to and `cmd_live` reads from.

A tree of files and directories with a working directory, as far as the program needs it: files can
be written, which makes the directories above them, and read. Directories that were made stay where
they are if the file cannot be opened then. A path is a list of names from the root.
There are no links, so a path to write to is made absolute by its text alone; it may begin with `~`,
which stands for the home directory. A path to read from is followed name by name.
-/

set_option autoImplicit false

namespace LiveFormula.CommandLine

/-- Why a file cannot be written or read. -/
inductive FileError
  | missing (path : String)
  | occupied (path : String)
  | notDirectory (path : String)
  | isDirectory (path : String)
  | tooLong (path : String)
  | nullByte
  | noHome
  | noPath
  | other (reason : String)
  deriving DecidableEq, Repr

namespace FileError

def message : FileError → String
  | missing path => "[Errno 2] No such file or directory: " ++ Text.quote path
  | occupied path => "[Errno 17] File exists: " ++ Text.quote path
  | notDirectory path => "[Errno 20] Not a directory: " ++ Text.quote path
  | isDirectory path => "[Errno 21] Is a directory: " ++ Text.quote path
  | tooLong path => "[Errno 36] File name too long: " ++ Text.quote path
  | nullByte => "embedded null byte"
  | noHome => "Could not determine home directory."
  | noPath => "expected str, bytes or os.PathLike object, not list"
  | other reason => reason

/-- Whether the path itself is at fault, which nothing takes care of. -/
def isUnhandled : FileError → Bool
  | nullByte => true
  | noHome => true
  | noPath => true
  | _ => false

end FileError

/-- The names on the way from the root. -/
abbrev Path := List String

def Path.text (path : Path) : String := "/" ++ "/".intercalate path

/-- Whether a path begins at the root. -/
def isAbsolute (text : String) : Bool := text.toList.head? == some '/'

/-- The names of a path as they are written. -/
def rawNames (text : String) : List String := text.splitOn "/"

/-- The names of a path without empty ones and without single points. -/
def pathNames (text : String) : List String := (rawNames text).filter fun n => n != "" && n != "."

/-- Whether a name has more bytes than a name may have. -/
def isLongName (name : String) : Bool := 255 < name.utf8ByteSize

/-- Whether a path has more bytes than a path may have. -/
def isLongPath (text : String) : Bool := 4095 < text.utf8ByteSize

/-- Follows a name, a pair of points leading one level up. -/
def Path.follow (path : Path) (name : String) : Path :=
  if name = ".." then path.dropLast else path ++ [name]

inductive Node
  | directory
  | file (content : List UInt8)
  deriving DecidableEq, Repr

structure FileTree where
  /-- The working directory. -/
  here : Path
  /-- The home directory, if it is known. -/
  home : Option Path
  /-- Everything below the root. -/
  entries : List (Path × Node)
  deriving DecidableEq, Repr

namespace FileTree

/-- What stands at a path; the root is a directory. -/
def node? (t : FileTree) (path : Path) : Option Node :=
  if path.isEmpty then some .directory
  else (t.entries.find? fun entry => entry.1 == path).map Prod.snd

/-- Puts something at a path. -/
def put (t : FileTree) (path : Path) (node : Node) : FileTree :=
  { t with entries := (path, node) :: t.entries.filter fun entry => entry.1 != path }

/-- The paths above a path, from the root on, and the path itself. -/
def ways (path : Path) : List Path :=
  (List.range path.length).map fun n => path.take (n + 1)

/-- Makes a directory where there is none. -/
def ensureDirectory (t : FileTree) (path : Path) : FileTree :=
  if (t.node? path).isNone then t.put path .directory else t

/-- Goes along names from a path that is there; every name is looked up in a directory. -/
def walk (t : FileTree) (text : String) : Path → List String → Except FileError Path
  | path, [] => .ok path
  | path, name :: names =>
    if t.node? path = some .directory then
      if isLongName name then .error (.tooLong text)
      else
        let next := if name = "" || name = "." then path else path.follow name
        if (t.node? next).isSome then walk t text next names else .error (.missing text)
    else .error (.notDirectory text)

/-- Finds the directory of a path in which its last name can be made. -/
def findParent (t : FileTree) (path : Path) : Except FileError Unit :=
  if isLongPath path.text then .error (.tooLong path.text)
  else
    match t.walk path.text [] path.dropLast with
    | .error e => .error e
    | .ok parent =>
      if t.node? parent ≠ some .directory then .error (.notDirectory path.text)
      else if path.getLast?.any isLongName then .error (.tooLong path.text)
      else .ok ()

/-- Makes one directory. -/
def makeDirectory (t : FileTree) (path : Path) : Except FileError FileTree :=
  match t.findParent path with
  | .error e => .error e
  | .ok _ =>
    if (t.node? path).isSome then .error (.occupied path.text) else .ok (t.put path .directory)

/-- Makes the directory of the first `count` names of a path. If a directory above it is missing, that
one is made first. Nothing is to be made if the directory is there. -/
def makeFirst (t : FileTree) (path : Path) : Nat → FileTree × Except FileError Unit
  | 0 => (t, .ok ())
  | count + 1 =>
    let target := path.take (count + 1)
    match t.makeDirectory target with
    | .ok next => (next, .ok ())
    | .error (.missing _) =>
      match t.makeFirst path count with
      | (above, .error e) => (above, .error e)
      | (above, .ok _) =>
        match above.makeDirectory target with
        | .ok next => (next, .ok ())
        | .error e => (above, .error e)
    | .error e => if t.node? target = some .directory then (t, .ok ()) else (t, .error e)

/-- Makes a directory and all directories above it. -/
def makeDirectories (t : FileTree) (path : Path) : FileTree × Except FileError Unit :=
  t.makeFirst path path.length

/-- A tree of files in a working directory, with a home directory. -/
def make (here home : Path) (files : List (String × List UInt8)) : FileTree :=
  let base := (ways here ++ ways home).foldl ensureDirectory ⟨here, some home, []⟩
  files.foldl (fun t file =>
    let path := here ++ pathNames file.1
    ((ways path.dropLast).foldl ensureDirectory t).put path (.file file.2)) base

def hasNull (text : String) : Bool := text.toList.contains (Char.ofNat 0)

/-- Where a path to write to begins, and the names behind that. Of the home directories only the one
of `~` can be known; another one is looked up by its name, which must not have a null byte. -/
def origin (t : FileTree) (text : String) : Except FileError (Path × List String) :=
  match isAbsolute text, pathNames text with
  | true, names => .ok ([], names)
  | false, [] => .ok (t.here, [])
  | false, first :: rest =>
    if first = "~" then
      match t.home with
      | some home => .ok (home, rest)
      | none => .error .noHome
    else if first.toList.head? = some '~' then
      .error (if hasNull first then .nullByte else .noHome)
    else .ok (t.here, first :: rest)

/-- The absolute path of a path to write to. -/
def resolve (t : FileTree) (text : String) : Except FileError Path :=
  match t.origin text with
  | .error e => .error e
  | .ok (start, names) =>
    if hasNull text then .error .nullByte else .ok (names.foldl Path.follow start)

/-- Opens a file to be written: makes the directories above it, and finds its absolute path. -/
def opening (t : FileTree) (text : String) : FileTree × Except FileError Path :=
  match t.resolve text with
  | .error e => (t, .error e)
  | .ok path =>
    match t.makeDirectories path.dropLast with
    | (next, .error e) => (next, .error e)
    | (next, .ok _) =>
      match next.findParent path with
      | .error e => (next, .error e)
      | .ok _ =>
        if next.node? path = some .directory then (next, .error (.isDirectory path.text))
        else (next, .ok path)

/-- Writes a file that can be opened. -/
def write (t : FileTree) (text : String) (content : List UInt8) : FileTree × Except FileError Unit :=
  match t.opening text with
  | (next, .error e) => (next, .error e)
  | (next, .ok path) => (next.put path (.file content), .ok ())

/-- Reads a file. -/
def read (t : FileTree) (text : String) : Except FileError (List UInt8) :=
  if hasNull text then .error .nullByte
  else if isLongPath text then .error (.tooLong text)
  else
    match t.walk text (if isAbsolute text then [] else t.here) (rawNames text) with
    | .error e => .error e
    | .ok path =>
      match t.node? path with
      | some (.file content) => .ok content
      | some .directory => .error (.isDirectory text)
      | none => .error (.missing text)

/-- The files of this tree that the other one does not have with the same content. -/
def changes (t old : FileTree) : List (Path × List UInt8) :=
  t.entries.filterMap fun entry =>
    match entry.2 with
    | .file content =>
      if old.node? entry.1 = some (.file content) then none else some (entry.1, content)
    | .directory => none

end FileTree

end LiveFormula.CommandLine
