import LiveFormula.Text.Character
import LiveFormula.Text.Quoted

/-!
# Options of a command line

Model of the reading of arguments that `livexpr.main` relies on.

A grammar names the switches of a program and its operand. Reading goes from left to right over the
arguments and updates a record of settings. What fits nothing is left over for the caller.

A long switch may be abbreviated as long as it is not ambiguous. A switch may be joined to its value
by an equals sign, and a short one also without it; what is joined to a short switch that takes no
value must be more short switches. Behind `--` nothing is a switch, and a joined `--` is no value, so
that a switch can be given without one. An argument that begins with a hyphen is a switch, known or
not, unless it is a negative number or has a space in it.
-/

set_option autoImplicit false

namespace LiveFormula.CommandLine

/-- Why reading options ends the program. -/
inductive Stop
  | help (program : String)
  | version
  | usage (program message : String)
  deriving DecidableEq, Repr

/-- What a switch does: it asks for help or for the version, or it updates the settings. -/
inductive Switch.Action (σ : Type)
  | help
  | version
  | update (store : List String → σ → Except String σ)

/-- A switch with its names and the number of its values. -/
structure Switch (σ : Type) where
  names : List String
  arity : Nat
  action : Switch.Action σ

/-- The operand: one argument, or that one and all that follow. -/
structure Operand (σ : Type) where
  name : String
  required : Bool
  takesRest : Bool
  store : List String → σ → Except Stop σ

structure Grammar (σ : Type) where
  program : String
  switches : List (Switch σ)
  operand : Option (Operand σ)

/-- A switch by one of its names, and what is joined to it. -/
structure Mention (σ : Type) where
  switch : Switch σ
  name : List Char
  joined : Option (List Char)

inductive Token (σ : Type)
  | word (text : String)
  | mention (text : String) (mention : Mention σ)
  | unknown (text : String)
  | separator

def Token.text {σ : Type} : Token σ → String
  | .word text => text
  | .mention text _ => text
  | .unknown text => text
  | .separator => "--"

/-- The words at the beginning of a list of tokens. -/
def leadingWords {σ : Type} : List (Token σ) → List String
  | .word text :: tokens => text :: leadingWords tokens
  | _ => []

/-- The number of separators at the beginning of a list of tokens. -/
def leadingSeparators {σ : Type} : List (Token σ) → Nat
  | .separator :: tokens => leadingSeparators tokens + 1
  | _ => 0

def Switch.label {σ : Type} (s : Switch σ) : String := "/".intercalate s.names

namespace Grammar

variable {σ : Type} (g : Grammar σ)

def usage (message : String) : Stop := .usage g.program message

/-- A misuse of a switch. -/
def misuse (s : Switch σ) (message : String) : Stop :=
  g.usage ("argument " ++ s.label ++ ": " ++ message)

/-- All names with their switches. -/
def names : List (List Char × Switch σ) :=
  g.switches.flatMap fun s => s.names.map fun name => (name.toList, s)

/-- The switch with exactly this name. -/
def switchNamed? (name : List Char) : Option (Switch σ) :=
  (g.names.find? fun entry => entry.1 == name).map Prod.snd

/-- What stands before the first equals sign and, if there is one, what stands behind it. -/
def cutAtEquals (arg : List Char) : List Char × Option (List Char) :=
  match arg.dropWhile (· != '=') with
  | [] => (arg, none)
  | _ :: value => (arg.takeWhile (· != '='), some value)

/-- The switches that an argument may abbreviate, or begin with. -/
def candidates (arg : List Char) : List (Mention σ) :=
  match arg with
  | '-' :: '-' :: _ =>
    let (stem, value) := cutAtEquals arg
    (g.names.filter fun entry => stem.isPrefixOf entry.1).map fun entry =>
      ⟨entry.2, entry.1, value⟩
  | '-' :: c :: value =>
    g.names.filterMap fun entry =>
      if entry.1 = ['-', c] then some ⟨entry.2, entry.1, some value⟩
      else if arg.isPrefixOf entry.1 then some ⟨entry.2, entry.1, none⟩
      else none
  | _ => []

/-- One digit or more, of any script. -/
def isDigits (s : List Char) : Bool := !s.isEmpty && s.all fun c => (Text.digitValue? c).isSome

/-- A hyphen and an unsigned number without exponent; a line feed may follow. -/
def isNegativeNumber (arg : List Char) : Bool :=
  match arg with
  | '-' :: body =>
    let body := if body.getLast? = some '\n' then body.dropLast else body
    isDigits body ||
      match body.dropWhile fun c => (Text.digitValue? c).isSome with
      | '.' :: places => isDigits places
      | _ => false
  | _ => false

/-- The token of an argument that begins with a hyphen and has more behind it. -/
def classifySwitch (text : String) (arg : List Char) : Except Stop (Token σ) :=
  let (stem, value) := cutAtEquals arg
  match value, g.switchNamed? stem with
  | some value, some s => .ok (.mention text ⟨s, stem, some value⟩)
  | _, _ =>
    match g.candidates arg with
    | [m] => .ok (.mention text m)
    | [] =>
      if isNegativeNumber arg || arg.contains ' ' then .ok (.word text)
      else .ok (.unknown text)
    | several =>
      .error (g.usage ("ambiguous option: " ++ text ++ " could match " ++
        ", ".intercalate (several.map fun m => String.ofList m.name)))

/-- The token of an argument before any separator. -/
def classify (text : String) : Except Stop (Token σ) :=
  match text.toList with
  | '-' :: rest =>
    match g.switchNamed? ('-' :: rest) with
    | some s => .ok (.mention text ⟨s, '-' :: rest, none⟩)
    | none => if rest.isEmpty then .ok (.word text) else g.classifySwitch text ('-' :: rest)
  | _ => .ok (.word text)

/-- The tokens of all arguments. -/
def tokens : List String → Except Stop (List (Token σ))
  | [] => .ok []
  | arg :: args =>
    if arg = "--" then .ok (.separator :: args.map .word)
    else
      match g.classify arg with
      | .error stop => .error stop
      | .ok token =>
        match tokens args with
        | .error stop => .error stop
        | .ok rest => .ok (token :: rest)

/-- The uses of switches in one argument, and the number of words they take from behind it. -/
structure Uses (σ : Type) where
  uses : List (Switch σ × List String)
  taken : Nat

/-- A switch whose values are the words behind it. -/
def useFollowing (s : Switch σ) (following : List String) : Except Stop (Uses σ) :=
  if s.arity ≤ following.length then .ok ⟨[(s, following.take s.arity)], s.arity⟩
  else if s.arity = 1 then .error (g.misuse s "expected one argument")
  else .error (g.misuse s ("expected " ++ toString s.arity ++ " arguments"))

/-- Whether a name is that of a long switch. -/
def isLong : List Char → Bool
  | '-' :: '-' :: _ => true
  | _ => false

/-- The values in what is joined to a switch. -/
def joinedValues (value : List Char) : List String :=
  if value = ['-', '-'] then [] else [String.ofList value]

/-- A switch that has no use for what is joined to it. -/
def ignored (s : Switch σ) (value : List Char) : Stop :=
  g.misuse s ("ignored explicit argument " ++ Text.quoteChars value)

/-- A switch with something joined to it: its value, or more short switches. -/
def useJoined (following : List String) (s : Switch σ) (name value : List Char) :
    Except Stop (Uses σ) :=
  if s.arity = 1 then .ok ⟨[(s, joinedValues value)], 0⟩
  else if s.arity ≠ 0 then
    .error (g.misuse s ("expected " ++ toString s.arity ++ " arguments"))
  else if isLong name then .error (g.ignored s value)
  else
    match value with
    | [] => .error (g.ignored s value)
    | c :: tail =>
      match g.switchNamed? ['-', c] with
      | none => .error (g.ignored s value)
      | some next =>
        let rest :=
          if tail.isEmpty then g.useFollowing next following
          else useJoined following next ['-', c] tail
        match rest with
        | .error stop => .error stop
        | .ok more => .ok { more with uses := (s, []) :: more.uses }
termination_by structural value

/-- The uses of switches in a mention. -/
def usesOf (following : List String) (m : Mention σ) : Except Stop (Uses σ) :=
  match m.joined with
  | none => g.useFollowing m.switch following
  | some value => g.useJoined following m.switch m.name value

/-- Applies uses of switches in order. -/
def apply : List (Switch σ × List String) → σ → Except Stop σ
  | [], settings => .ok settings
  | (s, values) :: uses, settings =>
    match s.action with
    | .help => .error (.help g.program)
    | .version => .error .version
    | .update store =>
      match store values settings with
      | .error message => .error (g.misuse s message)
      | .ok next => apply uses next

/-- What the operand takes at a token, and how many tokens behind it. -/
def operandAt (operand : Operand σ) (token : Token σ) (more : List (Token σ)) :
    Option (List String × Nat) :=
  let values :=
    match token, more with
    | .word text, _ => some ([text], leadingSeparators more)
    | .separator, .word text :: rest => some ([text], leadingSeparators rest + 1)
    | _, _ => none
  if operand.takesRest then values.map fun _ => (token.text :: more.map Token.text, more.length)
  else values

/-- The settings after reading, whether the operand was found, and what is left over. -/
structure Reading (σ : Type) where
  settings : σ
  missing : Option (Operand σ)
  leftover : List String

def Reading.leaving (text : String) (r : Reading σ) : Reading σ :=
  { r with leftover := text :: r.leftover }

/-- Reads tokens from left to right. -/
def consume (pending : Option (Operand σ)) : List (Token σ) → σ → Except Stop (Reading σ)
  | [], settings => .ok ⟨settings, pending, []⟩
  | .mention _ m :: more, settings =>
    match g.usesOf (leadingWords more) m with
    | .error stop => .error stop
    | .ok used =>
      match g.apply used.uses settings with
      | .error stop => .error stop
      | .ok next => consume pending (more.drop used.taken) next
  | token :: more, settings =>
    match pending.bind fun operand => (operandAt operand token more).map (operand, ·) with
    | none => (consume pending more settings).map (.leaving token.text)
    | some (operand, values, taken) =>
      match operand.store values settings with
      | .error stop => .error stop
      | .ok next => consume none (more.drop taken) next
termination_by tokens => tokens.length
decreasing_by all_goals (simp only [List.length_drop, List.length_cons]; omega)

/-- The settings and the arguments that are left over. -/
def read (args : List String) (settings : σ) : Except Stop (σ × List String) :=
  match g.tokens args with
  | .error stop => .error stop
  | .ok tokens =>
    match g.consume g.operand tokens settings with
    | .error stop => .error stop
    | .ok r =>
      match r.missing with
      | some operand =>
        if operand.required then
          .error (g.usage ("the following arguments are required: " ++ operand.name))
        else .ok (r.settings, r.leftover)
      | none => .ok (r.settings, r.leftover)

end Grammar

end LiveFormula.CommandLine
