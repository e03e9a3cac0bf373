import LiveFormula.Text.Character

/-!
# Settings of a live session

Model of `livexpr.runtime.RuntimeConfig` and its `validate`.
-/

set_option autoImplicit false

namespace LiveFormula

structure Config where
  /-- The most frames in a second. -/
  rate : Int := 60
  /-- The columns of a preview. -/
  width : Int := 48
  /-- The rows of a preview. -/
  height : Int := 16
  prompt : String := "> "
  /-- The formula that is installed before any other. -/
  opening : String := "(1+sin(u*20*3+t)*sin(t))/2 + (1+cos(v*20*3+t)*sin(t))/2"
  /-- Whether a preview is printed of each newly installed program. -/
  preview : Bool := false
  deriving DecidableEq, Repr

namespace Config

/-- What keeps a session from running. -/
inductive Problem
  | rate
  | size
  | opening
  deriving DecidableEq, Repr

def Problem.message : Problem → String
  | .rate => "max_fps must be positive"
  | .size => "preview width and height must be positive"
  | .opening => "default_expression is empty"

/-- All problems of the settings. A formula of blanks only counts as empty. -/
def problems (c : Config) : List Problem :=
  (if c.rate ≤ 0 then [.rate] else []) ++
    (if c.width ≤ 0 ∨ c.height ≤ 0 then [.size] else []) ++
    (if c.opening.toList.all Text.isBlank then [.opening] else [])

end Config

end LiveFormula
