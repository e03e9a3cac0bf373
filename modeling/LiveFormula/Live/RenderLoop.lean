import LiveFormula.Log

/-!
# The render loop

Model of `livexpr.runtime.RenderLoop`.

The render loop runs frames one after the other on a thread of its own until it is told to stop. It is
a state machine here: the thread checks whether to stop, begins a frame and ends it, each as a step of
its own, and the steps may come in any order with calls to start and to stop the loop. A step that the
thread cannot take in its state changes nothing.
-/

set_option autoImplicit false

namespace LiveFormula

/-- Where the thread is. -/
inductive RenderLoop.Thread
  | idle
  | checking
  | ready
  | inFrame
  | ended
  deriving DecidableEq, Repr

structure RenderLoop where
  /-- The least time of a frame in seconds. -/
  interval : Double
  stopping : Bool
  thread : RenderLoop.Thread
  /-- The number of frames that have ended. -/
  frames : Nat
  /-- The numbers of the frames that have begun, in order. -/
  begun : List Nat
  /-- What was logged, in order. -/
  events : List Event
  deriving DecidableEq, Repr

namespace RenderLoop

/-- Why a loop cannot be made or started. -/
inductive LoopError
  | rateNotPositive
  | rateTooLarge
  | alreadyStarted
  deriving DecidableEq, Repr

def LoopError.message : LoopError → String
  | .rateNotPositive => "max_fps must be positive"
  | .rateTooLarge => "int too large to convert to float"
  | .alreadyStarted => "Render loop already started"

/-- A loop of at most `rate` frames in a second. -/
def make (rate : Int) : Except LoopError RenderLoop :=
  if rate ≤ 0 then .error .rateNotPositive
  else
    match Binary.ofInt? rate with
    | none => .error .rateTooLarge
    | some x => .ok ⟨(Binary.ofNat 1).div x, false, .idle, 0, [], []⟩

/-- Starts the thread; a loop can be started once. -/
def start (l : RenderLoop) : Except LoopError RenderLoop :=
  if l.thread = .idle then
    .ok { l with thread := .checking, events := l.events ++ [.loopStarted l.interval] }
  else .error .alreadyStarted

/-- Tells the thread to stop. -/
def stop (l : RenderLoop) : RenderLoop := { l with stopping := true }

/-- The thread checks whether it is to stop. -/
def check (l : RenderLoop) : RenderLoop :=
  if l.thread = .checking then
    if l.stopping then { l with thread := .ended, events := l.events ++ [.loopStopped l.frames] }
    else { l with thread := .ready }
  else l

/-- The thread begins a frame. -/
def beginFrame (l : RenderLoop) : RenderLoop :=
  if l.thread = .ready then { l with thread := .inFrame, begun := l.begun ++ [l.frames] } else l

/-- The thread ends a frame, which may have failed. -/
def endFrame (l : RenderLoop) (failed : Bool) : RenderLoop :=
  if l.thread = .inFrame then
    { l with
      thread := .checking
      frames := l.frames + 1
      events := l.events ++ (if failed then [.frameFailed l.frames] else []) }
  else l

/-- Whether the thread was started and has not ended. -/
def running (l : RenderLoop) : Bool := l.thread != .idle && l.thread != .ended

/-- The steps of the thread and the calls of others. -/
inductive Action
  | start
  | stop
  | check
  | beginFrame
  | endFrame (failed : Bool)
  deriving DecidableEq, Repr

/-- Takes a step. A call to start that is refused changes nothing. -/
def act (l : RenderLoop) : Action → RenderLoop
  | .start => match l.start with
    | .ok next => next
    | .error _ => l
  | .stop => l.stop
  | .check => l.check
  | .beginFrame => l.beginFrame
  | .endFrame failed => l.endFrame failed

/-- Takes steps in order. -/
def run (l : RenderLoop) (actions : List Action) : RenderLoop := actions.foldl act l

/-- The steps of one frame that is not stopped. -/
def frameActions (failed : Bool) : List Action := [.check, .beginFrame, .endFrame failed]

/-- The steps of a frame during which the loop is told to stop, and of the check after it. -/
def lastFrameActions (failed : Bool) : List Action :=
  [.check, .beginFrame, .stop, .endFrame failed, .check]

end RenderLoop

end LiveFormula
