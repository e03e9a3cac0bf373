import LiveFormula.Live.RenderLoop
import Mathlib.Data.List.Basic

/-!
# The frames of a render loop

The thread of a render loop and its callers take steps in any order. `RenderLoop.Change` says once
what a step can do, and everything else is derived from it: what a step keeps, and from that, by
induction, what a run keeps.

Which iterations ended, and how, is read off the steps themselves (`RenderLoop.outcomes`) and not off
the counter of the loop, so that the counter can be compared with it.

* `RenderLoop.change_act` — what a step can do.
* `RenderLoop.act_disciplined`, `RenderLoop.run_disciplined` — numbers, counter and records agree with
  the iterations after every step, and so after every run.
* `RenderLoop.begun_run_le` — once the loop is told to stop, only an iteration that was decided on
  before can begin.
* `RenderLoop.run_keeps_discipline` — all of it for a loop that was just made.
-/

set_option autoImplicit false

namespace LiveFormula.RenderLoop

variable {l : RenderLoop}

/-! ## Steps -/

/-- The step can be taken: a loop that was not started can be started, it can always be told to stop,
and the thread goes round through its three steps. -/
def Enabled (l : RenderLoop) : Action → Prop
  | .start => l.thread = .idle
  | .stop => True
  | .check => l.thread = .checking
  | .beginFrame => l.thread = .ready
  | .endFrame _ => l.thread = .inFrame

/-- What a step can do to a loop. -/
inductive Change (l : RenderLoop) : Action → RenderLoop → Prop
  | start (h : l.thread = .idle) : Change l .start
      { l with thread := .checking, events := l.events ++ [.loopStarted l.interval] }
  | stop : Change l .stop { l with stopping := true }
  /-- The thread finds that it is to stop. -/
  | leave (h : l.thread = .checking) (hstop : l.stopping = true) : Change l .check
      { l with thread := .ended, events := l.events ++ [.loopStopped l.frames] }
  /-- The thread decides on an iteration. -/
  | decide (h : l.thread = .checking) (hstop : l.stopping = false) : Change l .check
      { l with thread := .ready }
  | begin (h : l.thread = .ready) : Change l .beginFrame
      { l with thread := .inFrame, begun := l.begun ++ [l.frames] }
  | finish (h : l.thread = .inFrame) (failed : Bool) : Change l (.endFrame failed)
      { l with
        thread := .checking
        frames := l.frames + 1
        events := l.events ++ (if failed then [.frameFailed l.frames] else []) }
  | nothing {a : Action} (h : ¬l.Enabled a) : Change l a l

theorem change_act (l : RenderLoop) (a : Action) : l.Change a (l.act a) := by
  cases a with
  | start =>
      unfold act RenderLoop.start
      by_cases h : l.thread = .idle
      · rw [if_pos h]
        exact .start h
      · rw [if_neg h]
        exact .nothing h
  | stop => exact .stop
  | check =>
      show l.Change .check l.check
      unfold RenderLoop.check
      by_cases h : l.thread = .checking
      · rw [if_pos h]
        by_cases hstop : l.stopping = true
        · rw [if_pos hstop]
          exact .leave h hstop
        · rw [if_neg hstop]
          exact .decide h (Bool.eq_false_iff.2 hstop)
      · rw [if_neg h]
        exact .nothing h
  | beginFrame =>
      show l.Change .beginFrame l.beginFrame
      unfold RenderLoop.beginFrame
      by_cases h : l.thread = .ready
      · rw [if_pos h]
        exact .begin h
      · rw [if_neg h]
        exact .nothing h
  | endFrame failed =>
      show l.Change (.endFrame failed) (l.endFrame failed)
      unfold RenderLoop.endFrame
      by_cases h : l.thread = .inFrame
      · rw [if_pos h]
        exact .finish h failed
      · rw [if_neg h]
        exact .nothing h

theorem run_append (l : RenderLoop) (actions more : List Action) :
    l.run (actions ++ more) = (l.run actions).run more := List.foldl_append

/-- What holds of a loop and is kept by every step holds after every run. -/
theorem run_induction {motive : RenderLoop → Prop} (hl : motive l)
    (hstep : ∀ (l next : RenderLoop) (a : Action), l.Change a next → motive l → motive next)
    (actions : List Action) : motive (l.run actions) := by
  induction actions generalizing l with
  | nil => exact hl
  | cons a actions ih => exact ih (hstep l (l.act a) a (l.change_act a) hl)

/-! ## Iterations -/

/-- How an iteration ended, if the step ends one: whether it failed. -/
def outcome? (l : RenderLoop) : Action → Option Bool
  | .endFrame failed => if l.thread = .inFrame then some failed else none
  | _ => none

/-- How the iterations ended that end in a run, in order. -/
def outcomes (l : RenderLoop) : List Action → List Bool
  | [] => []
  | a :: actions => (l.outcome? a).toList ++ outcomes (l.act a) actions

theorem outcomes_append (l : RenderLoop) (actions more : List Action) :
    l.outcomes (actions ++ more) = l.outcomes actions ++ (l.run actions).outcomes more := by
  induction actions generalizing l with
  | nil => rfl
  | cons a actions ih =>
      rw [List.cons_append, outcomes, outcomes, ih, List.append_assoc]
      rfl

/-- The numbers of the iterations that failed. -/
def failedFrames (outcomes : List Bool) : List Nat :=
  (outcomes.zipIdx.filter Prod.fst).map Prod.snd

theorem failedFrames_append (outcomes : List Bool) (failed : Bool) :
    failedFrames (outcomes ++ [failed]) =
      failedFrames outcomes ++ (if failed then [outcomes.length] else []) := by
  unfold failedFrames
  rw [List.zipIdx_append, List.filter_append, List.map_append]
  cases failed <;> simp

/-- The records of errors. -/
def errors (l : RenderLoop) : List Event := l.events.filter fun event => event.level = .error

/-- The loop agrees with the iterations that have ended. Those that have begun are numbered from zero
on, and all of them have ended but one if the thread is in an iteration. The counter counts those
that ended, and there is a record of an error for each of them that failed. -/
structure Disciplined (l : RenderLoop) (outcomes : List Bool) : Prop where
  begun : l.begun = List.range (l.frames + if l.thread = .inFrame then 1 else 0)
  frames : l.frames = outcomes.length
  errors : l.errors = (failedFrames outcomes).map .frameFailed

/-- A step that neither begins nor ends an iteration, and records no error. -/
theorem Disciplined.of_eq {next : RenderLoop} {outcomes : List Bool} (h : l.Disciplined outcomes)
    (hbegun : next.begun = l.begun) (hframes : next.frames = l.frames)
    (herrors : next.errors = l.errors) (hthread : next.thread = .inFrame ↔ l.thread = .inFrame) :
    next.Disciplined (outcomes ++ []) := by
  rw [List.append_nil]
  refine ⟨?_, hframes.trans h.frames, herrors.trans h.errors⟩
  rw [hbegun, hframes, h.begun]
  simp only [hthread]

/-- The next iteration has the number of those that ended. -/
theorem Disciplined.begin {outcomes : List Bool} (h : l.Disciplined outcomes)
    (hthread : l.thread = .ready) :
    Disciplined { l with thread := .inFrame, begun := l.begun ++ [l.frames] } (outcomes ++ []) := by
  rw [List.append_nil]
  refine ⟨?_, h.frames, h.errors⟩
  simp [h.begun, hthread, List.range_succ]

/-- The iteration that ends is the one that began last, and it is recorded with its number. -/
theorem Disciplined.finish {outcomes : List Bool} (h : l.Disciplined outcomes)
    (hthread : l.thread = .inFrame) (failed : Bool) :
    Disciplined { l with
      thread := .checking
      frames := l.frames + 1
      events := l.events ++ (if failed then [.frameFailed l.frames] else []) }
      (outcomes ++ [failed]) := by
  refine ⟨?_, ?_, ?_⟩
  · simp [h.begun, hthread]
  · simp [h.frames]
  · have herrors := h.errors
    unfold RenderLoop.errors at herrors ⊢
    rw [List.filter_append, herrors, failedFrames_append, List.map_append, h.frames]
    cases failed <;> simp [Event.level]

/-- Every step keeps the loop in agreement with the iterations. -/
theorem act_disciplined {outcomes : List Bool} (h : l.Disciplined outcomes) (a : Action) :
    (l.act a).Disciplined (outcomes ++ (l.outcome? a).toList) := by
  have hchange := l.change_act a
  generalize l.act a = next at hchange ⊢
  cases hchange with
  | start hthread =>
      exact h.of_eq rfl rfl (by simp [RenderLoop.errors, Event.level]) (by simp [hthread])
  | stop => exact h.of_eq rfl rfl rfl Iff.rfl
  | leave hthread hstop =>
      exact h.of_eq rfl rfl (by simp [RenderLoop.errors, Event.level]) (by simp [hthread])
  | decide hthread hstop => exact h.of_eq rfl rfl rfl (by simp [hthread])
  | begin hthread => exact h.begin hthread
  | finish hthread failed =>
      rw [outcome?, if_pos hthread]
      exact h.finish hthread failed
  | nothing hdisabled =>
      have hnone : l.outcome? a = none := by
        cases a with
        | endFrame failed => exact if_neg hdisabled
        | _ => rfl
      rw [hnone]
      exact h.of_eq rfl rfl rfl Iff.rfl

/-- Every run keeps the loop in agreement with the iterations. -/
theorem run_disciplined {outcomes : List Bool} (h : l.Disciplined outcomes)
    (actions : List Action) : (l.run actions).Disciplined (outcomes ++ l.outcomes actions) := by
  induction actions generalizing l outcomes with
  | nil =>
      rw [RenderLoop.outcomes, List.append_nil]
      exact h
  | cons a actions ih =>
      rw [RenderLoop.outcomes, ← List.append_assoc]
      exact ih (act_disciplined h a)

/-- The three steps of the thread carry out the next iteration. -/
theorem run_frameActions (hthread : l.thread = .checking) (hstop : l.stopping = false)
    (failed : Bool) :
    (l.run (frameActions failed)).begun = l.begun ++ [l.frames] ∧
      l.outcomes (frameActions failed) = [failed] := by
  simp [frameActions, run, outcomes, outcome?, act, RenderLoop.check, RenderLoop.beginFrame,
    RenderLoop.endFrame, hthread, hstop]

/-! ## Starting and stopping -/

/-- The thread waits to be started for as long as nobody starts it. -/
theorem idle_run_iff (actions : List Action) :
    (l.run actions).thread = .idle ↔ l.thread = .idle ∧ .start ∉ actions := by
  induction actions generalizing l with
  | nil => simp [run]
  | cons a actions ih =>
      have hstep : (l.act a).thread = .idle ↔ l.thread = .idle ∧ a ≠ .start := by
        have hchange := l.change_act a
        generalize l.act a = next at hchange ⊢
        cases hchange with
        | start h => simp
        | stop => simp
        | leave h => simp [h]
        | decide h => simp [h]
        | begin h => simp [h]
        | finish h => simp [h]
        | nothing hdisabled =>
            refine ⟨fun hidle => ⟨hidle, ?_⟩, And.left⟩
            rintro rfl
            exact hdisabled hidle
      have hrun : l.run (a :: actions) = (l.act a).run actions := rfl
      rw [hrun, ih, hstep, List.mem_cons, not_or, and_assoc, ne_comm]

/-- A loop that is not idle cannot be started, and a call to start it changes nothing. -/
theorem start_of_not_idle (h : l.thread ≠ .idle) :
    l.start = .error .alreadyStarted ∧ l.act .start = l := by
  have hstart : l.start = .error .alreadyStarted := if_neg h
  exact ⟨hstart, by rw [act, hstart]⟩

/-- One if the thread has decided on an iteration that has not begun yet. -/
def decided (l : RenderLoop) : Nat := if l.thread = .ready then 1 else 0

/-- A loop that was told to stop decides on no further iteration. -/
theorem begun_run_le (h : l.stopping = true) (actions : List Action) :
    (l.run actions).begun.length ≤ l.begun.length + l.decided := by
  have hrun := run_induction (l := l)
    (motive := fun now => now.stopping = true ∧
      now.begun.length + now.decided ≤ l.begun.length + l.decided)
    ⟨h, Nat.le_refl _⟩ (fun now next a hchange hnow => ?_) actions
  · omega
  · obtain ⟨hstop, hle⟩ := hnow
    cases hchange with
    | start hthread => simpa [decided, hstop, hthread] using hle
    | stop => exact ⟨rfl, hle⟩
    | leave hthread => simpa [decided, hstop, hthread] using hle
    | decide hthread hgo => simp [hstop] at hgo
    | begin hthread => simpa [decided, hstop, hthread] using hle
    | finish hthread => simpa [decided, hstop, hthread] using hle
    | nothing => exact ⟨hstop, hle⟩

/-- No iteration has begun before the loop is started. -/
theorem begun_of_idle (h : l.begun = []) (actions : List Action)
    (hidle : (l.run actions).thread = .idle) : (l.run actions).begun = [] := by
  refine run_induction (motive := fun now => now.thread = .idle → now.begun = []) (fun _ => h)
    (fun now next a hchange hnow hthread => ?_) actions hidle
  cases hchange with
  | start => cases hthread
  | stop => exact hnow hthread
  | leave => cases hthread
  | decide => cases hthread
  | begin => cases hthread
  | finish => cases hthread
  | nothing => exact hnow hthread

/-- Nothing more happens to a thread that has ended. -/
theorem run_of_ended (h : l.thread = .ended) (actions : List Action) :
    (l.run actions).begun = l.begun ∧ (l.run actions).frames = l.frames := by
  refine (run_induction (motive := fun now => now.thread = .ended ∧ now.begun = l.begun ∧
    now.frames = l.frames) ⟨h, rfl, rfl⟩ (fun now next a hchange hnow => ?_) actions).2
  have hended := hnow.1
  cases hchange with
  | start hthread => simp [hended] at hthread
  | stop => exact hnow
  | leave hthread => simp [hended] at hthread
  | decide hthread => simp [hended] at hthread
  | begin hthread => simp [hended] at hthread
  | finish hthread => simp [hended] at hthread
  | nothing => exact hnow

/-! ## A loop from its beginning -/

theorem disciplined_of_make {rate : Int} (h : make rate = .ok l) :
    l.thread = .idle ∧ l.begun = [] ∧ l.Disciplined [] := by
  unfold make at h
  split at h
  · cases h
  · split at h
    · cases h
    · rw [← Except.ok.inj h]
      exact ⟨rfl, rfl, ⟨rfl, rfl, rfl⟩⟩

/-- What can be said of a loop after any steps. -/
structure KeepsDiscipline (l : RenderLoop) (actions : List Action) : Prop where
  /-- The numbers passed to the iterations are counted up from zero. -/
  numbers : (l.run actions).begun = List.range (l.run actions).begun.length
  /-- The counter counts the iterations that ended, whether they failed or not. -/
  frames : (l.run actions).frames = (l.outcomes actions).length
  /-- An iteration that has begun has ended, or it is the last one and the thread is in it. -/
  current : (l.run actions).begun.length =
    (l.outcomes actions).length + if (l.run actions).thread = .inFrame then 1 else 0
  /-- The records of errors are those of the iterations that failed, one for each. -/
  errors : (l.run actions).errors = (failedFrames (l.outcomes actions)).map .frameFailed
  /-- A loop that was not told to stop goes on with the next iteration, also after a failure. -/
  next : (l.run actions).thread = .checking → (l.run actions).stopping = false → ∀ failed,
    (l.run (actions ++ frameActions failed)).begun =
        (l.run actions).begun ++ [(l.run actions).frames] ∧
      l.outcomes (actions ++ frameActions failed) = l.outcomes actions ++ [failed]
  /-- After a call to stop the loop at most one more iteration begins. -/
  stopped : ∀ before after, actions = before ++ .stop :: after →
    (l.run actions).begun.length ≤ (l.run before).begun.length + 1
  /-- A call to start the loop is refused just if there was one before. -/
  start : (l.run actions).start = .error .alreadyStarted ↔ .start ∈ actions
  /-- A call that is refused changes nothing. -/
  refused : .start ∈ actions → l.run (actions ++ [.start]) = l.run actions
  /-- Once the thread has ended no iteration begins or ends any more. -/
  ended : (l.run actions).thread = .ended → ∀ more, (l.run (actions ++ more)).begun =
    (l.run actions).begun ∧ l.outcomes (actions ++ more) = l.outcomes actions
  /-- If the loop is told to stop before it is started, no iteration begins. -/
  never : ∀ before after, actions = before ++ .stop :: after → .start ∉ before →
    (l.run actions).begun = []

/-- **The discipline of frames.** From a loop that was just made, after any interleaving of the steps
of its thread with calls to start and to stop it, whichever iterations fail: the iterations are
numbered without a gap or a repetition, the counter counts those that have ended, each failure is
recorded once and does not keep the next iteration from coming; at most one iteration begins after a
call to stop, and none at all if that call came before the first one to start; every further call to
start is refused and changes nothing, so that a thread that has ended stays so. -/
theorem run_keeps_discipline (rate : Int) (l : RenderLoop) (h : make rate = .ok l)
    (actions : List Action) : l.KeepsDiscipline actions := by
  obtain ⟨hidle, hnone, hinitial⟩ := disciplined_of_make h
  have hrun : ∀ actions, (l.run actions).Disciplined (l.outcomes actions) :=
    run_disciplined hinitial
  have hstarted : .start ∈ actions ↔ (l.run actions).thread ≠ .idle := by
    rw [ne_eq, idle_run_iff]
    simp [hidle]
  refine ⟨?_, (hrun actions).frames, ?_, (hrun actions).errors, ?_, ?_, ?_, ?_, ?_, ?_⟩
  · rw [(hrun actions).begun, List.length_range]
  · rw [(hrun actions).begun, List.length_range, (hrun actions).frames]
  · intro hthread hstop failed
    obtain ⟨hbegun, hnext⟩ := run_frameActions hthread hstop failed
    rw [run_append, outcomes_append, hnext]
    exact ⟨hbegun, rfl⟩
  · rintro before after rfl
    have hle := begun_run_le (l := (l.run before).stop) rfl after
    have hdecided : (l.run before).stop.decided ≤ 1 := by
      unfold decided
      split <;> omega
    rw [run_append]
    exact Nat.le_trans hle (Nat.add_le_add_left hdecided _)
  · rw [hstarted]
    refine ⟨fun hrefused hthread => ?_, fun hthread => (start_of_not_idle hthread).1⟩
    unfold RenderLoop.start at hrefused
    rw [if_pos hthread] at hrefused
    cases hrefused
  · intro hmem
    rw [run_append]
    exact (start_of_not_idle (hstarted.1 hmem)).2
  · intro hended more
    obtain ⟨hbegun, hframes⟩ := run_of_ended hended more
    have hall := (hrun (actions ++ more)).frames
    rw [run_append, hframes, (hrun actions).frames, outcomes_append, List.length_append] at hall
    -- the counter stands still, so that no outcome was added
    have hnothing : (l.run actions).outcomes more = [] := List.length_eq_zero_iff.1 (by omega)
    rw [run_append, outcomes_append, hnothing, List.append_nil]
    exact ⟨hbegun, rfl⟩
  · rintro before after rfl hmem
    have hthread : (l.run before).thread = .idle := (idle_run_iff before).2 ⟨hidle, hmem⟩
    have hle := begun_run_le (l := (l.run before).stop) rfl after
    have hdecided : (l.run before).stop.decided = 0 := by simp [decided, stop, hthread]
    have hbegun : (l.run before).stop.begun = [] := begun_of_idle hnone before hthread
    rw [hdecided, hbegun] at hle
    rw [run_append]
    exact List.length_eq_zero_iff.1 (Nat.le_zero.1 hle)

/-- A loop is told to stop after it has decided on its second iteration, which fails, and is started
again twice in vain. -/
theorem run_keeps_discipline_late_stop :
    let l : RenderLoop := ⟨(Binary.ofNat 1).div (Binary.ofNat 60), false, .idle, 0, [], []⟩
    let actions : List Action := [.start] ++ frameActions false ++
      [.check, .stop, .beginFrame, .start, .endFrame true, .check, .start, .check, .beginFrame]
    make 60 = .ok l ∧ l.KeepsDiscipline actions ∧ (l.run actions).begun = [0, 1] ∧
      l.outcomes actions = [false, true] ∧ (l.run actions).errors = [.frameFailed 1] ∧
      (l.run actions).thread = .ended := by
  intro l actions
  have hmake : make 60 = .ok l := by decide +kernel
  have hkeeps := run_keeps_discipline 60 l hmake actions
  have houtcomes : l.outcomes actions = [false, true] := by decide +kernel
  refine ⟨hmake, hkeeps, by decide +kernel, houtcomes, ?_, by decide +kernel⟩
  rw [hkeeps.errors, houtcomes]
  rfl

end LiveFormula.RenderLoop
