import LiveFormula.Proofs.SessionStep
import Mathlib.Data.List.Range

/-!
# Handing programs over

Two threads share a slot. The producer stages programs. The consumer polls: it takes what waits and
then installs what it has taken, and the producer may stage in between. An interleaving of the two
is a list of turns, and every list is one, because what the consumer does in its turn depends on
nothing but what it holds.

A stage event is known by its number among all of them, so that two events with the same program are
told apart. `Handoff` records which events were taken and which were handed to the evaluator.

* `Handoff.Consistent` — the events taken so far, followed by the one that waits, are a subsequence
  of the stage events that ends on the last of them.
* `Handoff.turn_consistent`, `Handoff.run_consistent` — every turn, and so every run, keeps it.
* `Handoff.run_hands_over` — programs are handed over in the order of their stage events and none
  twice, a take gives the last one staged, and with nothing on its way the last one staged is the
  last one handed over.
-/

set_option autoImplicit false

namespace LiveFormula

/-- A session between two threads, with what has happened so far. An event is a program with the
number of its stage event, the first being number one. -/
structure Handoff where
  session : Session
  /-- What the consumer has taken and not yet installed. -/
  held : Option (Program × Nat)
  /-- The programs staged, in order. -/
  staged : List Program
  /-- What was taken, each program with the number of programs staged before that. -/
  taken : List (Program × Nat)
  /-- What was handed to the evaluator, accepted or not, as it was taken. -/
  handed : List (Program × Nat)
  effects : List Effect

namespace Handoff

/-- A turn of one of the threads. -/
inductive Turn
  /-- The producer feeds a line, which is staged if it has a program. -/
  | feed (line : List Char)
  /-- The producer stages a program. -/
  | stage (program : Program)
  /-- The consumer takes if it holds nothing, and installs what it holds otherwise. -/
  | consume
  deriving DecidableEq, Repr

/-- The program that a turn stages. -/
def Turn.program? : Turn → Option Program
  | feed line => Session.program? line
  | stage p => some p
  | consume => none

/-- The stage events of an interleaving. -/
def stageEvents (turns : List Turn) : List (Program × Nat) :=
  (turns.filterMap Turn.program?).zipIdx 1

/-- A session before the first turn. -/
def start (s : Session) : Handoff := ⟨s, none, [], [], [], []⟩

/-- The consumer takes. -/
def take (h : Handoff) : Handoff :=
  let next := h.session.take
  let event := next.result.map fun p => (p, h.staged.length)
  { h with session := next.session, held := event, taken := h.taken ++ event.toList }

/-- The consumer installs a program it has taken. -/
def install (h : Handoff) (event : Program × Nat) : Handoff :=
  let next := h.session.deliver event.1
  { h with
    session := next.session
    held := none
    handed := h.handed ++ [event]
    effects := h.effects ++ next.effects }

/-- Takes a turn. -/
def turn (h : Handoff) (t : Turn) : Handoff :=
  match t with
  | .feed line =>
    let next := h.session.feed line
    { h with
      session := next.session
      staged := h.staged ++ t.program?.toList
      effects := h.effects ++ next.effects }
  | .stage p =>
    let next := h.session.stage p
    { h with
      session := next.session
      staged := h.staged ++ t.program?.toList
      effects := h.effects ++ next.effects }
  | .consume =>
    match h.held with
    | none => h.take
    | some event => h.install event

/-- Takes turns in order. -/
def run (h : Handoff) (turns : List Turn) : Handoff := turns.foldl turn h

theorem consume_of_none {h : Handoff} (hheld : h.held = none) : h.turn .consume = h.take := by
  simp only [turn, hheld]

theorem consume_of_some {h : Handoff} {event : Program × Nat} (hheld : h.held = some event) :
    h.turn .consume = h.install event := by
  simp only [turn, hheld]

/-- Two turns of the consumer in a row are a poll. -/
theorem consume_consume {h : Handoff} (hheld : h.held = none) :
    ((h.turn .consume).turn .consume).session = h.session.poll.session ∧
      ((h.turn .consume).turn .consume).held = none ∧
      ((h.turn .consume).turn .consume).effects = h.effects ++ h.session.poll.effects := by
  rw [consume_of_none hheld, Session.poll_eq]
  cases hwaiting : h.session.slot.waiting with
  | none =>
      have hnone : h.take.held = none := by simp [take, hwaiting]
      rw [consume_of_none hnone]
      simp [take, hwaiting, Session.take, Slot.take]
  | some p =>
      have hsome : h.take.held = some (p, h.staged.length) := by simp [take, hwaiting]
      rw [consume_of_some hsome]
      simp [install, take]

/-! ## The stage events -/

theorem staged_turn (h : Handoff) (t : Turn) :
    (h.turn t).staged = h.staged ++ t.program?.toList := by
  cases t with
  | feed line => rfl
  | stage p => rfl
  | consume =>
      cases hheld : h.held with
      | none => simp [consume_of_none hheld, take, Turn.program?]
      | some event => simp [consume_of_some hheld, install, Turn.program?]

theorem staged_run (h : Handoff) (turns : List Turn) :
    (h.run turns).staged = h.staged ++ turns.filterMap Turn.program? := by
  induction turns generalizing h with
  | nil => simp [run]
  | cons t ts ih =>
      have hrun : (h.run (t :: ts)).staged = ((h.turn t).run ts).staged := rfl
      rw [hrun, ih, staged_turn, List.append_assoc, List.filterMap_cons]
      cases t.program? <;> rfl

/-- The number of an event grows along the events. -/
theorem numbers_increase {events : List (Program × Nat)} {programs : List Program}
    (h : events.Sublist (programs.zipIdx 1)) : (events.map Prod.snd).Pairwise (· < ·) := by
  have hnumbers : (programs.zipIdx 1).map Prod.snd = List.range' 1 programs.length :=
    List.zipIdx_map_snd 1 programs
  have hall : ((programs.zipIdx 1).map Prod.snd).Pairwise (· < ·) := by
    rw [hnumbers]
    exact List.pairwise_lt_range'
  exact hall.sublist (h.map Prod.snd)

/-! ## What every turn keeps -/

/-- The event that waits in the slot. -/
def waiting (h : Handoff) : Option (Program × Nat) :=
  h.session.slot.waiting.map fun p => (p, h.staged.length)

structure Consistent (h : Handoff) : Prop where
  /-- What was taken has been handed over, but for what the consumer holds. -/
  taken_eq : h.taken = h.handed ++ h.held.toList
  /-- The events taken and the one that waits keep the order of the stage events. -/
  inOrder : (h.taken ++ h.waiting.toList).Sublist (h.staged.zipIdx 1)
  /-- The last event that was staged is not lost. -/
  last : (h.taken ++ h.waiting.toList).getLast? = (h.staged.zipIdx 1).getLast?

theorem start_consistent {s : Session} (hslot : s.slot.waiting = none) : (start s).Consistent where
  taken_eq := rfl
  inOrder := by simp [start, waiting, hslot]
  last := by simp [start, waiting, hslot]

namespace Consistent

variable {h : Handoff} (hc : h.Consistent)

include hc

theorem taken_sublist : h.taken.Sublist (h.staged.zipIdx 1) :=
  (List.sublist_append_left _ _).trans hc.inOrder

theorem handed_sublist : h.handed.Sublist h.taken := by
  rw [hc.taken_eq]
  exact List.sublist_append_left _ _

/-- A program that is staged waits from then on, whatever the slot held. -/
theorem staged {s : Session} {p : Program} (hslot : s.slot.waiting = some p)
    (effects : List Effect) :
    Consistent { h with session := s, staged := h.staged ++ [p], effects := effects } := by
  have hevents : (h.staged ++ [p]).zipIdx 1 = h.staged.zipIdx 1 ++ [(p, h.staged.length + 1)] := by
    simp [List.zipIdx_append, Nat.add_comm]
  refine ⟨hc.taken_eq, ?_, ?_⟩
  · simp only [waiting, hslot, Option.map_some, Option.toList_some, List.length_append,
      List.length_singleton, hevents]
    exact hc.taken_sublist.append (List.Sublist.refl _)
  · simp only [waiting, hslot, Option.map_some, Option.toList_some, List.length_append,
      List.length_singleton, hevents, List.getLast?_append, List.getLast?_singleton, Option.some_or]

/-- What waits moves over to what is taken, and the events are the same as before. -/
theorem take (hheld : h.held = none) : h.take.Consistent := by
  have hwaiting : h.take.waiting = none := rfl
  have htaken : h.take.taken = h.taken ++ h.waiting.toList := rfl
  have hdone : h.taken = h.handed := by
    rw [hc.taken_eq, hheld]
    exact List.append_nil _
  refine ⟨?_, ?_, ?_⟩
  · rw [htaken, hdone]
    rfl
  · rw [hwaiting, htaken, Option.toList_none, List.append_nil]
    exact hc.inOrder
  · rw [hwaiting, htaken, Option.toList_none, List.append_nil]
    exact hc.last

/-- The slot is left alone by an installation, whether the program is accepted or not. -/
theorem install {event : Program × Nat} (hheld : h.held = some event) :
    (h.install event).Consistent := by
  have hslot : (h.session.deliver event.1).session.slot = h.session.slot := by
    cases hcheck : event.1.check with
    | ok is => rw [Session.deliver_of_ok _ hcheck]
    | error e => rw [Session.deliver_of_error _ hcheck]
  have hwaiting : (h.install event).waiting = h.waiting := by
    unfold waiting Handoff.install
    rw [hslot]
  refine ⟨?_, ?_, ?_⟩
  · rw [Handoff.install, hc.taken_eq, hheld]
    exact (List.append_nil _).symm
  · rw [hwaiting]
    exact hc.inOrder
  · rw [hwaiting]
    exact hc.last

end Consistent

/-- Every turn keeps the events consistent. -/
theorem turn_consistent {h : Handoff} (hc : h.Consistent) (t : Turn) : (h.turn t).Consistent := by
  cases t with
  | feed line =>
      cases hprogram : Session.program? line with
      | none =>
          -- A rejected line touches neither the slot nor the events.
          have hslot : (h.session.feed line).session.slot = h.session.slot := by
            rw [Session.feed_session, hprogram]
          refine ⟨hc.taken_eq, ?_, ?_⟩
          · simpa [turn, waiting, hslot, Turn.program?, hprogram] using hc.inOrder
          · simpa [turn, waiting, hslot, Turn.program?, hprogram] using hc.last
      | some p =>
          have hslot : (h.session.feed line).session.slot.waiting = some p := by
            rw [Session.feed_session, hprogram]
          simp only [turn, Turn.program?, hprogram, Option.toList_some]
          exact hc.staged hslot _
  | stage p => exact hc.staged rfl _
  | consume =>
      cases hheld : h.held with
      | none =>
          rw [consume_of_none hheld]
          exact hc.take hheld
      | some event =>
          rw [consume_of_some hheld]
          exact hc.install hheld

/-- Every interleaving keeps the events consistent. -/
theorem run_consistent {h : Handoff} (hc : h.Consistent) (turns : List Turn) :
    (h.run turns).Consistent := by
  induction turns generalizing h with
  | nil => exact hc
  | cons t ts ih => exact ih (turn_consistent hc t)

namespace Consistent

variable {h : Handoff} (hc : h.Consistent)

include hc

/-- What waits is the last program staged, and was not taken before. -/
theorem of_waiting {p : Program} (hslot : h.session.slot.waiting = some p) :
    (h.staged.zipIdx 1).getLast? = some (p, h.staged.length) ∧ (p, h.staged.length) ∉ h.taken := by
  have hwaiting : h.waiting = some (p, h.staged.length) := by rw [waiting, hslot]; rfl
  have hlast := hc.last
  have horder := numbers_increase hc.inOrder
  rw [hwaiting, Option.toList_some] at hlast horder
  refine ⟨?_, ?_⟩
  · rw [← hlast, List.getLast?_append, List.getLast?_singleton]
    rfl
  · intro hmem
    -- Its number would be below itself.
    rw [List.map_append, List.pairwise_append] at horder
    have hlt := horder.2.2 _ (List.mem_map_of_mem hmem) _ (List.mem_singleton_self _)
    exact Nat.lt_irrefl _ hlt

/-- With nothing on its way, the last event handed over is the last one staged. -/
theorem last_handed (hslot : h.session.slot.waiting = none) (hheld : h.held = none) :
    h.handed.getLast? = (h.staged.zipIdx 1).getLast? := by
  have hdone : h.taken = h.handed := by
    rw [hc.taken_eq, hheld]
    exact List.append_nil _
  have hwaiting : h.waiting = none := by rw [waiting, hslot]; rfl
  rw [← hc.last, hwaiting, hdone, Option.toList_none, List.append_nil]

end Consistent

/-- **The hand-off protocol.** After any interleaving that begins with an empty session: the events
handed to the evaluator are a subsequence of the stage events, and their numbers grow, so that none
is handed over twice; the next take, if it gives a program, gives that of the last stage event,
which was not taken before; and if the slot is empty and the consumer holds nothing, the last event
handed over is the last stage event. -/
theorem run_hands_over (turns : List Turn) :
    let h := (start .empty).run turns
    (h.handed.Sublist (stageEvents turns) ∧ (h.handed.map Prod.snd).Pairwise (· < ·)) ∧
    (∀ p, h.session.take.result = some p →
      ∃ number, (stageEvents turns).getLast? = some (p, number) ∧ (p, number) ∉ h.taken) ∧
    (h.session.slot.pending = false → h.held = none →
      h.handed.getLast? = (stageEvents turns).getLast?) := by
  intro h
  have hc : h.Consistent := run_consistent (start_consistent rfl) turns
  have hevents : stageEvents turns = h.staged.zipIdx 1 := by
    rw [stageEvents, staged_run]
    rfl
  have hsub : h.handed.Sublist (h.staged.zipIdx 1) := hc.handed_sublist.trans hc.taken_sublist
  rw [hevents]
  refine ⟨⟨hsub, numbers_increase hsub⟩, ?_, ?_⟩
  · intro p hp
    exact ⟨h.staged.length, hc.of_waiting hp⟩
  · intro hslot hheld
    refine hc.last_handed ?_ hheld
    simpa [Slot.pending] using hslot

/-- Of three programs, the second and the third are staged while the first is on its way. -/
theorem run_hands_over_overtaken :
    let turns : List Turn :=
      [.stage ⟨[1]⟩, .consume, .stage ⟨[1, 1]⟩, .stage ⟨[1, 9]⟩, .consume, .consume, .consume]
    let h := (start .empty).run turns
    h.handed = [(⟨[1]⟩, 1), (⟨[1, 9]⟩, 3)] ∧ h.session.slot.pending = false ∧ h.held = none ∧
      h.handed.getLast? = (stageEvents turns).getLast? := by
  intro turns h
  exact ⟨rfl, rfl, rfl, (run_hands_over turns).2.2 rfl rfl⟩

end Handoff

end LiveFormula
