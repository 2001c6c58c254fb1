import Boron.Lib.Run
import Boron.Lib.SearchTree
import Mathlib.Algebra.Ring.Nat

/-! # Timers (`ke/timer.c`)

Each scheduler keeps its timers in a tree whose key is the timer's `ExpiryTick`, cut down to the
width of a pointer. A timer that meets its own key in the tree is moved on by one tick and tried
again. The dispatch of the timer queue takes timers from the front of the tree as long as they
expire within 100 ticks, and the scheduler asks how long the first one has to go.

What has happened to the timers is written to a log, newest first. The clock is read afresh
wherever the code reads it, and `KiWaitTest`, which a dispatch calls for each timer, cancels the
timers of the threads that it wakes: the readings and those timers are inputs of a step. -/

namespace Boron.Ke

open Function

/-- The width of an `RBTREE_KEY`, which is that of a pointer. -/
inductive KeyWidth
  | narrow
  | wide
  deriving DecidableEq

def KeyWidth.bits : KeyWidth → Nat
  | narrow => 32
  | wide => 64

/-- A `KTIMER`, except for its entry in a tree. -/
structure KTimer (C D : Type) where
  expiryTick : Nat
  isEnqueued : Bool
  scheduler : C
  dpc : Option D
  signaled : Bool

/-- The `EntryTree` of a timer in a tree. -/
structure TimerEntry (K : Type) where
  key : Nat
  timer : K
  deriving DecidableEq

/-- What happens to a timer. `due` is the tick that a set asks for. -/
inductive TimerEvent (K : Type)
  | set (k : K) (due : Nat)
  | cancelled (k : K)
  | signaled (k : K) (now : Nat)

/-- The timers `K`, the schedulers `C` and their trees. `dpcs` holds the DPCs handed to
`KeEnqueueDpc`, `clock` is the last tick count read; `dispatched` is what the last step dispatched and
when, and `asked` the expiry that the last step was asked the distance to, with the difference it
computed. -/
structure TimerQueue (K C D : Type) where
  width : KeyWidth
  tickFrequency : Nat
  timer : K → KTimer C D
  timerTree : C → List (TimerEntry K)
  dpcs : List D
  clock : Nat
  log : List (TimerEvent K)
  dispatched : Option (C × Nat)
  asked : Option (Nat × Nat)

namespace TimerQueue

variable {K C D : Type} [DecidableEq K] [DecidableEq C]

/-- The key that an expiry tick is stored under. -/
def keyOf (s : TimerQueue K C D) (expiryTick : Nat) : Nat := expiryTick % 2 ^ s.width.bits

def setTimer (s : TimerQueue K C D) (k : K) (timer : KTimer C D) : TimerQueue K C D :=
  { s with timer := update s.timer k timer }

def kiRemoveTimerTree (s : TimerQueue K C D) (k : K) : TimerQueue K C D :=
  let scheduler := (s.timer k).scheduler
  { s with
    timerTree := update s.timerTree scheduler
      ((s.timerTree scheduler).filter (·.timer ≠ k)) }

/-- `KiInsertTimerTree` on the scheduler `c`; `false` if the key is taken. -/
def kiInsertTimerTree (s : TimerQueue K C D) (c : C) (k : K) : TimerQueue K C D × Bool :=
  let s := s.setTimer k { s.timer k with scheduler := c }
  match insertItem TimerEntry.key (s.timerTree c) ⟨s.keyOf (s.timer k).expiryTick, k⟩ with
  | some cursor =>
    ({ s with timerTree := update s.timerTree c cursor.toTree }, true)
  | none => (s, false)

def kiCancelTimer (s : TimerQueue K C D) (k : K) : TimerQueue K C D × Bool :=
  let status := (s.timer k).isEnqueued
  let s := if status then s.kiRemoveTimerTree k else s
  ({ s.setTimer k { s.timer k with isEnqueued := false } with log := .cancelled k :: s.log }, status)

/-- The loop of `KiSetTimer`. After `2 ^ 64` turns it would be back where it began: without one that
succeeds it never ends. -/
def insertLoop (c : C) (k : K) : (fuel : Nat) → TimerQueue K C D → Option (TimerQueue K C D)
  | 0, _ => none
  | fuel + 1, s =>
    match s.kiInsertTimerTree c k with
    | (s, true) => some s
    | (s, false) =>
      insertLoop c k fuel
        (s.setTimer k { s.timer k with expiryTick := ((s.timer k).expiryTick + 1) % 2 ^ 64 })

/-- The ticks of a due time. -/
def ticks (s : TimerQueue K C D) (dueTimeMs : Nat) : Nat :=
  s.tickFrequency * dueTimeMs % 2 ^ 64 / 1000

/-- `KiSetTimer` on the scheduler `c`, at the tick count `now`; `none` if it does not return. -/
def kiSetTimer (s : TimerQueue K C D) (c : C) (k : K) (dueTimeMs : Nat) (dpc : Option D) (now : Nat) :
    Option (TimerQueue K C D × Bool) :=
  let status := (s.timer k).isEnqueued
  let s := if status then s.kiRemoveTimerTree k else s
  let due := now + s.ticks dueTimeMs
  let s := s.setTimer k { s.timer k with expiryTick := due % 2 ^ 64 }
  (insertLoop c k (2 ^ 64) s).map fun s =>
    ({ s.setTimer k { s.timer k with isEnqueued := true, dpc := dpc } with
      log := .set k due :: s.log }, status)

def kiGetNextTimerExpiryTick (s : TimerQueue K C D) (c : C) : Nat :=
  match s.timerTree c with
  | [] => 0
  | entry :: _ => (s.timer entry.timer).expiryTick

/-- The difference that `KiGetNextTimerExpiryItTick` scales to the interrupt timer's frequency; it
computes none for an expiry tick of zero, which also stands for an empty tree. -/
def expiryDifference (s : TimerQueue K C D) (c : C) (now : Nat) : Option Nat :=
  let expiry := s.kiGetNextTimerExpiryTick c
  if expiry = 0 then none else some ((expiry + 2 ^ 64 - now) % 2 ^ 64)

def kiGetNextTimerExpiryItTick (s : TimerQueue K C D) (c : C) (intTimerFrequency now : Nat) : Nat :=
  match s.expiryDifference c now with
  | none => 0
  | some difference =>
    let duration := difference * intTimerFrequency % 2 ^ 64 / s.tickFrequency
    if duration = 0 then 1 else duration

/-- The cancellations that `KiWaitTest` makes. -/
def cancelAll (s : TimerQueue K C D) (woken : List K) : TimerQueue K C D :=
  woken.foldl (fun s k => (s.kiCancelTimer k).1) s

/-- The body of the loop of `KiDispatchTimerObjects`, for a timer that is to expire. -/
def expire (s : TimerQueue K C D) (k : K) (now : Nat) (woken : List K) : TimerQueue K C D :=
  let s := { s with dpcs := s.dpcs ++ (s.timer k).dpc.toList, log := .signaled k now :: s.log }
  let s := s.setTimer k { s.timer k with signaled := true, isEnqueued := false }
  (s.kiRemoveTimerTree k).cancelAll woken

/-- `KiDispatchTimerObjects`: `clock i` is the tick count at the `i`-th reading and `woken i` the
timers that are cancelled after it. Every turn but the last takes a timer out of the tree. -/
def kiDispatchTimerObjects (c : C) (clock : Nat → Nat) (woken : Nat → List K) :
    (fuel i : Nat) → TimerQueue K C D → TimerQueue K C D × Nat
  | 0, i, s => (s, i)
  | fuel + 1, i, s =>
    match s.timerTree c with
    | [] => (s, i)
    | entry :: _ =>
      if (clock i + 100) % 2 ^ 64 ≤ (s.timer entry.timer).expiryTick then (s, i)
      else
        kiDispatchTimerObjects c clock woken fuel (i + 1)
          (s.expire entry.timer (clock i) (woken i))

def kiDispatchTimerQueue (s : TimerQueue K C D) (c : C) (clock : Nat → Nat)
    (woken : Nat → List K) : TimerQueue K C D × Nat :=
  if s.kiGetNextTimerExpiryTick c ≤ (clock 0 + 100) % 2 ^ 64 then
    s.kiDispatchTimerObjects c clock woken ((s.timerTree c).length + 1) 1
  else (s, 0)

/-! ## Steps -/

inductive Action (K C D : Type)
  | set (c : C) (k : K) (dueTimeMs : Nat) (dpc : Option D) (now : Nat)
  | cancel (k : K)
  | dispatch (c : C) (clock : Nat → Nat) (woken : Nat → List K)
  | ask (c : C) (now : Nat)

def step (s : TimerQueue K C D) : Action K C D → Option (TimerQueue K C D)
  | .set c k dueTimeMs dpc now =>
    (s.kiSetTimer c k dueTimeMs dpc now).map fun r =>
      { r.1 with clock := now, dispatched := none, asked := none }
  | .cancel k => some { (s.kiCancelTimer k).1 with dispatched := none, asked := none }
  | .dispatch c clock woken =>
    let (s, i) := s.kiDispatchTimerQueue c clock woken
    some { s with clock := clock i, dispatched := some (c, clock i), asked := none }
  | .ask c now =>
    some { s with
      clock := now
      dispatched := none
      asked := (s.expiryDifference c now).map (s.kiGetNextTimerExpiryTick c, ·) }

/-- The tick count is a 64-bit counter that never goes back, and no due time overflows. -/
def Legal (s : TimerQueue K C D) : Action K C D → Prop
  | .set _ _ dueTimeMs _ now =>
    s.clock ≤ now ∧ now < 2 ^ 64 ∧ s.tickFrequency * dueTimeMs < 2 ^ 64
  | .cancel _ => True
  | .dispatch _ clock _ => s.clock ≤ clock 0 ∧ (∀ i, clock i ≤ clock (i + 1)) ∧ ∀ i, clock i < 2 ^ 64
  | .ask _ now => s.clock ≤ now ∧ now < 2 ^ 64

/-- No timer is set. -/
def start (width : KeyWidth) (tickFrequency : Nat) (timer : K → KTimer C D) :
    TimerQueue K C D where
  width := width
  tickFrequency := tickFrequency
  timer := fun k => { timer k with expiryTick := 0, isEnqueued := false }
  timerTree := fun _ => []
  dpcs := []
  clock := 0
  log := []
  dispatched := none
  asked := none

/-! ## What is promised of the timers -/

/-- The due tick of the timer's last set, unless it has been cancelled or signaled since. -/
def pending : List (TimerEvent K) → K → Option Nat
  | [], _ => none
  | .set j due :: log, k => if j = k then some due else pending log k
  | .cancelled j :: log, k => if j = k then none else pending log k
  | .signaled j _ :: log, k => if j = k then none else pending log k

/-- Every signal is the first one of a set that was neither cancelled nor replaced, and it comes at
most 100 ticks early. -/
def SignalsOnce : List (TimerEvent K) → Prop
  | [] => True
  | .signaled k now :: log => (∃ due, pending log k = some due ∧ due ≤ now + 100) ∧ SignalsOnce log
  | .set _ _ :: log | .cancelled _ :: log => SignalsOnce log

/-- An expiry tick that a set can give a timer: the first one from `due` on whose key is not in the
tree, with the order of the keys being that of the expiry ticks. -/
structure Slot (s : TimerQueue K C D) (c : C) (k : K) (due e : Nat) : Prop where
  due_le : due ≤ e
  lt : e < 2 ^ 64
  free : ∀ entry ∈ s.timerTree c, entry.timer ≠ k → entry.key ≠ s.keyOf e
  first : ∀ d, due ≤ d → d < e →
    ∃ entry ∈ s.timerTree c, entry.timer ≠ k ∧ entry.key = s.keyOf d
  order : ∀ entry ∈ s.timerTree c, entry.timer ≠ k →
    ((s.timer entry.timer).expiryTick < e ↔ entry.key < s.keyOf e)

/-- Steps without a tick count, an expiry tick or a difference that is cut short. -/
def Calm (s : TimerQueue K C D) : Action K C D → Prop
  | .set c k dueTimeMs _ now => ∃ e, s.Slot c k (now + s.ticks dueTimeMs) e
  | .cancel _ => True
  | .dispatch _ clock _ => ∀ i, clock i + 100 < 2 ^ 64
  | .ask c now => ∀ entry rest, s.timerTree c = entry :: rest →
    now ≤ (s.timer entry.timer).expiryTick

/-- The timer queue keeps its promises. -/
structure Good (s : TimerQueue K C D) : Prop where
  enqueued : ∀ k c, (∃ entry ∈ s.timerTree c, entry.timer = k) ↔
    (s.timer k).isEnqueued ∧ (s.timer k).scheduler = c
  returns : ∀ c k dueTimeMs dpc now, s.Calm (.set c k dueTimeMs dpc now) →
    (s.kiSetTimer c k dueTimeMs dpc now).isSome
  least : ∀ c entry rest, s.timerTree c = entry :: rest → ∀ other ∈ rest,
    (s.timer entry.timer).expiryTick < (s.timer other.timer).expiryTick
  once : SignalsOnce s.log
  kept : ∀ k, (pending s.log k).isSome ↔ (s.timer k).isEnqueued
  expired : ∀ c now, s.dispatched = some (c, now) →
    ∀ entry ∈ s.timerTree c, now < (s.timer entry.timer).expiryTick
  difference : ∀ expiry difference, s.asked = some (expiry, difference) → difference ≤ expiry

end TimerQueue

end Boron.Ke
