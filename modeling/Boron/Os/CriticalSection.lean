import Boron.Lib.Run
import Mathlib.Data.List.Nodup

/-! # Critical sections

`csect.c` of the user library builds a lock from one word, `Locked`, and one synchronization event.
`OSEnterCriticalSection` spins for a while on a compare-exchange of the word and then alternates
compare-exchange and wait; `OSLeaveCriticalSection` stores zero and then sets the event, in two
separate steps. Every atomic step of every thread is an action of the system below, so a run is an
interleaving of them. Each thread leaves only a section it has entered: `leave` is possible for a
thread that is inside and for no other.

The event is an auto-reset one: setting it releases one waiting thread, any of them, or, when
nobody waits, is remembered for the next thread that waits. -/

namespace Boron.Os

open List Option

/-- A synchronization event: whether it is signaled, and the threads blocked on it. -/
structure Event (T : Type) where
  signaled : Bool
  waiters : List T

namespace Event

variable {T : Type} [DecidableEq T]

/-- The event as `OSCreateEvent` makes it. -/
def unsignaled : Event T := { signaled := false, waiters := [] }

/-- A wait by `t`: whether it is over at once, and the event after it. -/
def wait (e : Event T) (t : T) : Bool × Event T :=
  if e.signaled then (true, { e with signaled := false })
  else (false, { e with waiters := e.waiters ++ [t] })

/-- Set the event: `w`, a blocked thread, is released, or there is none and the signal stays. -/
def set (e : Event T) (w : Option T) : Option (Event T) :=
  match w with
  | none => if e.waiters = [] then some { e with signaled := true } else none
  | some w => if w ∈ e.waiters then some { e with waiters := e.waiters.erase w } else none

end Event

/-- Where a thread stands in the code of a critical section. -/
inductive Phase where
  /-- Neither in a call nor inside the section. -/
  | outside
  /-- In the spin loop of `OSEnterCriticalSection`, with its counter. -/
  | spinning (i : Nat)
  /-- Before the compare-exchange of the endless loop; `woken`: a wait on the event led here. -/
  | trying (woken : Bool)
  /-- The compare-exchange of the endless loop has failed, the wait is next. -/
  | waiting
  /-- Blocked on the event. -/
  | blocked
  /-- The section is entered and not yet left. -/
  | inside
  /-- In `OSLeaveCriticalSection`, after the store and before the event is set. -/
  | leaving
deriving DecidableEq, Repr

/-- An `OS_CRITICAL_SECTION` and the threads that use it. -/
structure CriticalSection (T : Type) where
  locked : Bool
  maxSpins : Int
  event : Event T
  phase : T → Phase

namespace CriticalSection

variable {T : Type} [DecidableEq T]

/-- `OSInitializeCriticalSectionWithSpinCount`, with every thread outside. -/
def osInitializeCriticalSectionWithSpinCount (maxSpins : Int) : CriticalSection T :=
  { locked := false, maxSpins := maxSpins, event := Event.unsignaled, phase := fun _ => .outside }

/-- Move one thread on. -/
def goTo (s : CriticalSection T) (t : T) (p : Phase) : CriticalSection T :=
  { s with phase := Function.update s.phase t p }

/-- `OSTryEnterCriticalSection_`, one compare-exchange of `Locked` from 0 to 1: the thread is inside
if it succeeds and goes on to `p` if it fails. -/
def osTryEnter (s : CriticalSection T) (t : T) (p : Phase) : CriticalSection T :=
  if s.locked then s.goTo t p else { s with locked := true }.goTo t .inside

/-- The atomic steps, each with the thread that takes it. -/
inductive Step (T : Type) where
  /-- Call `OSEnterCriticalSection`. -/
  | enter (t : T)
  /-- Call `OSTryEnterCriticalSection`, which is one compare-exchange. -/
  | tryEnter (t : T)
  /-- One turn of the spin loop, or the end of the loop. -/
  | spin (t : T)
  /-- The compare-exchange of the endless loop. -/
  | attempt (t : T)
  /-- `OSWaitForSingleObject` on the event. -/
  | wait (t : T)
  /-- The store of `OSLeaveCriticalSection`. -/
  | leave (t : T)
  /-- `OSSetEvent` of `OSLeaveCriticalSection`, with the waiter that it releases. -/
  | setEvent (t : T) (woken : Option T)

/-- `none`: the thread is not where it takes this step. -/
def step (s : CriticalSection T) : Step T → Option (CriticalSection T)
  | .enter t =>
    match s.phase t with
    | .outside => some (s.goTo t (.spinning 0))
    | _ => none
  | .tryEnter t =>
    match s.phase t with
    | .outside => some (s.osTryEnter t .outside)
    | _ => none
  | .spin t =>
    match s.phase t with
    | .spinning i =>
      if (i : Int) < s.maxSpins then some (s.osTryEnter t (.spinning (i + 1)))
      else some (s.goTo t (.trying false))
    | _ => none
  | .attempt t =>
    match s.phase t with
    | .trying _ => some (s.osTryEnter t .waiting)
    | _ => none
  | .wait t =>
    match s.phase t with
    | .waiting =>
      let (satisfied, event) := s.event.wait t
      some ({ s with event := event }.goTo t (if satisfied then .trying true else .blocked))
    | _ => none
  | .leave t =>
    match s.phase t with
    | .inside => some ({ s with locked := false }.goTo t .leaving)
    | _ => none
  | .setEvent t woken =>
    match s.phase t with
    | .leaving =>
      (s.event.set woken).map fun event =>
        match woken with
        | some w => ({ s with event := event }.goTo w (.trying true)).goTo t .outside
        | none => { s with event := event }.goTo t .outside
    | _ => none

/-- Every interleaving is allowed. -/
def Runs (maxSpins : Int) : CriticalSection T → Prop :=
  Reaches step (fun _ _ => True) (osInitializeCriticalSectionWithSpinCount maxSpins)

/-! ## What a step does to the phases and the word -/

/-- Whether a thread has found the section locked and depends on the event from there on. -/
def NeedsEvent (s : CriticalSection T) (t : T) : Prop :=
  s.phase t = .waiting ∨ s.phase t = .blocked

/-- Somebody is going to look after the threads that depend on the event: the section is locked and
will be left, its leave is in progress, the signal is still there, or a thread that the signal
reached is about to try again. -/
def Cared (s : CriticalSection T) : Prop :=
  s.locked = true ∨ s.event.signaled = true ∨ (∃ t, s.phase t = .leaving) ∨
    ∃ t, s.phase t = .trying true

/-- What every reachable state satisfies. -/
structure Inv (s : CriticalSection T) : Prop where
  /-- At most one thread is inside. -/
  exclusive : ∀ t u, s.phase t = .inside → s.phase u = .inside → t = u
  /-- While one is, the word says so. -/
  locked_of_inside : ∀ t, s.phase t = .inside → s.locked = true
  /-- The waiters of the event are blocked. -/
  blocked_of_waiter : ∀ t ∈ s.event.waiters, s.phase t = .blocked
  /-- Each of them is there once. -/
  nodup : s.event.waiters.Nodup
  /-- No thread that depends on the event is forgotten. -/
  cared : ∀ t, s.NeedsEvent t → s.Cared

omit [DecidableEq T] in
theorem inv_initial (ms : Int) : Inv (osInitializeCriticalSectionWithSpinCount (T := T) ms) where
  exclusive := by intro t u h; cases h
  locked_of_inside := by intro t h; cases h
  blocked_of_waiter := by intro t h; cases h
  nodup := nodup_nil
  cared := by rintro t (h | h) <;> cases h

variable {s s' : CriticalSection T} {t u : T} {p : Phase}

@[simp]
theorem phase_goTo : (s.goTo t p).phase u = if u = t then p else s.phase u := by
  simp [goTo, Function.update_apply]

@[simp]
theorem locked_goTo : (s.goTo t p).locked = s.locked := rfl

@[simp]
theorem event_goTo : (s.goTo t p).event = s.event := rfl

/-- A thread that neither leaves nor was woken does not look after anybody. -/
theorem Cared.goTo (h : s.Cared) (hl : s.phase t ≠ .leaving) (hw : s.phase t ≠ .trying true) :
    (s.goTo t p).Cared := by
  rcases h with h | h | ⟨u, h⟩ | ⟨u, h⟩
  · exact .inl h
  · exact .inr (.inl h)
  · refine .inr (.inr (.inl ⟨u, ?_⟩))
    have hne : u ≠ t := fun e => hl (e ▸ h)
    simpa [hne] using h
  · refine .inr (.inr (.inr ⟨u, ?_⟩))
    have hne : u ≠ t := fun e => hw (e ▸ h)
    simpa [hne] using h

variable {e : Event T}

section

variable (h : s.Inv)
include h

/-- A thread may move anywhere but inside, while the event changes, if the event's waiters are
blocked afterwards and the threads that depend on it are still cared for. -/
theorem Inv.move (hp : p ≠ .inside)
    (hw : ∀ u ∈ e.waiters, if u = t then p = .blocked else s.phase u = .blocked)
    (hnd : e.waiters.Nodup)
    (hc : ∀ u, ({ s with event := e }.goTo t p).NeedsEvent u → ({ s with event := e }.goTo t p).Cared) :
    ({ s with event := e }.goTo t p).Inv where
  exclusive := by
    intro u v hu hv
    rw [phase_goTo] at hu hv
    split at hu
    · exact absurd hu hp
    · split at hv
      · exact absurd hv hp
      · exact h.exclusive u v hu hv
  locked_of_inside := by
    intro u hu
    rw [phase_goTo] at hu
    split at hu
    · exact absurd hu hp
    · exact h.locked_of_inside u hu
  blocked_of_waiter := by
    intro u hu
    have hu' := hw u hu
    rw [phase_goTo]
    split at hu'
    · next heq => rw [if_pos heq, hu']
    · next hne => rw [if_neg hne]; exact hu'
  nodup := hnd
  cared := hc

theorem Inv.waiters_of_not_blocked (hb : s.phase t ≠ .blocked) :
    ∀ u ∈ s.event.waiters, if u = t then p = .blocked else s.phase u = .blocked := by
  intro u hu
  have hub := h.blocked_of_waiter u hu
  have hne : u ≠ t := fun e => hb (e ▸ hub)
  rw [if_neg hne]
  exact hub

/-- A move between two phases that have nothing to do with the event. -/
theorem Inv.goTo_idle (hb : s.phase t ≠ .blocked) (hl : s.phase t ≠ .leaving)
    (hw : s.phase t ≠ .trying true) (hp : p ≠ .inside) (hpw : p ≠ .waiting) (hpb : p ≠ .blocked) :
    (s.goTo t p).Inv := by
  refine h.move hp (h.waiters_of_not_blocked hb) h.nodup ?_
  intro u hu
  have hu' : s.NeedsEvent u := by
    simp only [NeedsEvent, phase_goTo] at hu
    split at hu
    · rcases hu with hu | hu
      · exact absurd hu hpw
      · exact absurd hu hpb
    · exact hu
  exact (h.cared u hu').goTo hl hw

/-- The compare-exchange. After it the section is locked, whoever has it, so everybody is cared
for. -/
theorem Inv.osTryEnter (hb : s.phase t ≠ .blocked) (hp : p ≠ .inside) :
    (s.osTryEnter t p).Inv := by
  unfold CriticalSection.osTryEnter
  split
  · next hlk =>
      exact h.move hp (h.waiters_of_not_blocked hb) h.nodup (fun _ _ => .inl hlk)
  · next hfr =>
      have hnn : ∀ u, s.phase u ≠ .inside := fun u hu => hfr (h.locked_of_inside u hu)
      have hon : ∀ u, (({ s with locked := true } : CriticalSection T).goTo t .inside).phase u
          = .inside → u = t := by
        intro u hu
        by_contra hne
        rw [phase_goTo, if_neg hne] at hu
        exact hnn u hu
      exact {
        exclusive := fun u v hu hv => (hon u hu).trans (hon v hv).symm
        locked_of_inside := fun _ _ => rfl
        blocked_of_waiter := by
          intro u hu
          have hub := h.blocked_of_waiter u hu
          have hne : u ≠ t := fun e => hb (e ▸ hub)
          simpa [hne] using hub
        nodup := h.nodup
        cared := fun _ _ => .inl rfl }

/-- The wait: it consumes the signal and the thread is woken, or the thread joins the waiters. It
depended on the event before, so in the second case somebody already cares for it. -/
theorem Inv.wait (ht : s.phase t = .waiting) :
    ({ s with event := (s.event.wait t).2 }.goTo t
      (if (s.event.wait t).1 then .trying true else .blocked)).Inv := by
  have hb : s.phase t ≠ .blocked := by simp [ht]
  unfold Event.wait
  split
  · -- the signal is gone, but the thread it reached is on its way
    refine h.move (by simp) (h.waiters_of_not_blocked hb) h.nodup ?_
    exact fun _ _ => .inr (.inr (.inr ⟨t, by simp⟩))
  · next hs =>
      have hnt : t ∉ s.event.waiters := fun hin => hb (h.blocked_of_waiter t hin)
      refine h.move (by simp) ?_ (h.nodup.append (nodup_singleton t) (by simpa)) ?_
      · intro u hu
        rcases mem_append.1 hu with hu | hu
        · exact h.waiters_of_not_blocked hb u hu
        · rw [if_pos (mem_singleton.1 hu)]
          simp
      · intro u _
        have hc : s.Cared := h.cared t (.inl ht)
        have hp : ({ s with event := { s.event with waiters := s.event.waiters ++ [t] } } :
            CriticalSection T).Cared := hc
        exact hp.goTo (by simp [ht]) (by simp [ht])

/-- The store of a leave: nobody else was inside, and the leave is in progress from here on. -/
theorem Inv.leave (ht : s.phase t = .inside) :
    ({ s with locked := false }.goTo t .leaving).Inv := by
  have hnn : ∀ u, ({ s with locked := false }.goTo t .leaving).phase u ≠ .inside := by
    intro u hu
    rw [phase_goTo] at hu
    split at hu
    · simp at hu
    · next hne => exact hne (h.exclusive u t hu ht)
  exact {
    exclusive := fun u _ hu => absurd hu (hnn u)
    locked_of_inside := fun u hu => absurd hu (hnn u)
    blocked_of_waiter := by
      intro u hu
      have hb := h.blocked_of_waiter u hu
      have hne : u ≠ t := by rintro rfl; rw [ht] at hb; cases hb
      simpa [hne] using hb
    nodup := h.nodup
    cared := fun _ _ => .inr (.inr (.inl ⟨t, by simp⟩)) }

/-- The end of a leave with nobody waiting: the signal stays. -/
theorem Inv.setEvent_none (ht : s.phase t = .leaving)
    (he : s.event.set none = some e) : ({ s with event := e }.goTo t .outside).Inv := by
  simp only [Event.set] at he
  split at he
  · cases he
    exact h.move (by simp) (h.waiters_of_not_blocked (by simp [ht])) h.nodup
      (fun _ _ => .inr (.inl rfl))
  · cases he

/-- The end of a leave with a waiter: it is released and will try again. -/
theorem Inv.setEvent_some {w : T} (ht : s.phase t = .leaving)
    (he : s.event.set (some w) = some e) :
    (({ s with event := e }.goTo w (.trying true)).goTo t .outside).Inv := by
  simp only [Event.set] at he
  split at he
  · next hw =>
      cases he
      have hne : w ≠ t := by
        rintro rfl
        have := h.blocked_of_waiter w hw
        rw [ht] at this
        cases this
      have hwk : ({ s with event := { s.event with waiters := s.event.waiters.erase w } }.goTo w
          (.trying true)).Inv := by
        refine h.move (by simp) ?_ (h.nodup.erase w) (fun _ _ => .inr (.inr (.inr ⟨w, by simp⟩)))
        intro u hu
        have hu' := h.nodup.mem_erase_iff.1 hu
        rw [if_neg hu'.1]
        exact h.blocked_of_waiter u hu'.2
      refine hwk.move (by simp) (hwk.waiters_of_not_blocked ?_) hwk.nodup
        (fun _ _ => .inr (.inr (.inr ⟨w, by simp [hne]⟩)))
      simp [hne.symm, ht]
  · cases he

theorem Inv.step {a : Step T} (hs : s.step a = some s') : s'.Inv := by
  cases a with
  | enter t =>
    simp only [CriticalSection.step] at hs
    split at hs
    · next ht =>
        cases hs
        exact h.goTo_idle (by simp [ht]) (by simp [ht]) (by simp [ht]) (by simp) (by simp) (by simp)
    · cases hs
  | tryEnter t =>
    simp only [CriticalSection.step] at hs
    split at hs
    · next ht =>
        cases hs
        exact h.osTryEnter (by simp [ht]) (by simp)
    · cases hs
  | spin t =>
    simp only [CriticalSection.step] at hs
    split at hs
    · next i ht =>
        split at hs
        · cases hs
          exact h.osTryEnter (by simp [ht]) (by simp)
        · cases hs
          exact h.goTo_idle (by simp [ht]) (by simp [ht]) (by simp [ht]) (by simp) (by simp) (by simp)
    · cases hs
  | attempt t =>
    simp only [CriticalSection.step] at hs
    split at hs
    · next w ht =>
        cases hs
        exact h.osTryEnter (by simp [ht]) (by simp)
    · cases hs
  | wait t =>
    simp only [CriticalSection.step] at hs
    split at hs
    · next ht =>
        cases hs
        exact h.wait ht
    · cases hs
  | leave t =>
    simp only [CriticalSection.step] at hs
    split at hs
    · next ht =>
        cases hs
        exact h.leave ht
    · cases hs
  | setEvent t woken =>
    simp only [CriticalSection.step] at hs
    split at hs
    · next ht =>
        obtain ⟨e, he, hs⟩ := map_eq_some_iff.1 hs
        cases woken with
        | none => exact hs ▸ h.setEvent_none ht he
        | some w => exact hs ▸ h.setEvent_some ht he
    · cases hs

end

theorem Runs.inv {ms : Int} (h : Runs ms s) : s.Inv :=
  h.invariant (I := Inv) (inv_initial ms) (fun _ _ _ hI _ hs => hI.step hs)

/-! ## Mutual exclusion and the wake-ups -/

/-- The section is free, nobody is leaving it, the event is not signaled and a thread is blocked. -/
def FreeAndBlocked (s : CriticalSection T) : Prop :=
  s.locked = false ∧ (∀ t, s.phase t ≠ .leaving) ∧ s.event.signaled = false ∧
    ∃ t, s.phase t = .blocked

/-- For any number of threads and every interleaving at most one thread is inside, and while the
section is free and a thread is blocked, a leave is in progress, the event is signaled or a thread
that the event let through is about to try again: no wake-up is lost. -/
theorem exclusive_and_no_lost_wakeup {maxSpins : Int} (h : Runs maxSpins s) :
    (∀ t u, s.phase t = .inside → s.phase u = .inside → t = u) ∧
    (s.FreeAndBlocked → ∃ t, s.phase t = .trying true) := by
  refine ⟨h.inv.exclusive, ?_⟩
  rintro ⟨hfr, hlv, hsg, t, ht⟩
  rcases h.inv.cared t (.inr ht) with hc | hc | ⟨u, hc⟩ | hc
  · rw [hfr] at hc
    cases hc
  · rw [hsg] at hc
    cases hc
  · exact absurd hc (hlv u)
  · exact hc

/-- Thread `a` is inside while `b` and `c` block; it leaves and the event lets `b` through. -/
def twoSleepers (a b c : Fin 3) : List (Step (Fin 3)) :=
  [.tryEnter a, .enter b, .spin b, .attempt b, .wait b, .enter c, .spin c, .attempt c, .wait c,
    .leave a, .setEvent a (some b)]

theorem twoSleepers_runs : ∃ s : CriticalSection (Fin 3), Runs 0 s ∧ s.FreeAndBlocked := by
  have hrn : ∃ s, runChecked step (fun _ _ => true) (twoSleepers 0 1 2)
      (osInitializeCriticalSectionWithSpinCount 0) = some s ∧ s.locked = false ∧
      (∀ t, s.phase t ≠ .leaving) ∧ s.event.signaled = false ∧ s.phase 2 = .blocked :=
    ⟨_, rfl, rfl, by decide, rfl, rfl⟩
  obtain ⟨s, hs, hfr, hlv, hsg, hb⟩ := hrn
  exact ⟨s, Reaches.of_runChecked (fun _ _ _ => trivial) hs, hfr, hlv, hsg, 2, hb⟩

/-- The thread that the event let through is all that stands between the other and its wait. -/
theorem exclusive_and_no_lost_wakeup_two_sleepers :
    ∃ s : CriticalSection (Fin 3), Runs 0 s ∧ s.FreeAndBlocked ∧ ∃ t, s.phase t = .trying true := by
  obtain ⟨s, hs, hb⟩ := twoSleepers_runs
  exact ⟨s, hs, hb, (exclusive_and_no_lost_wakeup hs).2 hb⟩

/-- The event releases one thread at a time, so a free section and a blocked thread do meet. -/
theorem one_wakeup_two_sleepers : ¬ ∀ s : CriticalSection (Fin 3), Runs 0 s → ¬ s.FreeAndBlocked := by
  intro ha
  obtain ⟨s, hs, hb⟩ := twoSleepers_runs
  exact ha s hs hb

end CriticalSection
end Boron.Os
