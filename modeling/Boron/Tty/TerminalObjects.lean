import Boron.Lib.Run
import Mathlib.Data.List.Nodup

/-! # What a terminal is made of (`tty/ttyobj.c`, `io/pipe.c`)

A terminal has two pipes, each a file object and an FCB that counts its references, and two FCBs of its
own. `TtyInitializeTerminal` makes them and takes them back at its labels if one cannot be made;
`TtyDeleteTerminal` takes them back when the last reference to the terminal is dropped, of which every
file object on one of its FCBs holds one. The labels free the FCB of the other pipe than they should,
and nobody gives back the reference that each pipe's creator got.

Memory is zeroed when it is allocated, so a pointer that has not been set is null. -/

namespace Boron.Tty

open Function List Option

/-- How a pipe is made: the memory for its FCB, if there is any, and whether there is some for its file
object. -/
structure PipeOutcome (F : Type) where
  fcb : Option F
  file : Bool

/-- A call of `TtyInitializeTerminal` with the memory it gets, whatever its buffer size. `stale` is the
reference count that a pipe's FCB has after it was freed, if it still lies there. -/
structure TerminalCall (F : Type) where
  hostToSession : PipeOutcome F
  sessionToHost : PipeOutcome F
  hostFcb : Option F
  sessionFcb : Option F
  stale : Option Int

/-- The FCBs in memory with their `ReferenceCount` (a terminal's own FCB has none: 0), how often each
FCB was freed and how often the file object of a pipe was deleted. -/
structure FcbMemory (F : Type) where
  count : F → Option Int
  freed : F → Nat
  deleted : F → Nat
  crashed : Bool

/-- The pointers of a `TERMINAL`; a pipe's file object goes by its FCB. -/
structure TerminalPointers (F : Type) where
  hostToSessionPipe : Option F
  sessionToHostPipe : Option F
  hostToSessionPipeFcb : Option F
  sessionToHostPipeFcb : Option F
  hostFcb : Option F
  sessionFcb : Option F

namespace FcbMemory

variable {F : Type} [DecidableEq F] (m : FcbMemory F)

/-! ## FCBs and pipes -/

def set (f : F) (count : Option Int) : FcbMemory F :=
  { m with count := update m.count f count }

/-- `IoFreeFcb` of what a pointer points to. -/
def ioFreeFcb : Option F → FcbMemory F
  | none => { m with crashed := true }
  | some f => { m.set f none with freed := update m.freed f (m.freed f + 1) }

def iopReferencePipe (f : F) : FcbMemory F := m.set f ((m.count f).map (· + 1))

/-- `IopDereferencePipe`, which may find an FCB that has been freed. -/
def iopDereferencePipe (f : F) (stale : Option Int) : FcbMemory F :=
  match m.count f with
  | some n => if n - 1 = 0 then (m.set f (some 0)).ioFreeFcb (some f) else m.set f (some (n - 1))
  | none =>
    match stale with
    | none => { m with crashed := true }
    | some n => if n - 1 = 0 then m.ioFreeFcb (some f) else m

/-- `ObDereferenceObject` of a pipe's file object, which has one reference: `IopDeleteFile`. -/
def obDereferencePipe (stale : Option Int) : Option F → FcbMemory F
  | none => { m with crashed := true }
  | some f =>
    iopDereferencePipe { m with deleted := update m.deleted f (m.deleted f + 1) } f stale

/-- `IoCreatePipeObject` without attributes. -/
def ioCreatePipeObject (o : PipeOutcome F) : Option F × FcbMemory F :=
  match o.fcb with
  | none => (none, m)
  | some f =>
    let m := m.set f (some 1)
    if o.file then (some f, m.iopReferencePipe f) else (none, m.ioFreeFcb (some f))

/-! ## Terminals -/

/-- The label `Fail1`. -/
def fail1 (t : TerminalPointers F) (stale : Option Int) : FcbMemory F :=
  (m.obDereferencePipe stale t.hostToSessionPipe).ioFreeFcb t.sessionToHostPipeFcb

/-- The label `Fail2`. -/
def fail2 (t : TerminalPointers F) (stale : Option Int) : FcbMemory F :=
  ((m.obDereferencePipe stale t.sessionToHostPipe).ioFreeFcb t.hostToSessionPipeFcb).fail1 t stale

/-- The label `Fail3`. -/
def fail3 (t : TerminalPointers F) (stale : Option Int) : FcbMemory F :=
  (m.ioFreeFcb t.hostFcb).fail2 t stale

/-- `TtyInitializeTerminal`: the terminal, if it succeeds. -/
def ttyInitializeTerminal (c : TerminalCall F) : Option (TerminalPointers F) × FcbMemory F :=
  match m.ioCreatePipeObject c.hostToSession with
  | (none, m) => (none, m)
  | (some pipe, m) =>
    let t : TerminalPointers F := ⟨some pipe, none, some pipe, none, none, none⟩
    match m.ioCreatePipeObject c.sessionToHost with
    | (none, m) => (none, m.fail1 t c.stale)
    | (some pipe, m) =>
      let t := { t with sessionToHostPipe := some pipe, sessionToHostPipeFcb := some pipe }
      match c.hostFcb with
      | none => (none, m.fail2 t c.stale)
      | some host =>
        let m := m.set host (some 0)
        let t := { t with hostFcb := some host }
        match c.sessionFcb with
        | none => (none, m.fail3 t c.stale)
        | some session =>
          (some { t with sessionFcb := some session }, m.set session (some 0))

def ttyDeleteTerminal (t : TerminalPointers F) : FcbMemory F :=
  let m := m.obDereferencePipe none t.hostToSessionPipe
  let m := m.obDereferencePipe none t.sessionToHostPipe
  let m := m.ioFreeFcb t.hostFcb
  m.ioFreeFcb t.sessionFcb

end FcbMemory

/-! ## The life of a terminal -/

/-- A terminal in use: its pointer count, the references of handles and callers, and its file objects
on either FCB. -/
structure TerminalLife (F : Type) where
  memory : FcbMemory F
  terminal : TerminalPointers F
  pointerCount : Nat
  others : Nat
  hostFiles : Nat
  sessionFiles : Nat

inductive TerminalAction
  | reference
  | dereference
  /-- `IoCreateFileObject`, whose `CreateObject` method references the terminal. -/
  | openFile (host : Bool)
  /-- `IopDeleteFile`; `intact` says that a freed FCB still lies there. -/
  | closeFile (host intact : Bool)

namespace TerminalLife

variable {F : Type} [DecidableEq F] (s : TerminalLife F)

/-- `ObDereferenceObject` of the terminal. -/
def obDereferenceTerminal : TerminalLife F :=
  let s := { s with pointerCount := s.pointerCount - 1 }
  if s.pointerCount = 0 then { s with memory := s.memory.ttyDeleteTerminal s.terminal } else s

/-- `IoDereferenceFcb` of a terminal's FCB, which has no such method but is looked at. -/
def ioDereferenceFcb (f : Option F) (intact : Bool) : TerminalLife F :=
  if (f.bind s.memory.count).isSome || intact then s
  else { s with memory := { s.memory with crashed := true } }

/-- References are added by those who have one, also for a new file object. -/
def step : TerminalAction → Option (TerminalLife F)
  | .reference =>
    if 0 < s.others then some { s with pointerCount := s.pointerCount + 1, others := s.others + 1 }
    else none
  | .dereference =>
    if 0 < s.others then some (obDereferenceTerminal { s with others := s.others - 1 }) else none
  | .openFile host =>
    if 0 < s.others then
      let s := { s with pointerCount := s.pointerCount + 1 }
      if host then some { s with hostFiles := s.hostFiles + 1 }
      else some { s with sessionFiles := s.sessionFiles + 1 }
    else none
  | .closeFile host intact =>
    if host then
      if 0 < s.hostFiles then
        some ((obDereferenceTerminal { s with hostFiles := s.hostFiles - 1 }).ioDereferenceFcb
          s.terminal.hostFcb intact)
      else none
    else if 0 < s.sessionFiles then
      some ((obDereferenceTerminal { s with sessionFiles := s.sessionFiles - 1 }).ioDereferenceFcb
        s.terminal.sessionFcb intact)
    else none

/-- The caller of `TtyInitializeTerminal` has the first reference. -/
def start (memory : FcbMemory F) (terminal : TerminalPointers F) : TerminalLife F :=
  ⟨memory, terminal, 1, 1, 0, 0⟩

end TerminalLife

/-! ## What is asked of it -/

/-- The pipe that is made. -/
def PipeOutcome.made {F : Type} (o : PipeOutcome F) : Option F := if o.file then o.fcb else none

namespace TerminalCall

variable {F : Type} [DecidableEq F] (c : TerminalCall F)

/-- The file objects that a call creates, by their FCBs. -/
def pipes : List F :=
  match c.hostToSession.made with
  | none => []
  | some f => f :: c.sessionToHost.made.toList

/-- The FCBs that a call creates. -/
def fcbs : List F :=
  match c.hostToSession.made with
  | none => c.hostToSession.fcb.toList
  | some f =>
    f :: match c.sessionToHost.made with
      | none => c.sessionToHost.fcb.toList
      | some g =>
        g :: match c.hostFcb with
          | none => []
          | some h => h :: c.sessionFcb.toList

/-- What is allocated was not in memory before. -/
structure Fresh (m : FcbMemory F) : Prop where
  nodup : c.fcbs.Nodup
  count : ∀ f ∈ c.fcbs, m.count f = none
  crashed : m.crashed = false

/-- What was created is released once, and nothing else. -/
structure Released (m m' : FcbMemory F) : Prop where
  freed : ∀ f, m'.freed f = m.freed f + if f ∈ c.fcbs then 1 else 0
  deleted : ∀ f, m'.deleted f = m.deleted f + if f ∈ c.pipes then 1 else 0
  crashed : m'.crashed = m.crashed

/-- The memory when the terminal is gone: `TtyInitializeTerminal` has failed, or the last reference to
the terminal was dropped in some run. -/
def Ends (m m' : FcbMemory F) : Prop :=
  match m.ttyInitializeTerminal c with
  | (none, m₁) => m' = m₁
  | (some t, m₁) => ∃ s : TerminalLife F,
    Reaches TerminalLife.step (fun _ _ => True) (.start m₁ t) s ∧ s.pointerCount = 0 ∧ m' = s.memory

/-- The first pipe is not made; or only a FCB of the terminal is not, and the first pipe's FCB, which is
freed too early, still lies there with other references than one. -/
def Fits : Prop :=
  c.hostToSession.made = none ∨
  (c.sessionToHost.made ≠ none ∧ (c.hostFcb = none ∨ c.sessionFcb = none) ∧
    ∃ n, c.stale = some n ∧ n ≠ 1)

variable {c} {m m' : FcbMemory F}

/-! ## Initialization -/

/-- The pipe that is made has two references, and one that is not leaves nothing behind. -/
theorem ioCreatePipeObject_eq (m : FcbMemory F) (o : PipeOutcome F) :
    m.ioCreatePipeObject o = (o.made, match o.made with
      | some f => m.set f (some 2)
      | none => match o.fcb with
        | none => m
        | some f => { m.set f none with freed := update m.freed f (m.freed f + 1) }) := by
  obtain ⟨fcb, file⟩ := o
  unfold FcbMemory.ioCreatePipeObject PipeOutcome.made
  cases fcb with
  | none => cases file <;> rfl
  | some f =>
    cases file with
    | true => simp [FcbMemory.iopReferencePipe, FcbMemory.set]
    | false => simp [FcbMemory.ioFreeFcb, FcbMemory.set]

/-- Without the first pipe nothing stays. -/
theorem released_of_first (hmd : c.hostToSession.made = none) (he : c.Ends m m') : c.Released m m' := by
  unfold Ends FcbMemory.ttyInitializeTerminal at he
  rw [ioCreatePipeObject_eq, hmd] at he
  have hp : c.pipes = [] := by
    unfold pipes
    rw [hmd]
  have hc : c.fcbs = c.hostToSession.fcb.toList := by
    unfold fcbs
    rw [hmd]
  cases hfcb : c.hostToSession.fcb with
  | none =>
    rw [hfcb] at he hc
    subst he
    exact ⟨fun f => by simp [hc], fun f => by simp [hp], rfl⟩
  | some f =>
    rw [hfcb] at he hc
    subst he
    refine ⟨fun g => ?_, fun g => by simp [hp, FcbMemory.set], rfl⟩
    by_cases hgf : g = f
    · subst hgf
      simp [hc]
    · simp [hc, hgf]

/-- Without the second pipe a null pointer is freed. -/
theorem fail1_crashed (m : FcbMemory F) (f : F) (stale : Option Int) :
    (m.fail1 ⟨some f, none, some f, none, none, none⟩ stale).crashed = true := rfl

/-- From `Fail2` on both pipes go, the FCB of the first before its file object. -/
theorem fail2_eq {f g : F} (hfg : f ≠ g) {m : FcbMemory F} (hg : m.count g = some 2) (h : Option F)
    (stale : Option Int) :
    m.fail2 ⟨some f, some g, some f, some g, h, none⟩ stale =
      { count := update (update m.count f none) g none
        freed := update (update m.freed f
          (if stale = some 1 then m.freed f + 2 else m.freed f + 1)) g (m.freed g + 1)
        deleted := update (update m.deleted g (m.deleted g + 1)) f (m.deleted f + 1)
        crashed := m.crashed || stale.isNone } := by
  obtain ⟨count, freed, del, cra⟩ := m
  have hcount : count g = some 2 := hg
  have hc : update (update (update count g (some 1)) f none) g none
      = update (update count f none) g none := by
    rw [update_comm hfg.symm, update_idem]
  cases stale with
  | none =>
    simp [FcbMemory.fail2, FcbMemory.fail1, FcbMemory.obDereferencePipe, FcbMemory.ioFreeFcb,
      FcbMemory.iopDereferencePipe, FcbMemory.set, hfg, hfg.symm, hcount, hc]
  | some n =>
    by_cases hn : n = 1
    · subst hn
      simp [FcbMemory.fail2, FcbMemory.fail1, FcbMemory.obDereferencePipe, FcbMemory.ioFreeFcb,
        FcbMemory.iopDereferencePipe, FcbMemory.set, hfg, hfg.symm, hcount, hc]
    · have hz : ¬ n - 1 = 0 := by omega
      simp [FcbMemory.fail2, FcbMemory.fail1, FcbMemory.obDereferencePipe, FcbMemory.ioFreeFcb,
        FcbMemory.iopDereferencePipe, FcbMemory.set, hfg, hfg.symm, hcount, hc, hn, hz]

/-- The labels from `Fail2` on are right just if the FCB that is freed too early still lies there. -/
theorem released_iff_stale {f g : F} {l : List F} {m₂ : FcbMemory F} {h : Option F}
    (hfc : c.fcbs = f :: g :: l) (hp : c.pipes = [f, g]) (hnd : c.fcbs.Nodup)
    (hg : m₂.count g = some 2) (hc : m₂.crashed = false) (hc' : m.crashed = false)
    (hdl : m₂.deleted = m.deleted)
    (hfreed : ∀ x, m₂.freed x = m.freed x + if x ∈ l then 1 else 0) :
    c.Released m (m₂.fail2 ⟨some f, some g, some f, some g, h, none⟩ c.stale) ↔
      ∃ n, c.stale = some n ∧ n ≠ 1 := by
  rw [hfc] at hnd
  obtain ⟨hf, hnd⟩ := nodup_cons.1 hnd
  obtain ⟨hgl, -⟩ := nodup_cons.1 hnd
  have hfg : f ≠ g := fun h => hf (h ▸ mem_cons_self)
  have hfl : f ∉ l := fun h => hf (mem_cons_of_mem _ h)
  rw [fail2_eq hfg hg]
  constructor
  · intro hrl
    have hst := hrl.crashed
    have hon := hrl.freed f
    simp only [hc, hc', Bool.false_or] at hst
    simp only [hfc, update_of_ne hfg, update_self, mem_cons, true_or, if_true,
      hfreed, hfl, if_false, Nat.add_zero] at hon
    obtain ⟨n, hn⟩ := isSome_iff_exists.1 (isNone_eq_false_iff.1 hst)
    refine ⟨n, hn, fun hoe => ?_⟩
    rw [hn, hoe, if_pos rfl] at hon
    omega
  · rintro ⟨n, hn, hne⟩
    have hst : ¬ c.stale = some 1 := by
      rw [hn]
      exact fun h => hne (some.inj h)
    refine ⟨fun x => ?_, fun x => ?_, ?_⟩
    · simp only [hfc, mem_cons, if_neg hst]
      by_cases hxg : x = g
      · subst hxg
        simp [hfreed, hgl]
      · by_cases hx : x = f
        · subst hx
          simp [hfreed, hfl, hxg]
        · simp [hfreed, hxg, hx]
    · simp only [hp, mem_cons, not_mem_nil, or_false, hdl]
      by_cases hx : x = f
      · subst hx
        simp
      · by_cases hxg : x = g
        · subst hxg
          simp [hx]
        · simp [hxg, hx]
    · simp [hc, hc', hn]

end TerminalCall

/-! ## Deletion -/

namespace FcbMemory

variable {F : Type} [DecidableEq F] {m : FcbMemory F} {f g : F}

theorem ioFreeFcb_freed_ne (hfg : f ≠ g) : (m.ioFreeFcb (some g)).freed f = m.freed f :=
  update_of_ne hfg _ _

theorem iopDereferencePipe_freed_ne (hfg : f ≠ g) (stale : Option Int) :
    (m.iopDereferencePipe g stale).freed f = m.freed f := by
  unfold iopDereferencePipe
  split
  · split
    · exact ioFreeFcb_freed_ne hfg
    · rfl
  · split
    · rfl
    · split
      · exact ioFreeFcb_freed_ne hfg
      · rfl

/-- The reference that the creator of a pipe got keeps its FCB in memory. -/
theorem iopDereferencePipe_freed (hf : m.count f = some 2) (stale : Option Int) :
    (m.iopDereferencePipe f stale).freed f = m.freed f := by
  unfold iopDereferencePipe
  rw [hf]
  rfl

theorem obDereferencePipe_freed_ne (hfg : f ≠ g) (stale : Option Int) :
    (m.obDereferencePipe stale (some g)).freed f = m.freed f :=
  iopDereferencePipe_freed_ne hfg stale

theorem obDereferencePipe_freed (hf : m.count f = some 2) (stale : Option Int) :
    (m.obDereferencePipe stale (some f)).freed f = m.freed f := by
  unfold obDereferencePipe
  rw [iopDereferencePipe_freed]
  exact hf

theorem ttyDeleteTerminal_freed {h k : F} (hfg : f ≠ g) (hh : f ≠ h) (hfk : f ≠ k)
    (hf : m.count f = some 2) :
    (m.ttyDeleteTerminal ⟨some f, some g, some f, some g, some h, some k⟩).freed f = m.freed f := by
  unfold ttyDeleteTerminal
  rw [ioFreeFcb_freed_ne hfk, ioFreeFcb_freed_ne hh, obDereferencePipe_freed_ne hfg,
    obDereferencePipe_freed hf]

end FcbMemory

namespace TerminalLife

variable {F : Type} [DecidableEq F] {f g h k : F} {n : Nat} {s s' : TerminalLife F}

/-- What the steps of a terminal's life keep: the first pipe's FCB is not freed, and as long as the
terminal is referred to it has its creator's and its file object's reference. -/
structure Keeps (f g h k : F) (n : Nat) (s : TerminalLife F) : Prop where
  terminal : s.terminal = ⟨some f, some g, some f, some g, some h, some k⟩
  pointerCount : s.pointerCount = s.others + s.hostFiles + s.sessionFiles
  freed : s.memory.freed f = n
  count : 0 < s.pointerCount → s.memory.count f = some 2

/-- One reference is dropped. -/
theorem Keeps.obDereferenceTerminal (hfg : f ≠ g) (hh : f ≠ h) (hfk : f ≠ k)
    (htr : s.terminal = ⟨some f, some g, some f, some g, some h, some k⟩)
    (hcount : s.pointerCount = s.others + s.hostFiles + s.sessionFiles + 1)
    (hfreed : s.memory.freed f = n) (hf : s.memory.count f = some 2) :
    Keeps f g h k n s.obDereferenceTerminal := by
  unfold TerminalLife.obDereferenceTerminal
  by_cases hls : s.pointerCount - 1 = 0
  · rw [if_pos hls]
    refine ⟨htr, ?_, ?_, fun hpos => absurd hls (Nat.ne_of_gt hpos)⟩
    · dsimp only
      omega
    · dsimp only
      rw [htr, FcbMemory.ttyDeleteTerminal_freed hfg hh hfk hf, hfreed]
  · rw [if_neg hls]
    refine ⟨htr, ?_, hfreed, fun _ => hf⟩
    dsimp only
    omega

omit [DecidableEq F] in
theorem Keeps.ioDereferenceFcb (hs : Keeps f g h k n s) (p : Option F) (int : Bool) :
    Keeps f g h k n (s.ioDereferenceFcb p int) := by
  unfold TerminalLife.ioDereferenceFcb
  split
  · exact hs
  · exact ⟨hs.terminal, hs.pointerCount, hs.freed, hs.count⟩

theorem Keeps.step (hfg : f ≠ g) (hh : f ≠ h) (hfk : f ≠ k) {a : TerminalAction}
    (hs : Keeps f g h k n s) (hst : s.step a = some s') : Keeps f g h k n s' := by
  have hsm := hs.pointerCount
  cases a with
  | reference =>
    simp only [TerminalLife.step] at hst
    split at hst
    · next hpos =>
        cases hst
        refine ⟨hs.terminal, ?_, hs.freed, fun _ => hs.count (by omega)⟩
        dsimp only
        omega
    · cases hst
  | dereference =>
    simp only [TerminalLife.step] at hst
    split at hst
    · next hpos =>
        cases hst
        refine Keeps.obDereferenceTerminal hfg hh hfk hs.terminal ?_ hs.freed (hs.count (by omega))
        dsimp only
        omega
    · cases hst
  | openFile host =>
    simp only [TerminalLife.step] at hst
    split at hst
    · next hpos =>
        cases host with
        | true =>
          cases hst
          refine ⟨hs.terminal, ?_, hs.freed, fun _ => hs.count (by omega)⟩
          dsimp only
          omega
        | false =>
          cases hst
          refine ⟨hs.terminal, ?_, hs.freed, fun _ => hs.count (by omega)⟩
          dsimp only
          omega
    · cases hst
  | closeFile host int =>
    cases host with
    | true =>
      simp only [TerminalLife.step, if_true] at hst
      split at hst
      · next hpos =>
          cases hst
          have hdrop : Keeps f g h k n
              (TerminalLife.obDereferenceTerminal { s with hostFiles := s.hostFiles - 1 }) := by
            refine .obDereferenceTerminal hfg hh hfk hs.terminal ?_ hs.freed (hs.count (by omega))
            dsimp only
            omega
          exact hdrop.ioDereferenceFcb _ _
      · cases hst
    | false =>
      simp only [TerminalLife.step, Bool.false_eq_true, if_false] at hst
      split at hst
      · next hpos =>
          cases hst
          have hdrop : Keeps f g h k n
              (TerminalLife.obDereferenceTerminal { s with sessionFiles := s.sessionFiles - 1 }) := by
            refine .obDereferenceTerminal hfg hh hfk hs.terminal ?_ hs.freed (hs.count (by omega))
            dsimp only
            omega
          exact hdrop.ioDereferenceFcb _ _
      · cases hst

end TerminalLife

namespace TerminalCall

variable {F : Type} [DecidableEq F] {c : TerminalCall F} {m m' : FcbMemory F}

/-- **A terminal is released right just if its first pipe is not made, or only one of its own FCBs is
not and the memory of the first pipe's FCB outlives it.** -/
theorem terminal_right_iff (hfresh : c.Fresh m) (hends : c.Ends m m') : c.Released m m' ↔ c.Fits := by
  unfold Fits
  cases hf : c.hostToSession.made with
  | none => exact iff_of_true (released_of_first hf hends) (.inl rfl)
  | some f =>
    rw [or_iff_right nofun]
    have hnd := hfresh.nodup
    unfold Ends FcbMemory.ttyInitializeTerminal at hends
    simp only [ioCreatePipeObject_eq, hf] at hends
    cases hg : c.sessionToHost.made with
    | none =>
      refine iff_of_false (fun hrl => ?_) fun h => h.1 rfl
      simp only [hg] at hends
      have hc := hrl.crashed
      rw [hends, fail1_crashed, hfresh.crashed] at hc
      cases hc
    | some g =>
      simp only [hg] at hends
      have hp : c.pipes = [f, g] := by
        simp [pipes, hf, hg]
      cases hh : c.hostFcb with
      | none =>
        have hfc : c.fcbs = [f, g] := by
          simp [fcbs, hf, hg, hh]
        simp only [hh] at hends
        rw [hends]
        refine (released_iff_stale hfc hp hnd ?_ ?_ hfresh.crashed ?_ ?_).trans ?_
        · simp [FcbMemory.set]
        · exact hfresh.crashed
        · rfl
        · simp [FcbMemory.set]
        · simp
      | some h =>
        simp only [hh] at hends
        cases hk : c.sessionFcb with
        | none =>
          have hfc : c.fcbs = [f, g, h] := by
            simp [fcbs, hf, hg, hh, hk]
          have hgh : g ≠ h := by
            rw [hfc] at hnd
            simp only [nodup_cons, mem_cons, not_mem_nil, or_false] at hnd
            exact hnd.2.1
          simp only [hk] at hends
          unfold FcbMemory.fail3 at hends
          rw [hends]
          refine (released_iff_stale hfc hp hnd ?_ ?_ hfresh.crashed ?_ ?_).trans ?_
          · simp [FcbMemory.set, FcbMemory.ioFreeFcb, hgh]
          · exact hfresh.crashed
          · rfl
          · intro x
            by_cases hx : x = h
            · subst hx
              simp [FcbMemory.set, FcbMemory.ioFreeFcb]
            · simp [FcbMemory.set, FcbMemory.ioFreeFcb, hx]
          · simp
        | some k =>
          have hfc : c.fcbs = [f, g, h, k] := by
            simp [fcbs, hf, hg, hh, hk]
          rw [hfc] at hnd
          simp only [nodup_cons, mem_cons, not_mem_nil, or_false, not_or] at hnd
          obtain ⟨⟨hfg, hfh, hfk⟩, -⟩ := hnd
          simp only [hk] at hends
          obtain ⟨s, hrc, -, rfl⟩ := hends
          have hkp : TerminalLife.Keeps f g h k (m.freed f) s := by
            refine hrc.invariant ⟨rfl, rfl, rfl, fun _ => ?_⟩
              fun _ _ _ hs _ hst => hs.step hfg hfh hfk hst
            simp [TerminalLife.start, FcbMemory.set, hfg, hfh, hfk]
          refine iff_of_false (fun hrl => ?_) ?_
          · have hon := hrl.freed f
            rw [hkp.freed, hfc, if_pos mem_cons_self] at hon
            omega
          · rintro ⟨-, hnn | hnn, -⟩
            · cases hnn
            · cases hnn

def emptyMemory : FcbMemory Nat := ⟨fun _ => none, fun _ => 0, fun _ => 0, false⟩

/-- There is no memory for the session's FCB. -/
def noSession : TerminalCall Nat := ⟨⟨some 0, true⟩, ⟨some 1, true⟩, some 2, none, some 2⟩

/-- Nobody has used the memory of the first pipe's FCB in the meantime. -/
theorem terminal_right_noSession :
    noSession.Released emptyMemory (emptyMemory.ttyInitializeTerminal noSession).2 := by
  have he : noSession.Ends emptyMemory (emptyMemory.ttyInitializeTerminal noSession).2 := rfl
  exact (terminal_right_iff ⟨by decide, fun _ _ => rfl, rfl⟩ he).2
    (.inr ⟨by decide, .inr rfl, 2, rfl, by decide⟩)

/-- There is memory for everything. -/
def whole : TerminalCall Nat := ⟨⟨some 0, true⟩, ⟨some 1, true⟩, some 2, some 3, none⟩

/-- A terminal that is made and given up at once: its pipes' FCBs stay. -/
theorem terminal_leaks : ¬ ∀ (c : TerminalCall Nat) (m m' : FcbMemory Nat), c.Fresh m → c.Ends m m' →
      c.Released m m' := by
  intro h
  have he : whole.Ends emptyMemory (TerminalLife.obDereferenceTerminal
      ⟨(emptyMemory.ttyInitializeTerminal whole).2,
        ⟨some 0, some 1, some 0, some 1, some 2, some 3⟩, 1, 0, 0, 0⟩).memory :=
    ⟨_, .single (a := .dereference) trivial rfl, rfl, rfl⟩
  have hon := (h whole emptyMemory _ ⟨by decide, fun _ _ => rfl, rfl⟩ he).freed 0
  exact absurd hon (by decide)

end TerminalCall

end Boron.Tty
