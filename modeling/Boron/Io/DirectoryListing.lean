import Boron.Lib.Listing
import Boron.Mm.MdlCapture

/-! # Reading directories in pieces (`io/dir.c`)

`IoReadDirectoryEntries` goes on from the offset and the version that the file object keeps, asks the
file system for one entry after another, and leaves the position after the last one that it got. The
count of entries that it reports is set when it is done and when the file system fails, but not when an
entry cannot be copied to the caller. `OSReadDirectoryEntries` probes the caller's array first, for a
size that is multiplied out in 64 bits, and copies the status block out last.

`listing_right_iff` says in which runs what was reported is what was read. -/

namespace Boron.Io

open List Option

open Boron.Mm.Amd64 (Mode mmIsAddressRangeValid)

/-- `sizeof(IO_DIRECTORY_ENTRY)`: a name of 256 characters, an inode number and a type. -/
def entrySize : Nat := 272

/-- `sizeof(IO_STATUS_BLOCK)`. -/
def iosbSize : Nat := 24

/-- The `BSTATUS` of a call. -/
inductive DirStatus
  | success
  | endOfFile
  | blockingOperation
  | invalidParameter
  | unsupportedFunction
  | other (code : Nat)
  deriving DecidableEq

namespace DirStatus

def ioSucceeded (s : DirStatus) : Bool :=
  s == .success || s == .endOfFile || s == .blockingOperation

/-- A status for which `FAILED` holds. -/
abbrev Failure : Type := {s : DirStatus // s ≠ .success}

end DirStatus

/-- `CurrentFileOffset` and `CurrentDirectoryVersion`. -/
structure DirCursor where
  offset : Nat
  version : Nat
  deriving DecidableEq

namespace DirCursor

/-- Of a file object that was just created, or was set back to the start. -/
def start : DirCursor := ⟨0, 0⟩

end DirCursor

/-- A directory that does not change. `next` is what its file system's `ReadDir` gives for an offset
and a version when it does not fail: the entry, `NextOffset` and `Version`. From the start it gives
`entries`, and then nothing more. -/
structure Directory (E : Type) where
  /-- Whether the dispatch table has `ReadDir`. -/
  hasReadDir : Bool
  next : DirCursor → Option (E × DirCursor)
  entries : List E
  final : DirCursor
  lists : Lists next .start entries final
  ends : next final = none

/-- What becomes of the i-th entry of a call, if the directory has one. -/
inductive EntryOutcome
  | done
  /-- `ReadDir` fails, with what it leaves in the status block. -/
  | readFails (status : DirStatus.Failure) (iosb : DirStatus)
  /-- `MmSafeCopy` fails. -/
  | copyFails (status : DirStatus.Failure)

/-- A call of `OSReadDirectoryEntries` and what it meets. -/
structure ListCall where
  mode : Mode
  iosb : Nat
  count : Nat
  directoryEntries : Nat
  /-- What touching the status block and the array comes to. -/
  iosbProbe : DirStatus
  entriesProbe : DirStatus
  handle : DirStatus
  fileOffsetMutex : DirStatus
  fcbLock : DirStatus
  outcome : Nat → EntryOutcome
  /-- What `ReadDir` says at the end of the directory. -/
  atEnd : DirStatus.Failure
  atEndIosb : DirStatus
  copyOut : DirStatus

/-- What `IoReadDirectoryEntries` leaves behind: the position of the file object, the status block, its
status and the entries that were stored in the array. -/
structure ListResult (E : Type) where
  cursor : DirCursor
  iosbStatus : DirStatus
  entriesRead : Nat
  status : DirStatus
  stored : List E
  deriving DecidableEq

namespace ListCall

variable {E : Type} (d : Directory E) (call : ListCall)

/-- The loop, before the i-th entry, with `left` of them to go. -/
def readLoop : (left i : Nat) → DirCursor → List E → ListResult E
  | 0, _, c, stored => ⟨c, .success, call.count, .success, stored⟩
  | left + 1, i, c, stored =>
    match d.next c, call.outcome i with
    | none, .readFails status iosb => ⟨c, iosb, i, status, stored⟩
    | none, _ => ⟨c, call.atEndIosb, i, call.atEnd, stored⟩
    | some _, .readFails status iosb => ⟨c, iosb, i, status, stored⟩
    | some (e, c'), .copyFails status =>
      if call.mode = .kernel then readLoop left (i + 1) c' (stored ++ [e])
      else ⟨c, status, 0, status, stored⟩
    | some (e, c'), .done => readLoop left (i + 1) c' (stored ++ [e])

def ioReadDirectoryEntries (c : DirCursor) : ListResult E :=
  if call.fileOffsetMutex ≠ .success then
    ⟨c, call.fileOffsetMutex, 0, call.fileOffsetMutex, []⟩
  else if call.fcbLock ≠ .success then ⟨c, call.fcbLock, 0, call.fcbLock, []⟩
  else if d.hasReadDir then call.readLoop d call.count 0 c []
  else ⟨c, .unsupportedFunction, 0, .unsupportedFunction, []⟩

/-- `MmProbeAddress`; `touched` is what touching the range comes to. -/
def mmProbeAddress (mode : Mode) (address length : Nat) (touched : DirStatus) : DirStatus :=
  if !mmIsAddressRangeValid mode address length then .invalidParameter
  else if 2 ^ 63 - 1 < length then .invalidParameter
  else if address ^^^ addW address length = 2 ^ 63 then .invalidParameter
  else touched

/-- The size of the array that is probed. -/
def probed : Nat := mulW entrySize call.count

/-- What a call of `OSReadDirectoryEntries` comes to: its status, the position of the file object, the
entries that were stored and, if the status block was copied out, the count in it. -/
structure Outcome (E : Type) where
  status : DirStatus
  cursor : DirCursor
  stored : List E
  entriesRead : Option Nat
  deriving DecidableEq

def osReadDirectoryEntries (c : DirCursor) : Outcome E :=
  let iosbProbe := mmProbeAddress call.mode call.iosb iosbSize call.iosbProbe
  let probe := mmProbeAddress call.mode call.directoryEntries call.probed call.entriesProbe
  if iosbProbe ≠ .success then ⟨iosbProbe, c, [], none⟩
  else if probe ≠ .success then ⟨probe, c, [], none⟩
  else if call.handle ≠ .success then ⟨call.handle, c, [], none⟩
  else
    let r := call.ioReadDirectoryEntries d c
    ⟨if r.status.ioSucceeded then call.copyOut else r.status, r.cursor, r.stored,
      if call.copyOut = .success then some r.entriesRead else none⟩

/-- The entries that the caller finds reported as read. -/
def Outcome.reported (r : Outcome E) : List E := r.stored.take (r.entriesRead.getD 0)

end ListCall

/-! ## Runs of calls -/

/-- `reported` is what the calls so far have reported, `covered` whether each of them has probed all of
the array that it stored into. -/
structure Listing (E : Type) where
  cursor : DirCursor
  reported : List E
  covered : Bool
  deriving DecidableEq

namespace Listing

variable {E : Type}

/-- The directory has just been opened. -/
def start : Listing E := ⟨.start, [], true⟩

def step (d : Directory E) (s : Listing E) (call : ListCall) : Option (Listing E) :=
  let r := call.osReadDirectoryEntries d s.cursor
  some ⟨r.cursor, s.reported ++ r.reported,
    s.covered && decide (entrySize * r.stored.length ≤ call.probed)⟩

/-- What was reported is the first part of the directory, and the position is just after it; nothing
was stored that was not probed. -/
structure Right (d : Directory E) (s : Listing E) : Prop where
  isPrefix : s.reported <+: d.entries
  position : Lists d.next .start s.reported s.cursor
  covered : s.covered = true

end Listing

namespace ListCall

variable {E : Type}

/-- The call gets to its loop. -/
structure Accepted (d : Directory E) (call : ListCall) : Prop where
  iosb : mmProbeAddress call.mode call.iosb iosbSize call.iosbProbe = .success
  entries : mmProbeAddress call.mode call.directoryEntries call.probed call.entriesProbe = .success
  handle : call.handle = .success
  mutex : call.fileOffsetMutex = .success
  lock : call.fcbLock = .success
  hasReadDir : d.hasReadDir = true

/-- The i-th entry can be read and, if that is needed, copied. -/
def Fine (call : ListCall) (i : Nat) : Prop :=
  match call.outcome i with
  | .done => True
  | .readFails _ _ => False
  | .copyFails _ => call.mode = .kernel

/-- The i-th entry can be read, but not be copied. -/
def Uncopied (call : ListCall) (i : Nat) : Prop :=
  match call.outcome i with
  | .copyFails _ => call.mode = .user
  | _ => False

/-- The directory has `n` entries from the cursor on, as many as that are asked for, and nothing is in
the way of them. -/
def Gets (d : Directory E) (call : ListCall) (c : DirCursor) (n : Nat) : Prop :=
  n ≤ call.count ∧ (∀ i < n, call.Fine i) ∧ ∃ es c', Lists d.next c es c' ∧ es.length = n

/-- No entry after the first one fails to be copied, the status block is copied out if there is an
entry, and the size of the array is not cut off. -/
structure Lossless (d : Directory E) (call : ListCall) (c : DirCursor) : Prop where
  copies : ∀ n, 0 < n → n < call.count → (∀ i < n, call.Fine i) → call.Uncopied n →
    ¬ ∃ es c', Lists d.next c es c' ∧ es.length = n + 1
  copyOut : call.Gets d c 1 → call.copyOut = .success
  covers : ∀ n, call.Gets d c n → entrySize * n ≤ call.probed

/-! ## The loop -/

variable {d : Directory E} {call : ListCall} {c : DirCursor}

/-- Why the loop has stopped: it is done or the directory or `ReadDir` has no more, and it reports what
it has got; or an entry could not be copied, and it reports nothing. -/
inductive Stopped (d : Directory E) (call : ListCall) (n : Nat) (r : ListResult E) : Prop
  | done (h : n = call.count) (hread : r.entriesRead = n)
  | atEnd (h : d.next r.cursor = none) (hread : r.entriesRead = n)
  | readFails (h : ¬ call.Fine n ∧ ¬ call.Uncopied n) (hread : r.entriesRead = n)
  | copyFails (h : call.Uncopied n) (hlt : n < call.count) (hnext : (d.next r.cursor).isSome)
    (hread : r.entriesRead = 0)

theorem not_fine_of_uncopied {n : Nat} (h : call.Uncopied n) : ¬ call.Fine n := by
  unfold Uncopied at h
  unfold Fine
  cases ho : call.outcome n with
  | done | readFails => simp [ho] at h
  | copyFails =>
    simp only [ho] at h
    simp [h]

/-- The loop reads entries from the cursor on, as long as nothing is in the way. -/
theorem readLoop_spec {left i : Nat} {sto : List E} (hcount : i + left = call.count)
    (hsr : sto.length = i) :
    ∃ es, (call.readLoop d left i c sto).stored = sto ++ es
      ∧ Lists d.next c es (call.readLoop d left i c sto).cursor
      ∧ (∀ j < es.length, call.Fine (i + j))
      ∧ i + es.length ≤ call.count
      ∧ Stopped d call (i + es.length) (call.readLoop d left i c sto) := by
  induction left generalizing i c sto with
  | zero =>
    refine ⟨[], (append_nil _).symm, .nil c, nofun, by simpa using hcount.le, ?_⟩
    exact .done (by simpa using hcount) (by simpa [readLoop] using hcount.symm)
  | succ left ih =>
    -- one more entry, and then the rest of the loop
    have hmr : ∀ e c', d.next c = some (e, c') → call.Fine i →
        ∃ es, (call.readLoop d left (i + 1) c' (sto ++ [e])).stored = sto ++ es
          ∧ Lists d.next c es (call.readLoop d left (i + 1) c' (sto ++ [e])).cursor
          ∧ (∀ j < es.length, call.Fine (i + j))
          ∧ i + es.length ≤ call.count
          ∧ Stopped d call (i + es.length) (call.readLoop d left (i + 1) c' (sto ++ [e])) := by
      intro e c' hnext hfn
      obtain ⟨es, he, hls, ha, hle, hst⟩ :=
        @ih c' (i + 1) (sto ++ [e]) (by omega) (by simp [hsr])
      have hlength : i + (e :: es).length = i + 1 + es.length := by
        simp only [length_cons]
        omega
      refine ⟨e :: es, by rw [he]; simp, .cons hnext hls, ?_, by omega, hlength ▸ hst⟩
      intro j hj
      cases j with
      | zero => exact hfn
      | succ j =>
        have := ha j (by simpa using hj)
        rwa [show i + (j + 1) = i + 1 + j by omega]
    unfold readLoop
    have hnn : i + ([] : List E).length = i := rfl
    cases hnext : d.next c with
    | none =>
      cases ho : call.outcome i with
      | readFails st iosb =>
        exact ⟨[], (append_nil _).symm, .nil c, nofun, by omega, .atEnd hnext rfl⟩
      | done | copyFails =>
        exact ⟨[], (append_nil _).symm, .nil c, nofun, by omega, .atEnd hnext rfl⟩
    | some p =>
      obtain ⟨e, c'⟩ := p
      cases ho : call.outcome i with
      | done => exact hmr e c' hnext (by simp [Fine, ho])
      | readFails st iosb =>
        refine ⟨[], (append_nil _).symm, .nil c, nofun, by omega, .readFails ?_ rfl⟩
        simp [Fine, Uncopied, ho]
      | copyFails st =>
        dsimp only
        split
        · next hmd => exact hmr e c' hnext (by simp [Fine, ho, hmd])
        · next hmd =>
            refine ⟨[], (append_nil _).symm, .nil c, nofun, by omega,
              .copyFails ?_ (by omega) (isSome_iff_exists.2 ⟨_, hnext⟩) rfl⟩
            cases hm : call.mode with
            | kernel => exact absurd hm hmd
            | user => simp [Uncopied, ho, hm]

theorem Gets.mono {m n : Nat} (h : call.Gets d c n) (hle : m ≤ n) : call.Gets d c m := by
  obtain ⟨hcount, hfn, es, c', he, rfl⟩ := h
  rw [← take_append_drop m es] at he
  obtain ⟨b, hb, -⟩ := he.of_append
  exact ⟨hle.trans hcount, fun i hi => hfn i (hi.trans_le hle), es.take m, b, hb, length_take_of_le hle⟩

theorem Gets.le {n : Nat} {es : List E} {r : ListResult E} (h : call.Gets d c n)
    (hls : Lists d.next c es r.cursor) (hst : Stopped d call es.length r) : n ≤ es.length := by
  obtain ⟨hcount, hfn, gs, c', hgs, rfl⟩ := h
  by_contra hlt
  have hlt : es.length < gs.length := not_le.1 hlt
  cases hst with
  | done h => omega
  | atEnd h => exact absurd (hls.isPrefix h hgs).length_le hlt.not_ge
  | readFails h => exact h.1 (hfn _ hlt)
  | copyFails h => exact not_fine_of_uncopied h (hfn _ hlt)

theorem refused (h : ¬ call.Accepted d) :
    (call.osReadDirectoryEntries d c).cursor = c ∧ (call.osReadDirectoryEntries d c).stored = [] := by
  unfold osReadDirectoryEntries ioReadDirectoryEntries
  dsimp only
  split
  · exact ⟨rfl, rfl⟩
  · next hb =>
      split
      · exact ⟨rfl, rfl⟩
      · next he =>
          split
          · exact ⟨rfl, rfl⟩
          · next hh =>
              split
              · exact ⟨rfl, rfl⟩
              · next hmt =>
                  split
                  · exact ⟨rfl, rfl⟩
                  · next hc =>
                      split
                      · next hread =>
                          exact absurd ⟨not_not.1 hb, not_not.1 he, not_not.1 hh,
                            not_not.1 hmt, not_not.1 hc, hread⟩ h
                      · exact ⟨rfl, rfl⟩

theorem accepted (h : call.Accepted d) :
    (call.osReadDirectoryEntries d c).cursor = (call.readLoop d call.count 0 c []).cursor
    ∧ (call.osReadDirectoryEntries d c).stored = (call.readLoop d call.count 0 c []).stored
    ∧ (call.osReadDirectoryEntries d c).entriesRead = if call.copyOut = .success
        then some (call.readLoop d call.count 0 c []).entriesRead else none := by
  unfold osReadDirectoryEntries ioReadDirectoryEntries
  simp [h.iosb, h.entries, h.handle, h.mutex, h.lock, h.hasReadDir]

/-- A call that is accepted reports all that it reads, out of the range that it has probed, just if it
is lossless. -/
theorem reports_iff (h : call.Accepted d) :
    ∃ es, Lists d.next c es (call.osReadDirectoryEntries d c).cursor
      ∧ (call.osReadDirectoryEntries d c).stored = es
      ∧ (call.osReadDirectoryEntries d c).reported <+: es
      ∧ ((call.osReadDirectoryEntries d c).reported = es ∧ entrySize * es.length ≤ call.probed
        ↔ call.Lossless d c) := by
  obtain ⟨es, hes, hls, hfn, hle, hst⟩ :=
    @readLoop_spec E d call c call.count 0 [] (Nat.zero_add _) rfl
  obtain ⟨hcursor, hsr, hread⟩ := accepted (c := c) h
  simp only [Nat.zero_add, nil_append] at hes hfn hle hst
  have hgt : call.Gets d c es.length := ⟨hle, hfn, es, _, hls, rfl⟩
  refine ⟨es, hcursor ▸ hls, hsr.trans hes, ?_, ?_⟩
  · rw [Outcome.reported, hsr, hes]
    exact take_prefix _ _
  · rw [Outcome.reported, hsr, hes, hread]
    constructor
    · rintro ⟨ha, hcv⟩
      refine ⟨?_, ?_, ?_⟩
      · rintro n hpos hn hbf hu ⟨gs, c', hgs, hlength⟩
        have hp := hgs
        rw [← take_append_drop n gs] at hp
        obtain ⟨b, hb, -⟩ := hp.of_append
        have hgn : call.Gets d c n :=
          ⟨hn.le, hbf, gs.take n, b, hb, length_take_of_le (by omega)⟩
        have hle' : n ≤ es.length := hgn.le hls hst
        have hlength' : es.length = n := by
          by_contra hne
          exact not_fine_of_uncopied hu (hfn n (by omega))
        rw [hlength'] at hst
        have hnn : (call.readLoop d call.count 0 c []).entriesRead = 0 := by
          cases hst with
          | done h => omega
          | atEnd h =>
            have := (hls.isPrefix h hgs).length_le
            omega
          | readFails h => exact absurd hu h.2
          | copyFails _ _ _ hread => exact hread
        have he : [] = es := by
          rw [hnn] at ha
          split at ha <;> exact ha
        rw [← he] at hlength'
        exact hpos.ne hlength'
      · intro hon
        by_contra hc
        rw [if_neg hc] at ha
        have hpos := hon.le hls hst
        rw [← ha] at hpos
        exact absurd hpos (by simp)
      · intro n hn
        exact (Nat.mul_le_mul_left _ (hn.le hls hst)).trans hcv
    · intro hll
      refine ⟨?_, hll.covers _ hgt⟩
      rcases Nat.eq_zero_or_pos es.length with hz | hpos
      · rw [length_eq_zero_iff.1 hz, take_nil]
      · have hon : call.Gets d c 1 := hgt.mono hpos
        rw [if_pos (hll.copyOut hon)]
        cases hst with
        | done _ hread | atEnd _ hread | readFails _ hread => simp [hread]
        | copyFails h hlt hnext hread =>
          obtain ⟨⟨e, c'⟩, hnext⟩ := isSome_iff_exists.1 hnext
          exact absurd ⟨es ++ [e], c', hls.concat hnext, by simp⟩ (hll.copies _ hpos hlt hfn h)

end ListCall

namespace Listing

variable {E : Type} {d : Directory E} {s t : Listing E} {call : ListCall}

theorem start_right (d : Directory E) : (start : Listing E).Right d :=
  ⟨ nil_prefix, .nil _, rfl⟩

/-- The condition on a call: if it gets to read anything, it loses nothing. -/
def Keeps (d : Directory E) (s : Listing E) (call : ListCall) : Prop :=
  call.Accepted d → call.Lossless d s.cursor

theorem step_right_iff (hs : s.Right d) (h : step d s call = some t) : t.Right d ↔ Keeps d s call := by
  cases h
  by_cases hac : call.Accepted d
  · obtain ⟨es, hls, hst, hpr, hif⟩ := ListCall.reports_iff (c := s.cursor) hac
    have hkp : Keeps d s call ↔ call.Lossless d s.cursor := ⟨fun h => h hac, fun h _ => h⟩
    rw [hkp, ← hif]
    constructor
    · rintro ⟨-, hp, hc⟩
      obtain ⟨rest, hrs⟩ := hpr
      have ha := hs.position.append (hrs ▸ hls)
      rw [← append_assoc] at ha
      obtain ⟨b, hb, hbc⟩ := ha.of_append
      obtain ⟨-, rfl⟩ := hb.unique hp rfl
      have hnil := d.lists.eq_nil_of_loop d.ends hb hbc
      rw [hnil, append_nil] at hrs
      exact ⟨hrs, by simpa [hs.covered, hst] using hc⟩
    · rintro ⟨ha, hcv⟩
      have hp := hs.position.append hls
      refine ⟨?_, ?_, ?_⟩
      · rw [ha]
        exact d.lists.isPrefix d.ends hp
      · rw [ha]
        exact hp
      · simpa [hs.covered, hst] using hcv
  · obtain ⟨hcursor, hst⟩ := ListCall.refused (c := s.cursor) hac
    have hrp : (call.osReadDirectoryEntries d s.cursor).reported = [] := by
      rw [ListCall.Outcome.reported, hst, take_nil]
    refine iff_of_true ⟨?_, ?_, ?_⟩ fun h => absurd h hac
    · rw [hrp, append_nil]
      exact hs.isPrefix
    · rw [hrp, append_nil, hcursor]
      exact hs.position
    · simp [hs.covered, hst]

/-- **In a run of calls with any counts, at any point what was reported is the first part of the
directory, the position is just after it and all that was stored was probed, just if no call loses
anything: no entry but the first of a call fails to be copied, no status block is lost with entries in
it, and no array size is cut off to less than what is stored.** -/
theorem listing_right_iff (d : Directory E) (calls : List ListCall) :
    Stays (step d) (Right d) start calls ↔ Along (step d) (Keeps d) start calls :=
  stays_iff_along (E := fun _ _ => True) (fun _ _ _ hs _ h => step_right_iff hs h) (start_right d)
    (.of_forall (fun _ _ _ => trivial) _)

/-- A directory with the entries 0 and 1. -/
def twoEntries : Directory Nat where
  hasReadDir := true
  next c := if c.offset < 2 then some (c.offset, ⟨c.offset + 1, 1⟩) else none
  entries := [0, 1]
  final := ⟨2, 1⟩
  lists := .cons rfl (.cons rfl (.nil _))
  ends := rfl

/-- A call for `count` entries in which nothing fails but what `outcome` says. -/
def callFor (mode : Mode) (count : Nat) (outcome : Nat → EntryOutcome) : ListCall where
  mode := mode
  iosb := 0x1000
  count := count
  directoryEntries := 0x2000
  iosbProbe := .success
  entriesProbe := .success
  handle := .success
  fileOffsetMutex := .success
  fcbLock := .success
  outcome := outcome
  atEnd := ⟨.endOfFile, nofun⟩
  atEndIosb := .endOfFile
  copyOut := .success

/-- After a call that could not copy the entry 1, the next one goes on from there. In a call for
2 ^ 60 + 1 entries, both are stored though one was probed. -/
theorem entry_lost : (¬ ∀ (d : Directory Nat) (calls : List ListCall),
      Stays (step d) (fun s => s.reported <+: d.entries) start calls)
    ∧ ¬ ∀ (d : Directory Nat) (calls : List ListCall),
      Stays (step d) (fun s => s.covered = true) start calls := by
  constructor
  · intro h
    have hls := h twoEntries
      [callFor .user 2 fun i => if i = 1 then .copyFails ⟨.other 1, nofun⟩ else .done,
        callFor .user 1 fun _ => .done]
    have he := hls.at_end (t := ⟨⟨2, 1⟩, [1], true⟩) (by decide +kernel)
    exact absurd he (by decide)
  · intro h
    have hu := h twoEntries [callFor .user (2 ^ 60 + 1) fun _ => .done]
    have he := hu.at_end (t := ⟨⟨2, 1⟩, [0, 1], false⟩) (by decide +kernel)
    cases he

end Listing

end Boron.Io
