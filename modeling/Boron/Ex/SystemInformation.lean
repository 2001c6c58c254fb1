import Boron.Rtl.Elf

/-! # The query of system information (`ex/sysinfo.c`)

`OSQuerySystemInformation` works with two sizes, that of the caller's buffer and one that is never below
1024 bytes. It allocates a block of the first size, while the routines check their room with the second;
and it clears as much of the block as a pointer is large. -/

namespace Boron.Ex

open List
open Boron.Rtl (Target)

inductive QueryStatus
  | success
  | invalidParameter
  | unsupportedFunction
  | insufficientMemory
  | fault
  | unimplemented
  deriving DecidableEq, Repr

/-- What the queries report. -/
structure SystemState where
  versionNumber : Nat
  processorCount : Nat
  totalAvailablePages : Nat
  totalFreePages : Nat

/-- Bytes that are stored in the block, from `offset` on. -/
structure BlockWrite where
  offset : Nat
  bytes : List UInt8
  deriving DecidableEq

def BlockWrite.Covers (w : BlockWrite) (i : Nat) : Prop := w.offset ≤ i ∧ i < w.offset + w.bytes.length

instance (w : BlockWrite) (i : Nat) : Decidable (w.Covers i) :=
  inferInstanceAs (Decidable (_ ∧ _))

/-- An integer of `size` bytes. -/
def field (offset size value : Nat) : BlockWrite :=
  ⟨offset, (range size).map fun i => UInt8.ofNat (value >>> (8 * i))⟩

def firstUserPage : Nat := 0x1000

def lastUserPage : Target → Nat
  | .amd64 => 0x7FFFFFFFF000
  | .i386 => 0x7FFFF000
  | .arm => 0x7FFFF000

/-- Where `MinimumUserModeAddress` is in a `SYSTEM_BASIC_INFORMATION`: the members before it end at 36,
and it is aligned as its size. -/
def minimumUserModeAddress : Target → Nat
  | .amd64 => 40
  | .i386 => 36
  | .arm => 36

def sizeofBasicInformation (t : Target) : Nat := minimumUserModeAddress t + 2 * t.wordBytes

def sizeofMemoryInformation (t : Target) : Nat := 8 + 2 * t.wordBytes

/-- The status, what is stored in the block, and `WrittenBufferSize`. -/
def expQueryBasicInformation (t : Target) (s : SystemState) (bufferSize : Nat) :
    QueryStatus × List BlockWrite × Nat :=
  if bufferSize < sizeofBasicInformation t then (.fault, [], 0)
  else (.success, [
    field 0 2 (sizeofBasicInformation t),
    field 4 4 s.versionNumber,
    field 24 4 0x1000,
    field 28 4 s.processorCount,
    field 32 4 0x1000,
    field (minimumUserModeAddress t) t.wordBytes firstUserPage,
    field (minimumUserModeAddress t + t.wordBytes) t.wordBytes (lastUserPage t),
    ⟨8, replicate 16 0⟩,
    ⟨8, [0x42, 0x6f, 0x72, 0x6f, 0x6e, 0]⟩], sizeofBasicInformation t)

def expQueryMemoryInformation (t : Target) (s : SystemState) (bufferSize : Nat) :
    QueryStatus × List BlockWrite × Nat :=
  if bufferSize < sizeofMemoryInformation t then (.fault, [], 0)
  else (.success, [
    field 0 2 (sizeofMemoryInformation t),
    field 4 4 0x1000,
    field 8 t.wordBytes s.totalAvailablePages,
    field (8 + t.wordBytes) t.wordBytes s.totalFreePages], sizeofMemoryInformation t)

/-- The `switch` over the types below `QUERY_MAXIMUM`. -/
def query (t : Target) (s : SystemState) (queryType bufferSize : Nat) :
    QueryStatus × List BlockWrite × Nat :=
  match queryType with
  | 0 => expQueryBasicInformation t s bufferSize
  | 1 => expQueryMemoryInformation t s bufferSize
  | _ => (.unimplemented, [], 0)

/-- What a byte of the block holds after the stores; `none` is what was in the pool before. -/
def contents (writes : List BlockWrite) (i : Nat) : Option UInt8 :=
  (writes.reverse.find? fun w => w.Covers i).bind fun w => w.bytes[i - w.offset]?

inductive QueryEvent
  | allocate (size : Nat)
  | write (w : BlockWrite)
  /-- `MmSafeCopy` to `SizeOfReturnedDataOut` -/
  | copyCount (count : Nat) (copied : Bool)
  /-- `MmSafeCopy` to the caller's buffer, which may copy some of the bytes before it fails -/
  | copyData (bytes : List (Option UInt8)) (copied : Bool)
  | free

/-- How the allocation and the two copies end. -/
structure Outcomes where
  room : Bool
  countCopied : Bool
  dataCopied : Bool

/-- The part of `OSQuerySystemInformation` behind the `switch`. -/
def returnInformation (o : Outcomes) (userBufferSize : Nat) (status : QueryStatus)
    (writes : List BlockWrite) (written : Nat) : QueryStatus × List QueryEvent :=
  let size := if written > userBufferSize then userBufferSize else written
  let begun := .allocate userBufferSize :: writes.map .write
  if status ≠ .success then (status, begun ++ [.free])
  else if o.countCopied = false then (.fault, begun ++ [.copyCount size false, .free])
  else if size = 0 then (.success, begun ++ [.copyCount size true, .free])
  else
    (if o.dataCopied then .success else .fault,
      begun ++ [.copyCount size true, .copyData ((range size).map (contents writes)) o.dataCopied, .free])

/-- The status, and what was done up to the return. -/
def osQuerySystemInformation (t : Target) (s : SystemState) (o : Outcomes)
    (queryType userBufferSize : Nat) : QueryStatus × List QueryEvent :=
  if userBufferSize > 1024 * 1024 ∨ userBufferSize < 2 then (.invalidParameter, [])
  else if 4 ≤ queryType then (.unsupportedFunction, [])
  else if o.room = false then (.insufficientMemory, [])
  else
    let (status, writes, written) :=
      query t s queryType (if userBufferSize < 1024 then 1024 else userBufferSize)
    -- `sizeof Buffer` is the size of a pointer
    returnInformation o userBufferSize status (⟨0, replicate t.wordBytes 0⟩ :: writes) written

/-! ## What is asked of a call -/

/-- The call stays within its block, copies nothing that was in the pool before, returns the number of
bytes that it copies, and frees the block once, at its end. -/
structure QueryRight (userBufferSize : Nat) (r : QueryStatus × List QueryEvent) : Prop where
  inside : ∀ w, .write w ∈ r.2 → w.offset + w.bytes.length ≤ userBufferSize
  clean : ∀ bytes copied, .copyData bytes copied ∈ r.2 → none ∉ bytes
  count : ∀ n copied, .copyCount n copied ∈ r.2 → n ≤ userBufferSize
  counted : ∀ bytes copied, .copyData bytes copied ∈ r.2 → .copyCount bytes.length true ∈ r.2
  success : r.1 = .success → ∃ n, .copyCount n true ∈ r.2 ∧
    (n ≠ 0 → ∃ bytes, .copyData bytes true ∈ r.2 ∧ bytes.length = n)
  freed : r.2 = [] ∨ ∃ events, r.2 = .allocate userBufferSize :: (events ++ [.free]) ∧
    .free ∉ events ∧ ∀ size, .allocate size ∉ events

/-- How much room the stores of a query need. -/
def neededSize (t : Target) : (queryType : Nat) → Nat
  | 0 => sizeofBasicInformation t
  | 1 => sizeofMemoryInformation t
  | _ => t.wordBytes

/-! ## The end of a call -/

section

variable {o : Outcomes} {userBufferSize written : Nat} {status : QueryStatus} {writes : List BlockWrite}

theorem contents_eq_none_iff {i : Nat} : contents writes i = none ↔ ∀ w ∈ writes, ¬ w.Covers i := by
  rw [contents, Option.bind_eq_none_iff]
  constructor
  · intro h w hw hc
    have hsm : (writes.reverse.find? fun w => w.Covers i).isSome :=
      find?_isSome.2 ⟨w, mem_reverse.2 hw, decide_eq_true hc⟩
    obtain ⟨v, hv⟩ := Option.isSome_iff_exists.1 hsm
    have hin := find?_some hv
    rw [decide_eq_true_iff] at hin
    have hlt := getElem?_eq_none_iff.1 (h v hv)
    unfold BlockWrite.Covers at hin
    omega
  · intro h w hw
    have hin := find?_some hw
    rw [decide_eq_true_iff] at hin
    exact absurd hin (h w (mem_reverse.1 (mem_of_find?_eq_some hw)))

/-- A call is right if its stores stay within the block and fill what is copied out of it. -/
theorem returnInformation_right_iff :
    QueryRight userBufferSize (returnInformation o userBufferSize status writes written) ↔
      (∀ w ∈ writes, w.offset + w.bytes.length ≤ userBufferSize) ∧
        (status = .success → o.countCopied = true →
          ∀ i, i < written → i < userBufferSize → ∃ w ∈ writes, w.Covers i) := by
  rw [returnInformation]
  by_cases hst : status = .success
  · generalize hsize : (if written > userBufferSize then userBufferSize else written) = size
    have hle : size ≤ userBufferSize := by
      split at hsize <;> omega
    have hlt (i : Nat) : i < size ↔ i < written ∧ i < userBufferSize := by
      split at hsize <;> omega
    rw [if_neg (not_not.2 hst)]
    by_cases hp : o.countCopied = false
    · rw [if_pos hp]
      constructor
      · exact fun h => ⟨fun w hw => h.inside w (by simp [hw]), fun _ hc => by simp [hp] at hc⟩
      · rintro ⟨hin, -⟩
        exact ⟨fun w hw => hin w (by simpa using hw), by simp, by simpa using hle, by simp, by simp,
          .inr ⟨writes.map .write ++ [.copyCount size false], by simp, by simp, by simp⟩⟩
    · rw [if_neg hp]
      by_cases hz : size = 0
      · rw [if_pos hz]
        constructor
        · refine fun h => ⟨fun w hw => h.inside w (by simp [hw]), fun _ _ i hi hiu => ?_⟩
          have hi := (hlt i).2 ⟨hi, hiu⟩
          omega
        · rintro ⟨hin, -⟩
          exact ⟨fun w hw => hin w (by simpa using hw), by simp, by simpa using hle, by simp,
            fun _ => ⟨size, by simp, fun h => absurd hz h⟩,
            .inr ⟨writes.map .write ++ [.copyCount size true], by simp, by simp, by simp⟩⟩
      · rw [if_neg hz]
        constructor
        · refine fun h => ⟨fun w hw => h.inside w (by simp [hw]), fun _ _ i hi hiu => ?_⟩
          have hcl := h.clean ((range size).map (contents writes)) o.dataCopied (by simp)
          by_contra hnn
          exact hcl (mem_map.2 ⟨i, mem_range.2 ((hlt i).2 ⟨hi, hiu⟩),
            contents_eq_none_iff.2 fun w hw hcv => hnn ⟨w, hw, hcv⟩⟩)
        · rintro ⟨hin, hcr⟩
          refine ⟨fun w hw => hin w (by simpa using hw), fun bytes cop hme hnn => ?_,
            by simpa using hle, fun bytes cop hme => ?_, fun hok => ⟨size, by simp, fun _ => ?_⟩,
            .inr ⟨writes.map .write ++
              [.copyCount size true, .copyData ((range size).map (contents writes)) o.dataCopied],
              by simp, by simp, by simp⟩⟩
          · obtain ⟨rfl, -⟩ : bytes = (range size).map (contents writes) ∧ cop = o.dataCopied := by
              simpa using hme
            obtain ⟨i, hi, hlf⟩ := mem_map.1 hnn
            obtain ⟨hi, hiu⟩ := (hlt i).1 (mem_range.1 hi)
            obtain ⟨w, hw, hcv⟩ := hcr hst (by simpa using hp) i hi hiu
            exact contents_eq_none_iff.1 hlf w hw hcv
          · obtain ⟨rfl, -⟩ : bytes = (range size).map (contents writes) ∧ cop = o.dataCopied := by
              simpa using hme
            simp
          · have hdt : o.dataCopied = true := by
              by_contra hd
              simp [hd] at hok
            exact ⟨(range size).map (contents writes), by simp [hdt], by simp⟩
  · rw [if_pos hst]
    constructor
    · exact fun h => ⟨fun w hw => h.inside w (by simp [hw]), fun hok => absurd hok hst⟩
    · rintro ⟨hin, -⟩
      exact ⟨fun w hw => hin w (by simpa using hw), by simp, by simp, by simp,
        fun hok => absurd hok hst, .inr ⟨writes.map .write, by simp, by simp, by simp⟩⟩

end

/-! ## The queries -/

section

variable {t : Target} {s : SystemState} {o : Outcomes} {bufferSize userBufferSize : Nat}

theorem lt_minBufferSize : sizeofBasicInformation t < 1024 ∧ sizeofMemoryInformation t < 1024 := by
  cases t <;> decide

/-- The stores of a query and the clearing of the first bytes. -/
def blockWrites (t : Target) (r : QueryStatus × List BlockWrite × Nat) : List BlockWrite :=
  ⟨0, replicate t.wordBytes 0⟩ :: r.2.1

/-- The basic information has a gap before its addresses if these are aligned to 8 bytes. -/
theorem expQueryBasicInformation_spec (h : 1024 ≤ bufferSize) :
    let r := expQueryBasicInformation t s bufferSize
    r.1 = .success ∧ r.2.2 = sizeofBasicInformation t ∧
      ((∀ w ∈ blockWrites t r, w.offset + w.bytes.length ≤ userBufferSize) ↔
        sizeofBasicInformation t ≤ userBufferSize) ∧
      ∀ i < sizeofBasicInformation t, (∃ w ∈ blockWrites t r, w.Covers i) ↔
        ¬ (t = .amd64 ∧ 36 ≤ i ∧ i < 40) := by
  rw [expQueryBasicInformation, if_neg (by have := @lt_minBufferSize t; omega)]
  refine ⟨rfl, rfl, ?_, fun i hi => ?_⟩
  · simp only [blockWrites, forall_mem_cons, field, length_map, length_range, length_replicate]
    cases t <;> simp [sizeofBasicInformation, minimumUserModeAddress, Target.wordBytes, Target.wordBits] <;>
      omega
  · simp only [blockWrites, exists_mem_cons_iff, BlockWrite.Covers, field, length_map, length_range,
      length_replicate]
    cases t <;> simp [sizeofBasicInformation, minimumUserModeAddress, Target.wordBytes,
      Target.wordBits] at hi ⊢ <;> omega

theorem expQueryMemoryInformation_spec (h : 1024 ≤ bufferSize) :
    let r := expQueryMemoryInformation t s bufferSize
    r.1 = .success ∧ r.2.2 = sizeofMemoryInformation t ∧
      ((∀ w ∈ blockWrites t r, w.offset + w.bytes.length ≤ userBufferSize) ↔
        sizeofMemoryInformation t ≤ userBufferSize) ∧
      ∀ i < sizeofMemoryInformation t, ∃ w ∈ blockWrites t r, w.Covers i := by
  rw [expQueryMemoryInformation, if_neg (by have := @lt_minBufferSize t; omega)]
  refine ⟨rfl, rfl, ?_, fun i hi => ?_⟩
  · simp only [blockWrites, forall_mem_cons, field, length_map, length_range, length_replicate]
    cases t <;> simp [sizeofMemoryInformation, Target.wordBytes, Target.wordBits] <;> omega
  · simp only [blockWrites, exists_mem_cons_iff, BlockWrite.Covers, field, length_map, length_range,
      length_replicate]
    cases t <;> simp [sizeofMemoryInformation, Target.wordBytes, Target.wordBits] at hi ⊢ <;> omega

end

end Boron.Ex
