import Boron.Mm.Slab

/-! # Device control (`io/rdwr.c`)

`OSDeviceIoControl` copies the input of the caller to the pool, calls the driver with it and with a
second block of the pool for the output, and copies that block back. What the driver, the pool and the
copies answer is an input; what the call does is written down.

The block for the output is allocated with the size of the input, and the refusal of arguments comes
after the file object is referenced (`osDeviceIoControl_right_iff`). -/

namespace Boron.Io.DeviceControl

open List

open Boron.Mm (SlabSizes)

/-- What the pool gives for a request: a block of at least as many bytes. -/
structure PoolBlocks where
  capacity : Nat → Nat
  le_capacity : ∀ n, n ≤ capacity n

/-- The blocks of `MmAllocatePool`: the size of the class, or whole pages less a header. -/
def slabCapacity (z : SlabSizes) (n : Nat) : Nat :=
  let index := Mm.mmGetSmallestSlabSizeThatFitsSize z n
  if Mm.slabSizeCount ≤ index then
    (n + Mm.hugeHeader + Mm.pageSize - 1) / Mm.pageSize * Mm.pageSize - Mm.hugeHeader
  else z.size index

theorem le_slabCapacity (z : SlabSizes) (n : Nat) : n ≤ slabCapacity z n := by
  unfold slabCapacity
  dsimp only
  split
  · have hdv := Nat.div_add_mod (n + Mm.hugeHeader + Mm.pageSize - 1) Mm.pageSize
    have hmd := Nat.mod_lt (n + Mm.hugeHeader + Mm.pageSize - 1) (by decide : 0 < Mm.pageSize)
    rw [Nat.mul_comm] at hdv
    omega
  · next hx =>
    unfold Mm.mmGetSmallestSlabSizeThatFitsSize at hx ⊢
    by_cases hh : z.thread = n
    · rw [if_pos hh]
      exact hh.ge
    · by_cases hp : z.process = n
      · rw [if_neg hh, if_pos hp]
        exact hp.ge
      · rw [if_neg hh, if_neg hp] at hx ⊢
        have hlt : Mm.genericSizes.findIdx (fun x => decide (n ≤ x)) < Mm.genericSizes.length := by
          have hlength : Mm.genericSizes.length + 2 = Mm.slabSizeCount := rfl
          omega
        rw [SlabSizes.size, getD_eq_getElem?_getD, List.getElem?_eq_getElem hlt]
        exact of_decide_eq_true (findIdx_getElem (w := hlt))

def slabBlocks (z : SlabSizes) : PoolBlocks := ⟨slabCapacity z, le_slabCapacity z⟩

inductive Failure
  | invalidParameter
  | insufficientMemory
  | unsupportedFunction
  | other (code : Nat)
  deriving DecidableEq

/-- `InBufferCopy` or `OutBufferCopy`. -/
inductive CopyName
  | inBufferCopy
  | outBufferCopy
  deriving DecidableEq

/-- A block of the pool that a call has allocated. -/
structure Buffer where
  name : CopyName
  capacity : Nat
  deriving DecidableEq

/-- What a driver's `IoControl` method is called with. -/
structure DriverCall where
  ioControlCode : Int
  inBuffer : Option Buffer
  inBufferSize : Nat
  outBuffer : Option Buffer
  outBufferSize : Nat
  deriving DecidableEq

/-- What the call uses of a `FILE_OBJECT`: the `IoControl` method of its dispatch table. -/
structure FileObject where
  ioControl : Option (DriverCall → Option Failure)

/-- The arguments of `OSDeviceIoControl` but the handle: of the two buffers, whether they are given. -/
structure Arguments where
  ioControlCode : Int
  inBufferGiven : Bool
  inBufferSize : Nat
  outBufferGiven : Bool
  outBufferSize : Nat

/-- What a call finds: the file object of the handle, whether there is memory, and how the copies from
and to user memory end. -/
structure Surroundings where
  fileObject : Except Failure FileObject
  inRoom : Bool
  outRoom : Bool
  copyIn : Option Failure
  copyOut : Option Failure

/-- What a call has done when it returns: the references on the file object, the blocks, the calls of
the driver, and from which block how many bytes were copied to the caller. -/
structure Deeds where
  taken : Nat
  dropped : Nat
  allocated : List Buffer
  freed : List Buffer
  driverCalls : List DriverCall
  copiedOut : List (Buffer × Nat)

def ioDeviceIoControl (file : FileObject) (call : DriverCall) : Option Failure × List DriverCall :=
  match file.ioControl with
  | none => (some .unsupportedFunction, [])
  | some ioControl => (ioControl call, [call])

section

variable (pool : PoolBlocks) (s : Surroundings) (a : Arguments)

/-- `InBufferCopy`, and a failure on the way to it. -/
def inBufferCopy : Option Failure × Option Buffer :=
  if a.inBufferSize = 0 then (none, none)
  else if !s.inRoom then (some .insufficientMemory, none)
  else (s.copyIn, some ⟨.inBufferCopy, pool.capacity a.inBufferSize⟩)

/-- `OutBufferCopy`, and a failure on the way to it. -/
def outBufferCopy : Option Failure × Option Buffer :=
  if a.outBufferSize = 0 then (none, none)
  else if !s.outRoom then (some .insufficientMemory, none)
  else (none, some ⟨.outBufferCopy, pool.capacity a.inBufferSize⟩)

/-- `EarlyExit`, with the file object referenced and these blocks allocated. -/
def earlyExit (inCopy outCopy : Option Buffer) (driverCalls : List DriverCall)
    (copiedOut : List (Buffer × Nat)) : Deeds where
  taken := 1
  dropped := 1
  allocated := inCopy.toList ++ outCopy.toList
  freed := inCopy.toList ++ outCopy.toList
  driverCalls := driverCalls
  copiedOut := copiedOut

def Arguments.refused : Bool :=
  a.inBufferSize ≠ 0 && !a.inBufferGiven || a.outBufferSize ≠ 0 && !a.outBufferGiven

/-- The call of the driver, and the copy back. -/
def callDriver (file : FileObject) (inCopy outCopy : Option Buffer) : Option Failure × Deeds :=
  match ioDeviceIoControl file
      ⟨a.ioControlCode, inCopy, a.inBufferSize, outCopy, a.outBufferSize⟩ with
  | (some e, calls) => (some e, earlyExit inCopy outCopy calls [])
  | (none, calls) =>
    if a.outBufferSize = 0 then (none, earlyExit inCopy outCopy calls [])
    else
      (s.copyOut,
        earlyExit inCopy outCopy calls (outCopy.toList.map fun buffer => (buffer, a.outBufferSize)))

def osDeviceIoControl : Option Failure × Deeds :=
  match s.fileObject with
  | .error e => (some e, ⟨0, 0, [], [], [], []⟩)
  | .ok file =>
    if a.refused then (some .invalidParameter, ⟨1, 0, [], [], [], []⟩)
    else
      match inBufferCopy pool s a with
      | (some e, inCopy) => (some e, earlyExit inCopy none [] [])
      | (none, inCopy) =>
        match outBufferCopy pool s a with
        | (some e, outCopy) => (some e, earlyExit inCopy outCopy [] [])
        | (none, outCopy) => callDriver s a file inCopy outCopy

end

/-! ## What is asked of a call -/

def roomOf (buffer : Option Buffer) : Nat := (buffer.map Buffer.capacity).getD 0

/-- The buffers have the capacities that are passed with them. -/
structure DriverCall.Fits (call : DriverCall) : Prop where
  input : call.inBufferSize ≤ roomOf call.inBuffer
  output : call.outBufferSize ≤ roomOf call.outBuffer

/-- The bytes are those of the output buffer. -/
def DriverCall.Owns (call : DriverCall) (copy : Buffer × Nat) : Prop :=
  call.outBuffer = some copy.1 ∧ copy.2 ≤ copy.1.capacity

structure Deeds.Right (d : Deeds) : Prop where
  reference : d.dropped = d.taken
  buffers : d.freed.Perm d.allocated
  fits : ∀ call ∈ d.driverCalls, call.Fits
  owns : ∀ copy ∈ d.copiedOut, ∃ call ∈ d.driverCalls, call.Owns copy

/-- The call gets as far as the driver. -/
structure Reached (s : Surroundings) (a : Arguments) (file : FileObject) : Prop where
  input : a.inBufferSize = 0 ∨ s.inRoom = true ∧ s.copyIn = none
  output : a.outBufferSize = 0 ∨ s.outRoom = true
  ioControl : file.ioControl.isSome = true

/-- If the handle is good, the arguments are not refused, and on the way to the driver the output is
not larger than the block for an input of the given size. -/
def Harmless (pool : PoolBlocks) (s : Surroundings) (a : Arguments) : Prop :=
  ∀ file, s.fileObject = .ok file → a.refused = false ∧
    (Reached s a file → a.outBufferSize ≤ pool.capacity a.inBufferSize)

section

variable {pool : PoolBlocks} {s : Surroundings} {a : Arguments} {file : FileObject}
  {inCopy outCopy : Option Buffer}

theorem earlyExit_right : (earlyExit inCopy outCopy [] []).Right :=
  ⟨rfl, .refl _, fun _ h => absurd h not_mem_nil, fun _ h => absurd h not_mem_nil⟩

variable (pool s a) in
theorem inBufferCopy_cases : (∃ e, (inBufferCopy pool s a).1 = some e ∧
      ¬ (a.inBufferSize = 0 ∨ s.inRoom = true ∧ s.copyIn = none)) ∨
    ((inBufferCopy pool s a).1 = none ∧ (a.inBufferSize = 0 ∨ s.inRoom = true ∧ s.copyIn = none) ∧
        a.inBufferSize ≤ roomOf (inBufferCopy pool s a).2) := by
  unfold inBufferCopy
  by_cases hsize : a.inBufferSize = 0
  · rw [if_pos hsize]
    exact .inr ⟨rfl, .inl hsize, hsize.le⟩
  · rw [if_neg hsize]
    cases hrm : s.inRoom with
    | false => exact .inl ⟨_, rfl, by simp [hsize]⟩
    | true =>
      cases hc : s.copyIn with
      | some e => exact .inl ⟨e, rfl, by simp [hsize]⟩
      | none => exact .inr ⟨rfl, .inr ⟨rfl, rfl⟩, pool.le_capacity _⟩

variable (pool s a) in
theorem outBufferCopy_cases : (∃ e, (outBufferCopy pool s a).1 = some e ∧
      ¬ (a.outBufferSize = 0 ∨ s.outRoom = true)) ∨
    ((outBufferCopy pool s a).1 = none ∧ (a.outBufferSize = 0 ∨ s.outRoom = true) ∧
      (a.outBufferSize ≤ roomOf (outBufferCopy pool s a).2 ↔
        a.outBufferSize ≤ pool.capacity a.inBufferSize)) := by
  unfold outBufferCopy
  by_cases hsize : a.outBufferSize = 0
  · rw [if_pos hsize, hsize]
    exact .inr ⟨rfl, .inl rfl, iff_of_true (Nat.zero_le _) (Nat.zero_le _)⟩
  · rw [if_neg hsize]
    cases hrm : s.outRoom with
    | false => exact .inl ⟨_, rfl, by simp [hsize]⟩
    | true => exact .inr ⟨rfl, .inr rfl, Iff.rfl⟩

theorem callDriver_right_iff (hin : a.inBufferSize ≤ roomOf inCopy) :
    (callDriver s a file inCopy outCopy).2.Right ↔
      (file.ioControl.isSome = true → a.outBufferSize ≤ roomOf outCopy) := by
  unfold callDriver ioDeviceIoControl
  cases file.ioControl with
  | none => exact iff_of_true earlyExit_right fun h => by cases h
  | some ic =>
    dsimp only
    cases ic ⟨a.ioControlCode, inCopy, a.inBufferSize, outCopy, a.outBufferSize⟩ with
    | some e =>
      refine ⟨fun h _ => (h.fits _ (mem_singleton_self _)).output, fun h => ?_⟩
      refine ⟨rfl, .refl _, fun call hcl => ?_, fun _ h => absurd h not_mem_nil⟩
      obtain rfl := mem_singleton.1 hcl
      exact ⟨hin, h rfl⟩
    | none =>
      dsimp only
      split
      · next hsize =>
        refine iff_of_true ⟨rfl, .refl _, fun call hcl => ?_, fun _ h => absurd h not_mem_nil⟩
          fun _ => hsize ▸ Nat.zero_le _
        obtain rfl := mem_singleton.1 hcl
        exact ⟨hin, hsize ▸ Nat.zero_le _⟩
      · refine ⟨fun h _ => (h.fits _ (mem_singleton_self _)).output, fun h => ?_⟩
        refine ⟨rfl, .refl _, fun call hcl => ?_, fun copy hc => ?_⟩
        · obtain rfl := mem_singleton.1 hcl
          exact ⟨hin, h rfl⟩
        · refine ⟨_, mem_singleton_self _, ?_⟩
          obtain ⟨buf, hb, rfl⟩ := mem_map.1 hc
          have hot := Option.mem_toList.1 hb
          have hrm := h rfl
          rw [hot] at hrm
          exact ⟨hot, hrm⟩

/-- **A call is right just if it is harmless.** -/
theorem osDeviceIoControl_right_iff (pool : PoolBlocks) (s : Surroundings) (a : Arguments) :
    (osDeviceIoControl pool s a).2.Right ↔ Harmless pool s a := by
  unfold osDeviceIoControl Harmless
  cases s.fileObject with
  | error e =>
    refine iff_of_true ⟨rfl, .refl _, ?_, ?_⟩ fun _ h => by cases h
    · exact fun _ h => absurd h not_mem_nil
    · exact fun _ h => absurd h not_mem_nil
  | ok file =>
    simp only [Except.ok.injEq, forall_eq']
    cases hrf : a.refused with
    | true =>
      refine iff_of_false (fun h => ?_) fun h => by cases h.1
      cases h.reference
    | false =>
      simp only [Bool.false_eq_true, if_false, true_and]
      have hin := inBufferCopy_cases pool s a
      have hot := outBufferCopy_cases pool s a
      generalize inBufferCopy pool s a = input at hin ⊢
      generalize outBufferCopy pool s a = output at hot ⊢
      obtain ⟨inFailure, inCopy⟩ := input
      obtain ⟨outFailure, outCopy⟩ := output
      rcases hin with ⟨e, rfl, hnt⟩ | ⟨rfl, hip, hrm⟩
      · exact iff_of_true earlyExit_right fun h => absurd h.input hnt
      · dsimp only
        rcases hot with ⟨e, rfl, hnt⟩ | ⟨rfl, hp, hif⟩
        · exact iff_of_true earlyExit_right fun h => absurd h.output hnt
        · dsimp only
          rw [callDriver_right_iff hrm, ← hif]
          exact ⟨fun h hrc => h hrc.ioControl, fun h hc =>
            h ⟨hip, hp, hc⟩⟩

end

/-- `sizeof(KTHREAD)` and `sizeof(KPROCESS)` do not matter here. -/
def someSizes : SlabSizes := ⟨1024, 512, by decide, by decide, by decide, by decide⟩

/-- Sixteen bytes of output and no input: the driver is given a block of eight. -/
theorem osDeviceIoControl_overruns : ¬ ∀ (pool : PoolBlocks) (s : Surroundings) (a : Arguments),
      (osDeviceIoControl pool s a).2.Right := by
  intro h
  have hrg := h (slabBlocks someSizes) ⟨.ok ⟨some fun _ => none⟩, true, true, none, none⟩
    ⟨0, false, 0, true, 16⟩
  have hft := (hrg.fits _ (mem_singleton_self _)).output
  exact absurd hft (by decide)

end Boron.Io.DeviceControl
