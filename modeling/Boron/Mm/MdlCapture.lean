import Boron.Mm.MdlMapping

/-! # Capturing a buffer (`mm/mdl.c`)

`MmProbeAndPinPagesMdl` faults in the pages of a buffer, and then pins one after the other. Each is
looked at under the lock of its address space, which is not held in between: a page may have gone
since, and is then faulted in again. The loop means to look at the page once more, but it steps one
page back first without leaving the inner loop, so that it goes on with the page before.

What a call meets is given by `CaptureEnv`. `capture_right_iff` says that a call is right if no page
has to be faulted in again, and that one that has to be can undo it. -/

namespace Boron.Mm.Amd64

open List Option

/-! ## The code -/

/-- `KPROCESSOR_MODE`. -/
inductive Mode
  | kernel
  | user
  deriving DecidableEq, Repr

/-- The `BSTATUS` of a probe or a capture. -/
inductive CaptureStatus
  | success
  | invalidParameter
  | fault
  deriving DecidableEq, Repr

def mdlMaxSize : Nat := 4 * 1024 * 1024

def mmIsAddressRangeValid (mode : Mode) (address size : Nat) : Bool :=
  let addressEnd := (address + size) % 2 ^ 64
  size != 0 && decide (address ≤ addressEnd)
    && (mode = .kernel || decide (addressEnd ≤ Port.amd64.userSpaceEnd))
    && address / 2 ^ 47 == addressEnd / 2 ^ 47

/-- `Address & ~(PAGE_SIZE - 1)`. -/
def pageOf (address : Nat) : Nat := address - address % pageSize

/-- `(Address + Length + (PAGE_SIZE - 1)) & ~(PAGE_SIZE - 1)`. -/
def endPage (address length : Nat) : Nat := pageOf ((address + length + (pageSize - 1)) % 2 ^ 64)

/-- `MmAllocateMdl`; `room` tells whether the pool has the memory, which it hands out zeroed. -/
def mmAllocateMdl (virtualAddress length : Nat) (room : Bool) : Option Mdl :=
  let startPage := pageOf virtualAddress
  let numPages := (endPage virtualAddress length + 2 ^ 64 - startPage) % 2 ^ 64 / pageSize
  if mdlMaxSize ≤ length then none
  else if !mmIsAddressRangeValid .kernel virtualAddress length then none
  else if !room then none
  else
    some
      { byteOffset := virtualAddress % pageSize
        byteCount := length
        sourceStartVA := startPage
        mappedStartVA := 0
        captured := false
        mapped := false
        write := false
        fromPool := true
        pages := List.replicate numPages 0 }

/-- `EndPage` of `MmProbeAndPinPagesMdl`. -/
def Mdl.stop (mdl : Mdl) : Nat := endPage (mdl.sourceStartVA + mdl.byteOffset) mdl.byteCount

/-- What a call meets: what its first probe of a page gives; the entry that it finds when it looks at
an address, where looks are counted from 0 on (`none`: there is no table for it); and what the probe
after a look gives. -/
structure CaptureEnv where
  probe : Nat → CaptureStatus
  look : (time address : Nat) → Option (BitVec 64)
  reprobe : (time address : Nat) → CaptureStatus

/-- What a look tells. -/
inductive Seen
  | tryFault
  | foreign
  | page (pfn : BitVec 32)
  deriving DecidableEq

/-- The tests of the pin pass on an entry. -/
def seen (isWrite : Bool) : Option (BitVec 64) → Seen
  | none => .tryFault
  | some pte =>
    if !mmIsPresentPte pte then .tryFault
    else if !mmIsFromPmmPte pte then .foreign
    else if !test (mmGetPageBitsPte pte) protWrite && isWrite then .tryFault
    else .page (mmGetPfnPte pte)

/-- A reference that was taken: by which look, at which address, and to which frame. -/
structure Pin where
  time : Nat
  address : Nat
  pfn : BitVec 32

/-- The locals of the pin pass, what it has filled in, and a record of what it has pinned. `retry` is
set at the top of the inner loop when the outer loop's condition is not looked at again. -/
structure PinPass where
  retry : Bool
  time : Nat
  address : Nat
  index : Nat
  pages : List (BitVec 32)
  space : KernelSpace
  pins : List Pin

/-- The pass pins the frame that it found, and registers it in the MDL. -/
def PinPass.pinPage (p : PinPass) (pfn : BitVec 32) : PinPass where
  retry := false
  time := p.time + 1
  address := (p.address + pageSize) % 2 ^ 64
  index := p.index + 1
  pages := p.pages.set p.index pfn
  space := p.space.mmPageAddReference pfn
  pins := p.pins ++ [⟨p.time, p.address, pfn⟩]

/-- The pass has faulted a page in again: `Address -= PAGE_SIZE; continue;`, in the inner loop. -/
def PinPass.stepBack (p : PinPass) : PinPass :=
  { p with
    retry := true
    time := p.time + 1
    address := (p.address + 2 ^ 64 - pageSize) % 2 ^ 64 }

/-- How a pass ends. It is an overrun when `ASSERT(Index < NumberPages)` fails; without assertions
the page is then stored past the end. -/
inductive PinResult
  | running
  | overrun
  | ended (failureReason : CaptureStatus) (p : PinPass)

/-- The loops of the pin pass. -/
def pinLoop (env : CaptureEnv) (isWrite : Bool) (stop : Nat) : (fuel : Nat) → PinPass → PinResult
  | 0, _ => .running
  | fuel + 1, p =>
    if !p.retry && decide (stop ≤ p.address) then .ended .success p
    else
      match seen isWrite (env.look p.time p.address) with
      | .foreign => .ended .invalidParameter p
      | .tryFault =>
        match env.reprobe p.time p.address with
        | .success => pinLoop env isWrite stop fuel p.stepBack
        | failure => .ended failure p
      | .page pfn =>
        if p.index < p.pages.length then pinLoop env isWrite stop fuel (p.pinPage pfn)
        else .overrun

/-- The first pass: the first page whose probe fails ends it. -/
def probePages (env : CaptureEnv) (stop : Nat) : (fuel : Nat) → (address : Nat) → CaptureStatus
  | 0, _ => .success
  | fuel + 1, address =>
    if stop ≤ address then .success
    else
      match env.probe address with
      | .success => probePages env stop fuel ((address + pageSize) % 2 ^ 64)
      | failure => failure

/-- How a call ends; a call that returns leaves the MDL and the references in a state. -/
inductive CaptureResult
  | running
  | overrun
  | returned (status : CaptureStatus) (s : MdlState) (pins : List Pin)

/-- What `MmProbeAndPinPagesMdl` does behind its loops. -/
def finishCapture (s : MdlState) (isWrite : Bool) : PinResult → CaptureResult
  | .running => .running
  | .overrun => .overrun
  | .ended failureReason p =>
    let s :=
      { s with
        mdl := { s.mdl with captured := true, write := isWrite, pages := p.pages }
        space := p.space }
    if failureReason = .success then .returned .success s p.pins
    else
      let s := { s with mdl := { s.mdl with pages := s.mdl.pages.take p.index } }
      .returned failureReason s.mmUnpinPagesMdl p.pins

def mmProbeAndPinPagesMdl (env : CaptureEnv) (s : MdlState) (accessMode : Mode) (isWrite : Bool)
    (fuel : Nat) : CaptureResult :=
  let virtualAddress := s.mdl.sourceStartVA
  let size := s.mdl.byteCount
  let startPage := pageOf virtualAddress
  let stop := s.mdl.stop
  if mdlMaxSize ≤ size then .returned .invalidParameter s []
  else if !mmIsAddressRangeValid accessMode virtualAddress size then .returned .invalidParameter s []
  else if accessMode = .user ∧ Port.amd64.userSpaceEnd < stop then .returned .invalidParameter s []
  else
    match probePages env stop (stop / pageSize) startPage with
    | .success =>
      finishCapture s isWrite
        (pinLoop env isWrite stop fuel ⟨false, 0, startPage, 0, s.mdl.pages, s.space, []⟩)
    | failure => .returned failure s []

/-! ## What a call should do -/

/-- After a call on an MDL without references: if it succeeded, the i-th of its references was taken
at page i of the buffer to the frame that the page was mapped to, and is the i-th of the MDL's pages;
else it has none left. No page is stored past the end. -/
def CaptureRight (env : CaptureEnv) (isWrite : Bool) (mdl : Mdl) : CaptureResult → Prop
  | .running => True
  | .overrun => False
  | .returned status s pins =>
    (status = .success → pins.length = s.mdl.pages.length ∧
      (∀ i pin, pins[i]? = some pin → pin.address = mdl.sourceStartVA + i * pageSize ∧
        s.mdl.pages[i]? = some pin.pfn ∧
          seen isWrite (env.look pin.time pin.address) = .page pin.pfn) ∧
      ∀ q, s.space.net q = s.mdl.pages.count q) ∧
    (status ≠ .success → ∀ q, s.space.net q = 0)

/-- The call gets as far as its first probe. -/
def Mdl.Accepted (mdl : Mdl) (accessMode : Mode) : Prop :=
  mdl.byteCount < mdlMaxSize ∧
    mmIsAddressRangeValid accessMode mdl.sourceStartVA mdl.byteCount = true ∧
      ¬ (accessMode = .user ∧ Port.amd64.userSpaceEnd < mdl.stop)

namespace CaptureEnv

/-- The first page that the pass finds gone, or not as it needs it, is not there after a probe
either. -/
def Smooth (env : CaptureEnv) (isWrite : Bool) (mdl : Mdl) : Prop :=
  ∀ i < mdl.pages.length,
    (∀ j < i, ∃ pfn, seen isWrite (env.look j (mdl.sourceStartVA + j * pageSize)) = .page pfn) →
      seen isWrite (env.look i (mdl.sourceStartVA + i * pageSize)) = .tryFault →
        env.reprobe i (mdl.sourceStartVA + i * pageSize) ≠ .success

/-- The environments meet a pass that goes from page to page with the same. -/
structure Agrees (env env' : CaptureEnv) (mdl : Mdl) : Prop where
  probe : env'.probe = env.probe
  look : ∀ i < mdl.pages.length,
    env'.look i (mdl.sourceStartVA + i * pageSize) = env.look i (mdl.sourceStartVA + i * pageSize)
  reprobe : ∀ i < mdl.pages.length,
    env'.reprobe i (mdl.sourceStartVA + i * pageSize) =
      env.reprobe i (mdl.sourceStartVA + i * pageSize)

end CaptureEnv

/-! ## The pages of a buffer -/

section

variable {virtualAddress length : Nat} {room : Bool} {mdl : Mdl}

/-- An MDL that was allocated and not used: its pages are those that its buffer touches. -/
structure Mdl.Fresh (mdl : Mdl) : Prop where
  captured : mdl.captured = false
  mapped : mdl.mapped = false
  noAddress : mdl.mappedStartVA = 0
  aligned : mdl.sourceStartVA % pageSize = 0
  offset : mdl.byteOffset < pageSize
  nonempty : 0 < mdl.byteCount
  small : mdl.byteCount < mdlMaxSize
  fits : mdl.sourceStartVA + mdl.byteOffset + mdl.byteCount < 2 ^ 64
  pages : mdl.pages.length = (mdl.stop + 2 ^ 64 - mdl.sourceStartVA) % 2 ^ 64 / pageSize

/-- The buffer does not reach into the last page of the address space. -/
def Mdl.BelowLastPage (mdl : Mdl) : Prop :=
  mdl.sourceStartVA + mdl.byteOffset + mdl.byteCount + (pageSize - 1) < 2 ^ 64

theorem fresh_of_allocate (h : mmAllocateMdl virtualAddress length room = some mdl) : mdl.Fresh := by
  rw [mmAllocateMdl] at h
  split at h
  · cases h
  · next hlength =>
    split at h
    · cases h
    · next hvl =>
        split at h
        · cases h
        · cases h
          simp only [mmIsAddressRangeValid, Bool.not_eq_true, Bool.not_eq_false', Bool.and_eq_true,
            bne_iff_ne, decide_eq_true_eq] at hvl
          have hsm : length < 4 * 1024 * 1024 := not_le.1 hlength
          have hst : pageOf virtualAddress + virtualAddress % pageSize = virtualAddress :=
            Nat.sub_add_cancel (Nat.mod_le ..)
          exact {
            captured := rfl
            mapped := rfl
            noAddress := rfl
            aligned := Nat.mod_eq_zero_of_dvd (Nat.dvd_sub_mod virtualAddress)
            offset := Nat.mod_lt _ (by decide)
            nonempty := Nat.pos_of_ne_zero hvl.1.1.1
            small := hsm
            fits := by
              change pageOf virtualAddress + virtualAddress % pageSize + length < 2 ^ 64
              rw [hst]
              omega
            pages := by rw [length_replicate, Mdl.stop, hst] }

namespace Mdl.Fresh

theorem stop_eq (h : mdl.Fresh) (hb : mdl.BelowLastPage) :
    mdl.stop = mdl.sourceStartVA + mdl.pages.length * pageSize := by
  have hpages := h.pages
  have ha := h.aligned
  simp only [BelowLastPage, stop, endPage, pageOf, pageSize] at hb hpages ha ⊢
  omega

theorem stop_lt (mdl : Mdl) : mdl.stop < 2 ^ 64 := by
  simp only [stop, endPage, pageOf]
  omega

theorem stop_eq_zero (h : mdl.Fresh) (hb : ¬ mdl.BelowLastPage) :
    mdl.stop = 0 ∧ 0 < mdl.pages.length := by
  have hpages := h.pages
  have ha := h.aligned
  have hft := h.fits
  have hof := h.offset
  have hsm := h.small
  simp only [BelowLastPage, stop, endPage, pageOf, pageSize, mdlMaxSize] at *
  omega

end Mdl.Fresh

end

/-! ## The first pass -/

theorem probePages_success_iff {env : CaptureEnv} {stop fuel n adr : Nat} (hn : n ≤ fuel)
    (hst : adr + n * pageSize = stop) (hlt : stop < 2 ^ 64) :
    probePages env stop fuel adr = .success ↔ ∀ i < n, env.probe (adr + i * pageSize) = .success := by
  induction n generalizing adr fuel with
  | zero =>
    refine iff_of_true ?_ fun i hi => absurd hi (Nat.not_lt_zero i)
    cases fuel with
    | zero => rfl
    | succ fuel => exact if_pos (by omega)
  | succ n ih =>
    cases fuel with
    | zero => exact absurd hn (by omega)
    | succ fuel =>
      have hpg : 0 < pageSize := by decide
      have hnext : (adr + pageSize) % 2 ^ 64 = adr + pageSize :=
        Nat.mod_eq_of_lt (by rw [Nat.succ_mul] at hst; omega)
      rw [probePages, if_neg (by rw [Nat.succ_mul] at hst; omega), hnext]
      have hst' : adr + pageSize + n * pageSize = stop := by
        rw [Nat.succ_mul] at hst
        omega
      have hrs := ih (Nat.le_of_succ_le_succ hn) hst'
      have ha : (∀ i < n + 1, env.probe (adr + i * pageSize) = .success) ↔ env.probe adr = .success ∧
            ∀ i < n, env.probe (adr + pageSize + i * pageSize) = .success := by
        rw [Nat.forall_lt_succ_left]
        simp only [Nat.zero_mul, Nat.add_zero, Nat.succ_mul, Nat.add_assoc, Nat.add_comm pageSize]
      rw [ha]
      cases hp : env.probe adr with
      | success => simpa using hrs
      | _ => simp

/-! ## The pin pass in step -/

section

variable {env : CaptureEnv} {isWrite : Bool} {mdl : Mdl} {p : PinPass}

/-- The pass has pinned the first `time` pages of the buffer, each with one look, and is about to look
at the next. -/
structure InStep (env : CaptureEnv) (isWrite : Bool) (mdl : Mdl) (p : PinPass) : Prop where
  noRetry : p.retry = false
  index : p.index = p.time
  address : p.address = mdl.sourceStartVA + p.time * pageSize
  time_le : p.time ≤ mdl.pages.length
  pages : p.pages.length = mdl.pages.length
  pins : p.pins.length = p.time
  pinned : ∀ i pin, p.pins[i]? = some pin → pin.time = i ∧
    pin.address = mdl.sourceStartVA + i * pageSize ∧ p.pages[i]? = some pin.pfn ∧
      seen isWrite (env.look i (mdl.sourceStartVA + i * pageSize)) = .page pin.pfn
  net : ∀ q, p.space.net q = (p.pages.take p.time).count q

namespace InStep

theorem found (h : InStep env isWrite mdl p) {j : Nat} (hj : j < p.time) :
    ∃ pfn, seen isWrite (env.look j (mdl.sourceStartVA + j * pageSize)) = .page pfn := by
  have hlt : j < p.pins.length := h.pins ▸ hj
  exact ⟨_, (h.pinned j _ (List.getElem?_eq_getElem hlt)).2.2.2⟩

/-- The pass when it begins. -/
theorem start (env : CaptureEnv) (isWrite : Bool) (mdl : Mdl) {space : KernelSpace}
    (hnt : ∀ q, space.net q = 0) :
    InStep env isWrite mdl ⟨false, 0, mdl.sourceStartVA, 0, mdl.pages, space, []⟩ where
  noRetry := rfl
  index := rfl
  address := by simp
  time_le := Nat.zero_le _
  pages := rfl
  pins := rfl
  pinned := fun i pin hgt => by simp at hgt
  net := fun q => by simpa using hnt q

section

variable (h : InStep env isWrite mdl p) (hfr : mdl.Fresh) (hb : mdl.BelowLastPage)
include h hfr hb

theorem pinPage (htm : p.time < mdl.pages.length) {pfn : BitVec 32}
    (hsn : seen isWrite (env.look p.time p.address) = .page pfn) :
    InStep env isWrite mdl (p.pinPage pfn) where
  noRetry := rfl
  index := congrArg (· + 1) h.index
  address := by
    have hst := hfr.stop_eq hb
    have hlt := Mdl.Fresh.stop_lt mdl
    simp only [PinPass.pinPage, h.address, pageSize] at hst ⊢
    omega
  time_le := htm
  pages := (length_set ..).trans h.pages
  pins := by rw [PinPass.pinPage, length_append, h.pins, length_singleton]
  pinned := fun i pin hgt => by
    simp only [PinPass.pinPage, h.index] at hgt ⊢
    by_cases hi : i = p.time
    · rw [hi, ← h.pins, List.getElem?_concat_length] at hgt
      cases hgt
      rw [hi, List.getElem?_set_self (h.pages ▸ htm)]
      exact ⟨h.pins, h.address, rfl, h.address ▸ hsn⟩
    · have hlt : i < p.pins.length := by
        have := (List.getElem?_eq_some_iff.1 hgt).1
        rw [length_append, length_singleton, h.pins] at this
        rw [h.pins]
        omega
      rw [List.getElem?_append_left hlt] at hgt
      rw [List.getElem?_set_ne (Ne.symm hi)]
      exact h.pinned i pin hgt
  net := fun q => by
    have htk : (p.pages.set p.time pfn).take (p.time + 1) = p.pages.take p.time ++ [pfn] := by
      rw [take_add_one, List.getElem?_set_self (h.pages ▸ htm), take_set_of_le le_rfl, toList_some]
    simp only [PinPass.pinPage, h.index, KernelSpace.net_mmPageAddReference, h.net, htk, count_append]
    omega

theorem pinLoop_succ (fuel : Nat) :
    pinLoop env isWrite mdl.stop (fuel + 1) p =
      if p.time = mdl.pages.length then .ended .success p
      else
        match seen isWrite (env.look p.time p.address) with
        | .foreign => .ended .invalidParameter p
        | .tryFault =>
          match env.reprobe p.time p.address with
          | .success => pinLoop env isWrite mdl.stop fuel p.stepBack
          | failure => .ended failure p
        | .page pfn => pinLoop env isWrite mdl.stop fuel (p.pinPage pfn) := by
  have hst := hfr.stop_eq hb
  have hle := h.time_le
  have he : mdl.stop ≤ p.address ↔ p.time = mdl.pages.length := by
    rw [h.address, hst]
    simp only [pageSize]
    omega
  rw [pinLoop, h.noRetry, Bool.not_false, Bool.true_and]
  by_cases htm : p.time = mdl.pages.length
  · rw [if_pos (decide_eq_true (he.2 htm)), if_pos htm]
  · rw [if_neg (by simpa using mt he.1 htm), if_neg htm]
    have hrm : p.index < p.pages.length := by
      rw [h.index, h.pages]
      omega
    simp only [if_pos hrm]

/-- A pass in step ends as it should, after one look for each page that is left and the test behind the
last, unless a page that is gone is there again after a probe. -/
theorem pinLoop_right (hsm : env.Smooth isWrite mdl) (fuel : Nat) :
    match pinLoop env isWrite mdl.stop fuel p with
    | .running => p.time + fuel ≤ mdl.pages.length
    | .overrun => False
    | .ended st p' =>
      InStep env isWrite mdl p' ∧ (st = .success → p'.time = mdl.pages.length) := by
  induction fuel generalizing p with
  | zero => exact h.time_le
  | succ fuel ih =>
    rw [pinLoop_succ h hfr hb]
    by_cases htm : p.time = mdl.pages.length
    · rw [if_pos htm]
      exact ⟨h, fun _ => htm⟩
    · rw [if_neg htm]
      have hlt : p.time < mdl.pages.length := lt_of_le_of_ne h.time_le htm
      cases hsn : seen isWrite (env.look p.time p.address) with
      | foreign => exact ⟨h, fun hst => by cases hst⟩
      | page pfn =>
        rw [Nat.add_comm fuel, ← Nat.add_assoc]
        exact ih (h.pinPage hfr hb hlt hsn)
      | tryFault =>
        rw [h.address] at hsn
        have hp := hsm p.time hlt (fun j hj => h.found hj) hsn
        rw [← h.address] at hp
        cases hst : env.reprobe p.time p.address with
        | success => exact absurd hst hp
        | _ => exact ⟨h, fun hst => by cases hst⟩

/-- The pass comes to the first page that it does not find. -/
theorem exists_at {i : Nat} (htm : p.time = 0) (hi : i ≤ mdl.pages.length)
    (hfn : ∀ j < i, ∃ pfn, seen isWrite (env.look j (mdl.sourceStartVA + j * pageSize)) = .page pfn) :
    ∃ p', InStep env isWrite mdl p' ∧ p'.time = i ∧ ∀ fuel,
      pinLoop env isWrite mdl.stop (fuel + i) p = pinLoop env isWrite mdl.stop fuel p' := by
  induction i with
  | zero => exact ⟨p, h, htm, fun fuel => rfl⟩
  | succ i ih =>
    obtain ⟨p', hp', htm', hrn⟩ := ih (Nat.le_of_succ_le hi) fun j hj => hfn j (Nat.lt_succ_of_lt hj)
    obtain ⟨pfn, hsn⟩ := hfn i (Nat.lt_succ_self i)
    rw [← htm', ← hp'.address] at hsn
    have hlt : p'.time < mdl.pages.length := htm' ▸ hi
    refine ⟨p'.pinPage pfn, hp'.pinPage hfr hb hlt hsn, congrArg (· + 1) htm', fun fuel => ?_⟩
    rw [← Nat.add_assoc, Nat.add_right_comm, hrn, pinLoop_succ hp' hfr hb,
      if_neg (Nat.ne_of_lt hlt), hsn]

end

end InStep

end

/-! ## The pin pass out of step -/

section

variable {env : CaptureEnv} {isWrite : Bool} {mdl : Mdl} {p : PinPass}

/-- A writable page. -/
def anyPage : BitVec 64 := mmBuildPte 0 (miscIsFromPmm ||| protRead ||| protWrite)

/-- Where a pass in step does not look, there is a page. -/
def CaptureEnv.elsewhere (env : CaptureEnv) (mdl : Mdl) : CaptureEnv :=
  { env with
    look := fun time address =>
      if time < mdl.pages.length ∧ address = mdl.sourceStartVA + time * pageSize then
        env.look time address
      else some anyPage }

theorem CaptureEnv.agrees_elsewhere (env : CaptureEnv) (mdl : Mdl) :
    env.Agrees (env.elsewhere mdl) mdl where
  probe := rfl
  look := fun _ hi => if_pos ⟨hi, rfl⟩
  reprobe := fun _ _ => rfl

theorem seen_anyPage (isWrite : Bool) : seen isWrite (some anyPage) = .page 0 := by
  cases isWrite <;> decide

/-- The pass is one page behind the entry that it fills in. -/
structure OutOfStep (mdl : Mdl) (p : PinPass) : Prop where
  time : p.time = p.index + 1
  address : p.address = (mdl.sourceStartVA + p.index * pageSize + 2 ^ 64 - pageSize) % 2 ^ 64
  index_le : p.index ≤ mdl.pages.length
  pages : p.pages.length = mdl.pages.length
  inner : p.retry = true ∨ 0 < p.index

namespace OutOfStep

theorem seen_elsewhere (h : OutOfStep mdl p) (hfr : mdl.Fresh) (hb : mdl.BelowLastPage) :
    seen isWrite ((env.elsewhere mdl).look p.time p.address) = .page 0 := by
  have hst := hfr.stop_eq hb
  have ha := h.address
  have htm := h.time
  have hof : ¬ (p.time < mdl.pages.length ∧ p.address = mdl.sourceStartVA + p.time * pageSize) := by
    simp only [pageSize] at hst ha ⊢
    omega
  rw [CaptureEnv.elsewhere]
  simp only [if_neg hof]
  exact seen_anyPage isWrite

/-- It overruns the MDL, for the last page of the buffer comes after the last entry is filled. -/
theorem overrun (h : OutOfStep mdl p) (hfr : mdl.Fresh) (hb : mdl.BelowLastPage) {fuel : Nat}
    (hfl : mdl.pages.length < p.index + fuel) :
    pinLoop (env.elsewhere mdl) isWrite mdl.stop fuel p = .overrun := by
  induction fuel generalizing p with
  | zero => exact absurd h.index_le (not_le.2 hfl)
  | succ fuel ih =>
    have hst := hfr.stop_eq hb
    have hgs : (!p.retry && decide (mdl.stop ≤ p.address)) = false := by
      obtain hrt | hpos := h.inner
      · rw [hrt]
        rfl
      · have hle := h.index_le
        have ha := h.address
        have : ¬ mdl.stop ≤ p.address := by
          simp only [pageSize] at hst ha
          omega
        rw [decide_eq_false this, Bool.and_false]
    rw [pinLoop, hgs, if_neg Bool.false_ne_true, h.seen_elsewhere hfr hb]
    by_cases hrm : p.index < p.pages.length
    · simp only [if_pos hrm]
      refine ih ⟨congrArg (· + 1) h.time, ?_, h.pages ▸ hrm, (length_set ..).trans h.pages,
        .inr (Nat.succ_pos _)⟩ ?_
      · have ha := h.address
        simp only [PinPass.pinPage, pageSize] at ha ⊢
        omega
      · simp only [PinPass.pinPage]
        omega
    · simp only [if_neg hrm]

end OutOfStep

/-- A page that is faulted in again takes the pass out of step. -/
theorem InStep.stepBack (h : InStep env isWrite mdl p) : OutOfStep mdl p.stepBack where
  time := by
    simp only [PinPass.stepBack, h.index]
  address := by
    simp only [PinPass.stepBack, h.address, h.index]
  index_le := h.index.trans_le h.time_le
  pages := h.pages
  inner := .inl rfl

end

/-! ## Every call -/

section

variable {env : CaptureEnv} {isWrite : Bool} {accessMode : Mode} {mdl : Mdl} {space : KernelSpace}

/-- The call on an MDL that was just allocated. -/
def captureCall (env : CaptureEnv) (mdl : Mdl) (space : KernelSpace) (accessMode : Mode)
    (isWrite : Bool) (fuel : Nat) : CaptureResult :=
  mmProbeAndPinPagesMdl env ⟨mdl, space, false⟩ accessMode isWrite fuel

theorem captureCall_refused (h : ¬ mdl.Accepted accessMode) (fuel : Nat) :
    captureCall env mdl space accessMode isWrite fuel =
      .returned .invalidParameter ⟨mdl, space, false⟩ [] := by
  simp only [captureCall, mmProbeAndPinPagesMdl]
  split
  · rfl
  · next hsize =>
      split
      · rfl
      · next hvl =>
          split
          · rfl
          · next hu =>
              exact absurd ⟨not_le.1 hsize, by simpa using hvl, hu⟩ h

theorem captureCall_accepted (hfr : mdl.Fresh) (h : mdl.Accepted accessMode) (fuel : Nat) :
    captureCall env mdl space accessMode isWrite fuel =
      match probePages env mdl.stop (mdl.stop / pageSize) mdl.sourceStartVA with
      | .success =>
        finishCapture ⟨mdl, space, false⟩ isWrite (pinLoop env isWrite mdl.stop fuel
          ⟨false, 0, mdl.sourceStartVA, 0, mdl.pages, space, []⟩)
      | failure => .returned failure ⟨mdl, space, false⟩ [] := by
  have hst : pageOf mdl.sourceStartVA = mdl.sourceStartVA := by
    rw [pageOf, hfr.aligned, Nat.sub_zero]
  obtain ⟨hsize, hvl, hu⟩ := h
  simp only [captureCall, mmProbeAndPinPagesMdl]
  rw [if_neg (not_le.2 hsize), if_neg (by simp [hvl]), if_neg hu, hst]

theorem returned_right {st : CaptureStatus} (hst : st ≠ .success) (hnt : ∀ q, space.net q = 0) :
    CaptureRight env isWrite mdl (.returned st ⟨mdl, space, false⟩ []) :=
  ⟨fun h => absurd h hst, fun _ => hnt⟩

theorem finishCapture_right (hfr : mdl.Fresh) {r : PinResult} {runs : Prop}
    (h : match r with
      | .running => runs
      | .overrun => False
      | .ended st p =>
        InStep env isWrite mdl p ∧ (st = .success → p.time = mdl.pages.length)) :
    CaptureRight env isWrite mdl (finishCapture ⟨mdl, space, false⟩ isWrite r) := by
  cases r with
  | running => trivial
  | overrun => exact h
  | ended st p =>
    obtain ⟨hp, htm⟩ := h
    simp only [finishCapture]
    by_cases hst : st = .success
    · rw [if_pos hst]
      refine ⟨fun _ => ⟨?_, fun i pin hgt => ?_, fun q => ?_⟩, fun h => absurd rfl h⟩
      · rw [hp.pins, htm hst, hp.pages]
      · obtain ⟨htm', ha, hpg, hsn⟩ := hp.pinned i pin hgt
        rw [htm', ha]
        exact ⟨rfl, hpg, hsn⟩
      · have hal : p.pages.length ≤ p.time := (hp.pages.trans (htm hst).symm).le
        exact (hp.net q).trans (by rw [take_of_length_le hal])
    · rw [if_neg hst]
      refine ⟨fun h => absurd h hst, fun _ q => ?_⟩
      have hu : ¬ mdl.mapped = true := Bool.eq_false_iff.1 hfr.mapped
      simp only [MdlState.mmUnpinPagesMdl, MdlState.mmUnmapPagesMdl, if_neg hu]
      rw [if_pos trivial, KernelSpace.net_foldl_mmFreePhysicalPage, hp.net, hp.index]
      exact Int.sub_self _

theorem finishCapture_ne_running {s : MdlState} {r : PinResult} (h : r ≠ .running) :
    finishCapture s isWrite r ≠ .running := by
  cases r with
  | running => exact absurd rfl h
  | overrun => exact CaptureResult.noConfusion
  | ended st p =>
    simp only [finishCapture]
    split <;> exact CaptureResult.noConfusion

/-- The call returns, and is right. -/
def CallsRight (env : CaptureEnv) (mdl : Mdl) (space : KernelSpace) (accessMode : Mode)
    (isWrite : Bool) : Prop :=
  (∃ fuel, captureCall env mdl space accessMode isWrite fuel ≠ .running) ∧
    ∀ fuel, CaptureRight env isWrite mdl (captureCall env mdl space accessMode isWrite fuel)

theorem CaptureEnv.Smooth.of_agrees {env' : CaptureEnv} (h : env.Smooth isWrite mdl)
    (ha : env.Agrees env' mdl) : env'.Smooth isWrite mdl := by
  intro i hi hfn hsn
  rw [ha.look i hi] at hsn
  rw [ha.reprobe i hi]
  refine h i hi (fun j hj => ?_) hsn
  obtain ⟨pfn, hp⟩ := hfn j hj
  exact ⟨pfn, ha.look j (hj.trans hi) ▸ hp⟩

/-- The probes of the first pass. -/
def CaptureEnv.Probed (env : CaptureEnv) (mdl : Mdl) : Prop :=
  ∀ i < mdl.pages.length, env.probe (mdl.sourceStartVA + i * pageSize) = .success

theorem probePages_iff (hfr : mdl.Fresh) (hb : mdl.BelowLastPage) :
    probePages env mdl.stop (mdl.stop / pageSize) mdl.sourceStartVA = .success ↔ env.Probed mdl := by
  have hst := hfr.stop_eq hb
  refine probePages_success_iff ?_ hst.symm (Mdl.Fresh.stop_lt mdl)
  rw [hst, Nat.add_mul_div_right _ _ (by decide)]
  exact Nat.le_add_left ..

theorem callsRight_of_smooth (hfr : mdl.Fresh) (hnt : ∀ q, space.net q = 0)
    (h : mdl.Accepted accessMode → mdl.BelowLastPage ∧ (env.Probed mdl → env.Smooth isWrite mdl)) :
    CallsRight env mdl space accessMode isWrite := by
  by_cases ha : mdl.Accepted accessMode
  · obtain ⟨hb, hsm⟩ := h ha
    have hst := InStep.start env isWrite mdl hnt
    rw [CallsRight]
    simp only [captureCall_accepted hfr ha]
    cases hp : probePages env mdl.stop (mdl.stop / pageSize) mdl.sourceStartVA with
    | success =>
      have hsm' := hsm ((probePages_iff hfr hb).1 hp)
      obtain ⟨n, hn⟩ := exists_gt mdl.pages.length
      refine ⟨⟨n, finishCapture_ne_running fun hrn => ?_⟩, fun fuel =>
        finishCapture_right hfr (hst.pinLoop_right hfr hb hsm' fuel)⟩
      have hle := hst.pinLoop_right hfr hb hsm' n
      rw [hrn] at hle
      dsimp only at hle
      omega
    | _ => exact ⟨⟨0, CaptureResult.noConfusion⟩, fun _ => returned_right CaptureStatus.noConfusion hnt⟩
  · rw [CallsRight]
    simp only [captureCall_refused ha]
    exact ⟨⟨0, CaptureResult.noConfusion⟩, fun _ => returned_right CaptureStatus.noConfusion hnt⟩

/-- A call on a buffer that reaches into the last page of the address space pins nothing. -/
theorem captureCall_lastPage (hfr : mdl.Fresh) (ha : mdl.Accepted accessMode)
    (hb : ¬ mdl.BelowLastPage) : ¬ CallsRight env mdl space accessMode isWrite := by
  intro h
  obtain ⟨hst, hpos⟩ := hfr.stop_eq_zero hb
  have hrg := h.2 1
  rw [captureCall_accepted hfr ha, hst] at hrg
  exact absurd (hrg.1 rfl).1 (Nat.ne_of_lt hpos)

/-- A page that the pass faults in again undoes the call, if there are pages where it was not to look. -/
theorem captureCall_elsewhere (hfr : mdl.Fresh) (hc : mdl.Accepted accessMode)
    (hb : mdl.BelowLastPage) (hnt : ∀ q, space.net q = 0) (hpr : env.Probed mdl)
    (hsm : ¬ env.Smooth isWrite mdl) :
    ¬ CallsRight (env.elsewhere mdl) mdl space accessMode isWrite := by
  rw [CaptureEnv.Smooth] at hsm
  push Not at hsm
  obtain ⟨i, hi, hfn, hsn, hrp⟩ := hsm
  have ha := env.agrees_elsewhere mdl
  have hst := InStep.start (env.elsewhere mdl) isWrite mdl hnt
  obtain ⟨p, hp, htm, hrn⟩ := hst.exists_at hfr hb rfl hi.le fun j hj => by
    rw [ha.look j (hj.trans hi)]
    exact hfn j hj
  have hov : pinLoop (env.elsewhere mdl) isWrite mdl.stop (mdl.pages.length + 1 + 1 + i)
      ⟨false, 0, mdl.sourceStartVA, 0, mdl.pages, space, []⟩ = .overrun := by
    rw [hrn, hp.pinLoop_succ hfr hb, if_neg (htm ▸ Nat.ne_of_lt hi), hp.address, htm,
      ha.look i hi, hsn, ha.reprobe i hi, hrp]
    exact hp.stepBack.overrun hfr hb (by omega)
  intro h
  have hpr' : (env.elsewhere mdl).Probed mdl := hpr
  have hrg := h.2 (mdl.pages.length + 1 + 1 + i)
  rw [captureCall_accepted hfr hc, (probePages_iff hfr hb).2 hpr'] at hrg
  simp only [hov] at hrg
  exact hrg

/-- **Which captures are right**: those of buffers that do not reach into the last page of the
address space, if no page that the pin pass finds gone is there again after a probe. If one is, the
call is undone by the pages that it was not to look at. -/
theorem capture_right_iff {virtualAddress length : Nat} {room : Bool}
    (hallocated : mmAllocateMdl virtualAddress length room = some mdl)
    (hnet : ∀ q, space.net q = 0) :
    (∀ env', env.Agrees env' mdl → CallsRight env' mdl space accessMode isWrite) ↔
      (mdl.Accepted accessMode → mdl.BelowLastPage ∧ (env.Probed mdl → env.Smooth isWrite mdl)) := by
  have hfr := fresh_of_allocate hallocated
  constructor
  · intro h ha
    have hb : mdl.BelowLastPage := by
      by_contra hb
      exact captureCall_lastPage hfr ha hb (h env ⟨rfl, fun _ _ => rfl, fun _ _ => rfl⟩)
    refine ⟨hb, fun hp => ?_⟩
    by_contra hsm
    exact captureCall_elsewhere hfr ha hb hnet hp hsm (h _ (env.agrees_elsewhere mdl))
  · intro h env' hag
    refine callsRight_of_smooth hfr hnet fun ha => ⟨(h ha).1, fun hp => ?_⟩
    refine ((h ha).2 ?_).of_agrees hag
    rw [CaptureEnv.Probed] at hp ⊢
    rwa [← hag.probe]

/-- A page that is where it is looked for. -/
def steadyEnv : CaptureEnv where
  probe := fun _ => .success
  look := fun _ _ => some anyPage
  reprobe := fun _ _ => .success

theorem capture_right_steady :
    ∃ mdl, mmAllocateMdl 0x10010 0x1000 true = some mdl ∧ mdl.pages.length = 2 ∧
      CallsRight steadyEnv mdl ⟨fun _ => 0, fun _ => 0⟩ .kernel true := by
  have ha : mmAllocateMdl 0x10010 0x1000 true =
      some ⟨0x10, 0x1000, 0x10000, 0, false, false, false, true, [0, 0]⟩ := rfl
  refine ⟨_, ha, rfl, (capture_right_iff ha fun _ => rfl).2 (fun _ => ⟨?_, fun _ => ?_⟩)
    steadyEnv ⟨rfl, fun _ _ => rfl, fun _ _ => rfl⟩⟩
  · rw [Mdl.BelowLastPage]
    decide
  · intro i _ _ hsn
    rw [steadyEnv, seen_anyPage] at hsn
    cases hsn

/-- A page that is gone when it is to be pinned, and is faulted in again. -/
def refaultEnv : CaptureEnv :=
  { steadyEnv with look := fun time _ => if time = 0 then none else some anyPage }

/-- A page that is faulted in again makes the pass store past the end of the MDL; a capture in the
last page of the address space succeeds without a page. -/
theorem capture_wrong : (∃ mdl, mmAllocateMdl 0x10000 0x1000 true = some mdl ∧
      ¬ CaptureRight refaultEnv false mdl
        (captureCall refaultEnv mdl ⟨fun _ => 0, fun _ => 0⟩ .kernel false 3)) ∧
    ∃ mdl, mmAllocateMdl (2 ^ 64 - 0x1000) 0x100 true = some mdl ∧ ¬ CaptureRight steadyEnv false mdl
        (captureCall steadyEnv mdl ⟨fun _ => 0, fun _ => 0⟩ .kernel false 1) := by
  constructor
  · exact ⟨_, rfl, fun h => h⟩
  · refine ⟨_, rfl, fun h => ?_⟩
    exact absurd (h.1 rfl).1 (by decide)

end

end Boron.Mm.Amd64
