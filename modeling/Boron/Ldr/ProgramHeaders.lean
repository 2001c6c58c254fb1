import Boron.Rtl.Elf

/-! # Loading the program headers of a kernel module

The loader asks for a range that is as large as the distance between the lowest and the highest address
of the headers, then puts every header at the start of the range plus its full address. That is right
if no header reaches behind the size of the range, counted from address zero, and if the last header
over a byte of a loadable segment puts the byte of that segment there
(`ldrpLoadProgramHeaders_right_iff`). -/

namespace Boron.Ldr

open Function List Option

open Rtl (Target)

def pageSize : Nat := 0x1000

/-- `ELF_PROGRAM_HEADER.Type`. The loader looks for the dynamic table and treats all types alike. -/
inductive ProgramHeaderType
  | load
  | dynamic
  | other (type : Nat)
  deriving DecidableEq

structure ProgramHeader (t : Target) where
  type : ProgramHeaderType
  offset : Nat
  virtualAddress : Nat
  sizeInFile : Nat
  sizeInMemory : Nat
  virtualAddress_lt : virtualAddress < 2 ^ t.wordBits

/-- The kernel's memory, and what a call has done to it so far. -/
structure KernelMemory where
  /-- `LdrpCurrentBase`. -/
  currentBase : Nat
  /-- Whether the page at an address is mapped. -/
  present : Nat → Bool
  bytes : Nat → UInt8
  /-- The number of free frames, and what they hold when they are mapped somewhere. -/
  frames : Nat
  stale : Nat → UInt8
  /-- The addresses whose PTE or byte the call has written. -/
  touched : List Nat

/-- A run that may crash, with the memory at that point. -/
abbrev Crashing (α : Type) := Except KernelMemory α

/-- The page an address is on. -/
def pageOf (a : Nat) : Nat := a - a % pageSize

namespace KernelMemory

/-- A byte is written, if there is a page. -/
def storeByte (m : KernelMemory) (a : Nat) (b : UInt8) : Crashing KernelMemory :=
  if m.present (pageOf a) then
    .ok { m with bytes := update m.bytes a b, touched := a :: m.touched }
  else .error m

/-- One turn of the mapping loop: the permissions of a page that is there are changed, or a frame is
mapped. -/
def mapPage (m : KernelMemory) (page : Nat) : Crashing KernelMemory :=
  if m.present page then .ok { m with touched := page :: m.touched }
  else if m.frames = 0 then .error m
  else .ok { m with
    present := update m.present page true
    bytes := fun a => if pageOf a = page then m.stale a else m.bytes a
    frames := m.frames - 1
    touched := page :: m.touched }

end KernelMemory

section

variable (t : Target)

/-- `memset` and `memcpy`. -/
def storeBytes (start : Nat) (value : Nat → UInt8) : Nat → KernelMemory → Crashing KernelMemory
  | 0, m => .ok m
  | n + 1, m => do (← storeBytes start value n m).storeByte ((start + n) % 2 ^ t.wordBits) (value n)

def mapPages (start : Nat) : Nat → KernelMemory → Crashing KernelMemory
  | 0, m => .ok m
  | n + 1, m => do (← mapPages start n m).mapPage ((start + n * pageSize) % 2 ^ t.wordBits)

end

variable {t : Target}

def ldriMapInProgramHeader (file : Nat → UInt8) (base : Nat) (m : KernelMemory)
    (phdr : ProgramHeader t) : Crashing KernelMemory :=
  if phdr.sizeInMemory = 0 then .ok m
  else do
    let start := (base + phdr.virtualAddress) % 2 ^ t.wordBits
    let padding := start % pageSize
    let sizePages := (phdr.sizeInMemory + padding + (pageSize - 1)) % 2 ^ t.wordBits / pageSize
    let m ← mapPages t (start - padding) sizePages m
    let m ← storeBytes t start (fun _ => 0) phdr.sizeInMemory m
    storeBytes t start (fun i => file (phdr.offset + i)) phdr.sizeInFile m

/-- `LdrpGetLimits`: the lowest address, which starts from `~0U`, and the highest. -/
def ldrpGetLimits (phdrs : List (ProgramHeader t)) : Nat × Nat :=
  phdrs.foldl (fun limits phdr =>
    (if limits.1 > phdr.virtualAddress then phdr.virtualAddress else limits.1,
      if limits.2 < (phdr.virtualAddress + phdr.sizeInMemory) % 2 ^ t.wordBits then
        (phdr.virtualAddress + phdr.sizeInMemory) % 2 ^ t.wordBits
      else limits.2)) (2 ^ 32 - 1, 0)

/-- The number of pages that `LdrpLoadProgramHeaders` asks for, if it gets there. -/
def rangePages (phdrs : List (ProgramHeader t)) : Option Nat :=
  let limits := ldrpGetLimits phdrs
  if limits.1 > limits.2 then none
  else
    let size := (limits.2 - limits.1 + (pageSize - 1)) % 2 ^ t.wordBits / pageSize
    if size = 0 then none else some size

/-- The loop of `LdrpLoadProgramHeaders`. -/
def loadLoop (file : Nat → UInt8) (base : Nat) : List (ProgramHeader t) → Option (ProgramHeader t) →
    KernelMemory → Crashing (KernelMemory × Option (ProgramHeader t))
  | [], dynamic, m => .ok (m, dynamic)
  | phdr :: phdrs, dynamic, m => do
    let m ← ldriMapInProgramHeader file base m phdr
    if phdr.type = .dynamic then
      if dynamic.isSome then .error m else loadLoop file base phdrs (some phdr) m
    else loadLoop file base phdrs dynamic m

def ldrAllocateRange (t : Target) (m : KernelMemory) (size : Nat) : KernelMemory :=
  { m with currentBase := (m.currentBase + size * pageSize) % 2 ^ t.wordBits }

/-- `LdrpLoadProgramHeaders`: the memory, and the dynamic header. `*LoadBase` is the base that was current,
`*LoadSize` the number of pages as bytes. -/
def ldrpLoadProgramHeaders (file : Nat → UInt8) (phdrs : List (ProgramHeader t)) (m : KernelMemory) :
    Crashing (KernelMemory × Option (ProgramHeader t)) :=
  match rangePages phdrs with
  | none => .error m
  | some size => loadLoop file m.currentBase phdrs none (ldrAllocateRange t m size)

/-! ## What is right -/

/-- `*LoadSize`. -/
def loadSize (phdrs : List (ProgramHeader t)) : Nat := (rangePages phdrs).getD 0 * pageSize

/-- The memory after a run, whether it crashed or not. -/
def Crashing.memory {α : Type} (f : α → KernelMemory) : Crashing α → KernelMemory
  | .ok a => f a
  | .error m => m

/-- The byte of a segment at an address in it: that of the file, or zero. -/
def ProgramHeader.byte (file : Nat → UInt8) (phdr : ProgramHeader t) (v : Nat) : UInt8 :=
  if v < phdr.virtualAddress + phdr.sizeInFile then file (phdr.offset + (v - phdr.virtualAddress)) else 0

/-- All that the loader writes is in the range that it was given, and when it is done the loadable
segments are there. -/
structure LoadsRight (file : Nat → UInt8) (phdrs : List (ProgramHeader t)) (m : KernelMemory) : Prop where
  inside : ∀ a ∈ ((ldrpLoadProgramHeaders file phdrs m).memory Prod.fst).touched,
    m.currentBase ≤ a ∧ a < m.currentBase + loadSize phdrs
  holds : ∀ r, ldrpLoadProgramHeaders file phdrs m = .ok r → ∀ phdr ∈ phdrs, phdr.type = .load →
    ∀ v, phdr.virtualAddress ≤ v → v < phdr.virtualAddress + phdr.sizeInMemory →
      r.1.bytes ((m.currentBase + v) % 2 ^ t.wordBits) = phdr.byte file v

/-- What a call may rely on: there is a page aligned range of that size left. -/
structure Room (phdrs : List (ProgramHeader t)) (m : KernelMemory) : Prop where
  pos : 0 < m.currentBase
  aligned : pageSize ∣ m.currentBase
  le : m.currentBase + loadSize phdrs ≤ 2 ^ t.wordBits
  fresh : m.touched = []

/-- The bytes from its address on that a header makes the loader write. -/
def ProgramHeader.extent (phdr : ProgramHeader t) : Nat :=
  if phdr.sizeInMemory = 0 then 0 else max phdr.sizeInMemory phdr.sizeInFile

/-- The last header over an address, if one more follows. -/
def later (v : Nat) (last : Option (ProgramHeader t)) (phdr : ProgramHeader t) :
    Option (ProgramHeader t) :=
  if phdr.virtualAddress ≤ v ∧ v < phdr.virtualAddress + phdr.extent then some phdr else last

/-- The last header over an address, in the order of the table. -/
def lastOver (phdrs : List (ProgramHeader t)) (v : Nat) : Option (ProgramHeader t) :=
  phdrs.foldl (later v) none

/-- No header reaches behind the size of the range, and the last header over a byte of a loadable
segment has that byte. -/
structure Loadable (file : Nat → UInt8) (phdrs : List (ProgramHeader t)) : Prop where
  fits : ∀ phdr ∈ phdrs, 0 < phdr.extent → phdr.virtualAddress + phdr.extent ≤ loadSize phdrs
  last : ∀ phdr ∈ phdrs, phdr.type = .load → ∀ v, phdr.virtualAddress ≤ v →
    v < phdr.virtualAddress + phdr.sizeInMemory → ∀ q ∈ lastOver phdrs v, q.byte file v = phdr.byte file v

/-! ## Stores and mappings -/

variable {m m' : KernelMemory} {start n a base : Nat} {value : Nat → UInt8} {file : Nat → UInt8}
  {phdr : ProgramHeader t} {phdrs : List (ProgramHeader t)} {P : KernelMemory → Prop}

variable {α β : Type}

/-- What holds of the memory at every step holds after it, or at the crash. -/
theorem memory_bind {r : Crashing α} {f : α → Crashing β} {g : α → KernelMemory}
    {k : β → KernelMemory} (hr : P (r.memory g)) (hf : ∀ x, P (g x) → P ((f x).memory k)) :
    P (Crashing.memory k (r >>= f)) := by
  cases r with
  | error m => exact hr
  | ok x => exact hf x hr

theorem bind_ok {r : Crashing α} {f : α → Crashing β} {y : β}
    (h : (r >>= f) = .ok y) : ∃ x, r = .ok x ∧ f x = .ok y := by
  cases r with
  | error m => cases h
  | ok x => exact ⟨x, rfl, h⟩

/-- Nothing but addresses that have the property was touched. -/
def Touches (p : Nat → Prop) (m : KernelMemory) : Prop := ∀ a ∈ m.touched, p a

theorem Touches.cons {p : Nat → Prop} (h : Touches p m) (ha : p a) : ∀ b ∈ a :: m.touched, p b := by
  intro b hb
  rcases mem_cons.1 hb with rfl | hb
  · exact ha
  · exact h b hb

variable {p : Nat → Prop}

theorem storeBytes_touches (hm : Touches p m) (hp : ∀ k < n, p ((start + k) % 2 ^ t.wordBits)) :
    Touches p ((storeBytes t start value n m).memory id) := by
  induction n with
  | zero => exact hm
  | succ n ih =>
    refine memory_bind (ih fun k hk => hp k (by omega)) fun m' hm' => ?_
    unfold KernelMemory.storeByte
    split
    · exact hm'.cons (hp n (by omega))
    · exact hm'

theorem mapPages_touches (hm : Touches p m) (hp : ∀ k < n, p ((start + k * pageSize) % 2 ^ t.wordBits)) :
    Touches p ((mapPages t start n m).memory id) := by
  induction n with
  | zero => exact hm
  | succ n ih =>
    refine memory_bind (ih fun k hk => hp k (by omega)) fun m' hm' => ?_
    unfold KernelMemory.mapPage
    split_ifs
    · exact hm'.cons (hp n (by omega))
    · exact hm'
    · exact hm'.cons (hp n (by omega))

/-- What is on a page that is mapped stays, and so do the page and the record of what was touched. -/
structure Grows (m m' : KernelMemory) : Prop where
  present : ∀ p, m.present p = true → m'.present p = true
  touched : ∀ a ∈ m.touched, a ∈ m'.touched

theorem Grows.refl (m : KernelMemory) : Grows m m := ⟨fun _ h => h, fun _ h => h⟩

theorem Grows.trans {m'' : KernelMemory} (h : Grows m m') (h' : Grows m' m'') : Grows m m'' :=
  ⟨fun p hp => h'.present p (h.present p hp), fun a ha => h'.touched a (h.touched a ha)⟩

theorem mapPages_ok (h : mapPages t start n m = .ok m') :
    Grows m m' ∧ ∀ a, m.present (pageOf a) = true → m'.bytes a = m.bytes a := by
  induction n generalizing m' with
  | zero =>
    cases h
    exact ⟨.refl m, fun _ _ => rfl⟩
  | succ n ih =>
    obtain ⟨m₁, hm₁, hmp⟩ := bind_ok h
    obtain ⟨hgr, hb⟩ := ih hm₁
    unfold KernelMemory.mapPage at hmp
    split_ifs at hmp with hpr hfr
    · cases hmp
      exact ⟨⟨hgr.present, fun a ha => mem_cons_of_mem _ (hgr.touched a ha)⟩, hb⟩
    · cases hmp
      refine ⟨⟨fun p hp => ?_, fun a ha => mem_cons_of_mem _ (hgr.touched a ha)⟩, fun a ha => ?_⟩
      · simp only [update_apply]
        split_ifs
        exacts [rfl, hgr.present p hp]
      · have hne : pageOf a ≠ (start + n * pageSize) % 2 ^ t.wordBits :=
          fun heq => hpr (heq ▸ hgr.present _ ha)
        simp only [if_neg hne, hb a ha]

/-- Bytes that were stored are there, on pages that are mapped, and nothing else has changed. -/
theorem storeBytes_ok (h : storeBytes t start value n m = .ok m') : Grows m m'
      ∧ (∀ k < n, (start + k) % 2 ^ t.wordBits ∈ m'.touched
        ∧ m'.present (pageOf ((start + k) % 2 ^ t.wordBits)) = true)
      ∧ (start + n ≤ 2 ^ t.wordBits → ∀ a, m'.bytes a
        = if start ≤ a ∧ a < start + n then value (a - start) else m.bytes a) := by
  induction n generalizing m' with
  | zero =>
    cases h
    exact ⟨.refl m, nofun, fun _ a => (if_neg (by omega)).symm⟩
  | succ n ih =>
    obtain ⟨m₁, hm₁, hst⟩ := bind_ok h
    obtain ⟨hgr, hal, hb⟩ := ih hm₁
    unfold KernelMemory.storeByte at hst
    split_ifs at hst with hp
    cases hst
    refine ⟨⟨hgr.present, fun a ha => mem_cons_of_mem _ (hgr.touched a ha)⟩,
      fun k hk => ?_, fun hle a => ?_⟩
    · rcases Nat.lt_succ_iff_lt_or_eq.1 hk with hk | rfl
      · exact ⟨mem_cons_of_mem _ (hal k hk).1, (hal k hk).2⟩
      · exact ⟨mem_cons_self, hp⟩
    · have hmd : (start + n) % 2 ^ t.wordBits = start + n := Nat.mod_eq_of_lt (by omega)
      simp only [hmd, update_apply, hb (by omega)]
      by_cases ha : a = start + n
      · rw [if_pos ha, if_pos (by omega), ha, Nat.add_sub_cancel_left]
      · have hif : (start ≤ a ∧ a < start + (n + 1)) ↔ start ≤ a ∧ a < start + n := by omega
        simp only [if_neg ha, hif]

/-! ## One header -/

/-- The place of a header that fits. -/
theorem start_eq (hft : phdr.virtualAddress + phdr.extent ≤ n) (hpos : 0 < phdr.extent)
    (hle : base + n ≤ 2 ^ t.wordBits) :
    (base + phdr.virtualAddress) % 2 ^ t.wordBits = base + phdr.virtualAddress :=
  Nat.mod_eq_of_lt (by omega)

/-- A header that fits stays inside the range, on whole pages. -/
theorem ldriMapInProgramHeader_touches (ha : pageSize ∣ base) (hle : base + n ≤ 2 ^ t.wordBits)
    (hft : 0 < phdr.extent → phdr.virtualAddress + phdr.extent ≤ n)
    (hm : Touches (fun a => base ≤ a ∧ a < base + n) m) :
    Touches (fun a => base ≤ a ∧ a < base + n)
      ((ldriMapInProgramHeader file base m phdr).memory id) := by
  unfold ldriMapInProgramHeader
  split_ifs with hz
  · exact hm
  · have he : phdr.extent = max phdr.sizeInMemory phdr.sizeInFile := if_neg hz
    have hft := hft (by omega)
    rw [start_eq hft (by omega) hle]
    have hst : ∀ k < phdr.extent, base ≤ (base + phdr.virtualAddress + k) % 2 ^ t.wordBits ∧
        (base + phdr.virtualAddress + k) % 2 ^ t.wordBits < base + n := by
      intro k hk
      rw [Nat.mod_eq_of_lt (by omega)]
      omega
    refine memory_bind (mapPages_touches hm fun i hi => ?_) fun m₁ h₁ =>
      memory_bind (storeBytes_touches h₁ fun k hk => hst k (by omega)) fun m₂ h₂ =>
        storeBytes_touches h₂ fun k hk => hst k (by omega)
    -- the last page still holds a byte of the header
    have hi' := hi.trans_le (Nat.div_le_div_right (Nat.mod_le _ _))
    obtain ⟨q, rfl⟩ := ha
    unfold pageSize at *
    rw [Nat.mod_eq_of_lt (by omega)]
    omega

variable {k : Nat}

theorem ProgramHeader.byte_of_lt (h : k < phdr.sizeInFile) :
    phdr.byte file (phdr.virtualAddress + k) = file (phdr.offset + k) := by
  rw [byte, if_pos (by omega), Nat.add_sub_cancel_left]

theorem ProgramHeader.byte_of_le (h : phdr.sizeInFile ≤ k) : phdr.byte file (phdr.virtualAddress + k) = 0 :=
  if_neg (by omega)

/-- A header leaves its bytes at its place, on pages that are mapped, and the others where they were. -/
theorem ldriMapInProgramHeader_ok (h : ldriMapInProgramHeader file base m phdr = .ok m') : Grows m m'
      ∧ (∀ k < phdr.extent,
        ((base + phdr.virtualAddress) % 2 ^ t.wordBits + k) % 2 ^ t.wordBits ∈ m'.touched
        ∧ m'.present (pageOf
          (((base + phdr.virtualAddress) % 2 ^ t.wordBits + k) % 2 ^ t.wordBits)) = true)
      ∧ (base + phdr.virtualAddress + phdr.extent ≤ 2 ^ t.wordBits →
        (∀ k < phdr.extent, m'.bytes (base + phdr.virtualAddress + k)
          = phdr.byte file (phdr.virtualAddress + k))
        ∧ ∀ a, m.present (pageOf a) = true → ¬ (base + phdr.virtualAddress ≤ a
            ∧ a < base + phdr.virtualAddress + phdr.extent) → m'.bytes a = m.bytes a) := by
  unfold ldriMapInProgramHeader at h
  split_ifs at h with hz
  · cases h
    have he : phdr.extent = 0 := if_pos hz
    rw [he]
    exact ⟨.refl m, nofun, fun _ => ⟨nofun, fun _ _ _ => rfl⟩⟩
  · have he : phdr.extent = max phdr.sizeInMemory phdr.sizeInFile := if_neg hz
    obtain ⟨m₁, hp, h⟩ := bind_ok h
    obtain ⟨m₂, hst, hc⟩ := bind_ok h
    obtain ⟨hgr₁, hold⟩ := mapPages_ok hp
    obtain ⟨hgr₂, hal₂, hst⟩ := storeBytes_ok hst
    obtain ⟨hgr₃, hal₃, hc⟩ := storeBytes_ok hc
    refine ⟨(hgr₁.trans hgr₂).trans hgr₃, fun k hk => ?_, fun hle => ?_⟩
    · rw [he, lt_max_iff] at hk
      rcases hk with hk | hk
      · exact ⟨hgr₃.touched _ (hal₂ k hk).1, hgr₃.present _ (hal₂ k hk).2⟩
      · exact hal₃ k hk
    · have hme := le_max_left phdr.sizeInMemory phdr.sizeInFile
      have hsr : (base + phdr.virtualAddress) % 2 ^ t.wordBits = base + phdr.virtualAddress :=
        Nat.mod_eq_of_lt (by omega)
      rw [hsr] at hst hc
      refine ⟨fun k hk => ?_, fun a ha hot => ?_⟩
      · rw [hc (by omega)]
        by_cases hin : k < phdr.sizeInFile
        · rw [if_pos (by omega), ProgramHeader.byte_of_lt hin, Nat.add_sub_cancel_left]
        · rw [if_neg (by omega), hst (by omega), if_pos (by omega), ProgramHeader.byte_of_le (by omega)]
      · rw [hc (by omega), if_neg (by omega), hst (by omega), if_neg (by omega), hold a ha]

/-! ## All headers -/

variable {dynamic : Option (ProgramHeader t)} {r : KernelMemory × Option (ProgramHeader t)}

theorem loadLoop_cons_ok (h : loadLoop file base (phdr :: phdrs) dynamic m = .ok r) :
    ∃ m' dynamic', ldriMapInProgramHeader file base m phdr = .ok m'
      ∧ loadLoop file base phdrs dynamic' m' = .ok r := by
  obtain ⟨m', hm', h⟩ := bind_ok h
  split_ifs at h
  exacts [⟨m', _, hm', h⟩, ⟨m', _, hm', h⟩]

theorem loadLoop_touches (ha : pageSize ∣ base) (hle : base + n ≤ 2 ^ t.wordBits)
    (hft : ∀ phdr ∈ phdrs, 0 < phdr.extent → phdr.virtualAddress + phdr.extent ≤ n)
    (dynamic : Option (ProgramHeader t)) (hm : Touches (fun a => base ≤ a ∧ a < base + n) m) :
    Touches (fun a => base ≤ a ∧ a < base + n)
      ((loadLoop file base phdrs dynamic m).memory Prod.fst) := by
  induction phdrs generalizing m dynamic with
  | nil => exact hm
  | cons phdr phdrs ih =>
    have hrs := fun p hp => hft p (mem_cons_of_mem _ hp)
    refine memory_bind (ldriMapInProgramHeader_touches ha hle
      (hft phdr mem_cons_self) hm) fun m₁ h₁ => ?_
    split_ifs
    exacts [h₁, ih hrs _ h₁, ih hrs _ h₁]

/-- A run that ends has written every byte of every header somewhere. -/
theorem loadLoop_touched (h : loadLoop file base phdrs dynamic m = .ok r) :
    (∀ a ∈ m.touched, a ∈ r.1.touched) ∧ ∀ phdr ∈ phdrs, ∀ k < phdr.extent,
      ((base + phdr.virtualAddress) % 2 ^ t.wordBits + k) % 2 ^ t.wordBits ∈ r.1.touched := by
  induction phdrs generalizing m dynamic with
  | nil =>
    cases h
    exact ⟨fun _ ha => ha, nofun⟩
  | cons phdr phdrs ih =>
    obtain ⟨m₁, dynamic', hh, hrs⟩ := loadLoop_cons_ok h
    obtain ⟨hgr, hal, -⟩ := ldriMapInProgramHeader_ok hh
    obtain ⟨hb, hin⟩ := ih hrs
    refine ⟨fun a ha => hb a (hgr.touched a ha), fun p hp k hk => ?_⟩
    rcases mem_cons.1 hp with rfl | hp
    · exact hb _ (hal k hk).1
    · exact hin p hp k hk

variable {last : Option (ProgramHeader t)}

/-- The bytes of the last header over an address are there. The induction is over the headers that are
left, for the header that was the last one so far. -/
theorem loadLoop_bytes (h : loadLoop file base phdrs dynamic m = .ok r) (hle : base + n ≤ 2 ^ t.wordBits)
    (hft : ∀ phdr ∈ phdrs, 0 < phdr.extent → phdr.virtualAddress + phdr.extent ≤ n) (v : Nat) (hls : ∀ q ∈ last,
      m.bytes (base + v) = q.byte file v ∧ m.present (pageOf (base + v)) = true) :
    ∀ q ∈ phdrs.foldl (later v) last, r.1.bytes (base + v) = q.byte file v := by
  induction phdrs generalizing m dynamic last with
  | nil =>
    cases h
    exact fun q hq => (hls q hq).1
  | cons phdr phdrs ih =>
    obtain ⟨m₁, dynamic', hh, hrs⟩ := loadLoop_cons_ok h
    obtain ⟨hgr, ha, hy⟩ := ldriMapInProgramHeader_ok hh
    refine ih hrs (fun p hp => hft p (mem_cons_of_mem _ hp)) fun q hq => ?_
    unfold later at hq
    split_ifs at hq with hv
    · cases hq
      have hfi := hft phdr mem_cons_self (by omega)
      obtain ⟨k, rfl⟩ := Nat.exists_eq_add_of_le hv.1
      have hk : k < phdr.extent := by omega
      have hpr := (ha k hk).2
      rw [start_eq hfi (by omega) hle, Nat.mod_eq_of_lt (by omega)] at hpr
      rw [← Nat.add_assoc]
      exact ⟨(hy (by omega)).1 k hk, hpr⟩
    · obtain ⟨hb, hpr⟩ := hls q hq
      refine ⟨?_, hgr.present _ hpr⟩
      by_cases he : phdr.extent = 0
      · have hz : phdr.sizeInMemory = 0 := by
          unfold ProgramHeader.extent at he
          split_ifs at he with hz
          · exact hz
          · omega
        unfold ldriMapInProgramHeader at hh
        rw [if_pos hz] at hh
        cases hh
        exact hb
      · have hfi := hft phdr mem_cons_self (by omega)
        rw [(hy (by omega)).2 _ hpr (by omega), hb]

variable {v : Nat}

theorem foldl_later_isSome (h : last.isSome = true ∨ ∃ phdr ∈ phdrs, phdr.virtualAddress ≤ v
      ∧ v < phdr.virtualAddress + phdr.extent) : (phdrs.foldl (later v) last).isSome = true := by
  induction phdrs generalizing last with
  | nil => simpa using h
  | cons phdr phdrs ih =>
    refine ih ?_
    unfold later
    split_ifs with hv
    · exact .inl rfl
    · rcases h with h | ⟨p, hp, hin⟩
      · exact .inl h
      · rcases mem_cons.1 hp with rfl | hp
        · exact absurd hin hv
        · exact .inr ⟨p, hp, hin⟩

/-- Bytes from an address on that are all in the range end in it. -/
theorem end_le {W S va len : Nat} (hpos : 0 < base) (hle : base + S ≤ W) (hva : va < W)
    (hln : 0 < len) (h : ∀ k < len, base ≤ ((base + va) % W + k) % W ∧
      ((base + va) % W + k) % W < base + S) : va + len ≤ S := by
  by_contra hgt
  obtain ⟨hlo, hh⟩ := h 0 hln
  rw [Nat.add_zero, Nat.mod_mod] at hlo hh
  have hlt : base + va < W := by
    by_contra hw
    rw [Nat.mod_eq_sub_mod (by omega), Nat.mod_eq_of_lt (by omega)] at hlo
    omega
  rw [Nat.mod_eq_of_lt hlt] at hh
  -- the first address behind the range
  obtain ⟨hlo', hh'⟩ := h (S - va) (by omega)
  rw [Nat.mod_eq_of_lt hlt, show base + va + (S - va) = base + S by omega] at hlo' hh'
  rcases hle.lt_or_eq with hlt' | heq
  · rw [Nat.mod_eq_of_lt hlt'] at hh'
    omega
  · rw [heq, Nat.mod_self] at hlo'
    omega

/-! ## The loader -/

theorem ldrpLoadProgramHeaders_ok (h : ldrpLoadProgramHeaders file phdrs m = .ok r) :
    ∃ size, loadLoop file m.currentBase phdrs none (ldrAllocateRange t m size) = .ok r := by
  unfold ldrpLoadProgramHeaders at h
  cases hsize : rangePages phdrs with
  | none =>
    rw [hsize] at h
    cases h
  | some size =>
    rw [hsize] at h
    exact ⟨size, h⟩

theorem lt_extent (phdr : ProgramHeader t)
    (hv : v < phdr.virtualAddress + phdr.sizeInMemory) (hlo : phdr.virtualAddress ≤ v) :
    v < phdr.virtualAddress + phdr.extent := by
  rw [ProgramHeader.extent, if_neg (by omega)]
  omega

/-- What is at an address of a loadable segment once the loader is done, if all headers fit. -/
theorem bytes_lastOver (hrm : Room phdrs m)
    (hft : ∀ phdr ∈ phdrs, 0 < phdr.extent → phdr.virtualAddress + phdr.extent ≤ loadSize phdrs) (h : ldrpLoadProgramHeaders file phdrs m = .ok r) (hp : phdr ∈ phdrs) (hlo : phdr.virtualAddress ≤ v)
    (hh : v < phdr.virtualAddress + phdr.sizeInMemory) :
    ∃ q ∈ lastOver phdrs v, r.1.bytes ((m.currentBase + v) % 2 ^ t.wordBits) = q.byte file v := by
  obtain ⟨size, hlp⟩ := ldrpLoadProgramHeaders_ok h
  have he := lt_extent phdr hh hlo
  have hfi := hft phdr hp (by omega)
  have hle := hrm.le
  obtain ⟨q, hq⟩ := isSome_iff_exists.1
    (foldl_later_isSome (.inr ⟨phdr, hp, hlo, he⟩ : none.isSome = true ∨ _))
  refine ⟨q, hq, ?_⟩
  rw [Nat.mod_eq_of_lt (by omega)]
  exact loadLoop_bytes hlp hle hft v (fun _ h => by cases h) q hq

/-- **The headers are loaded as they are to be if they are `Loadable`, and if the loader finishes, just
then.** -/
theorem ldrpLoadProgramHeaders_right_iff (file : Nat → UInt8) (phdrs : List (ProgramHeader t))
    (m : KernelMemory) (hroom : Room phdrs m) :
    (Loadable file phdrs → LoadsRight file phdrs m) ∧ ∀ r, ldrpLoadProgramHeaders file phdrs m = .ok r →
        (LoadsRight file phdrs m ↔ Loadable file phdrs) := by
  have he : Loadable file phdrs → LoadsRight file phdrs m := by
    rintro ⟨hft, hls⟩
    refine ⟨?_, fun r hr phdr hp hy v hlo hh => ?_⟩
    · have hnn : Touches (fun a => m.currentBase ≤ a ∧ a < m.currentBase + loadSize phdrs) m := by
        intro a ha
        rw [hroom.fresh] at ha
        cases ha
      unfold ldrpLoadProgramHeaders
      cases rangePages phdrs with
      | none => exact hnn
      | some size => exact loadLoop_touches hroom.aligned hroom.le hft none hnn
    · obtain ⟨q, hq, hb⟩ := bytes_lastOver hroom hft hr hp hlo hh
      rw [hb, hls phdr hp hy v hlo hh q hq]
  refine ⟨he, fun r hr => ⟨?_, he⟩⟩
  rintro ⟨hin, hholds⟩
  have hft : ∀ phdr ∈ phdrs, 0 < phdr.extent → phdr.virtualAddress + phdr.extent ≤ loadSize phdrs := by
    intro phdr hp hpos
    obtain ⟨size, hlp⟩ := ldrpLoadProgramHeaders_ok hr
    rw [hr] at hin
    exact end_le hroom.pos hroom.le phdr.virtualAddress_lt hpos fun k hk =>
      hin _ ((loadLoop_touched hlp).2 phdr hp k hk)
  refine ⟨hft, fun phdr hp hy v hlo hh q hq => ?_⟩
  obtain ⟨q', hq', hb⟩ := bytes_lastOver hroom hft hr hp hlo hh
  cases hq.symm.trans hq'
  exact hb.symm.trans (hholds r hr phdr hp hy v hlo hh)

/-- A segment of one byte, and the dynamic table behind it, from an address on. -/
def sampleHeaders (virtualAddress : Nat) (h : virtualAddress + 1 < 2 ^ 64) :
    List (ProgramHeader .amd64) :=
  [⟨.load, 0, virtualAddress, 1, 1, Nat.lt_of_succ_lt h⟩, ⟨.dynamic, 1, virtualAddress + 1, 1, 1, h⟩]

/-- Kernel memory with four frames left. -/
def sampleMemory : KernelMemory :=
  ⟨0xfffff00000000000, fun _ => false, fun _ => 0, 4, fun _ => 0xcc, []⟩

theorem ldrpLoadProgramHeaders_right_zero :
    LoadsRight (fun _ => 7) (sampleHeaders 0 (by decide)) sampleMemory := by
  have hrm : Room (sampleHeaders 0 (by decide)) sampleMemory :=
    ⟨by decide, by decide, by decide, rfl⟩
  refine (ldrpLoadProgramHeaders_right_iff _ _ _ hrm).1 ⟨by decide, ?_⟩
  intro phdr hp hy v hlo hh q hq
  simp only [sampleHeaders, mem_cons, not_mem_nil, or_false] at hp
  rcases hp with rfl | rfl
  · obtain rfl : v = 0 := by simpa using hh
    cases hq
    rfl
  · cases hy

theorem segment_behind_range :
    ¬ ∀ (file : Nat → UInt8) (phdrs : List (ProgramHeader .amd64)) (m : KernelMemory),
      Room phdrs m → LoadsRight file phdrs m := by
  intro hal
  have hrg := hal (fun _ => 7) (sampleHeaders 0x1000 (by decide)) sampleMemory
    ⟨by decide, by decide, by decide, rfl⟩
  have hot : ∃ a ∈ ((ldrpLoadProgramHeaders (fun _ => 7) (sampleHeaders 0x1000 (by decide))
      sampleMemory).memory Prod.fst).touched,
      ¬ (sampleMemory.currentBase ≤ a
        ∧ a < sampleMemory.currentBase + loadSize (sampleHeaders 0x1000 (by decide))) := by
    decide +kernel
  obtain ⟨a, ha, hnt⟩ := hot
  exact hnt (hrg.inside a ha)

end Boron.Ldr
