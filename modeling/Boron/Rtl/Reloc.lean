import Boron.Rtl.Memory

/-! # Relocations

`elf.c` applies the relocations of an image for the kernel and for the user library. A REL entry and
a RELA entry go through one function, which takes a pointer to each and uses the one that is not
NULL. `reloc.c` has a second relocator, for the user library itself, which knows relative relocations
only. -/

namespace Boron.Rtl

variable {t : Target}

/-! ## The tables -/

structure ElfRel (t : Target) where
  offset : Word t
  info : Word t

structure ElfRela (t : Target) extends ElfRel t where
  addend : Word t

/-- An `ELF_SYMBOL`, with the fields that resolving it depends on. The section header index is 0
(`SHN_UNDEF`) in an entry that only imports the symbol; no code of the loader reads it. -/
structure ElfSymbol (t : Target) where
  name : Nat
  sectionHeaderIndex : Nat
  value : Word t

/-- `ELF_HASH_TABLE`: the buckets are the first words of the data, the chains the ones after. -/
structure ElfHashTable where
  bucketCount : Nat
  chainCount : Nat
  data : Nat → Nat

/-- What relocating and linking read of an `ELF_DYNAMIC_INFO`; `dynStrTable` is the string at an
offset of the string table. -/
structure ElfDynamicInfo (t : Target) where
  dynStrTable : Nat → CString
  dynSymTable : Int → ElfSymbol t
  hashTable : Option ElfHashTable
  pltRelocations : Word t
  pltRelocationCount : Nat
  relaEntries : List (ElfRela t)
  relEntries : List (ElfRel t)
  pltUsesRela : Bool

def elfRSym (info : Word t) : Nat :=
  match t with
  | .amd64 => info.toNat / 2 ^ 32
  | .i386 => info.toNat / 2 ^ 8
  | .arm => info.toNat / 2 ^ 8

def elfRType (info : Word t) : Nat :=
  match t with
  | .amd64 => info.toNat % 2 ^ 32
  | .i386 => info.toNat % 2 ^ 8
  | .arm => info.toNat % 2 ^ 8

/-! ## One relocation -/

/-- What a relocation type asks for. -/
inductive Reloc
  | none
  | abs
  | abs32
  | relative
  | symbol
  | rel32
  | sbrel32
  | abs16
  | abs8
  | pc24
  | xpc25
  | pc13
  | abs12
  | swi24
  | thmAbs5
  | thmPc8
  | thmSwi8
  deriving DecidableEq, Repr

/-- The cases of `RtlpComputeRelocation`, by the numbers that `elf.h` gives the types. -/
def relocOf (t : Target) (type : Nat) : Option Reloc :=
  match t with
  | .amd64 =>
    match type with
    | 1 => some .abs -- R_X86_64_64
    | 10 => some .abs32 -- R_X86_64_32
    | 8 => some .relative -- R_X86_64_RELATIVE
    | 6 => some .symbol -- R_X86_64_GLOB_DAT
    | 7 => some .symbol -- R_X86_64_JUMP_SLOT
    | _ => none
  | .i386 =>
    match type with
    | 1 => some .abs -- R_386_32
    | 8 => some .relative -- R_386_RELATIVE
    | 6 => some .symbol -- R_386_GLOB_DAT
    | 7 => some .symbol -- R_386_JUMP_SLOT
    | _ => none
  | .arm =>
    match type with
    | 0 => some .none -- R_ARM_NONE
    | 21 => some .symbol -- R_ARM_GLOB_DAT
    | 22 => some .symbol -- R_ARM_JUMP_SLOT
    | 23 => some .relative -- R_ARM_RELATIVE
    | 2 => some .abs -- R_ARM_ABS32
    | 3 => some .rel32 -- R_ARM_REL32
    | 9 => some .sbrel32 -- R_ARM_SBREL32
    | 5 => some .abs16 -- R_ARM_ABS16
    | 8 => some .abs8 -- R_ARM_ABS8
    | 1 => some .pc24 -- R_ARM_PC24
    | 15 => some .xpc25 -- R_ARM_XPC25
    | 4 => some .pc13 -- R_ARM_PC13
    | 6 => some .abs12 -- R_ARM_ABS12
    | 13 => some .swi24 -- R_ARM_SWI24
    | 7 => some .thmAbs5 -- R_ARM_THM_ABS5
    | 11 => some .thmPc8 -- R_ARM_THM_PC8
    | 14 => some .thmSwi8 -- R_ARM_THM_SWI8
    | _ => none

/-- `R_X86_64_RELATIVE`, `R_386_RELATIVE` and `R_ARM_RELATIVE`. -/
def relativeType : Target → Nat
  | .amd64 => 8
  | .i386 => 8
  | .arm => 23

/-- `Disp` of the ARM branch types: `(int32_t)(Address) >> 2` in 24 bits. -/
def disp24 (address : BitVec 32) : BitVec 32 := address.sshiftRight 2 &&& 0x00FFFFFF

/-- `Thm` of `R_ARM_XPC25`. -/
def thmBit (address : BitVec 32) : BitVec 32 := if address &&& 2 ≠ 0 then 1 else 0

/-- `Direction` and `Imm12` of `R_ARM_PC13`. -/
def direction (disp : BitVec 32) : BitVec 32 := if disp.msb then 0 else 1

def imm12 (disp : BitVec 32) : BitVec 32 := (if disp.msb then -disp else disp) &&& 0xFFF

/-- `imm5` of `R_ARM_THM_ABS5`. -/
def imm5 (x : Word t) : BitVec 16 := (x >>> 2 &&& 0x1F).setWidth 16

/-- `imm8` of `R_ARM_THM_PC8`. -/
def imm8 (disp : BitVec 32) : BitVec 16 := (disp >>> 2 &&& 0xFF).setWidth 16

/-- `*Value` and `*Length` of `RtlpComputeRelocation` for a type it knows. -/
def Reloc.compute (kind : Reloc) (addend base symbol place : Word t) (m : Memory t) :
    Word t × Nat :=
  match kind with
  | .none => (0, 0)
  | .abs => (symbol + addend, t.wordBytes)
  | .abs32 => (symbol + addend, 4)
  | .relative => (base + addend, t.wordBytes)
  | .symbol => (symbol, t.wordBytes)
  | .rel32 => (symbol + addend - place, 4)
  | .sbrel32 => (symbol + addend - base, 4)
  | .abs16 => ((symbol + addend) &&& 0xFFFF, 2)
  | .abs8 => ((symbol + addend) &&& 0xFF, 1)
  | .pc24 =>
    let address := (symbol + addend - place).setWidth 32
    ((m.read32 place &&& 0xFF000000#32 ||| disp24 address).setWidth _, 4)
  | .xpc25 =>
    let address := (symbol + addend - place).setWidth 32
    ((m.read32 place &&& 0xFE000000#32 ||| disp24 address ||| thmBit address <<< 24).setWidth _, 4)
  | .pc13 =>
    let disp := (symbol + addend - place).setWidth 32
    let mask := ~~~(1#32 <<< 23 ||| 0xFFF#32)
    ((m.read32 place &&& mask ||| (direction disp <<< 23 ||| imm12 disp)).setWidth _, 4)
  | .abs12 =>
    let imm12 := ((symbol + addend) &&& 0xFFF).setWidth 32
    ((m.read32 place &&& ~~~0xFFF#32 ||| imm12).setWidth _, 4)
  | .swi24 =>
    let imm24 := ((symbol + addend) &&& 0x00FFFFFF).setWidth 32
    ((m.read32 place &&& 0xFF000000#32 ||| imm24).setWidth _, 4)
  | .thmAbs5 =>
    ((m.read16 place &&& ~~~(0x1F#16 <<< 6) ||| imm5 (symbol + addend) <<< 6).setWidth _, 2)
  | .thmPc8 =>
    let disp := (symbol + addend - (place &&& ~~~3)).setWidth 32
    ((m.read16 place &&& ~~~0xFF#16 ||| imm8 disp).setWidth _, 2)
  | .thmSwi8 =>
    let imm8 := ((symbol + addend) &&& 0xFF).setWidth 16
    ((m.read16 place &&& 0xFF00#16 ||| imm8).setWidth _, 2)

/-- `RtlpComputeRelocation`; `none`: the type is unknown. -/
def rtlpComputeRelocation (type : Nat) (addend base symbol place : Word t) (m : Memory t) :
    Option (Word t × Nat) :=
  (relocOf t type).map fun kind => kind.compute addend base symbol place m

/-! ## Symbols -/

/-- Where the code runs, and what it looks names up with: `DbgLookUpAddress` in the kernel,
`OSDLLGetProcedureAddress` in the user library. Either returns 0 for a name it does not find. -/
structure Loader (t : Target) where
  kernel : Bool
  lookUp : CString → Word t

/-- Why a relocation pass ends early: it returns false, or the kernel crashes. -/
inductive Stop
  | failed
  | crash
  deriving DecidableEq, Repr

def rtlpResolveSymbolAddress (l : Loader t) (dyn : ElfDynamicInfo t) (symbolIndex : Int)
    (loadBase : Word t) : Except Stop (Word t) :=
  let symbol := dyn.dynSymTable symbolIndex
  if symbol.value ≠ 0 then .ok (loadBase + symbol.value)
  else
    let address := l.lookUp (dyn.dynStrTable symbol.name)
    if l.kernel ∧ address = 0 then .error .crash else .ok address

/-- The symbol that an entry relocates with: the one resolved before, or the one it names. -/
def symbolOf (l : Loader t) (dyn : ElfDynamicInfo t) (info loadBase resolved : Word t) :
    Except Stop (Word t) :=
  if resolved = 0 ∧ elfRSym info ≠ 0 then
    rtlpResolveSymbolAddress l dyn (BitVec.ofNat 32 (elfRSym info)).toInt loadBase
  else .ok resolved

/-- `RtlpApplyRelocation` once the entry is in its local `Rela`. -/
def applyRela (l : Loader t) (dyn : ElfDynamicInfo t) (rela : ElfRela t) (loadBase resolved : Word t)
    (m : Memory t) : Except Stop (Memory t) :=
  match symbolOf l dyn rela.info loadBase resolved with
  | .error stop => .error stop
  | .ok symbol =>
    let place := loadBase + rela.offset
    match rtlpComputeRelocation (elfRType rela.info) rela.addend loadBase symbol place m with
    | none => .error .failed
    | some (value, length) => .ok (m.memcpy place value length)

def rtlpApplyRelocation (l : Loader t) (dyn : ElfDynamicInfo t) (ptrRel : Option (ElfRel t))
    (ptrRela : Option (ElfRela t)) (loadBase resolved : Word t) (m : Memory t) :
    Except Stop (Memory t) :=
  match ptrRela, ptrRel with
  | some rela, _ => applyRela l dyn rela loadBase resolved m
  | none, some rel => applyRela l dyn { rel with addend := 0 } loadBase resolved m
  | none, none => .error .failed

/-! ## The relocators -/

def rtlPerformRelocations (l : Loader t) (dyn : ElfDynamicInfo t) (loadBase : Word t)
    (m : Memory t) : Except Stop (Memory t) := do
  let m ← dyn.relaEntries.foldlM
    (fun m rela => rtlpApplyRelocation l dyn none (some rela) loadBase 0 m) m
  dyn.relEntries.foldlM (fun m rel => rtlpApplyRelocation l dyn (some rel) none loadBase 0 m) m

/-- The two loops of `OSDLLRelocateSelf` over its RELA and REL entries; `none`: `BUG_UNREACHABLE`. -/
def osdllRelocateSelfEntries (relaEntries : List (ElfRela t)) (relEntries : List (ElfRel t))
    (imageBase : Word t) (m : Memory t) : Option (Memory t) := do
  let m ← relaEntries.foldlM (fun m rela =>
    if elfRSym rela.info ≠ 0 ∨ elfRType rela.info ≠ relativeType t then none
    else some (m.memcpy (imageBase + rela.offset) (imageBase + rela.addend) t.wordBytes)) m
  relEntries.foldlM (fun m rel =>
    if elfRSym rel.info ≠ 0 ∨ elfRType rel.info ≠ relativeType t then none
    else
      let reloc := imageBase + rel.offset
      some (m.memcpy reloc (m.readWord reloc + imageBase) t.wordBytes)) m

/-! ## The procedure linkage table -/

/-- What `RtlLinkPlt` reads of the table: the `Info` field of the entry at an offset, or the whole
entry, in one format or the other. -/
inductive PltRead
  | info (i : Nat)
  | entry (i : Nat) (rela : Bool)
  deriving DecidableEq, Repr

/-- `sizeof(ELF_RELA)` and `sizeof(ELF_REL)`. -/
def entrySize (t : Target) (rela : Bool) : Nat := if rela then 3 * t.wordBytes else 2 * t.wordBytes

/-- The bytes of the table that are read, from the first one to the one past the last. -/
def PltRead.bytes (t : Target) : PltRead → Nat × Nat
  | .info i => (i + t.wordBytes, i + 2 * t.wordBytes)
  | .entry i rela => (i, i + entrySize t rela)

/-- The entry at `i`, in the fields that both formats have. -/
def pltRel (dyn : ElfDynamicInfo t) (m : Memory t) (i : Nat) : ElfRel t :=
  let entry := dyn.pltRelocations + BitVec.ofNat _ i
  { offset := m.readWord entry
    info := m.readWord (entry + BitVec.ofNat _ t.wordBytes) }

/-- `*(PELF_RELA) Rel`. -/
def pltRela (dyn : ElfDynamicInfo t) (m : Memory t) (i : Nat) : ElfRela t :=
  { pltRel dyn m i with
    addend := m.readWord
      (dyn.pltRelocations + BitVec.ofNat _ i + BitVec.ofNat _ (2 * t.wordBytes)) }

/-- The address of the symbol of the entry at `i`. The kernel prefers a value in the image's own
symbol table; the user library goes by the name. -/
def pltSymbolAddress (l : Loader t) (dyn : ElfDynamicInfo t) (loadBase : Word t) (m : Memory t)
    (i : Nat) : Except Stop (Word t) :=
  let symbol := dyn.dynSymTable (elfRSym (pltRel dyn m i).info)
  let address :=
    if l.kernel ∧ symbol.value ≠ 0 then loadBase + symbol.value
    else l.lookUp (dyn.dynStrTable symbol.name)
  if address = 0 then .error (if l.kernel then .crash else .failed) else .ok address

/-- `RtlLinkPlt` from offset `i` on: what it reads of the table, and how it ends. -/
def rtlLinkPltFrom (l : Loader t) (dyn : ElfDynamicInfo t) (loadBase : Word t) (i : Nat)
    (m : Memory t) : List PltRead × Except Stop (Memory t) :=
  if i < dyn.pltRelocationCount then
    match pltSymbolAddress l dyn loadBase m i with
    | .error stop => ([.info i], .error stop)
    | .ok address =>
      let ptrRel := if dyn.pltUsesRela then some (pltRel dyn m i) else none
      let ptrRela := if dyn.pltUsesRela then none else some (pltRela dyn m i)
      let reads := [.info i, .entry i ptrRela.isSome]
      match rtlpApplyRelocation l dyn ptrRel ptrRela loadBase address m with
      | .error stop => (reads, .error stop)
      | .ok m =>
        let (rest, result) := rtlLinkPltFrom l dyn loadBase (i + entrySize t dyn.pltUsesRela) m
        (reads ++ rest, result)
  else ([], .ok m)
termination_by dyn.pltRelocationCount - i
decreasing_by
  have hpos : 0 < entrySize t dyn.pltUsesRela := by
    have := t.wordBytes_pos
    unfold entrySize
    split <;> omega
  omega

def rtlLinkPlt (l : Loader t) (dyn : ElfDynamicInfo t) (loadBase : Word t) (m : Memory t) :
    List PltRead × Except Stop (Memory t) :=
  rtlLinkPltFrom l dyn loadBase 0 m

end Boron.Rtl
