import Boron.Mm.MdlCapture
import Mathlib.Data.List.Induction

/-! # Copies into and out of a captured buffer (`mm/mdl.c`)

`MmCopyIntoMdl`, `MmSetIntoMdl` and `MmCopyFromMdl` split their range at the ends of pages. Here the
frames are memory of its own, so that two pages of an MDL may be the same frame. The pieces are the
bytes of the range in order (`pieces_spec`), and so a copy out of the MDL gives what was last stored
at each of its bytes (`copies_right`). -/

namespace Boron.Mm.Amd64

open Function List

/-- A byte of memory: its frame, and its place in there. -/
abbrev Location := BitVec 32 × Nat

/-- A part of a range that lies in one page. -/
structure Piece where
  pfn : BitVec 32
  pageOffs : Nat
  amount : Nat

def Piece.locations (p : Piece) : List Location := (range p.amount).map fun k => (p.pfn, p.pageOffs + k)

/-- Stores of bytes, one after the other. -/
def storeAll (mem : Location → UInt8) (stores : List (Location × UInt8)) : Location → UInt8 :=
  stores.foldl (fun mem s => update mem s.1 s.2) mem

namespace Mdl

/-- The walk of the three loops over the pages; `offset` counts from the start of the first page.
There is none if a page past `NumberPages` is asked for, or if the walk does not end. -/
def pieces (mdl : Mdl) : (fuel offset size : Nat) → Option (List Piece)
  | 0, _, size => if size = 0 then some [] else none
  | fuel + 1, offset, size =>
    if size = 0 then some []
    else
      let pageIndex := offset / pageSize
      let pageOffs := offset % pageSize
      let bytesTillNext := pageSize - pageOffs
      let copyAmount := if size < bytesTillNext then size else bytesTillNext
      -- `ASSERT(PageIndex < Mdl->NumberPages)`
      mdl.pages[pageIndex]?.bind fun pfn =>
        (mdl.pieces fuel (offset + copyAmount) (size - copyAmount)).map
          (⟨pfn, pageOffs, copyAmount⟩ :: ·)

/-- The bodies of the loops: `memcpy` into the page of each piece, `memset` of it, and `memcpy` out of
it. -/
def copyInto (mem : Location → UInt8) : List Piece → List UInt8 → Location → UInt8
  | [], _ => mem
  | p :: ps, source =>
    copyInto (storeAll mem (p.locations.zip (source.take p.amount))) ps (source.drop p.amount)

def setInto (toSet : UInt8) (mem : Location → UInt8) (ps : List Piece) : Location → UInt8 :=
  ps.foldl (fun mem p => storeAll mem (p.locations.zip (replicate p.amount toSet))) mem

def copyFrom (mem : Location → UInt8) (ps : List Piece) : List UInt8 :=
  ps.flatMap fun p => p.locations.map mem

def mmCopyIntoMdl (mdl : Mdl) (offset : Nat) (source : List UInt8) (mem : Location → UInt8) :
    Option (Location → UInt8) :=
  (mdl.pieces source.length (offset + mdl.byteOffset) source.length).map (copyInto mem · source)

def mmSetIntoMdl (mdl : Mdl) (offset : Nat) (toSet : UInt8) (size : Nat) (mem : Location → UInt8) :
    Option (Location → UInt8) :=
  (mdl.pieces size (offset + mdl.byteOffset) size).map (setInto toSet mem)

def mmCopyFromMdl (mdl : Mdl) (offset size : Nat) (mem : Location → UInt8) : Option (List UInt8) :=
  (mdl.pieces size (offset + mdl.byteOffset) size).map (copyFrom mem)

def mmInitializeSinglePageMdl (mdl : Mdl) (pfn : BitVec 32) : Mdl :=
  { mdl with
    byteOffset := 0, byteCount := pageSize, sourceStartVA := 2 ^ 64 - 1, mappedStartVA := 0
    captured := true, pages := [pfn] }

/-- The MDLs that are filled with the frames of their pages. -/
inductive Filled : Mdl → Prop
  | allocated {virtualAddress length : Nat} {room : Bool} {mdl : Mdl} {pages : List (BitVec 32)}
      (h : mmAllocateMdl virtualAddress length room = some mdl)
      (hpages : pages.length = mdl.pages.length) : Filled { mdl with pages := pages, captured := true }
  | onePage (mdl : Mdl) (pfn : BitVec 32) : Filled (mdl.mmInitializeSinglePageMdl pfn)

end Mdl

/-- A call that stores. -/
inductive CopyCall
  | copyInto (offset : Nat) (source : List UInt8)
  | setInto (offset : Nat) (toSet : UInt8) (size : Nat)

namespace CopyCall

def offset : CopyCall → Nat
  | copyInto offset _ => offset
  | setInto offset _ _ => offset

/-- The bytes that the call is to store. -/
def bytes : CopyCall → List UInt8
  | copyInto _ source => source
  | setInto _ toSet size => replicate size toSet

def run (mdl : Mdl) (mem : Location → UInt8) : CopyCall → Option (Location → UInt8)
  | copyInto offset source => mdl.mmCopyIntoMdl offset source mem
  | setInto offset toSet size => mdl.mmSetIntoMdl offset toSet size mem

end CopyCall

namespace Mdl

/-- The byte at a position of the buffer. -/
def location (mdl : Mdl) (i : Nat) : Location :=
  (mdl.pages.getD ((i + mdl.byteOffset) / pageSize) 0, (i + mdl.byteOffset) % pageSize)

def locations (mdl : Mdl) (offset size : Nat) : List Location :=
  (range size).map fun k => mdl.location (offset + k)

/-- The stores of calls, in order. -/
def stores (mdl : Mdl) (calls : List CopyCall) : List (Location × UInt8) :=
  calls.flatMap fun c => (mdl.locations c.offset c.bytes.length).zip c.bytes

end Mdl

/-- What was last stored at a location, if anything was. -/
def lastStored (stores : List (Location × UInt8)) (l : Location) : Option UInt8 :=
  (stores.reverse.find? (·.1 = l)).map (·.2)

/-! ## The pieces of a range -/

section

variable {mdl : Mdl} {mem : Location → UInt8} {ps : List Piece} {fuel offset size : Nat}

namespace Mdl

/-- The pages of an MDL hold its buffer, which may start within the first one. -/
theorem Filled.bytes_le (h : mdl.Filled) :
    mdl.byteOffset + mdl.byteCount ≤ mdl.pages.length * pageSize := by
  cases h with
  | @allocated _ _ _ mdl pages ha hpages =>
    have hfr := fresh_of_allocate ha
    have hlength := hfr.pages
    have hal := hfr.aligned
    have hft := hfr.fits
    have hsm := hfr.small
    have hof := hfr.offset
    simp only [hpages]
    unfold Mdl.stop endPage pageOf at hlength
    unfold mdlMaxSize at hsm
    unfold pageSize at *
    -- in the last page of the address space the end wraps to 0
    by_cases hw : mdl.sourceStartVA + mdl.byteOffset + mdl.byteCount + (4096 - 1) < 2 ^ 64
    · rw [Nat.mod_eq_of_lt hw] at hlength
      omega
    · have hst : (mdl.sourceStartVA + mdl.byteOffset + mdl.byteCount + (4096 - 1)) % 2 ^ 64
          = mdl.sourceStartVA + mdl.byteOffset + mdl.byteCount + (4096 - 1) - 2 ^ 64 := by omega
      rw [hst, Nat.mod_eq_of_lt (a := _ - 2 ^ 64) (by omega), Nat.sub_self, Nat.zero_add,
        Nat.mod_eq_of_lt (a := 2 ^ 64 - mdl.sourceStartVA) (by omega)] at hlength
      omega
  | onePage => simp [mmInitializeSinglePageMdl]

/-- The walk ends within the pages, and its pieces are the bytes of the range, in order. -/
theorem pieces_spec (hfl : size ≤ fuel) (hrn : offset + size ≤ mdl.pages.length * pageSize) :
    ∃ ps, mdl.pieces fuel offset size = some ps ∧ ps.flatMap Piece.locations = (range size).map fun k =>
        (mdl.pages.getD ((offset + k) / pageSize) 0, (offset + k) % pageSize) := by
  induction fuel generalizing offset size with
  | zero =>
    obtain rfl := Nat.le_zero.1 hfl
    exact ⟨[], rfl, rfl⟩
  | succ fuel ih =>
    by_cases hz : size = 0
    · subst hz
      exact ⟨[], rfl, rfl⟩
    · rw [pieces, if_neg hz]
      dsimp only
      generalize hn : (if size < pageSize - offset % pageSize then size
        else pageSize - offset % pageSize) = n
      have hmd := Nat.mod_lt offset (show 0 < pageSize by decide)
      have hdv := Nat.div_add_mod' offset pageSize
      have hb : 0 < n ∧ n ≤ size ∧ offset % pageSize + n ≤ pageSize := by
        split at hn <;> omega
      have hx : offset / pageSize < mdl.pages.length := by
        rw [Nat.div_lt_iff_lt_mul (by decide)]
        omega
      obtain ⟨ps, hps, hc⟩ := @ih (offset + n) (size - n) (by omega) (by omega)
      rw [getElem?_eq_getElem hx, Option.bind_some, hps, Option.map_some]
      refine ⟨_, rfl, ?_⟩
      have hsize : range size = range n ++ (range (size - n)).map (n + ·) := by
        rw [← range_add, Nat.add_sub_cancel' hb.2.1]
      rw [flatMap_cons, hc, hsize, map_append, map_map]
      refine congrArg₂ _ (map_congr_left fun k hk => ?_) (map_congr_left fun k _ => ?_)
      · have hk : k < n := mem_range.1 hk
        have hsm : (offset + k) / pageSize = offset / pageSize :=
          Nat.div_eq_of_lt_le (by omega) (by rw [Nat.add_mul, Nat.one_mul]; omega)
        have hp := Nat.div_add_mod' (offset + k) pageSize
        rw [hsm] at hp ⊢
        rw [getD_eq_getElem?_getD, getElem?_eq_getElem hx, Option.getD_some]
        exact Prod.ext rfl (by dsimp only; omega)
      · dsimp only [Function.comp]
        rw [Nat.add_assoc]

theorem length_locations (p : Piece) : p.locations.length = p.amount := by
  rw [Piece.locations, length_map, length_range]

theorem copyInto_eq {src : List UInt8} (hlength : (ps.flatMap Piece.locations).length = src.length) :
    copyInto mem ps src = storeAll mem ((ps.flatMap Piece.locations).zip src) := by
  induction ps generalizing mem src with
  | nil => rfl
  | cons p ps ih =>
    rw [flatMap_cons, length_append, length_locations] at hlength
    have htk : p.locations.length = (src.take p.amount).length := by
      rw [length_locations, length_take]
      omega
    rw [copyInto, ih (by rw [length_drop]; omega), storeAll, storeAll, storeAll, ← foldl_append,
      ← zip_append htk, take_append_drop, flatMap_cons]

theorem setInto_eq {toSet : UInt8} :
    setInto toSet mem ps = copyInto mem ps (replicate (ps.flatMap Piece.locations).length toSet) := by
  induction ps generalizing mem with
  | nil => rfl
  | cons p ps ih =>
    rw [setInto, foldl_cons, ← setInto, ih, copyInto, flatMap_cons, length_append, length_locations,
      take_replicate, drop_replicate, Nat.min_eq_left (Nat.le_add_right ..), Nat.add_sub_cancel_left]

end Mdl

theorem storeAll_apply (sto : List (Location × UInt8)) (l : Location) :
    storeAll mem sto l = (lastStored sto l).getD (mem l) := by
  induction sto using List.reverseRecOn with
  | nil => rfl
  | append_singleton sto s ih =>
    rw [storeAll, foldl_append, foldl_cons, foldl_nil, ← storeAll, lastStored, reverse_append,
      reverse_singleton, singleton_append, find?_cons]
    by_cases hs : s.1 = l
    · subst hs
      rw [update_self, decide_eq_true rfl]
      rfl
    · rw [update_of_ne (Ne.symm hs), decide_eq_false hs, ih]
      rfl

end

/-! ## The calls -/

section

variable {mdl : Mdl} {mem : Location → UInt8}

theorem Mdl.Filled.pieces (h : mdl.Filled) {offset size : Nat} (hrn : offset + size ≤ mdl.byteCount) :
    ∃ ps, mdl.pieces size (offset + mdl.byteOffset) size = some ps ∧
      ps.flatMap Piece.locations = mdl.locations offset size := by
  have hle := h.bytes_le
  obtain ⟨ps, hp, hc⟩ := @Mdl.pieces_spec mdl size (offset + mdl.byteOffset) size le_rfl (by omega)
  refine ⟨ps, hp, hc.trans (map_congr_left fun k _ => ?_)⟩
  rw [location, Nat.add_right_comm]

theorem CopyCall.run_eq (h : mdl.Filled) (c : CopyCall)
    (hrn : c.offset + c.bytes.length ≤ mdl.byteCount) :
    c.run mdl mem = some (storeAll mem ((mdl.locations c.offset c.bytes.length).zip c.bytes)) := by
  obtain ⟨ps, hp, hc⟩ := h.pieces hrn
  have hlength : (ps.flatMap Piece.locations).length = c.bytes.length := by
    rw [hc, Mdl.locations, length_map, length_range]
  cases c with
  | copyInto offset src =>
    dsimp only [CopyCall.offset, bytes] at *
    rw [run, Mdl.mmCopyIntoMdl, hp, Option.map_some, Mdl.copyInto_eq hlength, hc]
  | setInto offset toSet size =>
    dsimp only [CopyCall.offset, bytes] at *
    rw [length_replicate] at *
    rw [run, Mdl.mmSetIntoMdl, hp, Option.map_some, Mdl.setInto_eq, hlength,
      Mdl.copyInto_eq (by rw [hlength, length_replicate]), hc]

/-- **Calls on a filled MDL that stay within it return and store at no other byte; then a copy out of
it returns the byte that was last stored at each place, or the one that was there before.** -/
theorem copies_right (h : mdl.Filled) {calls : List CopyCall}
    (hcls : ∀ c ∈ calls, c.offset + c.bytes.length ≤ mdl.byteCount) :
    ∃ mem', calls.foldlM (CopyCall.run mdl) mem = some mem' ∧
      (∀ l, l ∉ (mdl.stores calls).map (·.1) → mem' l = mem l) ∧
      ∀ offset size, offset + size ≤ mdl.byteCount → mdl.mmCopyFromMdl offset size mem'
        = some ((mdl.locations offset size).map fun l =>
          (lastStored (mdl.stores calls) l).getD (mem l)) := by
  have hru : calls.foldlM (CopyCall.run mdl) mem = some (storeAll mem (mdl.stores calls)) := by
    induction calls generalizing mem with
    | nil => rfl
    | cons c calls ih =>
      have hst : mdl.stores (c :: calls)
          = (mdl.locations c.offset c.bytes.length).zip c.bytes ++ mdl.stores calls := flatMap_cons
      rw [foldlM_cons, CopyCall.run_eq h c (hcls c mem_cons_self), Option.bind_eq_bind,
        Option.bind_some, ih fun c hc => hcls c (mem_cons_of_mem _ hc), hst, storeAll, storeAll,
        storeAll, foldl_append]
  refine ⟨_, hru, fun l hl => ?_, fun offset size hrn => ?_⟩
  · have hnn : lastStored (mdl.stores calls) l = none := by
      rw [lastStored, Option.map_eq_none_iff, find?_eq_none]
      intro s hs
      rw [decide_eq_true_eq]
      exact fun heq => hl (mem_map.2 ⟨s, mem_reverse.1 hs, heq⟩)
    rw [storeAll_apply, hnn, Option.getD_none]
  · obtain ⟨ps, hp, hlc⟩ := h.pieces hrn
    rw [Mdl.mmCopyFromMdl, hp, Option.map_some, Mdl.copyFrom, ← map_flatMap, hlc]
    exact congrArg some (map_congr_left fun l _ => storeAll_apply ..)

/-- A buffer of two bytes across the end of a page, in one frame twice. -/
theorem copies_right_alias : ∃ mem', [CopyCall.copyInto 0 [7, 8]].foldlM
        (CopyCall.run ⟨0xFFF, 2, 0x10000, 0, true, false, false, true, [5, 5]⟩) (fun _ => 0) = some mem' ∧
      mem' (5, 0xFFF) = 7 ∧ mem' (5, 0) = 8 := by
  have hfl : Mdl.Filled ⟨0xFFF, 2, 0x10000, 0, true, false, false, true, [5, 5]⟩ :=
    @Mdl.Filled.allocated 0x10FFF 2 true ⟨0xFFF, 2, 0x10000, 0, false, false, false, true, [0, 0]⟩ _ rfl rfl
  obtain ⟨mem', hrn, -, hread⟩ := @copies_right _ (fun _ => 0) hfl [.copyInto 0 [7, 8]] (by decide)
  refine ⟨mem', hrn, ?_⟩
  cases hrn.symm.trans (CopyCall.run_eq hfl (.copyInto 0 [7, 8]) (by decide))
  decide

end

end Boron.Mm.Amd64
