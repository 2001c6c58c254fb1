import Boron.Rtl.Elf
import Mathlib.Data.List.Flatten

/-! # Constructors and destructors (`libboron/init.c`, `rtl/elf.c`)

`RtlParseDynamicTable` keeps the sizes of the init and fini arrays as they stand in the dynamic table,
in bytes. The loops that call the arrays count up to the size in steps of a word, and use the count as
an index into an array of words: beyond the first entry they are behind the array before they are done
(`constructors_right_iff`). -/

namespace Boron.Os

open List Option

open Boron.Rtl (Target Word)

variable {t : Target}

/-! ## The dynamic table -/

/-- The tags that matter here. -/
inductive DynTag
  | init
  | fini
  | initArray
  | finiArray
  | initArraySz
  | finiArraySz
  /-- Any other but `DYN_NULL`. -/
  | other (tag : Nat)
  deriving DecidableEq

/-- `ELF_DYNAMIC_ITEM`. -/
structure DynamicItem (t : Target) where
  tag : DynTag
  value : Word t

/-- An array of functions and its size; the array is at address zero if there is none. -/
structure FuncTable (t : Target) where
  table : Word t
  size : Word t
  deriving DecidableEq

/-- `ELF_DYNAMIC_INFO`, as far as it has to do with constructors. -/
structure DynamicInfo (t : Target) where
  init : Word t
  fini : Word t
  initTable : FuncTable t
  finiTable : FuncTable t

/-- The loop body of `RtlParseDynamicTable`. -/
def parseDynamicItem (loadBase : Word t) (info : DynamicInfo t) (item : DynamicItem t) :
    DynamicInfo t :=
  match item.tag with
  | .init => { info with init := loadBase + item.value }
  | .fini => { info with fini := loadBase + item.value }
  | .initArray => { info with initTable := { info.initTable with table := loadBase + item.value } }
  | .finiArray => { info with finiTable := { info.finiTable with table := loadBase + item.value } }
  | .initArraySz => { info with initTable := { info.initTable with size := item.value } }
  | .finiArraySz => { info with finiTable := { info.finiTable with size := item.value } }
  | .other _ => info

/-- `RtlParseDynamicTable`, for the items before `DYN_NULL`. -/
def rtlParseDynamicTable (items : List (DynamicItem t)) (loadBase : Word t) : DynamicInfo t :=
  items.foldl (parseDynamicItem loadBase) ⟨0, 0, ⟨0, 0⟩, ⟨0, 0⟩⟩

/-- `LOADED_IMAGE`. -/
structure MappedImage (t : Target) where
  imageBase : Word t
  dynamicItems : List (DynamicItem t)

def MappedImage.dynamicInfo (image : MappedImage t) : DynamicInfo t :=
  rtlParseDynamicTable image.dynamicItems image.imageBase

/-! ## The loops -/

/-- `sizeof(uintptr_t)`. -/
def wordBytes (t : Target) : Word t := BitVec.ofNat _ t.wordBytes

/-- What the loader does: it reads the entry of an array with an index, or calls a function. -/
inductive Access (t : Target)
  | read (array : FuncTable t) (index : Word t)
  | call (function : Word t)
  deriving DecidableEq

/-- A function is called if it is not null. -/
def callOf (function : Word t) : List (Access t) :=
  if function ≠ 0 then [.call function] else []

/-- The loop over a table, from the count `i` on. `none`: it is not done within so many turns. -/
def callTable (memory : Word t → Word t) (array : FuncTable t) :
    (fuel : Nat) → (i : Word t) → Option (List (Access t))
  | 0, _ => none
  | fuel + 1, i =>
    if i < array.size then
      let entry := memory (array.table + i * wordBytes t)
      (callTable memory array fuel (i + wordBytes t)).map fun rest =>
        .read array i :: callOf entry ++ rest
    else some []

/-- What is done for one image: its function, if it has one, and then its table. -/
def callImage (memory : Word t → Word t) (fuel : Nat) (function : Word t) (array : FuncTable t) :
    Option (List (Access t)) :=
  if array.table ≠ 0 then (callTable memory array fuel 0).map (callOf function ++ ·)
  else some (callOf function)

/-- The loops over `OSDllsLoaded`, in the given order. -/
def callImages (memory : Word t → Word t) (fuel : Nat) (function : DynamicInfo t → Word t)
    (array : DynamicInfo t → FuncTable t) : List (MappedImage t) → Option (List (Access t))
  | [] => some []
  | image :: images =>
    (callImage memory fuel (function image.dynamicInfo) (array image.dynamicInfo)).bind fun accesses =>
      (callImages memory fuel function array images).map (accesses ++ ·)

/-- `OSDLLRunSharedObjectInit`, which goes backwards. -/
def osDLLRunSharedObjectInit (memory : Word t → Word t) (fuel : Nat) (images : List (MappedImage t)) :
    Option (List (Access t)) :=
  callImages memory fuel DynamicInfo.init DynamicInfo.initTable images.reverse

def osDLLDestroySharedObjects (memory : Word t → Word t) (fuel : Nat) (images : List (MappedImage t)) :
    Option (List (Access t)) :=
  callImages memory fuel DynamicInfo.fini DynamicInfo.finiTable images

/-! ## What is asked for -/

/-- The entries of an array: as many as there are whole words in its bytes. -/
def FuncTable.entries (memory : Word t → Word t) (array : FuncTable t) : List (Word t) :=
  if array.table ≠ 0 then
    (List.range (array.size.toNat / t.wordBytes)).map fun k =>
      memory (array.table + BitVec.ofNat _ (k * t.wordBytes))
  else []

/-- The functions that are to be called for an image. -/
def functionsOf (memory : Word t → Word t) (function : Word t) (array : FuncTable t) :
    List (Word t) :=
  (function :: array.entries memory).filter (· ≠ 0)

/-- The functions that were called. -/
def Access.called : Access t → Option (Word t)
  | .read _ _ => none
  | .call function => some function

/-- Only words within the bytes of an array are read. -/
def Access.Inside : Access t → Prop
  | .read array index => index.toNat * t.wordBytes + t.wordBytes ≤ array.size.toNat
  | .call _ => True

/-- The run ends; each function of each image is called once, in this order of the images, and no word
outside an array is read. -/
def Right (run : (Word t → Word t) → Nat → Option (List (Access t)))
    (function : DynamicInfo t → Word t) (array : DynamicInfo t → FuncTable t)
    (images : List (MappedImage t)) : Prop :=
  ∀ memory, ∃ fuel accesses, run memory fuel = some accesses
    ∧ accesses.filterMap Access.called = images.flatMap (fun image =>
        functionsOf memory (function image.dynamicInfo) (array image.dynamicInfo))
    ∧ ∀ access ∈ accesses, access.Inside

/-- There is no array, or it has no entry, or one. -/
def FuncTable.Short (array : FuncTable t) : Prop :=
  array.table = 0 ∨ array.size = 0 ∨ array.size = wordBytes t

instance (array : FuncTable t) : Decidable array.Short := inferInstanceAs (Decidable (_ ∨ _))

/-! ## Short arrays -/

variable {memory : Word t → Word t} {function : Word t} {array : FuncTable t}

theorem wordBytes_toNat (t : Target) : (wordBytes t).toNat = t.wordBytes := by
  cases t <;> rfl

theorem callOf_called (function : Word t) :
    (callOf function).filterMap Access.called = [function].filter (· ≠ 0) := by
  unfold callOf
  by_cases hnl : function = 0
  · rw [if_neg (not_not.2 hnl), filter_cons_of_neg (by simpa using hnl)]
    rfl
  · rw [if_pos hnl, filter_cons_of_pos (by simpa using hnl)]
    rfl

theorem callOf_inside (function : Word t) : ∀ acc ∈ callOf function, acc.Inside := by
  intro acc hme
  unfold callOf at hme
  split at hme
  · rw [mem_singleton.1 hme]
    trivial
  · cases hme

/-- With at most one entry the loop is right. -/
theorem callTable_short (memory : Word t → Word t) (h : array.size = 0 ∨ array.size = wordBytes t) :
    ∃ accesses, callTable memory array 3 0 = some accesses ∧ accesses.filterMap Access.called
        = ((List.range (array.size.toNat / t.wordBytes)).map fun k =>
            memory (array.table + BitVec.ofNat _ (k * t.wordBytes))).filter (· ≠ 0)
      ∧ ∀ acc ∈ accesses, acc.Inside := by
  rcases h with hsize | hsize
  · refine ⟨[], ?_, ?_, nofun⟩
    · rw [callTable, hsize, if_neg (by cases t <;> decide)]
    · rw [hsize]
      simp
  · have hon : array.size.toNat / t.wordBytes = 1 := by
      rw [hsize, wordBytes_toNat, Nat.div_self t.wordBytes_pos]
    have hz : (0 : Word t) < array.size := by
      rw [hsize]
      cases t <;> decide
    have hdn : ¬ (0 : Word t) + wordBytes t < array.size := by
      rw [hsize]
      cases t <;> decide
    have he : array.table + (0 : Word t) * wordBytes t = array.table := by simp
    refine ⟨.read array 0 :: callOf (memory array.table), ?_, ?_, ?_⟩
    · rw [callTable, if_pos hz, callTable, if_neg hdn, he]
      simp
    · rw [filterMap_cons_none rfl, callOf_called, hon]
      simp
    · intro acc hme
      rcases mem_cons.1 hme with rfl | hme
      · change (0 : Word t).toNat * t.wordBytes + t.wordBytes ≤ array.size.toNat
        rw [hsize, wordBytes_toNat]
        simp
      · exact callOf_inside _ acc hme

theorem callImage_short (memory : Word t → Word t) (function : Word t) (h : array.Short) :
    ∃ accesses, callImage memory 3 function array = some accesses
      ∧ accesses.filterMap Access.called = functionsOf memory function array
      ∧ ∀ acc ∈ accesses, acc.Inside := by
  unfold callImage functionsOf FuncTable.entries
  by_cases hnl : array.table = 0
  · rw [if_neg (not_not.2 hnl), if_neg (not_not.2 hnl)]
    exact ⟨_, rfl, callOf_called function, callOf_inside function⟩
  · rw [if_pos hnl, if_pos hnl]
    obtain ⟨accesses, hrn, hc, hin⟩ := callTable_short memory (h.resolve_left hnl)
    rw [hrn]
    refine ⟨_, rfl, ?_, ?_⟩
    · rw [filterMap_append, callOf_called, hc, ← filter_append, singleton_append]
    · intro acc hme
      exact (mem_append.1 hme).elim (callOf_inside function acc) (hin acc)

/-! ## Longer ones -/

variable {fuel : Nat} {accesses : List (Access t)}

/-- From the second turn on the last word that is read is behind the array. -/
theorem callTable_outside {i : Word t}
    (hrn : callTable memory array fuel i = some accesses) (hi : t.wordBytes ≤ i.toNat)
    (hlt : i < array.size) : ∃ acc ∈ accesses, ¬ acc.Inside := by
  induction fuel generalizing i accesses with
  | zero => cases hrn
  | succ fuel ih =>
    have hb : 4 ≤ t.wordBytes := by cases t <;> decide
    rw [callTable, if_pos hlt] at hrn
    obtain ⟨rest, hrs, rfl⟩ := map_eq_some_iff.1 hrn
    by_cases hnext : i.toNat + t.wordBytes < array.size.toNat
    · have hsm : (i + wordBytes t).toNat = i.toNat + t.wordBytes := by
        rw [BitVec.toNat_add, wordBytes_toNat]
        exact Nat.mod_eq_of_lt (hnext.trans array.size.isLt)
      obtain ⟨acc, hme, hot⟩ := ih hrs (by omega) (by
        change (i + wordBytes t).toNat < array.size.toNat
        omega)
      exact ⟨acc, mem_append_right _ hme, hot⟩
    · refine ⟨.read array i, mem_cons_self, fun hin => ?_⟩
      have hin : i.toNat * t.wordBytes + t.wordBytes ≤ array.size.toNat := hin
      have hml : i.toNat * 2 ≤ i.toNat * t.wordBytes := Nat.mul_le_mul_left _ (by omega)
      omega

theorem callImage_outside
    (hrn : callImage memory fuel function array = some accesses) (h : ¬ array.Short) :
    ∃ access ∈ accesses, ¬ access.Inside := by
  unfold FuncTable.Short at h
  obtain ⟨hb, hz, hon⟩ : array.table ≠ 0 ∧ array.size ≠ 0 ∧ array.size ≠ wordBytes t := by
    simpa only [not_or] using h
  unfold callImage at hrn
  rw [if_pos hb] at hrn
  obtain ⟨rest, hrs, rfl⟩ := map_eq_some_iff.1 hrn
  suffices h : ∃ access ∈ rest, ¬ access.Inside by
    obtain ⟨access, hme, hot⟩ := h
    exact ⟨access, mem_append_right _ hme, hot⟩
  have hsize : 0 < array.size.toNat := Nat.pos_of_ne_zero fun h => hz (BitVec.eq_of_toNat_eq h)
  have hpos : (0 : Word t) < array.size := by
    change (0 : Word t).toNat < array.size.toNat
    simpa using hsize
  cases fuel with
  | zero => cases hrs
  | succ fuel =>
    rw [callTable, if_pos hpos] at hrs
    obtain ⟨later, hltr, rfl⟩ := map_eq_some_iff.1 hrs
    rcases Nat.lt_or_ge array.size.toNat t.wordBytes with hsl | hlr
    · refine ⟨.read array 0, mem_cons_self, fun hin => ?_⟩
      have hin : (0 : Word t).toNat * t.wordBytes + t.wordBytes ≤ array.size.toNat := hin
      omega
    · have hlt : t.wordBytes < array.size.toNat := by
        refine lt_of_le_of_ne hlr fun heq => hon (BitVec.eq_of_toNat_eq ?_)
        rw [wordBytes_toNat, heq]
      have hsm : (0 + wordBytes t : Word t).toNat = t.wordBytes := by
        rw [show (0 : Word t) + wordBytes t = wordBytes t from BitVec.zero_add _, wordBytes_toNat]
      obtain ⟨access, hme, hot⟩ := callTable_outside hltr hsm.ge (by
        change (0 + wordBytes t : Word t).toNat < array.size.toNat
        omega)
      exact ⟨access, mem_append_right _ hme, hot⟩

/-! ## All images -/

variable {field : DynamicInfo t → Word t} {table : DynamicInfo t → FuncTable t}

variable {ima : List (MappedImage t)}

theorem callImages_short (field : DynamicInfo t → Word t) (memory : Word t → Word t)
    (h : ∀ image ∈ ima, (table image.dynamicInfo).Short) :
    ∃ accesses, callImages memory 3 field table ima = some accesses
      ∧ accesses.filterMap Access.called = ima.flatMap (fun image =>
        functionsOf memory (field image.dynamicInfo) (table image.dynamicInfo))
      ∧ ∀ acc ∈ accesses, acc.Inside := by
  induction ima with
  | nil => exact ⟨[], rfl, rfl, nofun⟩
  | cons image ima ih =>
    obtain ⟨accesses, hrn, hc, hin⟩ :=
      callImage_short memory (field image.dynamicInfo) (h image (by simp))
    obtain ⟨rest, hrs, hc', hin'⟩ := ih fun image hme => h image (by simp [hme])
    refine ⟨accesses ++ rest, ?_, ?_, ?_⟩
    · rw [callImages, hrn, bind_some, hrs, map_some]
    · rw [filterMap_append, hc, hc', flatMap_cons]
    · intro acc hme
      exact (mem_append.1 hme).elim (hin acc) (hin' acc)

theorem callImages_outside (hrn : callImages memory fuel field table ima = some accesses)
    (h : ∃ image ∈ ima, ¬ (table image.dynamicInfo).Short) :
    ∃ acc ∈ accesses, ¬ acc.Inside := by
  induction ima generalizing accesses with
  | nil => simp at h
  | cons image ima ih =>
    obtain ⟨first, hfs, hrn⟩ := bind_eq_some_iff.1 hrn
    obtain ⟨rest, hrs, rfl⟩ := map_eq_some_iff.1 hrn
    obtain ⟨image', hme, hln⟩ := h
    rcases mem_cons.1 hme with rfl | hme
    · obtain ⟨acc, hme, hot⟩ := callImage_outside hfs hln
      exact ⟨acc, mem_append_left _ hme, hot⟩
    · obtain ⟨acc, hme, hot⟩ := ih hrs ⟨image', hme, hln⟩
      exact ⟨acc, mem_append_right _ hme, hot⟩

theorem callImages_right_iff (ima : List (MappedImage t)) :
    Right (fun memory fuel => callImages memory fuel field table ima) field table ima ↔
      ∀ image ∈ ima, (table image.dynamicInfo).Short := by
  constructor
  · intro h
    by_contra hln
    obtain ⟨fuel, accesses, hrn, -, hin⟩ := h fun _ => 0
    obtain ⟨acc, hme, hot⟩ := callImages_outside hrn (by simpa using hln)
    exact hot (hin acc hme)
  · intro h memory
    obtain ⟨accesses, hrn, hrg⟩ := callImages_short field memory h
    exact ⟨3, accesses, hrn, hrg⟩

/-- **The constructors of all images are called as they are to be just if no image has an init array of
other than no or one entry, and the destructors just if none has such a fini array.** -/
theorem constructors_right_iff (images : List (MappedImage t)) :
    (Right (fun memory fuel => osDLLRunSharedObjectInit memory fuel images) DynamicInfo.init
        DynamicInfo.initTable images.reverse ↔
      ∀ image ∈ images, image.dynamicInfo.initTable.Short)
    ∧ (Right (fun memory fuel => osDLLDestroySharedObjects memory fuel images) DynamicInfo.fini
        DynamicInfo.finiTable images ↔
      ∀ image ∈ images, image.dynamicInfo.finiTable.Short) := by
  refine ⟨?_, callImages_right_iff images⟩
  refine (callImages_right_iff images.reverse).trans ?_
  simp only [mem_reverse]

/-- An image with two constructors. -/
def twoConstructors : MappedImage .amd64 where
  imageBase := 0x1000
  dynamicItems := [⟨.initArray, 0x100⟩, ⟨.initArraySz, 16⟩]

/-- The entry with the index 8 is read, and the one with the index 1 is not. -/
theorem constructors_behind_array : ¬ ∀ (images : List (MappedImage .amd64)),
      Right (fun memory fuel => osDLLRunSharedObjectInit memory fuel images) DynamicInfo.init
        DynamicInfo.initTable images.reverse := by
  intro h
  obtain ⟨fuel, accesses, hrn, -, hin⟩ := h [twoConstructors] fun _ => 0
  obtain ⟨access, hme, hot⟩ := callImages_outside hrn ⟨twoConstructors, by simp, by decide⟩
  exact hot (hin access hme)

end Boron.Os
