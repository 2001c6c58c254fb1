import Boron.Rtl.Reloc

/-! # Symbol lookup

`OSDLLGetProcedureAddress` asks the loaded images in load order for a name. In each it follows the
chain of the name's bucket in the image's hash table and takes the first entry of that name. The
hash table is read before the test that there is one, so an image without one faults. An entry that
only imports the name is taken as well: its address is the image base, and the search goes on only
when that is zero. -/

namespace Boron.Os

open List Option

open Boron.Rtl

variable {t : Target}

/-! ## The hash function -/

/-- One turn of the loop of `RtlElfHash`. -/
def hashTurn (h : BitVec 32) (c : BitVec 8) : BitVec 32 :=
  let h := (h <<< 4) + c.setWidth 32
  let g := h &&& 0xF0000000#32
  let h := if g ≠ 0 then h ^^^ (g >>> 24) else h
  h &&& ~~~g

def rtlElfHash (name : CString) : BitVec 32 := name.foldl hashTurn 0

/-- The hash function of the System V ABI, which linkers build the tables with: shift a character in
and fold the bits above the 28th back into the second half of the lowest byte. -/
def sysvHash (name : CString) : Nat :=
  name.foldl (fun h c =>
    let x := (16 * h + c.toNat) % 2 ^ 32
    (x % 2 ^ 28) ^^^ (x / 2 ^ 28 * 16)) 0

/-! ## The lookup -/

/-- What the lookup reads of a `LOADED_IMAGE`. -/
structure LoadedImage (t : Target) where
  imageBase : Word t
  dynamicInfo : ElfDynamicInfo t

namespace LoadedImage

def symbol (image : LoadedImage t) (i : Nat) : ElfSymbol t := image.dynamicInfo.dynSymTable i

/-- `DynStrTable + Symbol->Name`. -/
def symbolName (image : LoadedImage t) (i : Nat) : CString :=
  image.dynamicInfo.dynStrTable (image.symbol i).name

/-- The address of a symbol of the image. -/
def address (image : LoadedImage t) (i : Nat) : Word t := image.imageBase + (image.symbol i).value

end LoadedImage

/-- `Chains[i]`. -/
def chain (h : ElfHashTable) (i : Nat) : Nat := h.data (h.bucketCount + i)

/-- The loop over a chain: the entry with the name, if there is one. `none`: still running after
`fuel` turns. -/
def walkChain (image : LoadedImage t) (h : ElfHashTable) (procName : CString) :
    (fuel symbolIndex : Nat) → Option (Option Nat)
  | 0, _ => none
  | fuel + 1, symbolIndex =>
    if symbolIndex = 0 then some none
    else if image.symbolName symbolIndex = procName then some (some symbolIndex)
    else walkChain image h procName fuel (chain h symbolIndex)

/-- How a lookup ends: it faults on a NULL pointer, or returns an address, which may be 0. -/
inductive Lookup (t : Target)
  | fault
  | address (a : Word t)

def osdllGetProcedureAddressInModule (fuel : Nat) (image : LoadedImage t) (procName : CString) :
    Option (Lookup t) :=
  match image.dynamicInfo.hashTable with
  | none => some .fault -- `Chains` is computed from `HashTable->BucketCount` first
  | some h =>
    if h.bucketCount = 0 then some (.address 0)
    else
      (walkChain image h procName fuel
        (h.data ((rtlElfHash procName).toNat % h.bucketCount))).map fun found =>
          .address (found.elim 0 image.address)

/-- `OSDLLGetProcedureAddress`, over the images in load order. -/
def osdllGetProcedureAddress (fuel : Nat) (procName : CString) :
    List (LoadedImage t) → Option (Lookup t)
  | [] => some (.address 0)
  | image :: images =>
    match osdllGetProcedureAddressInModule fuel image procName with
    | none => none
    | some .fault => some .fault
    | some (.address a) =>
      if a ≠ 0 then some (.address a) else osdllGetProcedureAddress fuel procName images

/-! ## Well-formed tables and what a lookup should find -/

/-- The chain from an index on, up to the end mark. -/
def ChainFrom (h : ElfHashTable) : Nat → List Nat → Prop
  | i, [] => i = 0
  | i, j :: rest => i = j ∧ j ≠ 0 ∧ ChainFrom h (chain h j) rest

/-- A hash table as linkers build it: the chain of each bucket ends, and on it are the symbols whose
names hash to it. A symbol table has one entry for a name. -/
structure WellFormed (image : LoadedImage t) (h : ElfHashTable) : Prop where
  chains : ∀ b < h.bucketCount, ∃ l, ChainFrom h (h.data b) l ∧
    ∀ i, i ∈ l ↔ (0 < i ∧ i < h.chainCount) ∧ sysvHash (image.symbolName i) % h.bucketCount = b
  bucket : ∀ i, 0 < i → i < h.chainCount → 0 < h.bucketCount
  unique : ∀ i j, 0 < i → i < h.chainCount → 0 < j → j < h.chainCount →
    image.symbolName i = image.symbolName j → i = j

/-- The linear scan of the symbol table for a name. -/
def scan (image : LoadedImage t) (h : ElfHashTable) (procName : CString) : Option Nat :=
  (List.range h.chainCount).find? fun i => 0 < i ∧ image.symbolName i = procName

/-- The entry of a name in an image. -/
def entry (image : LoadedImage t) (procName : CString) : Option Nat :=
  image.dynamicInfo.hashTable.bind fun h => scan image h procName

/-- An entry that defines its symbol, not one that imports it. -/
def Defined (image : LoadedImage t) (i : Nat) : Prop := (image.symbol i).sectionHeaderIndex ≠ 0

instance (image : LoadedImage t) (i : Nat) : Decidable (Defined image i) :=
  inferInstanceAs (Decidable (_ ≠ _))

/-- The address of the name's definition in the first image that defines it, or 0. -/
def definitionAddress (procName : CString) : List (LoadedImage t) → Word t
  | [] => 0
  | image :: images =>
    match entry image procName with
    | some i => if Defined image i then image.address i else definitionAddress procName images
    | none => definitionAddress procName images

/-! ## The hash functions agree -/

theorem fold_top_bits (x : BitVec 32) :
    (x ^^^ (x &&& 0xF0000000#32) >>> 24) &&& ~~~(x &&& 0xF0000000#32)
      = (x &&& 0x0FFFFFFF#32) ^^^ (x >>> 28) <<< 4 := by
  have hp : ∀ i < 32, (0xF0000000#32).getLsbD i = decide (28 ≤ i) := by decide
  have hw : ∀ i < 32, (0x0FFFFFFF#32).getLsbD i = decide (i < 28) := by decide
  apply BitVec.eq_of_getLsbD_eq
  intro i hi
  simp only [BitVec.getLsbD_and, BitVec.getLsbD_xor, BitVec.getLsbD_ushiftRight,
    BitVec.getLsbD_not, BitVec.getLsbD_shiftLeft, hp i hi, hw i hi, hi, decide_true,
    Bool.true_and]
  by_cases h8 : 24 + i < 32
  · have h28 : ¬ 28 ≤ i := by omega
    have h28' : i < 28 := by omega
    rw [hp _ h8]
    by_cases h4 : i < 4
    · have : ¬ 28 ≤ 24 + i := by omega
      simp [h4, h28, h28', this]
    · have : 28 ≤ 24 + i := by omega
      have hx : 28 + (i - 4) = 24 + i := by omega
      simp [h4, h28, h28', this, hx]
  · have hot : x.getLsbD (24 + i) = false := BitVec.getLsbD_of_ge _ _ (by omega)
    have hx : 28 + (i - 4) = 24 + i := by omega
    have h4 : ¬ i < 4 := by omega
    by_cases h28 : i < 28
    · have : ¬ 28 ≤ i := by omega
      simp [hot, hx, h4, h28, this]
    · have : 28 ≤ i := by omega
      simp [hot, hx, h4, h28, this]

theorem toNat_hashTurn (h : BitVec 32) (c : BitVec 8) :
    (hashTurn h c).toNat = ((16 * h.toNat + c.toNat) % 2 ^ 32 % 2 ^ 28)
      ^^^ ((16 * h.toNat + c.toNat) % 2 ^ 32 / 2 ^ 28 * 16) := by
  have hx : ((h <<< 4) + c.setWidth 32).toNat = (16 * h.toNat + c.toNat) % 2 ^ 32 := by
    rw [BitVec.toNat_add, BitVec.toNat_shiftLeft, BitVec.toNat_setWidth, Nat.shiftLeft_eq]
    omega
  generalize hgn : (h <<< 4) + c.setWidth 32 = x at hx
  have htr : hashTurn h c = (x &&& 0x0FFFFFFF#32) ^^^ (x >>> 28) <<< 4 := by
    rw [← fold_top_bits, hashTurn, hgn]
    split
    · rfl
    · next hg =>
        rw [not_not] at hg
        rw [hg]
        simp
  have hw : (x &&& 0x0FFFFFFF#32).toNat = x.toNat % 2 ^ 28 := by
    rw [BitVec.toNat_and]
    exact Nat.and_two_pow_sub_one_eq_mod x.toNat 28
  rw [htr, BitVec.toNat_xor, hw, BitVec.toNat_shiftLeft, BitVec.toNat_ushiftRight, ← hx,
    Nat.shiftLeft_eq, Nat.shiftRight_eq_div_pow]
  congr 1
  omega

theorem toNat_rtlElfHash (name : CString) : (rtlElfHash name).toNat = sysvHash name := by
  unfold rtlElfHash sysvHash
  have hfl : ∀ (h : BitVec 32), (name.foldl hashTurn h).toNat = name.foldl (fun h c =>
      let x := (16 * h + c.toNat) % 2 ^ 32
      (x % 2 ^ 28) ^^^ (x / 2 ^ 28 * 16)) h.toNat := by
    induction name with
    | nil => exact fun _ => rfl
    | cons c name ih =>
      intro h
      rw [foldl_cons, foldl_cons, ih, toNat_hashTurn]
  exact hfl 0

/-! ## The lookup in one image -/

variable {image : LoadedImage t} {h : ElfHashTable} {procName : CString}

variable {i : Nat}

/-- The walk over a chain that ends, given enough turns: the first entry of the chain with the
name. -/
theorem walkChain_eq {l : List Nat} (hl : ChainFrom h i l) {fuel : Nat} (hfl : l.length < fuel) :
    walkChain image h procName fuel i = some (l.find? fun j => image.symbolName j = procName) := by
  induction l generalizing i fuel with
  | nil =>
    obtain ⟨n, rfl⟩ : ∃ n, fuel = n + 1 := ⟨fuel - 1, by simp at hfl; omega⟩
    exact if_pos hl
  | cons j rest ih =>
    obtain ⟨rfl, hne, hrs⟩ := hl
    obtain ⟨n, rfl⟩ : ∃ n, fuel = n + 1 := ⟨fuel - 1, by simp at hfl; omega⟩
    rw [walkChain, if_neg hne, List.find?_cons]
    split
    · next hnm => simp [hnm]
    · next hnm =>
        simp only [hnm, decide_false]
        exact ih hrs (by simpa using hfl)

theorem scan_eq_some (h' : scan image h procName = some i) :
    0 < i ∧ i < h.chainCount ∧ image.symbolName i = procName := by
  have hme := mem_of_find?_eq_some h'
  have hp := List.find?_some h'
  simp only [decide_eq_true_eq] at hp
  exact ⟨hp.1, mem_range.1 hme, hp.2⟩

theorem scan_eq_none (h' : scan image h procName = none) (hi : 0 < i)
    (hlt : i < h.chainCount) : image.symbolName i ≠ procName := by
  have hp := List.find?_eq_none.1 h' i (mem_range.2 hlt)
  simp only [decide_eq_true_eq, not_and] at hp
  exact hp hi

variable (procName) in
/-- **The walk over the bucket of a name finds what the linear scan finds.** -/
theorem walkChain_eq_scan (hw : WellFormed image h) (hb : h.bucketCount ≠ 0) :
    ∃ n, ∀ fuel ≥ n, walkChain image h procName fuel
        (h.data ((rtlElfHash procName).toNat % h.bucketCount))
      = some (scan image h procName) := by
  rw [toNat_rtlElfHash]
  obtain ⟨l, hl, hme⟩ := hw.chains (sysvHash procName % h.bucketCount)
    (Nat.mod_lt _ (Nat.pos_of_ne_zero hb))
  refine ⟨l.length + 1, fun fuel hfl => ?_⟩
  rw [walkChain_eq hl hfl]
  congr 1
  cases hc : scan image h procName with
  | none =>
    rw [List.find?_eq_none]
    intro j hj
    obtain ⟨⟨hpos, hlt⟩, -⟩ := (hme j).1 hj
    simpa using scan_eq_none hc hpos hlt
  | some i =>
    obtain ⟨hpos, hlt, hnm⟩ := scan_eq_some hc
    have hin : i ∈ l := (hme i).2 ⟨⟨hpos, hlt⟩, by rw [hnm]⟩
    cases hfn : l.find? fun j => image.symbolName j = procName with
    | none =>
      have := List.find?_eq_none.1 hfn i hin
      simp [hnm] at this
    | some j =>
      obtain ⟨⟨hpos', hlt'⟩, -⟩ := (hme j).1 (mem_of_find?_eq_some hfn)
      have hnm' : image.symbolName j = procName := by simpa using List.find?_some hfn
      rw [hw.unique j i hpos' hlt' hpos hlt (hnm'.trans hnm.symm)]

theorem scan_eq_none_of_no_buckets (hw : WellFormed image h) (hb : h.bucketCount = 0) :
    scan image h procName = none := by
  cases hc : scan image h procName with
  | none => rfl
  | some i =>
    obtain ⟨hpos, hlt, -⟩ := scan_eq_some hc
    have := hw.bucket i hpos hlt
    omega

variable (procName) in
theorem inModule_eq (hw : WellFormed image h) (hh : image.dynamicInfo.hashTable = some h) :
    ∃ n, ∀ fuel ≥ n, osdllGetProcedureAddressInModule fuel image procName
      = some (.address ((entry image procName).elim 0 image.address)) := by
  have he : entry image procName = scan image h procName := by rw [entry, hh, bind_some]
  by_cases hb : h.bucketCount = 0
  · refine ⟨0, fun fuel _ => ?_⟩
    rw [he, scan_eq_none_of_no_buckets hw hb, osdllGetProcedureAddressInModule, hh]
    exact if_pos hb
  · obtain ⟨n, hn⟩ := walkChain_eq_scan procName hw hb
    refine ⟨n, fun fuel hfl => ?_⟩
    rw [osdllGetProcedureAddressInModule, hh]
    simp only [if_neg hb, hn fuel hfl, he, map_some]

/-! ## The lookup over the loaded images -/

/-- Every hash table among the images is well-formed; an image need not have one. -/
def AllWellFormed (images : List (LoadedImage t)) : Prop :=
  ∀ image ∈ images, ∀ h, image.dynamicInfo.hashTable = some h → WellFormed image h

/-- The lookup ends, with this outcome. -/
def Ends (images : List (LoadedImage t)) (procName : CString) (r : Lookup t) : Prop :=
  ∃ n, ∀ fuel ≥ n, osdllGetProcedureAddress fuel procName images = some r

/-- The address that an image has for a name, 0 if it has none. -/
def addressIn (image : LoadedImage t) (procName : CString) : Word t :=
  (entry image procName).elim 0 image.address

variable {r : Lookup t}

theorem ends_nil : Ends [] procName r ↔ r = .address 0 := by
  constructor
  · rintro ⟨n, hn⟩
    exact (some.inj (hn n (Nat.le_refl n))).symm
  · rintro rfl
    exact ⟨0, fun _ _ => rfl⟩

variable {images : List (LoadedImage t)}

theorem ends_cons_of_none
    (hh : image.dynamicInfo.hashTable = none) : Ends (image :: images) procName r ↔ r = .fault := by
  have hrn : ∀ fuel, osdllGetProcedureAddress fuel procName (image :: images) = some .fault := by
    intro fuel
    rw [osdllGetProcedureAddress, osdllGetProcedureAddressInModule, hh]
  constructor
  · rintro ⟨n, hn⟩
    exact (some.inj ((hrn n).symm.trans (hn n (Nat.le_refl n)))).symm
  · rintro rfl
    exact ⟨0, fun fuel _ => hrn fuel⟩

/-- An image with a hash table ends the lookup with its address for the name, unless this is 0. -/
theorem ends_cons (hw : WellFormed image h) (hh : image.dynamicInfo.hashTable = some h) :
    Ends (image :: images) procName r ↔ if addressIn image procName = 0 then Ends images procName r
        else r = .address (addressIn image procName) := by
  obtain ⟨n, hn⟩ := inModule_eq procName hw hh
  have hrn : ∀ fuel ≥ n, osdllGetProcedureAddress fuel procName (image :: images)
      = if addressIn image procName = 0 then osdllGetProcedureAddress fuel procName images
        else some (.address (addressIn image procName)) := by
    intro fuel hfl
    rw [osdllGetProcedureAddress, hn fuel hfl]
    by_cases hz : addressIn image procName = 0
    · rw [if_pos hz]
      exact if_neg (not_not.2 hz)
    · rw [if_neg hz]
      exact if_pos hz
  split
  · next hz =>
      simp only [if_pos hz] at hrn
      constructor
      · rintro ⟨k, hk⟩
        refine ⟨max n k, fun fuel hfl => ?_⟩
        rw [← hrn fuel (by omega)]
        exact hk fuel (by omega)
      · rintro ⟨k, hk⟩
        refine ⟨max n k, fun fuel hfl => ?_⟩
        rw [hrn fuel (by omega)]
        exact hk fuel (by omega)
  · next hne =>
      simp only [if_neg hne] at hrn
      constructor
      · rintro ⟨k, hk⟩
        have h1 := hrn (max n k) (by omega)
        have h2 := hk (max n k) (by omega)
        exact (some.inj (h1.symm.trans h2)).symm
      · rintro rfl
        exact ⟨n, hrn⟩

/-- No image has an address other than 0 for the name, and each has a hash table. -/
def NothingFound (procName : CString) (images : List (LoadedImage t)) : Prop :=
  ∀ image ∈ images, image.dynamicInfo.hashTable.isSome ∧ addressIn image procName = 0

theorem AllWellFormed.tail (hw : AllWellFormed (image :: images)) : AllWellFormed images :=
  fun image' him => hw image' (mem_cons_of_mem image him)

theorem ends_zero_iff (hw : AllWellFormed images) :
    Ends images procName (.address 0) ↔ NothingFound procName images := by
  induction images with
  | nil => simp [ends_nil, NothingFound]
  | cons image images ih =>
    have hp : NothingFound procName (image :: images)
        ↔ (image.dynamicInfo.hashTable.isSome ∧ addressIn image procName = 0)
          ∧ NothingFound procName images := forall_mem_cons
    rw [hp]
    cases hh : image.dynamicInfo.hashTable with
    | none => simp [ends_cons_of_none hh]
    | some h =>
      rw [ends_cons (hw image mem_cons_self h hh)  hh, ← ih hw.tail]
      split
      · next hz => simp [hz]
      · next hne =>
          refine iff_of_false (fun h0 => hne ?_) (fun h0 => hne h0.1.2)
          exact (Lookup.address.inj h0).symm

/-- The images in front of the first definition have hash tables and no address for the name, and
the definition has an address. (An imported entry in front of it does no harm either if its address
happens to be the one to be found, nor a definition at address 0 if nothing is found behind it.) -/
def Resolvable (procName : CString) : List (LoadedImage t) → Prop
  | [] => True
  | image :: images =>
    image.dynamicInfo.hashTable.isSome ∧
      match entry image procName with
      | none => Resolvable procName images
      | some i =>
        if Defined image i then image.address i = 0 → NothingFound procName images
        else if image.address i = 0 then Resolvable procName images
        else image.address i = definitionAddress procName images

/-- The lookup ends with the address of the first definition, or with 0 if there is none. -/
def FindsDefinition (images : List (LoadedImage t)) (procName : CString) : Prop :=
  Ends images procName (.address (definitionAddress procName images))

theorem findsDefinition_iff (hw : AllWellFormed images) :
    FindsDefinition images procName ↔ Resolvable procName images := by
  unfold FindsDefinition
  induction images with
  | nil => simp [ends_nil, definitionAddress, Resolvable]
  | cons image images ih =>
    rw [Resolvable]
    cases hh : image.dynamicInfo.hashTable with
    | none => simp [ends_cons_of_none hh]
    | some h =>
      rw [ends_cons (hw image mem_cons_self h hh) hh, addressIn, definitionAddress, ← ih hw.tail]
      cases he : entry image procName with
      | none => simp
      | some i =>
        simp only [elim_some, isSome_some, true_and]
        by_cases hdf : Defined image i
        · simp only [if_pos hdf]
          split
          · next hz =>
              rw [hz, ends_zero_iff hw.tail]
              simp
          · next hne => exact iff_of_true trivial (fun h0 => absurd h0 hne)
        · simp only [if_neg hdf]
          split
          · rfl
          · next hne => simp [eq_comm]

/-! ## Resolution by index -/

/-- Relocation by symbol index gives what lookup by name gives. -/
def ByIndexIsByName (l : Loader t) (dyn : ElfDynamicInfo t) (loadBase : Word t) (i : Int) : Prop :=
  rtlpResolveSymbolAddress l dyn i loadBase
    = .ok (l.lookUp (dyn.dynStrTable (dyn.dynSymTable i).name))

theorem byIndexIsByName_iff {l : Loader t} (hl : l.kernel = false) (dyn : ElfDynamicInfo t)
    (lb : Word t) (i : Int) :
    ByIndexIsByName l dyn lb i ↔ ((dyn.dynSymTable i).value ≠ 0 → lb + (dyn.dynSymTable i).value
        = l.lookUp (dyn.dynStrTable (dyn.dynSymTable i).name)) := by
  unfold ByIndexIsByName rtlpResolveSymbolAddress
  by_cases hvl : (dyn.dynSymTable i).value = 0
  · simp [hvl, hl]
  · rw [if_pos hvl]
    constructor
    · intro h _
      exact Except.ok.inj h
    · intro h
      rw [h hvl]

/-- For every list of loaded images and every name: the lookup in an image with a well-formed hash
table finds what the linear scan of its symbol table finds; the lookup over the images ends with the
first definition's address exactly when the images in front of it have hash tables and no address
for the name; and relocation by index of a symbol that the image imports gives what lookup by name
gives exactly when the entry's value is 0, or leads to the same address. -/
theorem symbol_resolution_iff (images : List (LoadedImage t)) (procName : CString)
    (hwf : AllWellFormed images) :
    (∀ image ∈ images, ∀ h, image.dynamicInfo.hashTable = some h → ∃ n, ∀ fuel ≥ n,
      osdllGetProcedureAddressInModule fuel image procName
        = some (.address ((scan image h procName).elim 0 image.address))) ∧
    (FindsDefinition images procName ↔ Resolvable procName images) ∧
    ∀ (l : Loader t) (dyn : ElfDynamicInfo t) (loadBase : Word t) (i : Int), l.kernel = false →
      (dyn.dynSymTable i).sectionHeaderIndex = 0 →
      (ByIndexIsByName l dyn loadBase i ↔ ((dyn.dynSymTable i).value ≠ 0 →
        loadBase + (dyn.dynSymTable i).value
          = l.lookUp (dyn.dynStrTable (dyn.dynSymTable i).name))) := by
  refine ⟨fun image him h hh => ?_, findsDefinition_iff hwf, ?_⟩
  · obtain ⟨n, hn⟩ := inModule_eq procName (hwf image him h hh) hh
    rw [entry, hh, bind_some] at hn
    exact ⟨n, hn⟩
  · intro l dyn loadBase i hl _
    exact byIndexIsByName_iff hl dyn loadBase i

/-! ## An importer in front of a definition -/

/-- A table with the null symbol and one symbol "f", in one bucket. -/
def oneSymbol (imageBase value : Word .amd64) (sectionHeaderIndex : Nat) : LoadedImage .amd64 where
  imageBase := imageBase
  dynamicInfo := {
    dynStrTable := fun offset => if offset = 1 then [0x66] else []
    dynSymTable := fun i => if i = 1 then ⟨1, sectionHeaderIndex, value⟩ else ⟨0, 0, 0⟩
    hashTable := some ⟨1, 2, fun i => if i = 0 then 1 else 0⟩
    pltRelocations := 0
    pltRelocationCount := 0
    relaEntries := []
    relEntries := []
    pltUsesRela := true }

theorem oneSymbol_wellFormed (ib value : Word .amd64) (shi : Nat) : WellFormed (oneSymbol ib value shi)
      ⟨1, 2, fun i => if i = 0 then 1 else 0⟩ where
  chains := by
    intro b hb
    obtain rfl : b = 0 := Nat.lt_one_iff.1 hb
    refine ⟨[1], ⟨rfl, by decide, rfl⟩, fun i => ?_⟩
    simp only [mem_singleton, Nat.mod_one, and_true]
    omega
  bucket := fun _ _ _ => Nat.one_pos
  unique := by
    intro i j hi hi' hj hj' _
    simp only at hi' hj'
    omega

/-- An image that imports "f", and one that defines it. -/
def importerFirst : List (LoadedImage .amd64) := [oneSymbol 0x1000 0 0, oneSymbol 0x2000 0x10 1]

theorem importerFirst_wellFormed : AllWellFormed importerFirst := by
  intro image him h hh
  rcases mem_cons.1 him with rfl | him
  · cases hh
    exact oneSymbol_wellFormed _ _ _
  · obtain rfl := mem_singleton.1 him
    cases hh
    exact oneSymbol_wellFormed _ _ _

/-- The importer's base, `0x1000`, is what the lookup returns, and not `0x2010`. -/
theorem importerFirst_wrong :
    ¬ ∀ (images : List (LoadedImage .amd64)) (procName : CString), AllWellFormed images →
      FindsDefinition images procName := by
  intro hal
  have hfn := hal importerFirst [0x66] importerFirst_wellFormed
  rw [findsDefinition_iff importerFirst_wellFormed] at hfn
  have ha : (oneSymbol 0x1000 0 0).address 1
      = definitionAddress [0x66] [oneSymbol 0x2000 0x10 1] := hfn.2
  exact absurd ha (by decide)

theorem symbol_resolution_iff_importerFirst : AllWellFormed importerFirst ∧
    (FindsDefinition importerFirst [0x66] ↔ Resolvable [0x66] importerFirst) :=
  ⟨importerFirst_wellFormed, (symbol_resolution_iff importerFirst [0x66] importerFirst_wellFormed).2.1⟩

end Boron.Os
