import Boron.Rtl.RelocFields

/-! # The two formats and the two relocators

A REL entry has no addend; the value at the relocated place takes its part. `RtlpApplyRelocation`
takes zero for it, so a REL entry does what a RELA entry with the stored value as addend does
exactly when this value is harmless to the type. The relocator of the user library adds the image
base to what is stored, so on relative REL entries the two relocators agree exactly while what is
stored is zero. `RtlLinkPlt` hands each entry over in the format that the table does not have. -/

namespace Boron.Rtl

open List Option

variable {t : Target}

/-! ## One entry -/

/-- A REL entry and the RELA entry whose addend is the value at the place leave the same memory, or
fail alike. -/
def RelAgreesRela (l : Loader t) (dyn : ElfDynamicInfo t) (loadBase resolved : Word t)
    (m : Memory t) (rel : ElfRel t) : Prop :=
  rtlpApplyRelocation l dyn (some rel) none loadBase resolved m
    = rtlpApplyRelocation l dyn none
      (some { rel with addend := m.readWord (loadBase + rel.offset) }) loadBase resolved m

/-- The value stored at the place is harmless to the entry's type, if the symbol can be resolved and
the type is known. -/
def StoredHarmless (l : Loader t) (dyn : ElfDynamicInfo t) (loadBase resolved : Word t)
    (m : Memory t) (rel : ElfRel t) : Prop :=
  ∀ symbol, symbolOf l dyn rel.info loadBase resolved = .ok symbol →
    ∀ kind, relocOf t (elfRType rel.info) = some kind →
      kind.AddendHarmless symbol (loadBase + rel.offset) (m.readWord (loadBase + rel.offset))

theorem relAgreesRela_iff (l : Loader t) (dyn : ElfDynamicInfo t) (lb res : Word t)
    (m : Memory t) (rel : ElfRel t) :
    RelAgreesRela l dyn lb res m rel ↔ StoredHarmless l dyn lb res m rel := by
  unfold RelAgreesRela StoredHarmless rtlpApplyRelocation
  cases hy : symbolOf l dyn rel.info lb res with
  | error stop => simp [applyRela, hy]
  | ok sym =>
    cases hty : relocOf t (elfRType rel.info) with
    | none => simp [applyRela, rtlpComputeRelocation, hy, hty]
    | some kind =>
      have hif := kind.storesAlike_iff (m.readWord (lb + rel.offset)) lb sym (lb + rel.offset) m
      rw [Reloc.StoresAlike, eq_comm] at hif
      simpa [applyRela, rtlpComputeRelocation, hy, hty] using hif

/-! ## Relative relocations -/

/-- A relative relocation names no symbol. -/
def IsRelative (rel : ElfRel t) : Prop :=
  elfRSym rel.info = 0 ∧ elfRType rel.info = relativeType t

/-- Every relocation of the image is relative. -/
def RelativeOnly (dyn : ElfDynamicInfo t) : Prop :=
  (∀ rela ∈ dyn.relaEntries, IsRelative rela.toElfRel) ∧ ∀ rel ∈ dyn.relEntries, IsRelative rel

/-- The two relocators leave the same memory, after the RELA entries and after each REL entry. -/
def RelocatorsAgree (l : Loader t) (dyn : ElfDynamicInfo t) (loadBase : Word t) (m : Memory t) :
    Prop :=
  ∀ n, (rtlPerformRelocations l { dyn with relEntries := dyn.relEntries.take n } loadBase m).toOption
    = osdllRelocateSelfEntries dyn.relaEntries (dyn.relEntries.take n) loadBase m

/-- The memory after the RELA entries. -/
def afterRela (relaEntries : List (ElfRela t)) (loadBase : Word t) (m : Memory t) : Memory t :=
  relaEntries.foldl (fun m rela =>
    m.memcpy (loadBase + rela.offset) (loadBase + rela.addend) t.wordBytes) m

/-- Each place of a REL entry holds zero when its turn comes, the places before it holding the image
base by then. -/
def PlacesZero (loadBase : Word t) : List (ElfRel t) → Memory t → Prop
  | [], _ => True
  | rel :: rest, m =>
    m.readWord (loadBase + rel.offset) = 0 ∧
      PlacesZero loadBase rest (m.memcpy (loadBase + rel.offset) loadBase t.wordBytes)

theorem relocOf_relative (t : Target) : relocOf t (relativeType t) = some .relative := by
  cases t <;> rfl

theorem apply_relative (l : Loader t) (dyn : ElfDynamicInfo t) (lb : Word t) (m : Memory t)
    {rela : ElfRela t} (h : IsRelative rela.toElfRel) :
    rtlpApplyRelocation l dyn none (some rela) lb 0 m
      = .ok (m.memcpy (lb + rela.offset) (lb + rela.addend) t.wordBytes) := by
  obtain ⟨hy, hty⟩ := h
  simp [rtlpApplyRelocation, applyRela, rtlpComputeRelocation, symbolOf, hy, hty, relocOf_relative,
    Reloc.compute]

theorem apply_relative_rel (l : Loader t) (dyn : ElfDynamicInfo t) (lb : Word t)
    (m : Memory t) {rel : ElfRel t} (h : IsRelative rel) :
    rtlpApplyRelocation l dyn (some rel) none lb 0 m
      = .ok (m.memcpy (lb + rel.offset) lb t.wordBytes) := by
  obtain ⟨hy, hty⟩ := h
  simp [rtlpApplyRelocation, applyRela, rtlpComputeRelocation, symbolOf, hy, hty, relocOf_relative,
    Reloc.compute]

/-- A pass whose every step succeeds is a plain fold. -/
theorem foldlM_ok {α σ : Type} {l : List α} {f : σ → α → Except Stop σ} {g : σ → α → σ}
    (h : ∀ s, ∀ a ∈ l, f s a = .ok (g s a)) (s : σ) : l.foldlM f s = .ok (l.foldl g s) := by
  induction l generalizing s with
  | nil => rfl
  | cons a l ih =>
    rw [foldlM_cons, h s a mem_cons_self, foldl_cons]
    exact ih (fun s b hb => h s b (mem_cons_of_mem a hb)) (g s a)

theorem foldlM_some {α σ : Type} {l : List α} {f : σ → α → Option σ} {g : σ → α → σ}
    (h : ∀ s, ∀ a ∈ l, f s a = some (g s a)) (s : σ) : l.foldlM f s = some (l.foldl g s) := by
  induction l generalizing s with
  | nil => rfl
  | cons a l ih =>
    rw [foldlM_cons, h s a mem_cons_self, foldl_cons]
    exact ih (fun s b hb => h s b (mem_cons_of_mem a hb)) (g s a)

/-- What the kernel's relocator does to a REL place, and what the library's does. -/
def kernelRel (loadBase : Word t) (m : Memory t) (rel : ElfRel t) : Memory t :=
  m.memcpy (loadBase + rel.offset) loadBase t.wordBytes

def selfRel (loadBase : Word t) (m : Memory t) (rel : ElfRel t) : Memory t :=
  m.memcpy (loadBase + rel.offset) (m.readWord (loadBase + rel.offset) + loadBase) t.wordBytes

variable {dyn : ElfDynamicInfo t}

theorem rtlPerformRelocations_relative (l : Loader t) (lb : Word t)
    (m : Memory t) (h : RelativeOnly dyn) :
    rtlPerformRelocations l dyn lb m
      = .ok (dyn.relEntries.foldl (kernelRel lb) (afterRela dyn.relaEntries lb m)) := by
  unfold rtlPerformRelocations
  rw [foldlM_ok (fun m rela hrl => apply_relative l dyn lb m (h.1 rela hrl))]
  exact foldlM_ok (fun m rel hre => apply_relative_rel l dyn lb m (h.2 rel hre)) _

theorem osdllRelocateSelfEntries_relative {ren : List (ElfRela t)}
    {re : List (ElfRel t)} (lb : Word t) (m : Memory t)
    (hrl : ∀ rela ∈ ren, IsRelative rela.toElfRel)
    (hre : ∀ rel ∈ re, IsRelative rel) :
    osdllRelocateSelfEntries ren re lb m = some (re.foldl (selfRel lb) (afterRela ren lb m)) := by
  have hok : ∀ {rel : ElfRel t}, IsRelative rel →
      ¬ (elfRSym rel.info ≠ 0 ∨ elfRType rel.info ≠ relativeType t) := by
    rintro rel ⟨hy, hty⟩ (h | h)
    · exact h hy
    · exact h hty
  unfold osdllRelocateSelfEntries
  rw [foldlM_some (fun m rela h => if_neg (hok (hrl rela h)))]
  exact foldlM_some (fun m rel h => if_neg (hok (hre rel h))) _

/-- The two ways to treat REL places agree after every entry exactly when the places hold zero. -/
theorem folds_agree_iff (lb : Word t) (rels : List (ElfRel t)) (m : Memory t) :
    (∀ n, (rels.take n).foldl (kernelRel lb) m = (rels.take n).foldl (selfRel lb) m)
      ↔ PlacesZero lb rels m := by
  induction rels generalizing m with
  | nil => simp [PlacesZero]
  | cons rel rest ih =>
    have hst : kernelRel lb m rel = selfRel lb m rel ↔ m.readWord (lb + rel.offset) = 0 := by
      rw [kernelRel, selfRel, Memory.memcpy_word_eq_iff, eq_comm]
      simp
    rw [PlacesZero, ← ih, ← hst]
    constructor
    · intro h
      have hon : kernelRel lb m rel = selfRel lb m rel := h 1
      refine ⟨hon, fun n => ?_⟩
      have hnext := h (n + 1)
      rw [take_succ_cons, foldl_cons, foldl_cons, ← hon] at hnext
      exact hnext
    · rintro ⟨hon, hrs⟩ n
      cases n with
      | zero => rfl
      | succ n =>
        rw [take_succ_cons, foldl_cons, foldl_cons, ← hon]
        exact hrs n

theorem relocatorsAgree_iff (l : Loader t) (lb : Word t) (m : Memory t) (h : RelativeOnly dyn) :
    RelocatorsAgree l dyn lb m ↔ PlacesZero lb dyn.relEntries (afterRela dyn.relaEntries lb m) := by
  rw [← folds_agree_iff]
  refine forall_congr' fun n => ?_
  have htk : ∀ rel ∈ dyn.relEntries.take n, IsRelative rel :=
    fun rel hrl => h.2 rel (mem_of_mem_take hrl)
  have hon : RelativeOnly { dyn with relEntries := dyn.relEntries.take n } := ⟨h.1, htk⟩
  rw [rtlPerformRelocations_relative l lb m hon, osdllRelocateSelfEntries_relative lb m h.1 htk]
  exact some_inj

/-! ## The procedure linkage table -/

/-- `RtlLinkPlt` reads entries in the format of the table, and no byte past the table. -/
def PltReadRight (l : Loader t) (dyn : ElfDynamicInfo t) (loadBase : Word t) (m : Memory t) :
    Prop :=
  ∀ read ∈ (rtlLinkPlt l dyn loadBase m).1,
    (read.bytes t).2 ≤ dyn.pltRelocationCount ∧
      ∀ i rela, read = .entry i rela → rela = dyn.pltUsesRela

/-- `RtlLinkPlt` does not get to relocate an entry: the table is empty, or it holds the fields that
both formats have of a first entry and the symbol of this entry is not found. -/
def NothingLinked (l : Loader t) (dyn : ElfDynamicInfo t) (loadBase : Word t) (m : Memory t) :
    Prop :=
  dyn.pltRelocationCount = 0 ∨
    2 * t.wordBytes ≤ dyn.pltRelocationCount ∧
      ∃ stop, pltSymbolAddress l dyn loadBase m 0 = .error stop

/-- The first entry of a table whose symbol is found is handed over in the other format. -/
theorem entry_mem_reads {l : Loader t} {lb adr : Word t}
    {m : Memory t} (hcount : 0 < dyn.pltRelocationCount)
    (hy : pltSymbolAddress l dyn lb m 0 = .ok adr) :
    .entry 0 (!dyn.pltUsesRela) ∈ (rtlLinkPlt l dyn lb m).1 := by
  unfold rtlLinkPlt
  rw [rtlLinkPltFrom, if_pos hcount, hy]
  cases hrl : dyn.pltUsesRela with
  | true =>
    simp only [if_true, isSome_none]
    split <;> simp
  | false =>
    simp only [Bool.false_eq_true, if_false, isSome_some]
    split <;> simp

theorem pltReadRight_iff (l : Loader t) (dyn : ElfDynamicInfo t) (lb : Word t)
    (m : Memory t) : PltReadRight l dyn lb m ↔ NothingLinked l dyn lb m := by
  unfold PltReadRight NothingLinked
  by_cases hcount : 0 < dyn.pltRelocationCount
  · have hne : dyn.pltRelocationCount ≠ 0 := Nat.ne_of_gt hcount
    cases hy : pltSymbolAddress l dyn lb m 0 with
    | error stop =>
      rw [rtlLinkPlt, rtlLinkPltFrom, if_pos hcount, hy]
      simp [PltRead.bytes, hne]
    | ok adr =>
      refine iff_of_false (fun h => ?_) (by simp [hne])
      have hfr := (h _ (entry_mem_reads hcount hy)).2 0 _ rfl
      simp at hfr
  · have hz : dyn.pltRelocationCount = 0 := by omega
    rw [rtlLinkPlt, rtlLinkPltFrom, if_neg hcount]
    simp [hz]

/-! ## When the formats and the relocators agree -/

/-- For every dynamic table, load base and memory: a REL entry does what the RELA entry with the
stored value as addend does exactly when this value is harmless to its type; on relative relocations
`RtlPerformRelocations` does what `OSDLLRelocateSelf` does exactly when each REL place holds zero at
its turn; and `RtlLinkPlt` reads the table in its format, and no further than its end, exactly when
it links nothing. -/
theorem relocations_right_iff (l : Loader t) (dyn : ElfDynamicInfo t) (loadBase : Word t)
    (m : Memory t) :
    (∀ resolved rel, RelAgreesRela l dyn loadBase resolved m rel
      ↔ StoredHarmless l dyn loadBase resolved m rel) ∧
    (RelativeOnly dyn → (RelocatorsAgree l dyn loadBase m
      ↔ PlacesZero loadBase dyn.relEntries (afterRela dyn.relaEntries loadBase m))) ∧
    (PltReadRight l dyn loadBase m ↔ NothingLinked l dyn loadBase m) :=
  ⟨fun resolved rel => relAgreesRela_iff l dyn loadBase resolved m rel,
    relocatorsAgree_iff l loadBase m, pltReadRight_iff l dyn loadBase m⟩

/-- An image of the user library with one relative REL entry at offset `0x1000`, where 4 is stored. -/
def oneRelative : ElfDynamicInfo .i386 where
  dynStrTable _ := []
  dynSymTable _ := ⟨0, 0, 0⟩
  hashTable := none
  pltRelocations := 0
  pltRelocationCount := 0
  relaEntries := []
  relEntries := [⟨0x1000, 8⟩]
  pltUsesRela := false

def storedFour : Memory .i386 := fun a => if a = 0x2000 then 4 else 0

def userLoader : Loader .i386 where
  kernel := false
  lookUp _ := 0

theorem oneRelative_only : RelativeOnly oneRelative := by
  refine ⟨fun rela h => absurd h not_mem_nil, fun rel h => ?_⟩
  obtain rfl : rel = ⟨0x1000, 8⟩ := mem_singleton.1 h
  exact ⟨by decide, by decide⟩

/-- The REL entry stores the base alone, the RELA entry the base and the 4. -/
theorem oneRelative_disagrees :
    ¬ ∀ (l : Loader .i386) (dyn : ElfDynamicInfo .i386) (loadBase resolved : Word .i386)
      (m : Memory .i386) (rel : ElfRel .i386), RelAgreesRela l dyn loadBase resolved m rel := by
  intro ha
  have h := (relAgreesRela_iff userLoader oneRelative 0x1000 0 storedFour ⟨0x1000, 8⟩).1
    (ha _ _ _ _ _ _)
  have hz : storedFour.readWord (0x1000 + 0x1000) = 0 := h 0 (by decide) .relative (by decide)
  exact absurd hz (by decide)

theorem relocations_right_iff_oneRelative : RelativeOnly oneRelative ∧
    (RelocatorsAgree userLoader oneRelative 0x1000 storedFour ↔ PlacesZero 0x1000 oneRelative.relEntries
        (afterRela oneRelative.relaEntries 0x1000 storedFour)) :=
  ⟨oneRelative_only,
    (relocations_right_iff userLoader oneRelative 0x1000 storedFour).2.1 oneRelative_only⟩

end Boron.Rtl
