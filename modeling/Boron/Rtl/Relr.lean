import Boron.Rtl.Elf
import Mathlib.Data.Nat.Size

/-! # Packed relative relocations

A RELR table is a list of words. An even word is the address of one word to relocate; each odd word
after it is a bitmap over the next `W - 1` words, `W` the word size in bits. `elf.c` and `reloc.c`
have the same decoder, which keeps a pointer to the word that comes next. The decoder shifts a
bitmap right until it is zero and moves the pointer by one word per shift, so a bitmap moves it by
the bitmap's length in bits and not by `W - 1` words.

A word of the image is named by its offset from the image base. Pointers into the image do not wrap
in C, so an offset is a natural number. -/

namespace Boron.Rtl

open Function List

variable {t : Target}

/-! ## The decoder -/

/-- What the decoder keeps: `CurrentBaseAddress`, the words of the image, and the words that it has
added the image base to, in order. -/
structure Relr (t : Target) where
  currentBaseAddress : Nat
  memory : Nat → Word t
  added : List Nat

namespace Relr

/-- `CurrentBaseAddress = NULL`, which is `-ImageBase` from the image base. -/
def start (base : Word t) (memory : Nat → Word t) : Relr t :=
  { currentBaseAddress := (-base).toNat, memory := memory, added := [] }

/-- `*CurrentBaseAddress += ImageBase`. -/
def addBase (base : Word t) (s : Relr t) : Relr t :=
  { s with
    memory := update s.memory s.currentBaseAddress
      (s.memory s.currentBaseAddress + base)
    added := s.added ++ [s.currentBaseAddress] }

/-- `CurrentBaseAddress++`. -/
def next (s : Relr t) : Relr t :=
  { s with currentBaseAddress := s.currentBaseAddress + t.wordBytes }

/-- `for (; Rel; Rel >>= 1)`, with at most `n` bits left in `Rel`. -/
def bitLoop (base : Word t) : Nat → Word t → Relr t → Relr t
  | 0, _, s => s
  | n + 1, rel, s =>
    if rel = 0 then s
    else bitLoop base n (rel >>> 1) (if rel.getLsbD 0 then s.addBase base else s).next

/-- One turn of the loop over the entries. -/
def turn (base : Word t) (s : Relr t) (rel : Word t) : Relr t :=
  if rel.getLsbD 0 then bitLoop base (t.wordBits - 1) (rel >>> 1) s
  else ({ s with currentBaseAddress := rel.toNat }.addBase base).next

/-- `RtlRelocateRelrEntries`, over `RelrEntries` and `RelrCount`. -/
def rtlRelocateRelrEntries (relrEntries : Nat → Word t) (relrCount : Nat) (base : Word t)
    (s : Relr t) : Relr t :=
  (List.range relrCount).foldl (fun s i => s.turn base (relrEntries i)) s

/-- The loop of `OSDLLRelocateSelf`, which counts the bytes of the table; `word i` is the word at
`ImageBase + RelrOffset + i`. -/
def osdllRelocateSelf (word : Nat → Word t) (relrSize : Nat) (base : Word t) (i : Nat)
    (s : Relr t) : Relr t :=
  if i < relrSize then
    osdllRelocateSelf word relrSize base (i + t.wordBytes) (s.turn base (word i))
  else s
termination_by relrSize - i
decreasing_by
  have := t.wordBytes_pos
  omega

/-! ## What the decoder does with a table -/

/-- Words whose bits are set, from a position on. -/
def marked (t : Target) (cur n : Nat) (bit : Nat → Bool) : List Nat :=
  ((List.range n).filter bit).map fun i => cur + t.wordBytes * i

theorem marked_zero_bits (cur n : Nat) : marked t cur n (fun _ => false) = [] := by
  simp [marked]

theorem marked_succ (cur n : Nat) (bit : Nat → Bool) : marked t cur (n + 1) bit
      = (if bit 0 then [cur] else []) ++ marked t (cur + t.wordBytes) n (fun i => bit (i + 1)) := by
  have hc : (fun i => cur + t.wordBytes * i) ∘ Nat.succ
      = fun i => cur + t.wordBytes + t.wordBytes * i := by
    funext i
    simp only [comp_apply, Nat.succ_eq_add_one, Nat.mul_add]
    omega
  rw [marked, range_succ_eq_map, filter_cons, filter_map]
  split <;> simp [marked, hc, comp_def]

/-- A shift takes one bit off. -/
theorem size_eq_size_half {n : Nat} (hn : 0 < n) : n.size = (n / 2).size + 1 := by
  have hb : Nat.bit n.bodd (n / 2) = n := by
    rw [← Nat.div2_val, Nat.bit_bodd_div2]
  have hne : Nat.bit n.bodd (n / 2) ≠ 0 := by omega
  have hsize := Nat.size_bit hne
  rwa [hb] at hsize

/-- The loop over a bitmap adds the base to the marked words and moves by the bitmap's length. -/
theorem bitLoop_eq (base : Word t) (n : Nat) (rel : Word t) (s : Relr t) (hn : rel.toNat < 2 ^ n) :
    (bitLoop base n rel s).added = s.added ++ marked t s.currentBaseAddress n rel.getLsbD ∧
    (bitLoop base n rel s).currentBaseAddress
      = s.currentBaseAddress + t.wordBytes * rel.toNat.size := by
  induction n generalizing rel s with
  | zero =>
    have hz : rel.toNat = 0 := by omega
    simp [bitLoop, marked, hz]
  | succ n ih =>
    rw [bitLoop]
    split
    · next hz =>
        subst hz
        have hb : (0 : Word t).getLsbD = fun _ => false := by
          funext i
          simp
        rw [hb, marked_zero_bits]
        simp
    · next hne =>
        have hh : (rel >>> 1).toNat = rel.toNat / 2 := by
          simp [BitVec.toNat_ushiftRight, Nat.shiftRight_eq_div_pow]
        have hlt : (rel >>> 1).toNat < 2 ^ n := by
          rw [hh]
          rw [Nat.pow_succ] at hn
          omega
        have hpos : 0 < rel.toNat := by
          rcases Nat.eq_zero_or_pos rel.toNat with h | h
          · exact absurd (BitVec.eq_of_toNat_eq (by simpa using h)) hne
          · exact h
        have hsize : rel.toNat.size = (rel >>> 1).toNat.size + 1 := by
          rw [hh, size_eq_size_half hpos]
        have hb : (rel >>> 1).getLsbD = fun i => rel.getLsbD (i + 1) := by
          funext i
          rw [BitVec.getLsbD_ushiftRight, Nat.add_comm]
        obtain ⟨hadded, hc⟩ := ih (rel >>> 1) (if rel.getLsbD 0 then s.addBase base else s).next hlt
        rw [hadded, hc, hsize, marked_succ, hb]
        constructor
        · split <;> simp [addBase, next]
        · have hcursor : (if rel.getLsbD 0 then s.addBase base else s).next.currentBaseAddress
              = s.currentBaseAddress + t.wordBytes := by split <;> rfl
          rw [hcursor, Nat.mul_succ]
          omega

/-- The words that the decoder adds the base to, from a position on. -/
def visited : Nat → List (Word t) → List Nat
  | _, [] => []
  | cur, rel :: table =>
    if rel.getLsbD 0 then
      marked t cur (t.wordBits - 1) (rel >>> 1).getLsbD ++
        visited (cur + t.wordBytes * (rel >>> 1).toNat.size) table
    else rel.toNat :: visited (rel.toNat + t.wordBytes) table

theorem toNat_payload_lt (rel : Word t) : (rel >>> 1).toNat < 2 ^ (t.wordBits - 1) := by
  have hlt := rel.isLt
  rw [BitVec.toNat_ushiftRight, Nat.shiftRight_eq_div_pow]
  cases t <;> simp only [Target.wordBits] at hlt ⊢ <;> omega

section

variable (base : Word t) (table : List (Word t))

theorem added_foldl_turn (s : Relr t) :
    (table.foldl (turn base) s).added = s.added ++ visited s.currentBaseAddress table := by
  induction table generalizing s with
  | nil => simp [visited]
  | cons rel table ih =>
    rw [foldl_cons, ih, visited, turn]
    split
    · obtain ⟨hadded, hc⟩ := bitLoop_eq base (t.wordBits - 1) (rel >>> 1) s (toNat_payload_lt rel)
      rw [hadded, hc, append_assoc]
    · simp [addBase, next]

/-- The loop by index. -/
theorem rtlRelocateRelrEntries_eq (s : Relr t) :
    rtlRelocateRelrEntries (fun i => table.getD i 0) table.length base s
      = table.foldl (turn base) s := by
  unfold rtlRelocateRelrEntries
  have hls : (List.range table.length).map (fun i => table.getD i 0) = table := by
    apply ext_getElem
    · simp
    · intro i h _
      simp at h
      simp [h]
  conv_rhs => rw [← hls, foldl_map]

/-- The loop by byte. -/
theorem osdllRelocateSelf_eq (n : Nat) (s : Relr t) :
    osdllRelocateSelf (fun i => table.getD (i / t.wordBytes) 0) (t.wordBytes * table.length) base
      (t.wordBytes * n) s = (table.drop n).foldl (turn base) s := by
  have hpos := t.wordBytes_pos
  induction hk : table.length - n generalizing n s with
  | zero =>
    have hle : table.length ≤ n := by omega
    rw [osdllRelocateSelf, if_neg, drop_eq_nil_of_le hle, foldl_nil]
    rw [Nat.not_lt]
    exact Nat.mul_le_mul_left _ hle
  | succ k ih =>
    have hlt : n < table.length := by omega
    have hdrop : table.drop n = table[n] :: table.drop (n + 1) := drop_eq_getElem_cons hlt
    have hw : table.getD (t.wordBytes * n / t.wordBytes) 0 = table[n] := by
      rw [Nat.mul_div_cancel_left _ hpos]
      simp [hlt]
    rw [osdllRelocateSelf, if_pos (Nat.mul_lt_mul_of_pos_left hlt hpos), hw, hdrop,
      foldl_cons, ← Nat.mul_succ]
    exact ih (n + 1) _ (by omega)

end

/-! ## The format -/

/-- The words that a table encodes, from a position on. A bitmap covers `W - 1` words whatever is
in it, its bit `i + 1` standing for word `i`. -/
def encoded : Nat → List (Word t) → List Nat
  | _, [] => []
  | cur, rel :: table =>
    if rel.getLsbD 0 then
      marked t cur (t.wordBits - 1) (fun i => rel.getLsbD (i + 1)) ++
        encoded (cur + t.wordBytes * (t.wordBits - 1)) table
    else rel.toNat :: encoded (rel.toNat + t.wordBytes) table

/-- A bitmap that is followed, in its run of bitmaps, by one with a marked word has its highest bit
set. `short`: a bitmap of the run so far did not. -/
def BitmapsFull : Bool → List (Word t) → Prop
  | _, [] => True
  | short, rel :: table =>
    if rel.getLsbD 0 then
      (short = true → rel >>> 1 = 0) ∧ BitmapsFull (short || !rel.msb) table
    else BitmapsFull false table

/-- A full bitmap moves the decoder by `W - 1` words, any other one by less. -/
theorem size_payload (rel : Word t) : (rel >>> 1).toNat.size ≤ t.wordBits - 1 ∧
    ((rel >>> 1).toNat.size = t.wordBits - 1 ↔ rel.msb = true) := by
  have hle := Nat.size_le.2 (toNat_payload_lt rel)
  have hp : t.wordBits - 2 < (rel >>> 1).toNat.size ↔ 2 ^ (t.wordBits - 2) ≤ (rel >>> 1).toNat :=
    Nat.lt_size
  have hms : rel.msb = true ↔ 2 ^ (t.wordBits - 1) ≤ rel.toNat := by
    rw [BitVec.msb_eq_decide, decide_eq_true_iff]
  rw [BitVec.toNat_ushiftRight, Nat.shiftRight_eq_div_pow] at hle hp ⊢
  refine ⟨hle, ?_⟩
  rw [hms]
  cases t <;> simp only [Target.wordBits] at hle hp ⊢ <;> omega

theorem payload_bits (rel : Word t) : (rel >>> 1).getLsbD = fun i => rel.getLsbD (i + 1) := by
  funext i
  rw [BitVec.getLsbD_ushiftRight, Nat.add_comm]

theorem marked_payload_eq_nil (rel : Word t) (cur : Nat) :
    marked t cur (t.wordBits - 1) (fun i => rel.getLsbD (i + 1)) = [] ↔ rel >>> 1 = 0 := by
  rw [← payload_bits, marked, map_eq_nil_iff, filter_eq_nil_iff]
  constructor
  · intro h
    apply BitVec.eq_of_getLsbD_eq
    intro i hi
    have hz : BitVec.getLsbD (0 : Word t) i = false := BitVec.getLsbD_zero
    rw [hz]
    by_cases hls : i < t.wordBits - 1
    · simpa using h i (mem_range.2 hls)
    · rw [BitVec.getLsbD_ushiftRight]
      exact BitVec.getLsbD_of_ge _ _ (by omega)
  · intro h i _
    rw [h]
    simp

/-- The decoder is never ahead of the format. -/
theorem visited_le_encoded (table : List (Word t)) (cur lag : Nat) :
    List.Forall₂ (· ≤ ·) (visited cur table) (encoded (cur + lag) table) := by
  induction table generalizing cur lag with
  | nil => exact .nil
  | cons rel table ih =>
    rw [visited, encoded]
    split
    · rw [payload_bits]
      refine rel_append ?_ ?_
      · unfold marked
        rw [forall₂_map_left_iff, forall₂_map_right_iff]
        exact forall₂_same.2 fun i _ => by omega
      · have hsize := Nat.mul_le_mul_left t.wordBytes (size_payload rel).1
        obtain ⟨k, hk⟩ := Nat.exists_eq_add_of_le hsize
        rw [hk, show cur + lag + (t.wordBytes * (rel >>> 1).toNat.size + k)
          = cur + t.wordBytes * (rel >>> 1).toNat.size + (lag + k) by omega]
        exact ih _ _
    · exact .cons (Nat.le_refl _) (ih _ 0)

/-- Lists of which one is nowhere larger and that are equal up to order are equal. -/
theorem eq_of_forall₂_le_of_sum_eq {l l' : List Nat} (h : List.Forall₂ (· ≤ ·) l l')
    (hsm : l.sum = l'.sum) : l = l' := by
  have hle : ∀ {l l' : List Nat}, List.Forall₂ (· ≤ ·) l l' → l.sum ≤ l'.sum := by
    intro l l' h
    induction h with
    | nil => exact Nat.le_refl _
    | cons ha _ ih =>
      rw [sum_cons, sum_cons]
      omega
  induction h with
  | nil => rfl
  | @cons a b _ _ ha hrs ih =>
    have := hle hrs
    rw [sum_cons, sum_cons] at hsm
    have hh : a = b := by omega
    rw [ih (by omega), hh]

/-- The same marks at two positions are the same words only if the positions are the same. -/
theorem marked_shift {cur lag n : Nat} {bit : Nat → Bool} (hne : marked t cur n bit ≠ [])
    (h : marked t cur n bit = marked t (cur + t.wordBytes * lag) n bit) : lag = 0 := by
  unfold marked at h hne
  obtain ⟨i, hi⟩ := exists_mem_of_ne_nil ((List.range n).filter bit)
    (fun hnil => hne (by rw [hnil, map_nil]))
  have heq := map_inj_left.1 h i hi
  have hpos := t.wordBytes_pos
  have hzr : t.wordBytes * lag = 0 := by omega
  rcases Nat.mul_eq_zero.1 hzr with hz | hz
  · omega
  · exact hz

/-- **The decoder against the format.** They agree exactly while nothing is marked once the decoder
lags behind. -/
theorem visited_eq_encoded_iff (table : List (Word t)) (cur lag : Nat) :
    visited cur table = encoded (cur + t.wordBytes * lag) table
      ↔ BitmapsFull (decide (lag ≠ 0)) table := by
  induction table generalizing cur lag with
  | nil => simp [visited, encoded, BitmapsFull]
  | cons rel table ih =>
    rw [visited, encoded, BitmapsFull]
    split
    · rw [payload_bits]
      obtain ⟨hsize, hfl⟩ := size_payload rel
      obtain ⟨k, hk⟩ := Nat.exists_eq_add_of_le hsize
      have htl : visited (cur + t.wordBytes * (rel >>> 1).toNat.size) table
          = encoded (cur + t.wordBytes * lag + t.wordBytes * (t.wordBits - 1)) table
            ↔ BitmapsFull (decide (lag ≠ 0) || !rel.msb) table := by
        have hcr : cur + t.wordBytes * lag + t.wordBytes * (t.wordBits - 1)
            = cur + t.wordBytes * (rel >>> 1).toNat.size + t.wordBytes * (lag + k) := by
          rw [hk, Nat.mul_add, Nat.mul_add]
          omega
        have hfg : (decide (lag ≠ 0) || !rel.msb) = decide (lag + k ≠ 0) := by
          have hk' : k = 0 ↔ rel.msb = true := by
            rw [← hfl]
            omega
          cases hms : rel.msb <;> simp [hms] at hk' ⊢ <;> omega
        rw [hcr, hfg]
        exact ih _ _
      rw [← htl, decide_eq_true_iff, ← marked_payload_eq_nil rel cur]
      constructor
      · intro h
        obtain ⟨hc, hrs⟩ := append_inj h (by simp [marked])
        refine ⟨fun hlg => ?_, hrs⟩
        by_contra hne
        exact hlg (marked_shift hne hc)
      · rintro ⟨hc, hrs⟩
        rw [hrs]
        congr 1
        by_cases hlg : lag = 0
        · simp [hlg]
        · have hnil := hc hlg
          rw [hnil]
          rw [marked_payload_eq_nil] at hnil
          exact ((marked_payload_eq_nil rel _).2 hnil).symm
    · have htl := ih (rel.toNat + t.wordBytes) 0
      simp only [Nat.mul_zero, Nat.add_zero, ne_eq, not_true_eq_false, decide_false] at htl
      rw [cons_inj_right, htl]

/-! ## The memory after it -/

/-- The base has been added to each word as often as the log says. -/
def Logged (base : Word t) (memory : Nat → Word t) (s : Relr t) : Prop :=
  ∀ o, s.memory o = memory o + s.added.count o • base

variable {base : Word t} {memory : Nat → Word t} {s : Relr t}

theorem Logged.addBase (h : s.Logged base memory) : (s.addBase base).Logged base memory := by
  intro o
  simp only [Relr.addBase, count_append, count_singleton]
  by_cases ho : o = s.currentBaseAddress
  · subst ho
    rw [update_self, h, beq_self_eq_true, if_pos rfl, succ_nsmul, BitVec.add_assoc]
  · have hb : (s.currentBaseAddress == o) = false := by simpa using Ne.symm ho
    rw [update_of_ne ho, h, hb]
    simp

theorem Logged.bitLoop (h : s.Logged base memory) (n : Nat) (rel : Word t) :
    (bitLoop base n rel s).Logged base memory := by
  induction n generalizing rel s with
  | zero => exact h
  | succ n ih =>
    rw [Relr.bitLoop]
    split
    · exact h
    · refine ih ?_ _
      split
      · exact h.addBase
      · exact h

theorem Logged.foldl_turn (h : s.Logged base memory) (table : List (Word t)) :
    (table.foldl (turn base) s).Logged base memory := by
  induction table generalizing s with
  | nil => exact h
  | cons rel table ih =>
    refine ih ?_
    unfold turn
    split
    · exact h.bitLoop _ _
    · exact Logged.addBase (s := { s with currentBaseAddress := rel.toNat }) h

/-! ## Which tables are decoded right -/

/-- Both decoders add the base to exactly these words of the image, once for each time a word
stands there. -/
def Relocates (table : List (Word t)) (words : List Nat) : Prop :=
  ∀ (base : Word t) (memory : Nat → Word t),
    let kernel := rtlRelocateRelrEntries (fun i => table.getD i 0) table.length base
      (start base memory)
    let self := osdllRelocateSelf (fun i => table.getD (i / t.wordBytes) 0)
      (t.wordBytes * table.length) base 0 (start base memory)
    kernel.added.Perm words ∧ self.added.Perm words ∧
      ∀ o, kernel.memory o = memory o + words.count o • base ∧
        self.memory o = memory o + words.count o • base

/-- The table starts with an address. -/
def StartsWithAddress (table : List (Word t)) : Prop :=
  ∀ rel ∈ table.head?, rel.getLsbD 0 = false

variable {table : List (Word t)}

theorem visited_start (h : StartsWithAddress table) (cur cur' : Nat) :
    visited cur table = visited cur' table := by
  cases table with
  | nil => rfl
  | cons rel table =>
    have hrl : rel.getLsbD 0 = false := h rel rfl
    simp [visited, hrl]

theorem relocates_iff_perm {words : List Nat}
    (h : StartsWithAddress table) : Relocates table words ↔ (visited 0 table).Perm words := by
  have hsl : ∀ (base : Word t) (s : Relr t), osdllRelocateSelf
      (fun i => table.getD (i / t.wordBytes) 0) (t.wordBytes * table.length) base 0 s
        = table.foldl (turn base) s :=
    fun base s => osdllRelocateSelf_eq base table 0 s
  have hadded : ∀ (base : Word t) (memory : Nat → Word t),
      (table.foldl (turn base) (start base memory)).added = visited 0 table := by
    intro base memory
    rw [added_foldl_turn]
    exact visited_start h _ 0
  constructor
  · intro hr
    have hkr := (hr 0 fun _ => 0).1
    rwa [rtlRelocateRelrEntries_eq, hadded] at hkr
  · intro hp base memory
    have hlg : (table.foldl (turn base) (start base memory)).Logged base memory :=
      Logged.foldl_turn (fun o => by simp [start]) table
    have hmr : ∀ o, (table.foldl (turn base) (start base memory)).memory o
        = memory o + words.count o • base := by
      intro o
      rw [hlg, hadded, hp.count_eq]
    simp only [rtlRelocateRelrEntries_eq, hsl, hadded]
    exact ⟨hp, hp, fun o => ⟨hmr o, hmr o⟩⟩

theorem relocates_encoded_iff (h : StartsWithAddress table) :
    Relocates table (encoded 0 table) ↔ BitmapsFull false table := by
  rw [relocates_iff_perm h]
  have hif := visited_eq_encoded_iff table 0 0
  simp only [Nat.mul_zero, Nat.add_zero, ne_eq, not_true_eq_false, decide_false] at hif
  rw [← hif]
  constructor
  · intro hp
    exact eq_of_forall₂_le_of_sum_eq (visited_le_encoded table 0 0) (Perm.sum_nat hp)
  · intro heq
    rw [heq]

end Relr
end Boron.Rtl
