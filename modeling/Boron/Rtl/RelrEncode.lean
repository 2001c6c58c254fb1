import Boron.Rtl.Relr
import Mathlib.Data.List.TakeWhile

/-! # Encoding a set of words as a RELR table

The encoder of the linkers: an address entry for the first word, then bitmaps for as long as the
next `W - 1` words hold something to relocate, then an address entry again. What it makes of a
sorted list of word-aligned addresses encodes this list, so a decoder that follows the format
relocates it. -/

namespace Boron.Rtl.Relr

open List

variable {t : Target}

/-- The words a bitmap covers, in bytes. -/
def span (t : Target) : Nat := t.wordBytes * (t.wordBits - 1)

/-- The bitmap of some words at or after `next`. -/
def bitmap (next : Nat) (words : List Nat) : Word t :=
  words.foldr (fun a b => BitVec.twoPow _ ((a - next) / t.wordBytes + 1) ||| b) 1

/-- Encode the words after an address entry or a bitmap, `next` being the first word that is not
covered yet. -/
def encodeFrom (t : Target) (next : Nat) (words : List Nat) : List (Word t) :=
  match words with
  | [] => []
  | a :: rest =>
    if a < next + span t then
      bitmap next ((a :: rest).takeWhile (· < next + span t)) ::
        encodeFrom t (next + span t) ((a :: rest).dropWhile (· < next + span t))
    else BitVec.ofNat _ a :: encodeFrom t (a + t.wordBytes) rest
termination_by words.length
decreasing_by
  · next h =>
      have hdrop := (dropWhile_suffix (l := rest) (· < next + span t)).length_le
      simp only [dropWhile_cons, h, decide_true, if_true, length_cons]
      omega
  · simp

/-- Encode a sorted list of words. -/
def encode (t : Target) : List Nat → List (Word t)
  | [] => []
  | a :: rest => BitVec.ofNat _ a :: encodeFrom t (a + t.wordBytes) rest

/-- Offsets of words of an image, in increasing order. -/
structure Encodable (t : Target) (words : List Nat) : Prop where
  sorted : words.Pairwise (· < ·)
  aligned : ∀ a ∈ words, t.wordBytes ∣ a
  fits : ∀ a ∈ words, a < 2 ^ t.wordBits

variable {a : Nat} {words : List Nat}

theorem Encodable.tail (h : Encodable t (a :: words)) : Encodable t words where
  sorted := h.sorted.of_cons
  aligned x hx := h.aligned x (mem_cons_of_mem a hx)
  fits x hx := h.fits x (mem_cons_of_mem a hx)

theorem Encodable.next_le (h : Encodable t (a :: words)) : ∀ x ∈ words, a + t.wordBytes ≤ x := by
  intro x hx
  have hlt := rel_of_pairwise_cons h.sorted hx
  have hdv := Nat.dvd_sub (h.aligned x (mem_cons_of_mem a hx)) (h.aligned a mem_cons_self)
  have := Nat.le_of_dvd (by omega) hdv
  omega

/-! ## Address entries -/

theorem toNat_address (h : a < 2 ^ t.wordBits) : (BitVec.ofNat t.wordBits a).toNat = a := by
  rw [BitVec.toNat_ofNat, Nat.mod_eq_of_lt h]

theorem even_address (h : t.wordBytes ∣ a) : (BitVec.ofNat t.wordBits a).getLsbD 0 = false := by
  have he : a % 2 = 0 := by
    obtain ⟨k, rfl⟩ := h
    cases t <;> simp only [Target.wordBytes, Target.wordBits] <;> omega
  rw [BitVec.getLsbD_ofNat]
  simp [Nat.testBit_zero, he]

/-! ## Bitmaps -/

theorem getLsbD_bitmap (next : Nat) (words : List Nat) (i : Nat) (hi : i < t.wordBits) :
    (bitmap (t := t) next words).getLsbD i = true
      ↔ i = 0 ∨ ∃ a ∈ words, (a - next) / t.wordBytes + 1 = i := by
  unfold bitmap
  induction words with
  | nil =>
    have hon : (1 : Word t).getLsbD i = decide (i = 0) := by
      cases t <;> simp [BitVec.getLsbD_one, Target.wordBits]
    rw [foldr_nil, hon]
    simp
  | cons a words ih =>
    rw [foldr_cons, BitVec.getLsbD_or, Bool.or_eq_true, ih, BitVec.getLsbD_twoPow]
    simp only [Bool.and_eq_true, decide_eq_true_iff, mem_cons, exists_eq_or_imp]
    constructor
    · rintro (⟨-, rfl⟩ | h | h)
      · exact .inr (.inl rfl)
      · exact .inl h
      · exact .inr (.inr h)
    · rintro (h | h | h)
      · exact .inr (.inl h)
      · exact .inl ⟨h ▸ hi, h⟩
      · exact .inr (.inr h)

theorem marked_bitmap {next : Nat} (words : List Nat) (hsr : words.Pairwise (· < ·))
    (hnext : t.wordBytes ∣ next)
    (hwr : ∀ a ∈ words, t.wordBytes ∣ a ∧ next ≤ a ∧ a < next + span t) :
    marked t next (t.wordBits - 1) (fun i => (bitmap (t := t) next words).getLsbD (i + 1)) = words := by
  have hpos := t.wordBytes_pos
  have hme : ∀ x, x ∈ marked t next (t.wordBits - 1)
      (fun i => (bitmap (t := t) next words).getLsbD (i + 1)) ↔ x ∈ words := by
    intro x
    have hw : ∀ a ∈ words, next + t.wordBytes * ((a - next) / t.wordBytes) = a := by
      intro a ha
      obtain ⟨hdv, hle, -⟩ := hwr a ha
      rw [Nat.mul_div_cancel' (Nat.dvd_sub hdv hnext)]
      omega
    unfold marked
    rw [mem_map]
    constructor
    · rintro ⟨i, hi, rfl⟩
      rw [mem_filter, mem_range] at hi
      obtain h | ⟨a, ha, hai⟩ := (getLsbD_bitmap next words (i + 1) (by omega)).1 hi.2
      · omega
      · obtain rfl : (a - next) / t.wordBytes = i := by omega
        rwa [hw a ha]
    · intro hx
      obtain ⟨hdv, hle, hlt⟩ := hwr x hx
      refine ⟨(x - next) / t.wordBytes, ?_, hw x hx⟩
      have hi : (x - next) / t.wordBytes < t.wordBits - 1 := by
        rw [Nat.div_lt_iff_lt_mul hpos, Nat.mul_comm]
        unfold span at hlt
        omega
      rw [mem_filter, mem_range]
      exact ⟨hi, (getLsbD_bitmap next words _ (Nat.add_lt_of_lt_sub hi)).2 (.inr ⟨x, hx, rfl⟩)⟩
  have hmr : (marked t next (t.wordBits - 1)
      (fun i => (bitmap (t := t) next words).getLsbD (i + 1))).Pairwise (· < ·) := by
    unfold marked
    refine List.Pairwise.map _ ?_ (List.Pairwise.filter _ pairwise_lt_range)
    intro i j hj
    have := Nat.mul_lt_mul_of_pos_left hj hpos
    omega
  have hp := (perm_ext_iff_of_nodup (hmr.imp Nat.ne_of_lt) (hsr.imp Nat.ne_of_lt)).2 hme
  exact hp.eq_of_pairwise (fun a b _ _ hb hba => absurd hb (Nat.lt_asymm hba)) hmr hsr

/-! ## The format decodes what the encoder makes -/

/-- What a bitmap leaves over lies past it. -/
theorem le_of_mem_dropWhile {limit : Nat} (hsr : words.Pairwise (· < ·)) :
    ∀ a ∈ words.dropWhile (· < limit), limit ≤ a := by
  induction words with
  | nil => simp
  | cons b words ih =>
    intro a ha
    rw [dropWhile_cons] at ha
    split at ha
    · exact ih hsr.of_cons a ha
    · next hb =>
        have hle : limit ≤ b := by simpa using hb
        rcases mem_cons.1 ha with rfl | ha
        · exact hle
        · exact Nat.le_trans hle (Nat.le_of_lt (rel_of_pairwise_cons hsr ha))

theorem encoded_encodeFrom (next : Nat) (words : List Nat) (h : Encodable t words)
    (hnext : t.wordBytes ∣ next) (hle : ∀ a ∈ words, next ≤ a) :
    encoded next (encodeFrom t next words) = words := by
  fun_induction encodeFrom t next words with
  | case1 next => rfl
  | case2 next a rest hlt ih =>
    have htk := takeWhile_append_dropWhile (p := (· < next + span t)) (l := a :: rest)
    have hsb : ∀ x ∈ (a :: rest).dropWhile (· < next + span t), x ∈ a :: rest :=
      fun x hx => (dropWhile_suffix _).subset hx
    have hb : (bitmap (t := t) next ((a :: rest).takeWhile (· < next + span t))).getLsbD 0 = true :=
      (getLsbD_bitmap _ _ 0 (by cases t <;> decide)).2 (.inl rfl)
    have hmr := marked_bitmap ((a :: rest).takeWhile (· < next + span t))
      (h.sorted.sublist (takeWhile_sublist _)) hnext (fun x hx => by
        have hx' := all_eq_true.1 (all_takeWhile (l := a :: rest)) x hx
        have hin := (takeWhile_sublist _).subset hx
        exact ⟨h.aligned x hin, hle x hin, by simpa using hx'⟩)
    rw [encoded, if_pos hb, hmr]
    have hrs := ih ⟨h.sorted.sublist (dropWhile_sublist _),
      fun x hx => h.aligned x (hsb x hx), fun x hx => h.fits x (hsb x hx)⟩
      (Nat.dvd_add hnext (Nat.dvd_mul_right _ _)) (le_of_mem_dropWhile h.sorted)
    rw [span] at hrs ⊢
    rw [hrs]
    exact htk
  | case3 next a rest hge ih =>
    have ha : a ∈ a :: rest := mem_cons_self
    rw [encoded, if_neg (by simp [even_address (h.aligned a ha)]), toNat_address (h.fits a ha)]
    rw [ih h.tail (Nat.dvd_add (h.aligned a ha) (Nat.dvd_refl _)) h.next_le]

/-- **Encoding and decoding by the format is the identity.** -/
theorem encoded_encode (h : Encodable t words) (cur : Nat) : encoded cur (encode t words) = words := by
  cases words with
  | nil => rfl
  | cons a rest =>
    have ha : a ∈ a :: rest := mem_cons_self
    rw [encode, encoded, if_neg (by simp [even_address (h.aligned a ha)]),
      toNat_address (h.fits a ha), encoded_encodeFrom _ _ h.tail
        (Nat.dvd_add (h.aligned a ha) (Nat.dvd_refl _)) h.next_le]

theorem startsWithAddress_encode (h : Encodable t words) : StartsWithAddress (encode t words) := by
  cases words with
  | nil => simp [StartsWithAddress, encode]
  | cons a rest =>
    intro rel hrl
    obtain rfl : BitVec.ofNat t.wordBits a = rel := Option.some.inj hrl
    exact even_address (h.aligned a mem_cons_self)

/-! ## Which tables and sets are relocated right -/

/-- For every table that starts with an address, the decoders of the kernel and of the user library
add the image base exactly once to each word that the table encodes and to no other word exactly
when, in each run of bitmaps, a bitmap that has a marked word comes after bitmaps with their highest
bit set. For a sorted set of word-aligned addresses this is asked of the table that encodes it, and
the set is what is relocated. -/
theorem relocates_iff_bitmapsFull (table : List (Word t)) (h : StartsWithAddress table) :
    (Relocates table (encoded 0 table) ↔ BitmapsFull false table) ∧
    ∀ words, Encodable t words →
      (Relocates (encode t words) words ↔ BitmapsFull false (encode t words)) := by
  refine ⟨relocates_encoded_iff h, fun words hw => ?_⟩
  have hif := relocates_encoded_iff (startsWithAddress_encode hw)
  rwa [encoded_encode hw] at hif

/-- What the encoder makes of the words at `0x1000`, `0x1008` and `0x1200`: an address and two bitmaps
that each mark their first word. -/
def twoBitmaps : List (Word .amd64) := [0x1000, 3, 3]

theorem twoBitmaps_start : StartsWithAddress twoBitmaps := by
  intro rel hrl
  obtain rfl : (0x1000 : Word .amd64) = rel := Option.some.inj hrl
  decide

theorem relocates_iff_bitmapsFull_twoBitmaps : StartsWithAddress twoBitmaps ∧
    ((Relocates twoBitmaps (encoded 0 twoBitmaps) ↔ BitmapsFull false twoBitmaps) ∧
      ∀ words, Encodable .amd64 words →
        (Relocates (encode .amd64 words) words ↔ BitmapsFull false (encode .amd64 words))) :=
  ⟨twoBitmaps_start, relocates_iff_bitmapsFull _ twoBitmaps_start⟩

/-- The decoders relocate `0x1010` in place of `0x1200`. -/
theorem twoBitmaps_not_relocated : ¬ ∀ table : List (Word .amd64), StartsWithAddress table →
      Relocates table (encoded 0 table) := by
  intro ha
  have hp := (relocates_iff_perm twoBitmaps_start).1 (ha _ twoBitmaps_start)
  have he : 0x1200 ∈ encoded 0 twoBitmaps := by decide
  have hvs : 0x1200 ∉ visited 0 twoBitmaps := by decide
  exact hvs (hp.mem_iff.2 he)

end Boron.Rtl.Relr
