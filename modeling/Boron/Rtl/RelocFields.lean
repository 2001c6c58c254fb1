import Boron.Rtl.Reloc
import Mathlib.Data.Nat.Bitwise

/-! # What an addend changes

Each relocation type puts a field of `symbol + addend`, or of its distance from the place, into the
bytes at the place and leaves the other bits alone. An addend is harmless when this field comes out
as it does without it. -/

namespace Boron.Rtl

variable {t : Target}

/-- The addend does not reach the field that the type stores: it is zero in the bits that the field
takes, carries from the bits below the field included. -/
def Reloc.AddendHarmless (kind : Reloc) (symbol place addend : Word t) : Prop :=
  match kind with
  | .none => True
  | .symbol => True
  | .abs => addend = 0
  | .relative => addend = 0
  | .abs32 => addend.toNat % 2 ^ 32 = 0
  | .rel32 => addend.toNat % 2 ^ 32 = 0
  | .sbrel32 => addend.toNat % 2 ^ 32 = 0
  | .abs16 => addend.toNat % 2 ^ 16 = 0
  | .abs8 => addend.toNat % 2 ^ 8 = 0
  | .thmSwi8 => addend.toNat % 2 ^ 8 = 0
  | .abs12 => addend.toNat % 2 ^ 12 = 0
  | .swi24 => addend.toNat % 2 ^ 24 = 0
  | .pc24 => ((symbol - place).toNat % 2 ^ 2 + addend.toNat % 2 ^ 26) / 2 ^ 2 % 2 ^ 24 = 0
  | .xpc25 => ((symbol - place).toNat % 2 + addend.toNat % 2 ^ 26) / 2 % 2 ^ 25 = 0
  | .pc13 =>
    addend.toNat % 2 ^ 12 = 0 ∧
      ((symbol - place + addend).toNat / 2 ^ 31 % 2 = (symbol - place).toNat / 2 ^ 31 % 2)
  | .thmAbs5 => (symbol.toNat % 2 ^ 2 + addend.toNat % 2 ^ 7) / 2 ^ 2 % 2 ^ 5 = 0
  | .thmPc8 =>
    ((symbol - (place &&& ~~~3)).toNat % 2 ^ 2 + addend.toNat % 2 ^ 10) / 2 ^ 2 % 2 ^ 8 = 0

/-! ## Fields of words -/

variable {n : Nat}

/-- Two words put together from disjoint bits are equal exactly when their parts are. -/
theorem or_eq_or_iff (mask : BitVec n) {x x' y y' : BitVec n}
    (hx : x &&& mask = x) (hx' : x' &&& mask = x') (hy : y &&& mask = 0) (hy' : y' &&& mask = 0) :
    x ||| y = x' ||| y' ↔ x = x' ∧ y = y' := by
  have bits : ∀ a a' b b' m : Bool, (a && m) = a → (a' && m) = a' → (b && m) = false →
      (b' && m) = false → (a || b) = (a' || b') → a = a' ∧ b = b' := by decide
  constructor
  · intro h
    have hb : ∀ i, x.getLsbD i = x'.getLsbD i ∧ y.getLsbD i = y'.getLsbD i := by
      intro i
      refine bits _ _ _ _ (mask.getLsbD i) ?_ ?_ ?_ ?_ ?_
      · rw [← BitVec.getLsbD_and, hx]
      · rw [← BitVec.getLsbD_and, hx']
      · rw [← BitVec.getLsbD_and, hy]
        exact BitVec.getLsbD_zero
      · rw [← BitVec.getLsbD_and, hy']
        exact BitVec.getLsbD_zero
      · rw [← BitVec.getLsbD_or, h, BitVec.getLsbD_or]
    exact ⟨BitVec.eq_of_getLsbD_eq fun i _ => (hb i).1, BitVec.eq_of_getLsbD_eq fun i _ => (hb i).2⟩
  · rintro ⟨rfl, rfl⟩
    rfl

variable {f f' : BitVec n}

theorem insert_eq_iff (ins mask : BitVec n) (hf : f &&& mask = 0) (hf' : f' &&& mask = 0) :
    ins &&& mask ||| f = ins &&& mask ||| f' ↔ f = f' := by
  have hsl : ins &&& mask &&& mask = ins &&& mask := by
    rw [BitVec.and_assoc, BitVec.and_self]
  rw [or_eq_or_iff mask hsl hsl hf hf']
  exact and_iff_right rfl

variable {k : Nat}

theorem and_eq_zero_of_lt {mask : BitVec n} (hf : f.toNat < 2 ^ k)
    (hms : mask.toNat % 2 ^ k = 0) : f &&& mask = 0 := by
  apply BitVec.eq_of_getLsbD_eq
  intro i _
  rw [BitVec.getLsbD_and]
  by_cases hi : i < k
  · have hb : mask.getLsbD i = false := by
      have hts := congrArg (Nat.testBit · i) hms
      simpa [Nat.testBit_mod_two_pow, hi, BitVec.getLsbD] using hts
    rw [hb, Bool.and_false]
    exact BitVec.getLsbD_zero.symm
  · have hb : f.getLsbD i = false := by
      refine Nat.testBit_lt_two_pow (Nat.lt_of_lt_of_le hf ?_)
      exact Nat.pow_le_pow_right (by omega) (by omega)
    rw [hb, Bool.false_and]
    exact BitVec.getLsbD_zero.symm

theorem toNat_and_low (x low : BitVec n) (k : Nat) (h : low.toNat = 2 ^ k - 1) :
    (x &&& low).toNat = x.toNat % 2 ^ k := by
  rw [BitVec.toNat_and, h, Nat.and_two_pow_sub_one_eq_mod]

/-- The field that an arithmetic shift by two and a mask of 24 bits leave. -/
theorem toNat_disp24 (x : BitVec 32) : (disp24 x).toNat = x.toNat / 4 % 2 ^ 24 := by
  rw [disp24, toNat_and_low _ _ 24 (by decide)]
  apply Nat.eq_of_testBit_eq
  intro i
  rw [Nat.testBit_mod_two_pow, Nat.testBit_mod_two_pow]
  by_cases hi : i < 24
  · simp only [hi, decide_true, Bool.true_and]
    have h4 : x.toNat / 4 = x.toNat >>> 2 := by rw [Nat.shiftRight_eq_div_pow]
    rw [h4, Nat.testBit_shiftRight, ← BitVec.getLsbD, ← BitVec.getLsbD, BitVec.getLsbD_sshiftRight]
    have h32 : ¬ 32 ≤ i := by omega
    have h2 : 2 + i < 32 := by omega
    simp [h32, h2]
  · simp [hi]

theorem stored_eq_iff (hn : 2 ^ n = 256 ^ k) (h : n ≤ t.wordBits) :
    (f.setWidth t.wordBits).toNat % 256 ^ k = (f'.setWidth t.wordBits).toNat % 256 ^ k ↔ f = f' := by
  have hft : ∀ g : BitVec n, (g.setWidth t.wordBits).toNat % 256 ^ k = g.toNat := by
    intro g
    have hle := Nat.pow_le_pow_right (show 0 < 2 by decide) h
    rw [BitVec.toNat_setWidth, Nat.mod_eq_of_lt (Nat.lt_of_lt_of_le g.isLt hle), ← hn,
      Nat.mod_eq_of_lt g.isLt]
  rw [hft, hft]
  exact ⟨BitVec.eq_of_toNat_eq, congrArg _⟩

theorem Target.le_wordBits (t : Target) : 32 ≤ t.wordBits := by
  cases t <;> decide

/-- The low bits of a sum are those of one summand exactly when the other has none. -/
theorem add_mod_eq_iff (x a : Word t) (hk : k ≤ t.wordBits) :
    (x + a).toNat % 2 ^ k = x.toNat % 2 ^ k ↔ a.toNat % 2 ^ k = 0 := by
  rw [BitVec.toNat_add, Nat.mod_mod_of_dvd _ (Nat.pow_dvd_pow 2 hk), Nat.add_mod]
  rcases Nat.lt_or_ge (x.toNat % 2 ^ k + a.toNat % 2 ^ k) (2 ^ k) with h | h
  · rw [Nat.mod_eq_of_lt h]
    omega
  · rw [Nat.mod_eq_sub_mod h, Nat.mod_eq_of_lt (by omega)]
    omega

theorem thmBit_eq (x : BitVec 32) : thmBit x = if x.toNat / 2 % 2 = 1 then 1 else 0 := by
  have hand : (x &&& 2).toNat = 2 * (x.toNat / 2 % 2) := by
    have hb : x.toNat &&& 2 = (x.toNat.testBit 1).toNat * 2 ^ 1 := Nat.and_two_pow x.toNat 1
    have hts : (x.toNat.testBit 1).toNat = x.toNat / 2 % 2 := by
      rw [Nat.toNat_testBit, Nat.pow_one]
    rw [BitVec.toNat_and, show (2 : BitVec 32).toNat = 2 from rfl, hb, hts]
    omega
  have hz : x &&& 2 = 0 ↔ (x &&& 2).toNat = 0 := by
    rw [← BitVec.toNat_inj]
    rfl
  unfold thmBit
  by_cases h : x.toNat / 2 % 2 = 1
  · rw [if_pos h, if_pos]
    rw [ne_eq, hz]
    omega
  · rw [if_neg h, if_neg]
    rw [ne_eq, not_not, hz]
    omega

theorem flag_eq_iff {c c' : Prop} [Decidable c] [Decidable c'] :
    (if c then (1 : BitVec 32) else 0) = (if c' then (1 : BitVec 32) else 0) ↔ (c ↔ c') := by
  by_cases h : c <;> by_cases h' : c' <;> simp [h, h']

/-- A branch displacement and a Thumb bit above it. -/
theorem xpc_field_eq_iff (x y : BitVec 32) : disp24 x ||| thmBit x <<< 24 = disp24 y ||| thmBit y <<< 24
      ↔ disp24 x = disp24 y ∧ thmBit x = thmBit y := by
  have hw : ∀ z : BitVec 32, disp24 z &&& 0x00FFFFFF = disp24 z := by
    intro z
    rw [disp24, BitVec.and_assoc, BitVec.and_self]
  have hh : ∀ z : BitVec 32, thmBit z <<< 24 &&& 0x00FFFFFF = 0 := by
    intro z
    unfold thmBit
    split <;> decide
  rw [or_eq_or_iff 0x00FFFFFF (hw x) (hw y) (hh x) (hh y)]
  refine and_congr_right fun _ => ⟨fun h => ?_, fun h => by rw [h]⟩
  have hne : (1#32) <<< 24 ≠ (0#32) <<< 24 := by decide
  rw [thmBit_eq, thmBit_eq] at h ⊢
  split at h <;> split at h
  · next hx hy => rw [if_pos hx, if_pos hy]
  · exact absurd h hne
  · exact absurd h.symm hne
  · next hx hy => rw [if_neg hx, if_neg hy]

theorem pc13_field_eq_iff (x y : BitVec 32) :
    direction x <<< 23 ||| imm12 x = direction y <<< 23 ||| imm12 y
      ↔ x.msb = y.msb ∧ x.toNat % 2 ^ 12 = y.toNat % 2 ^ 12 := by
  have hh : ∀ z : BitVec 32, direction z <<< 23 &&& 0x00800000 = direction z <<< 23 := by
    intro z
    unfold direction
    split <;> decide
  have hw : ∀ z : BitVec 32, imm12 z &&& 0x00800000 = 0 := by
    intro z
    rw [imm12, BitVec.and_assoc]
    exact BitVec.and_zero
  have hdr : direction x <<< 23 = direction y <<< 23 ↔ x.msb = y.msb := by
    unfold direction
    cases x.msb <;> cases y.msb <;> decide
  have him : ∀ z : BitVec 32, (imm12 z).toNat
      = (if z.msb then (2 ^ 32 - z.toNat) % 2 ^ 32 else z.toNat) % 2 ^ 12 := by
    intro z
    rw [imm12, toNat_and_low _ _ 12 (by decide)]
    split
    · rw [BitVec.toNat_neg]
    · rfl
  rw [or_eq_or_iff 0x00800000 (hh x) (hh y) (hw x) (hw y), hdr, ← BitVec.toNat_inj, him, him]
  refine and_congr_right fun hms => ?_
  rw [hms]
  split <;> omega

theorem pc13_field_and_eq_zero (x : BitVec 32) :
    (direction x <<< 23 ||| imm12 x) &&& ~~~(1#32 <<< 23 ||| 0xFFF#32) = 0 := by
  have hdr : ~~~(1#32 <<< 23 ||| 0xFFF#32) &&& direction x <<< 23 = 0 := by
    unfold direction
    split <;> decide
  have him : ~~~(1#32 <<< 23 ||| 0xFFF#32) &&& imm12 x = 0 := by
    rw [imm12, BitVec.and_comm, BitVec.and_assoc]
    exact BitVec.and_zero
  rw [BitVec.and_comm, BitVec.and_or_distrib_left, hdr, him]
  decide

/-- A field of five bits from bit 6 on stays inside the bits that the mask frees. -/
theorem shifted_and_eq_zero (x : BitVec 16) :
    (x &&& 0x1F) <<< 6 &&& ~~~((0x1F : BitVec 16) <<< 6) = 0 := by
  rw [BitVec.shiftLeft_and_distrib, BitVec.and_assoc]
  exact BitVec.and_zero

/-! ## One lemma for each shape of a type -/

namespace Reloc

variable {kind : Reloc} {addend base symbol place : Word t} {m : Memory t}

/-- The bytes that a type stores with an addend are those that it stores without. -/
def StoresAlike (kind : Reloc) (addend base symbol place : Word t) (m : Memory t) : Prop :=
  m.memcpy place (kind.compute addend base symbol place m).1
      (kind.compute addend base symbol place m).2
    = m.memcpy place (kind.compute 0 base symbol place m).1 (kind.compute 0 base symbol place m).2

variable {x : Word t}

theorem storesAlike_word (h : ∀ a, kind.compute a base symbol place m = (x + a, t.wordBytes)) :
    kind.StoresAlike addend base symbol place m ↔ addend = 0 := by
  rw [StoresAlike, h, h, Memory.memcpy_word_eq_iff, BitVec.add_right_inj]

variable {n : Nat}

theorem storesAlike_low (hn : n ≤ t.wordBytes)
    (h : ∀ a, ((kind.compute a base symbol place m).1.toNat % 256 ^ n
      = (x + a).toNat % 256 ^ n) ∧ (kind.compute a base symbol place m).2 = n) :
    kind.StoresAlike addend base symbol place m ↔ addend.toNat % 2 ^ (8 * n) = 0 := by
  have hb : 8 * n ≤ t.wordBits := by
    have := t.wordBits_eq
    omega
  have hp : 256 ^ n = 2 ^ (8 * n) := by rw [Nat.pow_mul]
  rw [StoresAlike, (h addend).2, (h 0).2, Memory.memcpy_eq_iff m place _ _ hn, (h addend).1,
    (h 0).1, hp, add_zero,
    add_mod_eq_iff x addend hb]

variable {k : Nat}

theorem storesAlike_field (kind : Reloc) (addend base symbol place : Word t) (m : Memory t) (ins mask : BitVec n) (field : Word t → BitVec n)
    (hn : 2 ^ n = 256 ^ k) (hnt : n ≤ t.wordBits) (hk : k ≤ t.wordBytes)
    (hfl : ∀ a, field a &&& mask = 0)
    (h : ∀ a, kind.compute a base symbol place m = ((ins &&& mask ||| field a).setWidth _, k)) :
    kind.StoresAlike addend base symbol place m ↔ field addend = field 0 := by
  rw [StoresAlike, h, h, Memory.memcpy_eq_iff m place _ _ hk, stored_eq_iff hn hnt,
    insert_eq_iff ins mask (hfl addend) (hfl 0)]

variable {field : Word t → BitVec n}

theorem field_eq_iff (hk : k ≤ t.wordBits) (h : ∀ a, (field a).toNat = (x + a).toNat % 2 ^ k) :
    field addend = field 0 ↔ addend.toNat % 2 ^ k = 0 := by
  rw [← add_mod_eq_iff x addend hk]
  have hz : (x + 0).toNat = x.toNat := by rw [add_zero]
  constructor
  · intro heq
    rw [← h, heq, h, hz]
  · intro heq
    apply BitVec.eq_of_toNat_eq
    rw [h, h, hz, heq]

theorem four_le (t : Target) : 4 ≤ t.wordBytes := by
  cases t <;> decide

theorem storesAlike_abs16 :
    abs16.StoresAlike addend base symbol place m ↔ abs16.AddendHarmless symbol place addend := by
  have := four_le t
  refine storesAlike_low (x := symbol) (n := 2) (by omega) fun a => ⟨?_, rfl⟩
  have hms : ((0xFFFF : Word t)).toNat = 2 ^ 16 - 1 := by cases t <;> decide
  rw [compute, toNat_and_low _ _ 16 hms]
  omega

theorem storesAlike_abs8 :
    abs8.StoresAlike addend base symbol place m ↔ abs8.AddendHarmless symbol place addend := by
  have := four_le t
  refine storesAlike_low (x := symbol) (n := 1) (by omega) fun a => ⟨?_, rfl⟩
  have hms : ((0xFF : Word t)).toNat = 2 ^ 8 - 1 := by cases t <;> decide
  rw [compute, toNat_and_low _ _ 8 hms]
  omega

theorem storesAlike_low_field {l : Nat} {ins mask : BitVec n} (hn : 2 ^ n = 256 ^ l) (hnt : n ≤ t.wordBits)
    (hl : l ≤ t.wordBytes) (hk : k ≤ t.wordBits) (hms : mask.toNat % 2 ^ k = 0)
    (hfl : ∀ a, (field a).toNat = (x + a).toNat % 2 ^ k)
    (h : ∀ a, kind.compute a base symbol place m = ((ins &&& mask ||| field a).setWidth _, l)) :
    kind.StoresAlike addend base symbol place m ↔ addend.toNat % 2 ^ k = 0 := by
  rw [storesAlike_field kind addend base symbol place m ins mask field hn hnt hl ?_ h,
    field_eq_iff hk hfl]
  intro a
  refine and_eq_zero_of_lt ?_ hms
  rw [hfl]
  exact Nat.mod_lt _ (Nat.two_pow_pos k)

theorem storesAlike_abs12 :
    abs12.StoresAlike addend base symbol place m ↔ abs12.AddendHarmless symbol place addend := by
  have hw : ((0xFFF : Word t)).toNat = 2 ^ 12 - 1 := by cases t <;> decide
  refine storesAlike_low_field (x := symbol) (by decide) t.le_wordBits (four_le t)
    (Nat.le_trans (by decide) t.le_wordBits) (by decide) (fun a => ?_) (fun a => rfl)
  rw [BitVec.toNat_setWidth, toNat_and_low _ _ 12 hw]
  omega

theorem storesAlike_swi24 :
    swi24.StoresAlike addend base symbol place m ↔ swi24.AddendHarmless symbol place addend := by
  have hw : ((0x00FFFFFF : Word t)).toNat = 2 ^ 24 - 1 := by cases t <;> decide
  refine storesAlike_low_field (x := symbol) (by decide) t.le_wordBits (four_le t)
    (Nat.le_trans (by decide) t.le_wordBits) (by decide) (fun a => ?_) (fun a => rfl)
  rw [BitVec.toNat_setWidth, toNat_and_low _ _ 24 hw]
  omega

theorem storesAlike_thmSwi8 : thmSwi8.StoresAlike addend base symbol place m
      ↔ thmSwi8.AddendHarmless symbol place addend := by
  have hw : ((0xFF : Word t)).toNat = 2 ^ 8 - 1 := by cases t <;> decide
  have := four_le t
  have := t.le_wordBits
  refine storesAlike_low_field (x := symbol) (by decide) (by omega) (by omega) (by omega)
    (by decide) (fun a => ?_) (fun a => rfl)
  rw [BitVec.toNat_setWidth, toNat_and_low _ _ 8 hw]
  omega

/-! ## Fields above the lowest bits -/

/-- A sum modulo the width of a word, as far as 32 bits go. -/
theorem toNat_add_mod (x a : Word t) : (x + a).toNat % 2 ^ 32 = (x.toNat + a.toNat) % 2 ^ 32 := by
  rw [BitVec.toNat_add, Nat.mod_mod_of_dvd _ (Nat.pow_dvd_pow 2 t.le_wordBits)]

theorem toNat_zero_word : (0 : Word t).toNat = 0 := by simp

/-- The distance from a place, of which an addend is one part. -/
theorem toNat_distance (x a y : Word t) :
    ((x + a - y).setWidth 32).toNat = ((x - y).toNat + a.toNat) % 2 ^ 32 := by
  have hsm : x + a - y = x - y + a := by ring
  rw [BitVec.toNat_setWidth, hsm, toNat_add_mod]

theorem storesAlike_pc24 :
    pc24.StoresAlike addend base symbol place m ↔ pc24.AddendHarmless symbol place addend := by
  rw [storesAlike_field pc24 addend base symbol place m (m.read32 place) 0xFF000000
    (fun a => disp24 ((symbol + a - place).setWidth 32)) (by decide) t.le_wordBits (four_le t) ?_
    (fun a => rfl)]
  · rw [← BitVec.toNat_inj, toNat_disp24, toNat_disp24, toNat_distance, toNat_distance,
      AddendHarmless, toNat_zero_word]
    omega
  · intro a
    refine and_eq_zero_of_lt (k := 24) ?_ (by decide)
    rw [toNat_disp24]
    exact Nat.mod_lt _ (by decide)

theorem storesAlike_thmPc8 :
    thmPc8.StoresAlike addend base symbol place m ↔ thmPc8.AddendHarmless symbol place addend := by
  have := four_le t
  have := t.le_wordBits
  have hfl : ∀ a : Word t, (imm8 ((symbol + a - (place &&& ~~~3)).setWidth 32)).toNat
      = ((symbol - (place &&& ~~~3)).toNat + a.toNat) % 2 ^ 32 / 4 % 2 ^ 8 := by
    intro a
    rw [imm8, BitVec.toNat_setWidth, toNat_and_low _ _ 8 (by decide), BitVec.toNat_ushiftRight,
      toNat_distance, Nat.shiftRight_eq_div_pow]
    omega
  have hc : ∀ a : Word t, thmPc8.compute a base symbol place m = ((m.read16 place &&& ~~~0xFF#16
        ||| imm8 ((symbol + a - (place &&& ~~~3)).setWidth 32)).setWidth _, 2) := by
    intro a
    rw [compute]
  have hds : ∀ a : Word t, imm8 ((symbol + a - (place &&& ~~~3)).setWidth 32) &&& ~~~0xFF#16 = 0 := by
    intro a
    refine and_eq_zero_of_lt (k := 8) ?_ (by decide)
    rw [hfl]
    exact Nat.mod_lt _ (by decide)
  have hif := storesAlike_field thmPc8 addend base symbol place m (m.read16 place) (~~~0xFF#16)
    (fun a => imm8 ((symbol + a - (place &&& ~~~3)).setWidth 32))
    (by decide) (by omega) (by omega) hds hc
  rw [hif, ← BitVec.toNat_inj, hfl, hfl, AddendHarmless, toNat_zero_word]
  omega

theorem storesAlike_thmAbs5 : thmAbs5.StoresAlike addend base symbol place m
      ↔ thmAbs5.AddendHarmless symbol place addend := by
  have := four_le t
  have := t.le_wordBits
  have hw : ((0x1F : Word t)).toNat = 2 ^ 5 - 1 := by cases t <;> decide
  have hfl : ∀ a : Word t, (imm5 (symbol + a)).toNat
      = (symbol.toNat + a.toNat) % 2 ^ 32 / 4 % 2 ^ 5 := by
    intro a
    have hsm := toNat_add_mod symbol a
    rw [imm5, BitVec.toNat_setWidth, toNat_and_low _ _ 5 hw, BitVec.toNat_ushiftRight,
      Nat.shiftRight_eq_div_pow]
    omega
  have hft : ∀ x : Word t, imm5 x &&& 0x1F = imm5 x := by
    intro x
    apply BitVec.eq_of_toNat_eq
    rw [toNat_and_low _ _ 5 (by decide), imm5, BitVec.toNat_setWidth, toNat_and_low _ _ 5 hw]
    omega
  rw [storesAlike_field thmAbs5 addend base symbol place m (m.read16 place)
    (~~~(0x1F#16 <<< 6)) (fun a => imm5 (symbol + a) <<< 6) (by decide) (by omega) (by omega) ?_ (fun a => rfl)]
  · rw [← BitVec.toNat_inj, BitVec.toNat_shiftLeft, BitVec.toNat_shiftLeft, hfl, hfl,
      AddendHarmless, toNat_zero_word, Nat.shiftLeft_eq, Nat.shiftLeft_eq]
    omega
  · intro a
    rw [← hft]
    exact shifted_and_eq_zero _

theorem storesAlike_xpc25 :
    xpc25.StoresAlike addend base symbol place m ↔ xpc25.AddendHarmless symbol place addend := by
  rw [storesAlike_field xpc25 addend base symbol place m (m.read32 place) 0xFE000000#32
    (fun a => disp24 ((symbol + a - place).setWidth 32)
      ||| thmBit ((symbol + a - place).setWidth 32) <<< 24)
    (by decide) t.le_wordBits (four_le t) ?_ (fun a => by rw [compute, BitVec.or_assoc])]
  · rw [xpc_field_eq_iff, ← BitVec.toNat_inj, toNat_disp24, toNat_disp24, thmBit_eq, thmBit_eq,
      toNat_distance, toNat_distance, AddendHarmless, toNat_zero_word, flag_eq_iff]
    omega
  · intro a
    refine and_eq_zero_of_lt (k := 25) ?_ (by decide)
    rw [BitVec.toNat_or]
    refine Nat.or_lt_two_pow ?_ ?_
    · rw [toNat_disp24]
      omega
    · unfold thmBit
      split <;> decide

theorem storesAlike_pc13 :
    pc13.StoresAlike addend base symbol place m ↔ pc13.AddendHarmless symbol place addend := by
  rw [storesAlike_field pc13 addend base symbol place m (m.read32 place) (~~~(1#32 <<< 23 ||| 0xFFF#32))
    (fun a => direction ((symbol + a - place).setWidth 32) <<< 23
      ||| imm12 ((symbol + a - place).setWidth 32))
    (by decide) t.le_wordBits (four_le t) ?_ (fun a => rfl)]
  · rw [pc13_field_eq_iff, BitVec.msb_eq_decide, BitVec.msb_eq_decide, decide_eq_decide,
      toNat_distance, toNat_distance, AddendHarmless, toNat_zero_word]
    have hsg := toNat_add_mod (symbol - place) addend
    omega
  · intro a
    exact pc13_field_and_eq_zero _

/-! ## Every type -/

/-- **A type stores with an addend what it stores without exactly when the addend is harmless.** -/
theorem storesAlike_iff (kind : Reloc) (addend base symbol place : Word t) (m : Memory t) :
    kind.StoresAlike addend base symbol place m ↔ kind.AddendHarmless symbol place addend := by
  cases kind with
  | none => exact iff_of_true rfl trivial
  | symbol => exact iff_of_true rfl trivial
  | abs => exact storesAlike_word fun _ => rfl
  | relative => exact storesAlike_word fun _ => rfl
  | abs32 => exact storesAlike_low (four_le t) fun _ => ⟨rfl, rfl⟩
  | rel32 =>
    refine storesAlike_low (x := symbol - place) (four_le t) fun a => ⟨?_, rfl⟩
    rw [compute, show symbol + a - place = symbol - place + a by ring]
  | sbrel32 =>
    refine storesAlike_low (x := symbol - base) (four_le t) fun a => ⟨?_, rfl⟩
    rw [compute, show symbol + a - base = symbol - base + a by ring]
  | abs16 => exact storesAlike_abs16
  | abs8 => exact storesAlike_abs8
  | pc24 => exact storesAlike_pc24
  | xpc25 => exact storesAlike_xpc25
  | pc13 => exact storesAlike_pc13
  | abs12 => exact storesAlike_abs12
  | swi24 => exact storesAlike_swi24
  | thmAbs5 => exact storesAlike_thmAbs5
  | thmPc8 => exact storesAlike_thmPc8
  | thmSwi8 => exact storesAlike_thmSwi8

end Reloc
end Boron.Rtl
