import Mathlib.Data.List.Basic

/-! # Command line and environment descriptions

A description is a sequence of strings, each with its terminator, and one more terminator behind the
last; there are always two of them. Three loops read it. On nonempty strings they agree
(`decodes_entries`): an empty one ends a description. -/

namespace Boron.Rtl

open List Option

/-- `RtlEnvironmentLength`, on the bytes from the pointer on. It fails if it gets to the end of them. -/
def rtlEnvironmentLength : List UInt8 → Option Nat
  | a :: b :: rest =>
    if a ≠ 0 ∨ b ≠ 0 then (rtlEnvironmentLength (b :: rest)).map (· + 1) else some 2
  | _ => none

/-- The loops of `RtlEnvironmentCount`; the flag tells whether the inner one runs. -/
def countEntries : Bool → List UInt8 → Option Nat
  | _, [] => none
  | false, b :: rest => if b = 0 then some 0 else countEntries true rest
  | true, b :: rest => if b = 0 then (countEntries false rest).map (· + 1) else countEntries true rest

def rtlEnvironmentCount (description : List UInt8) : Option Nat := countEntries false description

def strlen : List UInt8 → Option Nat
  | [] => none
  | b :: rest => if b = 0 then some 0 else (strlen rest).map (· + 1)

/-- A loop of `OSDLLSetupArgumentsAndEnvironment`: the pointers it stores, with the strings there. -/
def fillArray : Nat → Nat → List UInt8 → Option (List (Nat × List UInt8))
  | 0, _, _ => some []
  | n + 1, pointer, d => do
    let length ← strlen d
    let rest ← fillArray n (pointer + length + 1) (d.drop (length + 1))
    some ((pointer, d.take length) :: rest)

/-- Strings, each with its terminator. -/
def entries (es : List (List UInt8)) : List UInt8 := es.flatMap (· ++ [0])

/-- The loops find these strings. -/
structure Decodes (d : List UInt8) (es : List (List UInt8)) : Prop where
  count : rtlEnvironmentCount d = some es.length
  length : rtlEnvironmentLength d = some (max 2 ((entries es).length + 1))
  strings : ∀ pointer, (fillArray es.length pointer d).map (·.map Prod.snd) = some es

variable {e d rest : List UInt8} {es fs : List (List UInt8)}

@[simp] theorem entries_cons : entries (e :: es) = e ++ 0 :: entries es := by simp [entries]

@[simp] theorem entries_nil : entries [] = [] := rfl

/-! ## One string -/

theorem strlen_append (he : 0 ∉ e) : strlen (e ++ 0 :: d) = some e.length := by
  induction e with
  | nil => rfl
  | cons b e ih =>
    obtain ⟨hb, he⟩ : ¬ 0 = b ∧ 0 ∉ e := by simpa using he
    rw [cons_append, strlen, if_neg (Ne.symm hb), ih he]
    rfl

theorem countEntries_append (he : 0 ∉ e) :
    countEntries true (e ++ 0 :: d) = (rtlEnvironmentCount d).map (· + 1) := by
  induction e with
  | nil => rfl
  | cons b e ih =>
    obtain ⟨hb, he⟩ : ¬ 0 = b ∧ 0 ∉ e := by simpa using he
    rw [cons_append, countEntries, if_neg (Ne.symm hb), ih he]

theorem rtlEnvironmentLength_append (he : 0 ∉ e) :
    rtlEnvironmentLength (e ++ 0 :: d) = (rtlEnvironmentLength (0 :: d)).map (· + e.length) := by
  induction e with
  | nil => simp
  | cons b e ih =>
    obtain ⟨hb, he⟩ : ¬ 0 = b ∧ 0 ∉ e := by simpa using he
    obtain ⟨c, tail, htl⟩ := exists_cons_of_ne_nil (show e ++ 0 :: d ≠ [] by simp)
    rw [cons_append, htl, rtlEnvironmentLength, if_pos (.inl (Ne.symm hb)), ← htl, ih he,
      Option.map_map]
    rfl

/-! ## All strings -/

/-- The strings that a description can hold. -/
def Entries (es : List (List UInt8)) : Prop := ∀ e ∈ es, e ≠ [] ∧ 0 ∉ e

theorem rtlEnvironmentCount_entries (h : Entries es) :
    rtlEnvironmentCount (entries es ++ 0 :: rest) = some es.length := by
  induction es with
  | nil => rfl
  | cons e es ih =>
    obtain ⟨hne, hz⟩ := h e mem_cons_self
    obtain ⟨b, e, rfl⟩ := exists_cons_of_ne_nil hne
    obtain ⟨hb, he⟩ : ¬ 0 = b ∧ 0 ∉ e := by simpa using hz
    rw [entries_cons, append_assoc, cons_append, rtlEnvironmentCount, countEntries,
      if_neg (Ne.symm hb), cons_append, countEntries_append he,
      ih fun f hf => h f (mem_cons_of_mem _ hf)]
    rfl

theorem fillArray_entries (h : ∀ e ∈ es, 0 ∉ e) (poi : Nat) :
    (fillArray es.length poi (entries es ++ rest)).map (·.map Prod.snd) = some es := by
  induction es generalizing poi with
  | nil => rfl
  | cons e es ih =>
    have hdrop : (e ++ 0 :: (entries es ++ rest)).drop (e.length + 1) = entries es ++ rest := by
      simp [drop_append]
    have hrs := ih (fun f hf => h f (mem_cons_of_mem _ hf)) (poi + e.length + 1)
    obtain ⟨r, hr, heq⟩ := map_eq_some_iff.1 hrs
    rw [entries_cons, append_assoc, cons_append, length_cons, fillArray,
      strlen_append (h e mem_cons_self)]
    simp [hdrop, hr, heq]

/-- One terminator, the strings, and one more terminator. -/
theorem rtlEnvironmentLength_behind (h : Entries es) :
    rtlEnvironmentLength (0 :: (entries es ++ 0 :: rest)) = some ((entries es).length + 2) := by
  induction es with
  | nil => rfl
  | cons e es ih =>
    obtain ⟨hne, hz⟩ := h e mem_cons_self
    obtain ⟨b, tail, rfl⟩ := exists_cons_of_ne_nil hne
    have hb : b ≠ 0 := by
      rintro rfl
      simp at hz
    have hrs := ih fun f hf => h f (mem_cons_of_mem _ hf)
    rw [entries_cons, append_assoc, cons_append, cons_append, rtlEnvironmentLength,
      if_pos (.inr hb), ← cons_append, rtlEnvironmentLength_append hz, hrs]
    simp only [map_some, length_append, length_cons]
    congr 1
    omega

/-- **What a description of nonempty strings is decoded to.** -/
theorem decodes_entries (h : Entries es) (hnil : es = [] → ∃ rest', rest = 0 :: rest') :
    Decodes (entries es ++ 0 :: rest) es := by
  refine ⟨rtlEnvironmentCount_entries h, ?_, fillArray_entries fun e he => (h e he).2⟩
  cases es with
  | nil =>
    obtain ⟨rest', rfl⟩ := hnil rfl
    rfl
  | cons e es =>
    have hrs : Entries es := fun f hf => h f (mem_cons_of_mem _ hf)
    rw [entries_cons, append_assoc, cons_append,
      rtlEnvironmentLength_append (h e mem_cons_self).2, rtlEnvironmentLength_behind hrs]
    simp only [map_some, length_append, length_cons]
    congr 1
    omega

end Boron.Rtl
