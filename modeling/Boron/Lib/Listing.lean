import Mathlib.Data.List.Infix

/-! # Listings by a cursor

A listing is read one entry at a time: `next c` is the entry at the cursor `c` and the cursor after it,
`none` at the end. `Lists next c es d` says that reading from `c` gives `es` and gets to `d`. A listing
that ends never comes back to a cursor, so the cursor says how much of it has been read. -/

namespace Boron

open List

variable {C E : Type*}

/-- Reading from the first cursor gives the entries and gets to the second. -/
inductive Lists (next : C → Option (E × C)) : C → List E → C → Prop
  | nil (c : C) : Lists next c [] c
  | cons {c d f : C} {e : E} {es : List E} :
    next c = some (e, d) → Lists next d es f → Lists next c (e :: es) f

namespace Lists

variable {next : C → Option (E × C)} {c d f : C} {e : E} {es fs : List E}

theorem append (h : Lists next c es d) (h' : Lists next d fs f) : Lists next c (es ++ fs) f := by
  induction h with
  | nil c => exact h'
  | cons hnext _ ih => exact .cons hnext (ih h')

theorem concat (h : Lists next c es d) (hnext : next d = some (e, f)) : Lists next c (es ++ [e]) f :=
  h.append (.cons hnext (.nil f))

/-- What is read in one go can be read in two. -/
theorem of_append (h : Lists next c (es ++ fs) f) : ∃ d, Lists next c es d ∧ Lists next d fs f := by
  induction es generalizing c with
  | nil => exact ⟨c, .nil c, h⟩
  | cons e es ih =>
    cases h with
    | cons hnext hrs =>
      obtain ⟨d, hd, hf⟩ := ih hrs
      exact ⟨d, .cons hnext hd, hf⟩

/-- Of two readings from one cursor one goes on where the other stops. -/
theorem prefix_total (h : Lists next c es d) (h' : Lists next c fs f)
    (hle : es.length ≤ fs.length) : ∃ rest, fs = es ++ rest ∧ Lists next d rest f := by
  induction h generalizing fs with
  | nil c => exact ⟨fs, rfl, h'⟩
  | cons hnext _ ih =>
    cases h' with
    | nil => exact absurd hle (by simp)
    | cons hnext' hrs =>
      cases hnext.symm.trans hnext'
      obtain ⟨rest, rfl, hd⟩ := ih hrs (by simpa using hle)
      exact ⟨rest, rfl, hd⟩

theorem unique (h : Lists next c es d) (h' : Lists next c fs f) (hlength : es.length = fs.length) :
    es = fs ∧ d = f := by
  obtain ⟨rest, rfl, hd⟩ := h.prefix_total h' hlength.le
  have hrs : rest = [] := by simpa using hlength
  subst hrs
  cases hd
  exact ⟨(append_nil es).symm, rfl⟩

/-- What is read before the end is a prefix of it all. -/
theorem isPrefix (ha : Lists next c fs f) (he : next f = none) (h : Lists next c es d) : es <+: fs := by
  rcases Nat.le_total es.length fs.length with hle | hle
  · obtain ⟨rest, rfl, -⟩ := h.prefix_total ha hle
    exact prefix_append es rest
  · obtain ⟨rest, rfl, hd⟩ := ha.prefix_total h hle
    cases hd with
    | nil => simp
    | cons hnext _ =>
      rw [he] at hnext
      cases hnext

/-- The cursor does not come back. -/
theorem eq_nil_of_loop (ha : Lists next c fs f) (he : next f = none) (hd : Lists next c es d)
    {gs : List E} (hp : Lists next d gs d) : gs = [] := by
  have hln : ∀ n, ∃ hs, Lists next c hs d ∧ es.length + n * gs.length ≤ hs.length := by
    intro n
    induction n with
    | zero => exact ⟨es, hd, by omega⟩
    | succ n ih =>
      obtain ⟨hs, hh, hle⟩ := ih
      refine ⟨hs ++ gs, hh.append hp, ?_⟩
      rw [length_append, Nat.add_mul]
      omega
  by_contra hne
  have hpos : 0 < gs.length := length_pos_iff.2 hne
  obtain ⟨hs, hh, hle⟩ := hln (fs.length + 1)
  have hfs := (isPrefix ha he hh).length_le
  have hml : (fs.length + 1) * 1 ≤ (fs.length + 1) * gs.length := Nat.mul_le_mul_left _ hpos
  omega

end Lists

end Boron
