import Boron.Rtl.Descriptions
import Mathlib.Data.List.TakeWhile

/-! # Command lines

A command line is made of spaces and of pieces: characters, escaped characters and quoted text. What
stands between two spaces is a field, and the fields that are not empty are the arguments. The parser
turns every space into a terminator, so that a field without a byte (in front of the first space,
between two of them, or an empty pair of quotes) ends the description: it holds all arguments just if
nothing but spaces comes after such a field (`rtlCommandLineStringToDescription_right_iff`). -/

namespace Boron.Rtl

open List

/-- A character of a C string. -/
abbrev CommandChar := {b : UInt8 // b ≠ 0}

def space : CommandChar := ⟨32, by decide⟩

def backslash : CommandChar := ⟨92, by decide⟩

/-- `'"'` and `'\''`. -/
def isQuote (c : CommandChar) : Bool := c.1 = 34 ∨ c.1 = 39

inductive CommandLineResult
  | insufficientMemory
  | invalidParameter
  | assertFails
  | success (description : List UInt8)
  deriving DecidableEq

/-- `Description[Index++] = b`, and the assertion behind it. -/
def store (capacity : Nat) (b : UInt8) (out : List UInt8) (next : List UInt8 → CommandLineResult) :
    CommandLineResult :=
  if out.length + 1 < capacity then next (out ++ [b]) else .assertFails

/-- The loops of `RtlCommandLineStringToDescription`; in the inner one the quotation mark is known. -/
def parse (capacity : Nat) : Option CommandChar → List CommandChar → List UInt8 → CommandLineResult
  | none, [], out => store capacity 0 out fun out => store (capacity + 1) 0 out .success
  | none, [c], out =>
    if c = space then store capacity 0 out (parse capacity none [])
    else if c = backslash then .invalidParameter
    else if isQuote c then parse capacity (some c) [] out
    else store capacity c.1 out (parse capacity none [])
  | none, c :: c' :: s, out =>
    if c = space then store capacity 0 out (parse capacity none (c' :: s))
    else if c = backslash then store capacity c'.1 out (parse capacity none s)
    else if isQuote c then parse capacity (some c) (c' :: s) out
    else store capacity c.1 out (parse capacity none (c' :: s))
  | some _, [], _ => .invalidParameter
  | some q, c :: s, out =>
    if c = q then parse capacity none s out else store capacity c.1 out (parse capacity (some q) s)

/-- `RtlCommandLineStringToDescription`; `room` tells whether the description is allocated. -/
def rtlCommandLineStringToDescription (room : Bool) (s : List CommandChar) : CommandLineResult :=
  if room then parse (s.length + 2) none s [] else .insufficientMemory

/-! ## What a command line denotes -/

inductive Item
  | space
  | plain (c : CommandChar) (h : c ≠ Rtl.space ∧ c ≠ backslash ∧ isQuote c = false)
  | escaped (c : CommandChar)
  | quoted (q : CommandChar) (text : List CommandChar) (h : isQuote q = true ∧ q ∉ text)

namespace Item

def source : Item → List CommandChar
  | space => [Rtl.space]
  | plain c _ => [c]
  | escaped c => [backslash, c]
  | quoted q text _ => q :: text ++ [q]

/-- The bytes that an item stands for. -/
def value : Item → List UInt8
  | space => [0]
  | plain c _ => [c.1]
  | escaped c => [c.1]
  | quoted _ text _ => text.map Subtype.val

end Item

def source (items : List Item) : List CommandChar := items.flatMap Item.source

def value (items : List Item) : List UInt8 := items.flatMap Item.value

/-- What stands between the spaces. -/
def fields : List Item → List (List Item)
  | [] => [[]]
  | .space :: items => [] :: fields items
  | item :: items => (fields items).modifyHead (item :: ·)

/-- The arguments of a command line. -/
def arguments (items : List Item) : List (List UInt8) := ((fields items).filter (· ≠ [])).map value

/-- A stray backslash at the end, or quotes that are not closed. -/
def Stray (s : List CommandChar) : Prop :=
  s = [backslash] ∨ ∃ q text, isQuote q = true ∧ q ∉ text ∧ s = q :: text

def Malformed (s : List CommandChar) : Prop := ∃ items rest, s = source items ++ rest ∧ Stray rest

/-- From the first field without a byte on there are only spaces. -/
def Plain (items : List Item) : Prop :=
  ∀ field ∈ (fields items).dropWhile (value · ≠ []), field = []

variable {capacity : Nat} {items : List Item} {s rest text : List CommandChar} {c q : CommandChar}
  {out : List UInt8}

/-! ## The parser -/

theorem store_room {b : UInt8} {next : List UInt8 → CommandLineResult}
    (h : out.length + 1 < capacity) : store capacity b out next = next (out ++ [b]) := if_pos h

theorem parse_cons (hp : c ≠ space) (hb : c ≠ backslash) :
    parse capacity none (c :: s) out = if isQuote c then parse capacity (some c) s out
      else store capacity c.1 out (parse capacity none s) := by
  cases s with
  | nil => rw [parse, if_neg hp, if_neg hb]
  | cons c' s => rw [parse, if_neg hp, if_neg hb]

theorem parse_space :
    parse capacity none (space :: s) out = store capacity 0 out (parse capacity none s) := by
  cases s with
  | nil => exact if_pos rfl
  | cons c' s => exact if_pos rfl

theorem parse_text (hq : q ∉ text) (hrm : out.length + text.length + 1 < capacity) :
    parse capacity (some q) (text ++ s) out
      = parse capacity (some q) s (out ++ text.map Subtype.val) := by
  induction text generalizing out with
  | nil => simp
  | cons c text ih =>
    obtain ⟨hc, hq⟩ : ¬ q = c ∧ q ∉ text := by simpa using hq
    rw [length_cons] at hrm
    rw [cons_append, parse, if_neg (Ne.symm hc), store_room (by omega), ih hq (by simp; omega)]
    simp

theorem parse_item (item : Item) (hrm : out.length + item.source.length + 1 < capacity) :
    parse capacity none (item.source ++ s) out = parse capacity none s (out ++ item.value) := by
  cases item with
  | space => exact parse_space.trans (store_room (by simp [Item.source] at hrm; omega))
  | plain c h =>
    have hst : out.length + 1 < capacity := by simp [Item.source] at hrm; omega
    rw [Item.source, singleton_append, parse_cons h.1 h.2.1, h.2.2, if_neg Bool.false_ne_true,
      store_room hst, Item.value]
  | escaped c =>
    have hst : out.length + 1 < capacity := by simp [Item.source] at hrm; omega
    exact (if_neg (by decide)).trans ((if_pos rfl).trans (store_room hst))
  | quoted q text h =>
    have hp : q ≠ space := by rintro rfl; exact absurd h.1 (by decide)
    have hb : q ≠ backslash := by rintro rfl; exact absurd h.1 (by decide)
    simp only [Item.source, length_append, length_cons, length_nil] at hrm
    rw [Item.source, append_assoc, cons_append, parse_cons hp hb, if_pos h.1,
      parse_text h.2 (by omega), singleton_append, parse, if_pos rfl, Item.value]

theorem length_value_le (item : Item) : item.value.length ≤ item.source.length := by
  cases item with
  | space | plain | escaped => simp [Item.value, Item.source]
  | quoted q text h =>
    simp [Item.value, Item.source]
    omega

theorem length_values_le (items : List Item) : (value items).length ≤ (source items).length := by
  induction items with
  | nil => exact Nat.le_refl 0
  | cons item items ih =>
    have hle := length_value_le item
    simp only [value, source, flatMap_cons, length_append] at ih ⊢
    omega

theorem parse_items (hrm : out.length + (source items).length + 1 < capacity) :
    parse capacity none (source items ++ rest) out = parse capacity none rest (out ++ value items) := by
  induction items generalizing out with
  | nil => simp [source, value]
  | cons item items ih =>
    have hle := length_value_le item
    simp only [source, value, flatMap_cons, length_append, append_assoc] at hrm ih ⊢
    rw [parse_item item (by omega), ih (by simp only [length_append]; omega), append_assoc]

theorem parse_stray (h : Stray rest) (hrm : out.length + rest.length + 1 < capacity) :
    parse capacity none rest out = .invalidParameter := by
  rcases h with rfl | ⟨q, text, hqt, hq, rfl⟩
  · rfl
  · have hp : q ≠ space := by rintro rfl; exact absurd hqt (by decide)
    have hb : q ≠ backslash := by rintro rfl; exact absurd hqt (by decide)
    rw [length_cons] at hrm
    rw [parse_cons hp hb, if_pos hqt, ← append_nil text, parse_text hq (by omega)]
    rfl

theorem exists_items (s : List CommandChar) :
    ∃ items rest, s = source items ++ rest ∧ (rest = [] ∨ Stray rest) := by
  induction hn : s.length using Nat.strongRecOn generalizing s with
  | ind n ih =>
    -- one item, and then the rest
    have hmr : ∀ (item : Item) s', s = item.source ++ s' → s'.length < s.length →
        ∃ items rest, s = source items ++ rest ∧ (rest = [] ∨ Stray rest) := by
      rintro item s' hs hlt
      obtain ⟨items, rest, rfl, hrs⟩ := ih _ (hn ▸ hlt) s' rfl
      exact ⟨item :: items, rest, by simp [hs, source], hrs⟩
    cases s with
    | nil => exact ⟨[], [], rfl, .inl rfl⟩
    | cons c s =>
      by_cases hp : c = space
      · exact hmr .space s (by simp [Item.source, hp]) (by simp)
      by_cases hb : c = backslash
      · cases s with
        | nil => exact ⟨[], [c], rfl, .inr (.inl (by rw [hb]))⟩
        | cons c' s =>
          refine hmr (.escaped c') s (by simp [Item.source, hb]) ?_
          simp only [length_cons]
          omega
      cases hq : isQuote c with
      | false => exact hmr (.plain c ⟨hp, hb, hq⟩) s rfl (by simp)
      | true =>
        by_cases hc : c ∈ s
        · obtain ⟨text, s', rfl, hnt⟩ := eq_append_cons_of_mem hc
          exact hmr (.quoted c text ⟨hq, hnt⟩) s' (by simp [Item.source]) (by simp; omega)
        · exact ⟨[], c :: s, rfl, .inr (.inr ⟨c, s, hq, hc, rfl⟩)⟩

/-! ## The description -/

theorem fields_ne_nil (items : List Item) : fields items ≠ [] := by
  induction items with
  | nil => simp [fields]
  | cons item items ih => cases item <;> simp [fields, ih]

/-- A space starts another field, and any other item is part of the first one. -/
theorem fields_cons (item : Item) (items : List Item) : ∃ f fs, fields items = f :: fs ∧
    ((item = .space ∧ fields (item :: items) = [] :: f :: fs) ∨
      (0 ∉ item.value ∧ fields (item :: items) = (item :: f) :: fs)) := by
  obtain ⟨f, fs, hf⟩ := exists_cons_of_ne_nil (fields_ne_nil items)
  refine ⟨f, fs, hf, ?_⟩
  cases item with
  | space => exact .inl ⟨rfl, by rw [fields, hf]⟩
  | plain c _ | escaped c => exact .inr ⟨by simpa [Item.value] using c.2.symm, by simp [fields, hf]⟩
  | quoted q text _ =>
    refine .inr ⟨fun hme => ?_, by simp [fields, hf]⟩
    obtain ⟨c, -, hc⟩ := mem_map.1 hme
    exact c.2 hc

/-- The bytes of the items are the fields, with a terminator behind each but the last. -/
theorem entries_fields (items : List Item) :
    entries ((fields items).map value) = value items ++ [0] := by
  induction items with
  | nil => rfl
  | cons item items ih =>
    obtain ⟨f, fs, hf, ⟨rfl, hc⟩ | ⟨-, hc⟩⟩ := fields_cons item items
    · rw [hc, ← hf, map_cons, entries_cons, ih]
      rfl
    · rw [hf, map_cons, entries_cons] at ih
      rw [hc, map_cons, entries_cons]
      simp only [value, flatMap_cons, append_assoc] at ih ⊢
      rw [ih]

theorem zero_notMem_fields {field : List Item} (h : field ∈ fields items) : 0 ∉ value field := by
  induction items generalizing field with
  | nil =>
    obtain rfl := mem_singleton.1 h
    simp [value]
  | cons item items ih =>
    obtain ⟨f, fs, hf, ⟨rfl, hc⟩ | ⟨him, hc⟩⟩ := fields_cons item items
    · rw [hc, ← hf] at h
      rcases mem_cons.1 h with rfl | h
      · simp [value]
      · exact ih h
    · rw [hc] at h
      rw [hf] at ih
      rcases mem_cons.1 h with rfl | h
      · simpa [value, him] using ih mem_cons_self
      · exact ih (mem_cons_of_mem _ h)

/-- The fields before the first one without a byte, which are what a description gives back. -/
def leading (items : List Item) : List (List UInt8) :=
  ((fields items).takeWhile (value · ≠ [])).map value

theorem entries_leading (items : List Item) : Entries (leading items) := by
  intro e he
  obtain ⟨field, hfl, rfl⟩ := mem_map.1 he
  have hne := mem_takeWhile_imp hfl
  exact ⟨of_decide_eq_true hne, zero_notMem_fields (takeWhile_subset _ hfl)⟩

/-- They are the first arguments; the others come after a field without a byte. -/
theorem arguments_eq (items : List Item) : arguments items = leading items
    ++ (((fields items).dropWhile (value · ≠ [])).filter (· ≠ [])).map value := by
  have ha : ((fields items).takeWhile (value · ≠ [])).filter (· ≠ [])
      = (fields items).takeWhile (value · ≠ []) := by
    refine filter_eq_self.2 fun field hfl => decide_eq_true fun hnil => ?_
    have hne := mem_takeWhile_imp hfl
    rw [hnil] at hne
    exact of_decide_eq_true hne rfl
  rw [arguments, leading, ← map_append, ← ha, ← filter_append, takeWhile_append_dropWhile]

/-- What the parser makes of the items: the leading fields, and one more terminator; another one comes
behind it if there are only spaces. -/
theorem description_eq (items : List Item) : ∃ rest,
    value items ++ [0, 0] = entries (leading items) ++ 0 :: rest ∧
      (Plain items → leading items = [] → ∃ rest', rest = 0 :: rest') := by
  have hsp := entries_fields items
  have ha := takeWhile_append_dropWhile (p := (value · ≠ [])) (l := fields items)
  rw [← ha, map_append, entries, flatMap_append] at hsp
  have hsp : value items ++ [0, 0] = entries (leading items) ++
      (entries (((fields items).dropWhile (value · ≠ [])).map value) ++ [0]) := by
    rw [← append_assoc, entries, leading, entries, hsp]
    simp
  rw [hsp]
  unfold Plain leading
  cases hrs : (fields items).dropWhile (value · ≠ []) with
  | nil =>
    refine ⟨[], rfl, fun _ hnil => ?_⟩
    rw [hrs, map_eq_nil_iff.1 hnil] at ha
    exact absurd ha.symm (fields_ne_nil items)
  | cons field more =>
    have hfl : value field = [] := by
      have hh := List.head?_dropWhile_not (value · ≠ []) (fields items)
      rw [hrs] at hh
      simpa using hh
    refine ⟨entries (more.map value) ++ [0], by simp [hfl], fun hp _ => ?_⟩
    cases more with
    | nil => exact ⟨[], rfl⟩
    | cons g more =>
      obtain rfl := hp g (by simp)
      exact ⟨entries (more.map value) ++ [0], by simp [value]⟩

/-- **The parser rejects the malformed command lines; from any other it makes a description that fits,
and that holds the arguments just if nothing but spaces comes after a field without a byte.** -/
theorem rtlCommandLineStringToDescription_right_iff (s : List CommandChar) :
    (rtlCommandLineStringToDescription true s = .invalidParameter ↔ Malformed s) ∧
      (¬ Malformed s → ∃ items, s = source items) ∧
      ∀ items, s = source items → ∃ d, rtlCommandLineStringToDescription true s = .success d ∧
        d.length ≤ s.length + 2 ∧ (Decodes d (arguments items) ↔ Plain items) := by
  have hc : ∀ items, s = source items → rtlCommandLineStringToDescription true s
      = .success (value items ++ [0, 0]) := by
    rintro items rfl
    have hle := length_values_le items
    have hpr := @parse_items ((source items).length + 2) items [] [] (by simp)
    rw [append_nil, nil_append] at hpr
    rw [rtlCommandLineStringToDescription, if_pos rfl, hpr, parse, store_room (by omega),
      store_room (by simp; omega), append_assoc]
    rfl
  have him : ¬ Malformed s → ∃ items, s = source items := by
    intro hgd
    obtain ⟨items, rest, rfl, rfl | hst⟩ := exists_items s
    · exact ⟨items, append_nil _⟩
    · exact absurd ⟨items, rest, rfl, hst⟩ hgd
  refine ⟨⟨fun hin => ?_, ?_⟩, him, fun items hs => ?_⟩
  · by_contra hgd
    obtain ⟨items, hs⟩ := him hgd
    rw [hc items hs] at hin
    cases hin
  · rintro ⟨items, rest, rfl, hst⟩
    have hle := length_values_le items
    rw [rtlCommandLineStringToDescription, if_pos rfl, length_append,
      parse_items (by simp only [length_nil]; omega),
      parse_stray hst (by simp only [length_append, length_nil]; omega)]
  · have hle := length_values_le items
    refine ⟨_, hc items hs, by simp only [hs, length_append]; simpa using hle, ?_⟩
    obtain ⟨rest, hd, hnil⟩ := description_eq items
    rw [hd, arguments_eq]
    constructor
    · rintro ⟨hcount, -, -⟩
      rw [rtlEnvironmentCount_entries (entries_leading items), length_append] at hcount
      have hz := Nat.left_eq_add.1 (Option.some.inj hcount)
      rw [length_map, length_eq_zero_iff, filter_eq_nil_iff] at hz
      exact fun field hfl => by simpa using hz field hfl
    · intro hp
      have hnn : ((fields items).dropWhile (value · ≠ [])).filter (· ≠ []) = [] :=
        filter_eq_nil_iff.2 fun field hfl => by simpa using hp field hfl
      rw [hnn, map_nil, append_nil]
      exact decodes_entries (entries_leading items) (hnil hp)

/-- A space, and one argument. -/
def spaceInFront : List Item := [.space, .plain ⟨97, by decide⟩ (by decide)]

theorem argument_lost : ¬ ∀ (items : List Item) (d : List UInt8),
    rtlCommandLineStringToDescription true (source items) = .success d →
      Decodes d (arguments items) := by
  intro ha
  have hcount := (ha spaceInFront [0, 97, 0, 0] (by decide)).count
  revert hcount
  decide

/-! ## Writing a command line -/

/-- Every character escaped, and a space behind every argument. -/
def commandLine (args : List {a : List CommandChar // a ≠ []}) : List Item :=
  args.flatMap fun a => a.1.map .escaped ++ [.space]

/-- **All nonempty arguments can be passed**: the parser takes the line written for them, and the loops
that read the description give them back. -/
theorem commandLine_roundTrip (args : List {a : List CommandChar // a ≠ []}) :
    ∃ d, rtlCommandLineStringToDescription true (source (commandLine args)) = .success d ∧
      Decodes d (args.map fun a => a.1.map Subtype.val) := by
  have hle := length_values_le (commandLine args)
  have hpr := @parse_items ((source (commandLine args)).length + 2) (commandLine args) [] [] (by simp)
  rw [append_nil, nil_append] at hpr
  refine ⟨value (commandLine args) ++ 0 :: [0], ?_, ?_⟩
  · rw [rtlCommandLineStringToDescription, if_pos rfl, hpr, parse, store_room (by omega),
      store_room (by simp; omega), append_assoc]
    rfl
  · have hv : value (commandLine args) = entries (args.map fun a => a.1.map Subtype.val) := by
      have ha : ∀ a : List CommandChar, (a.map .escaped).flatMap Item.value = a.map Subtype.val := by
        simp [flatMap_map, Item.value, ← map_eq_flatMap]
      simp only [value, commandLine, entries, flatMap_assoc, flatMap_append, ha, flatMap_map]
      rfl
    rw [hv]
    refine decodes_entries (fun e he => ?_) fun _ => ⟨[], rfl⟩
    obtain ⟨a, -, rfl⟩ := mem_map.1 he
    refine ⟨fun hnil => a.2 (map_eq_nil_iff.1 hnil), fun hz => ?_⟩
    obtain ⟨c, -, hc⟩ := mem_map.1 hz
    exact c.2 hc

end Boron.Rtl
