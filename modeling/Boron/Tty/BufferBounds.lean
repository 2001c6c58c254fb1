import Boron.Tty.LineDiscipline

/-! # The bounds of the two buffers

A caret and the character behind it need two places of `TempBuffer`, but room is made for one. The
turns of the calls keep both buffers within their bounds, whatever the pipes do, as long as no such
pair starts at the last place and no `Erase` comes with the position at the end of `LineBuffer`. -/

namespace Boron.Tty

open List Option

variable (E : Environment)

namespace Terminal

/-! ## The stores to `TempBuffer` -/

/-- `TtyWriteCharacterToTempBuffer`. -/
def writeTemp (t : Terminal) (x : Byte × Bool) : Terminal :=
  if x.2 then (t.writeEscaped E x.1).2 else (t.writePlain E x.1).2

/-- The index that `writePlain` stores to. -/
def plainStore (t : Terminal) : List Nat :=
  match t.makeRoom E with
  | (.success, t) => [t.tempBuffer.length]
  | _ => []

/-- Those of a call with `Escape`, once there is room for a character. -/
def escapedStores (t : Terminal) (c : Byte) : List Nat :=
  match escapeCharacter c with
  | (false, _) => [t.tempBuffer.length]
  | (true, _) =>
    match t.writePlain E 94 with
    | (.success, t') => t.plainStore E ++ [t'.tempBuffer.length]
    | _ => t.plainStore E

/-- The indices that a call stores to. -/
def tempStores (t : Terminal) (x : Byte × Bool) : List Nat :=
  if x.2 then
    match t.makeRoom E with
    | (.success, t) => t.escapedStores E x.1
    | _ => []
  else t.plainStore E

/-- A caret with one place left. -/
def Splits (t : Terminal) (x : Byte × Bool) : Prop :=
  x.2 = true ∧ (escapeCharacter x.1).1 = true ∧ t.tempBuffer.length = tempBufferMax - 1

/-- No call of the sequence splits its characters. -/
def Whole : Terminal → List (Byte × Bool) → Prop
  | _, [] => True
  | t, x :: xs => ¬ t.Splits x ∧ Whole (t.writeTemp E x) xs

/-- All stores of the sequence stay in `TempBuffer`. -/
def TempInside : Terminal → List (Byte × Bool) → Prop
  | _, [] => True
  | t, x :: xs => (∀ i ∈ t.tempStores E x, i < tempBufferMax) ∧ TempInside (t.writeTemp E x) xs

/-! ## The echo of a character -/

/-- The calls with which `TtyWriteStringEcho` writes. -/
def stringEcho (t : Terminal) (string : List Byte) : List (Byte × Bool) :=
  if t.state.echo then string.map (·, false) else []

/-- Those of `TtyWriteCurrentLineFromPosition`. -/
def lineEcho (t : Terminal) (position : Nat) : List (Byte × Bool) :=
  if t.state.echo then (t.chars position (t.lineBufferLength - position)).map (·, true) else []

/-- The terminal with the line changed as the key asks, before anything is echoed, and the calls that
follow; `none` when the change leaves `LineBuffer`. -/
def echoOf (t : Terminal) (c : Byte) : Key → Option (Terminal × List (Byte × Bool))
  | .erase =>
    if t.lineBufferPosition = 0 then some (t, [])
    else (moveLine t.lineBuffer t.lineBufferPosition (t.lineBufferPosition + 1)
        (sizeAfter t.lineBufferPosition)).map fun buffer =>
      let t := { t with
        lineBuffer := buffer
        lineBufferLength := t.lineBufferLength - 1
        lineBufferPosition := t.lineBufferPosition - 1 }
      (t, t.stringEcho (eraseSequence (t.countVisibleCharacters t.lineBufferPosition 1)) ++
        t.lineEcho t.lineBufferPosition)
  | .eraseLine =>
    some (t, t.stringEcho (eraseSequence (t.countVisibleCharacters 0 t.lineBufferPosition)))
  | .endOfLine => some (t, t.stringEcho [c])
  | .normal =>
    if lineBufferMax ≤ t.lineBufferLength then some (t, [])
    else ((moveLine t.lineBuffer (t.lineBufferPosition + 1) t.lineBufferPosition
        (sizeAfter t.lineBufferPosition)).bind (storeLine · t.lineBufferPosition c)).map fun buffer =>
      let t := { t with lineBuffer := buffer, lineBufferLength := t.lineBufferLength + 1 }
      (t, t.lineEcho t.lineBufferPosition)
  | .signal => some (t, [])
  | .endOfFile => some (t, [])

/-- What is done behind the echo. -/
def afterEcho (before t : Terminal) (c : Byte) : Key → Status × Terminal
  | .erase => (.success, t)
  | .eraseLine => (.success, { t with lineBufferLength := 0, lineBufferPosition := 0 })
  | .endOfLine =>
    let (status, t) := (t.flushTempBuffer E).2.flushLineBuffer E
    (status, (t.writeCharacter E c).2)
  | .normal =>
    if lineBufferMax ≤ before.lineBufferLength then t.flushLineBuffer E
    else (.success, { t with lineBufferPosition := t.lineBufferPosition + 1 })
  | .signal => (.success, t)
  | .endOfFile => t.endFile E

end Terminal

section

variable {E} {t t' : Terminal} {c c' : Byte} {x : Byte × Bool}

theorem SameLine.writeTemp (t : Terminal) (x : Byte × Bool) : SameLine t (t.writeTemp E x) := by
  unfold Terminal.writeTemp
  split
  · exact SameLine.writeEscaped t x.1
  · exact SameLine.writePlain t x.1

theorem SameLine.echo (t : Terminal) (xs : List (Byte × Bool)) :
    SameLine t (xs.foldl (Terminal.writeTemp E) t) := by
  induction xs generalizing t with
  | nil => exact SameLine.refl t
  | cons x xs ih => exact (SameLine.writeTemp t x).trans (ih _)

theorem writeStringEcho_eq (t : Terminal) (str : List Byte) :
    t.writeStringEcho E str = (t.stringEcho str).foldl (Terminal.writeTemp E) t := by
  unfold Terminal.writeStringEcho Terminal.stringEcho
  split
  · rw [foldl_map]
    rfl
  · rfl

theorem writeCurrentLine_eq (h : SameLine t t') (pos : Nat) : t'.writeCurrentLineFromPosition E pos
      = (t.lineEcho pos).foldl (Terminal.writeTemp E) t' := by
  unfold Terminal.writeCurrentLineFromPosition Terminal.lineEcho Terminal.chars
  rw [h.state, h.lineBuffer, h.length]
  split
  · rw [foldl_map, foldl_map, foldl_map]
    rfl
  · rfl

theorem processCharacter_parts (hc : convertInput t.state c = some c') (hw : t.state.rawMode = false) :
    t.processCharacter E c = (t.echoOf c' (keyOf t.state c')).map fun p =>
      t.afterEcho E (p.2.foldl (Terminal.writeTemp E) p.1) c' (keyOf t.state c') := by
  rw [processCharacter_eq hc hw]
  cases keyOf t.state c' with
  | erase =>
    dsimp only [Terminal.echoOf, Terminal.eraseCharacter, Terminal.afterEcho]
    split
    · rfl
    · cases moveLine t.lineBuffer t.lineBufferPosition (t.lineBufferPosition + 1)
          (sizeAfter t.lineBufferPosition) with
      | none => rfl
      | some buf =>
        simp only [bind_eq_bind, bind_some, map_some, foldl_append]
        rw [← writeStringEcho_eq, ← writeCurrentLine_eq (SameLine.writeStringEcho _ _)]
        split
        · rfl
        · next he =>
          simp [Terminal.writeStringEcho, Terminal.writeCurrentLineFromPosition, he]
  | eraseLine =>
    simp only [Terminal.echoOf, Terminal.eraseCurrentLine, Terminal.afterEcho, map_some, writeStringEcho_eq]
  | signal => rfl
  | endOfLine =>
    simp only [Terminal.echoOf, Terminal.endLine, Terminal.afterEcho, map_some, ← writeStringEcho_eq]
    unfold Terminal.writeStringEcho
    split <;> rfl
  | endOfFile => rfl
  | normal =>
    dsimp only [Terminal.echoOf, Terminal.insertCharacter, Terminal.afterEcho]
    split
    · rfl
    · cases moveLine t.lineBuffer (t.lineBufferPosition + 1) t.lineBufferPosition
          (sizeAfter t.lineBufferPosition) with
      | none => rfl
      | some buf =>
        simp only [bind_eq_bind, bind_some]
        cases storeLine buf t.lineBufferPosition c' with
        | none => rfl
        | some buf' =>
          simp only [bind_some, map_some]
          rw [← writeCurrentLine_eq (SameLine.refl _)]
          rfl

end

/-! ## The temporary buffer -/

section

variable {E} {t : Terminal} {x : Byte × Bool} {xs : List (Byte × Bool)}

theorem makeRoom_cases (h : t.tempBuffer.length ≤ tempBufferMax) :
    t.makeRoom E = (.success, t) ∧ t.tempBuffer.length < tempBufferMax ∨
      t.tempBuffer.length = tempBufferMax ∧ (t.makeRoom E).2.tempBuffer = [] := by
  unfold Terminal.makeRoom
  split
  · next hfl => exact .inr ⟨le_antisymm h hfl, flushTempBuffer_nil t⟩
  · next hrm => exact .inl ⟨rfl, not_le.1 hrm⟩

theorem storeTemp_length (c : Byte) (h : t.tempBuffer.length < tempBufferMax) :
    (t.storeTemp E c).tempBuffer.length = t.tempBuffer.length + 1 := by
  rw [Terminal.storeTemp, if_pos h, length_append, length_singleton]

theorem writePlain_spec (h : t.tempBuffer.length ≤ tempBufferMax) (c : Byte) :
    (∀ i ∈ t.plainStore E, i < tempBufferMax) ∧ (t.writePlain E c).2.tempBuffer.length ≤ tempBufferMax := by
  unfold Terminal.plainStore Terminal.writePlain
  rcases makeRoom_cases (E := E) h with ⟨hrm, hlt⟩ | ⟨-, he⟩
  · rw [hrm]
    exact ⟨fun i hi => mem_singleton.1 hi ▸ hlt, (storeTemp_length c hlt).trans_le hlt⟩
  · generalize t.makeRoom E = r at he ⊢
    obtain ⟨st, t'⟩ := r
    have hlt : t'.tempBuffer.length < tempBufferMax := by
      rw [show t'.tempBuffer = [] from he]
      decide
    cases st with
    | success => exact ⟨fun i hi => mem_singleton.1 hi ▸ hlt, (storeTemp_length c hlt).trans_le hlt⟩
    | endOfFile => exact ⟨fun i hi => absurd hi not_mem_nil, hlt.le⟩
    | other code => exact ⟨fun i hi => absurd hi not_mem_nil, hlt.le⟩

theorem makeRoom_eq (h : t.tempBuffer.length < tempBufferMax) : t.makeRoom E = (.success, t) :=
  if_neg (not_le.2 h)

theorem escaped_spec (h : t.tempBuffer.length < tempBufferMax) (c : Byte) :
    ((∀ i ∈ t.escapedStores E c, i < tempBufferMax) ↔ ¬ t.Splits (c, true)) ∧
      (¬ t.Splits (c, true) → (t.writeEscaped E c).2.tempBuffer.length ≤ tempBufferMax) := by
  have hc : t.writePlain E 94 = (.success, t.storeTemp E 94) := by
    rw [Terminal.writePlain, makeRoom_eq h]
  have hlength := storeTemp_length (E := E) 94 h
  unfold Terminal.Splits Terminal.escapedStores Terminal.writeEscaped
  rw [makeRoom_eq h]
  obtain ⟨esc, c'⟩ := Terminal.escapeCharacter c
  cases esc with
  | false => exact ⟨by simpa using h, fun _ => (storeTemp_length c' h).trans_le h⟩
  | true =>
    simp only [hc, Terminal.plainStore, makeRoom_eq h, hlength, cons_append, nil_append, forall_mem_cons,
      true_and]
    refine ⟨?_, fun hs => ?_⟩
    · simp [tempBufferMax] at h ⊢
      omega
    · have hlt : (t.storeTemp E 94).tempBuffer.length < tempBufferMax := by
        unfold tempBufferMax at *
        omega
      exact (storeTemp_length c' hlt).trans_le hlt

/-- The stores of a call stay in `TempBuffer`, and leave it no longer than it is, but for a pair with one
place left. -/
theorem tempStores_spec (h : t.tempBuffer.length ≤ tempBufferMax) :
    ((∀ i ∈ t.tempStores E x, i < tempBufferMax) ↔ ¬ t.Splits x) ∧
      (¬ t.Splits x → (t.writeTemp E x).tempBuffer.length ≤ tempBufferMax) := by
  obtain ⟨c, esc⟩ := x
  cases esc with
  | false =>
    have hp := writePlain_spec (E := E) h c
    exact ⟨iff_of_true hp.1 fun hs => Bool.false_ne_true hs.1, fun _ => hp.2⟩
  | true =>
    rcases makeRoom_cases (E := E) h with ⟨hrm, hlt⟩ | ⟨hfl, he⟩
    · have hsp := escaped_spec (E := E) hlt c
      rwa [Terminal.tempStores, if_pos rfl, hrm]
    · -- the flush has made room for two
      have hnt : ¬ t.Splits (c, true) := fun hs => by
        have hls := hs.2.2
        unfold tempBufferMax at *
        omega
      obtain ⟨st, t', hrm⟩ : ∃ st t', t.makeRoom E = (st, t') := ⟨_, _, rfl⟩
      rw [hrm] at he
      replace he : t'.tempBuffer = [] := he
      cases st with
      | success =>
        have hlt : t'.tempBuffer.length < tempBufferMax := by
          rw [he]
          decide
        have hnt' : ¬ t'.Splits (c, true) := fun hs => by
          have hls := hs.2.2
          rw [he] at hls
          exact absurd hls (by decide)
        obtain ⟨hin, hlength⟩ := escaped_spec (E := E) hlt c
        rw [Terminal.tempStores, if_pos rfl, hrm, Terminal.writeTemp, if_pos rfl]
        refine ⟨iff_of_true (hin.2 hnt') hnt, fun _ => ?_⟩
        have hsm : t.writeEscaped E c = t'.writeEscaped E c := by
          rw [Terminal.writeEscaped, Terminal.writeEscaped, hrm, makeRoom_eq hlt]
        rw [hsm]
        exact hlength hnt'
      | _ =>
        rw [Terminal.tempStores, if_pos rfl, hrm, Terminal.writeTemp, if_pos rfl, Terminal.writeEscaped, hrm]
        refine ⟨iff_of_true (fun i hi => absurd hi not_mem_nil) hnt, fun _ => ?_⟩
        exact (congrArg List.length he).trans_le (Nat.zero_le _)

theorem tempInside_iff (h : t.tempBuffer.length ≤ tempBufferMax) : (t.TempInside E xs ↔ t.Whole E xs) ∧
      (t.Whole E xs → (xs.foldl (Terminal.writeTemp E) t).tempBuffer.length ≤ tempBufferMax) := by
  induction xs generalizing t with
  | nil => exact ⟨Iff.rfl, fun _ => h⟩
  | cons x xs ih =>
    obtain ⟨hst, hp⟩ := @tempStores_spec E t x h
    refine ⟨?_, fun hw => (ih (hp hw.1)).2 hw.2⟩
    rw [Terminal.TempInside, Terminal.Whole, hst]
    exact and_congr_right fun hx => (ih (hp hx)).1

end

/-! ## Turns -/

/-- A turn of a call: a character of the host or the session, the flush at its end, or a call that passes
the bytes on; or a new state. -/
inductive Event
  | host (c : Byte)
  | session (c : Byte)
  | flush
  | passHost (bytes : List Byte)
  | passSession (bytes : List Byte)
  | setState (state : TerminalState)

namespace Terminal

/-- The character of the host that reaches the line. -/
def key (t : Terminal) : Event → Option (Byte × Key)
  | .host c => if t.state.rawMode then none else (convertInput t.state c).map fun c => (c, keyOf t.state c)
  | _ => none

def turn (t : Terminal) : Event → Option Terminal
  | .host c => (t.processCharacter E c).map Prod.snd
  | .session c =>
    match t.writeReturn E (convertOutput t.state c) with
    | (.success, t') => some (t'.writePlain E (convertOutput t.state c)).2
    | (_, t') => some t'
  | .flush => some (t.flushTempBuffer E).2
  | .passHost bytes => some (t.writeSessionPipe E bytes).2
  | .passSession bytes => some (t.writeHostPipe E bytes).2
  | .setState state => some (t.setTerminalState state)

/-- The calls of `TtyWriteCharacterToTempBuffer`, and the terminal at the first of them. The second one
for a character of the session is not made if the first one fails. -/
def calls (t : Terminal) : Event → Option (Terminal × List (Byte × Bool))
  | .session c =>
    some (t, (if t.state.convertNLToCRNL ∧ convertOutput t.state c = lineFeed then [(carriageReturn, false)]
      else []) ++ [(convertOutput t.state c, false)])
  | ev => match t.key ev with
    | none => some (t, [])
    | some (c, key) => t.echoOf c key

structure Bounded (t : Terminal) : Prop where
  position : t.lineBufferPosition ≤ t.lineBufferLength
  length : t.lineBufferLength ≤ lineBufferMax
  temp : t.tempBuffer.length ≤ tempBufferMax

/-- The buffers are in their bounds between any two turns, and all stores and moves in the buffers. -/
def InBounds : Terminal → List Event → Prop
  | t, [] => t.Bounded
  | t, ev :: evs => t.Bounded ∧ (∃ p ∈ t.calls ev, p.1.TempInside E p.2) ∧
    ∃ t' ∈ t.turn E ev, InBounds t' evs

/-- `Erase` at the end of the buffer. -/
def ErasesEnd (t : Terminal) (ev : Event) : Prop :=
  t.lineBufferPosition = lineBufferMax ∧ ∃ c, t.key ev = some (c, .erase)

/-- No turn erases at the end of the buffer or splits a pair. -/
def Avoids : Terminal → List Event → Prop
  | _, [] => True
  | t, ev :: evs => (¬ t.ErasesEnd ev ∧ ∀ p ∈ t.calls ev, p.1.Whole E p.2) ∧
    ∀ t' ∈ t.turn E ev, Avoids t' evs

end Terminal

section

variable {E} {t t' : Terminal} {c : Byte} {ev : Event}

theorem Terminal.Bounded.sameLine (h : t.Bounded) (hs : SameLine t t')
    (htm : t'.tempBuffer.length ≤ tempBufferMax) : t'.Bounded where
  position := by rw [hs.position, hs.length]; exact h.position
  length := hs.length.trans_le h.length
  temp := htm

theorem Terminal.Bounded.flushTempBuffer (h : t.Bounded) : (t.flushTempBuffer E).2.Bounded := by
  refine h.sameLine (SameLine.flushTempBuffer t) ?_
  rw [flushTempBuffer_nil]
  exact Nat.zero_le _

theorem Terminal.Bounded.flushLineBuffer (h : t.Bounded) : (t.flushLineBuffer E).2.Bounded := by
  unfold Terminal.flushLineBuffer Terminal.writeSessionPipe
  split
  · exact h
  · generalize E.pipeWrite t.pipeWrites t.line = r
    obtain ⟨st, put⟩ := r
    cases st with
    | success => exact ⟨le_rfl, Nat.zero_le _, h.temp⟩
    | _ => exact ⟨h.position, h.length, h.temp⟩

theorem Terminal.Bounded.writePlain (h : t.Bounded) (c : Byte) : (t.writePlain E c).2.Bounded :=
  h.sameLine (SameLine.writePlain t c) (writePlain_spec h.temp c).2

/-- The line can be changed unless `Erase` comes at the end of the buffer, and the key leaves both
buffers in their bounds. -/
theorem echoOf_spec (h : t.Bounded) (c : Byte) (key : Key)
    (he : ¬ (t.lineBufferPosition = lineBufferMax ∧ key = .erase)) :
    ∃ p, t.echoOf c key = some p ∧ p.1.tempBuffer = t.tempBuffer ∧
      ∀ t', SameLine p.1 t' → t'.tempBuffer.length ≤ tempBufferMax → (t.afterEcho E t' c key).2.Bounded := by
  have hp := h.position
  have hlength := h.length
  cases key with
  | erase =>
    rw [Terminal.echoOf]
    by_cases hz : t.lineBufferPosition = 0
    · rw [if_pos hz]
      exact ⟨_, rfl, rfl, fun t' hs htm => h.sameLine hs htm⟩
    · rw [if_neg hz]
      have hlt : t.lineBufferPosition < lineBufferMax :=
        lt_of_le_of_ne (hp.trans hlength) fun heq => he ⟨heq, rfl⟩
      have hsize := sizeAfter_eq hlt
      obtain ⟨buf, hmv, -⟩ := @moveLine_eq_some t.lineBuffer t.lineBufferPosition
        (t.lineBufferPosition + 1) (sizeAfter t.lineBufferPosition) (by omega) (by omega)
      rw [hmv]
      refine ⟨_, rfl, rfl, fun t' hs htm => ⟨?_, ?_, htm⟩⟩
      · exact hs.position.trans_le ((Nat.sub_le_sub_right hp 1).trans_eq hs.length.symm)
      · exact hs.length.trans_le ((Nat.sub_le _ _).trans hlength)
  | eraseLine => exact ⟨_, rfl, rfl, fun t' hs htm => ⟨le_rfl, Nat.zero_le _, htm⟩⟩
  | signal => exact ⟨_, rfl, rfl, fun t' hs htm => h.sameLine hs htm⟩
  | endOfLine =>
    refine ⟨_, rfl, rfl, fun t' hs htm => ?_⟩
    have hfs := (h.sameLine hs htm).flushTempBuffer (E := E).flushLineBuffer (E := E)
    exact ⟨hfs.position, hfs.length, hfs.temp⟩
  | endOfFile => exact ⟨_, rfl, rfl, fun t' hs htm => (h.sameLine hs htm).flushLineBuffer⟩
  | normal =>
    unfold Terminal.echoOf Terminal.afterEcho
    by_cases hfl : lineBufferMax ≤ t.lineBufferLength
    · simp only [if_pos hfl]
      exact ⟨_, rfl, rfl, fun t' hs htm => (h.sameLine hs htm).flushLineBuffer⟩
    · simp only [if_neg hfl]
      have hlt : t.lineBufferPosition < lineBufferMax := by omega
      have hsize := sizeAfter_eq hlt
      obtain ⟨buf, hmv, -⟩ := @moveLine_eq_some t.lineBuffer (t.lineBufferPosition + 1)
        t.lineBufferPosition (sizeAfter t.lineBufferPosition) (by omega) (by omega)
      rw [hmv, bind_some, storeLine, if_pos hlt]
      refine ⟨_, rfl, rfl, fun t' hs htm => ⟨?_, ?_, htm⟩⟩
      · exact (Nat.succ_le_succ (hs.position.trans_le hp)).trans_eq hs.length.symm
      · exact hs.length.trans_le (not_le.1 hfl)

theorem turn_spec (h : t.Bounded) : (¬ t.ErasesEnd ev ↔ ∃ p, t.calls ev = some p) ∧ ∀ p ∈ t.calls ev,
      (p.1.TempInside E p.2 ↔ p.1.Whole E p.2) ∧
        (p.1.Whole E p.2 → ∃ t', t.turn E ev = some t' ∧ t'.Bounded) := by
  -- a turn that changes nothing in the line
  have hpl : ∀ xs, t.key ev = none → t.calls ev = some (t, xs) →
      (∃ t', t.turn E ev = some t' ∧ t'.Bounded) →
      (¬ t.ErasesEnd ev ↔ ∃ p, t.calls ev = some p) ∧ ∀ p ∈ t.calls ev,
        (p.1.TempInside E p.2 ↔ p.1.Whole E p.2) ∧
          (p.1.Whole E p.2 → ∃ t', t.turn E ev = some t' ∧ t'.Bounded) := by
    intro xs hy hcl htr
    refine ⟨iff_of_true (fun ⟨_, c, hc⟩ => ?_) ⟨_, hcl⟩, fun p hp => ?_⟩
    · rw [hy] at hc
      cases hc
    · obtain rfl := mem_unique hp hcl
      exact ⟨(tempInside_iff h.temp).1, fun _ => htr⟩
  cases ev with
  | host c =>
    cases hy : t.key (.host c) with
    | none =>
      refine hpl [] hy ?_ ?_
      · simp only [Terminal.calls, hy]
      · rw [Terminal.key] at hy
        rw [Terminal.turn, Terminal.processCharacter]
        cases hc : convertInput t.state c with
        | none => exact ⟨t, rfl, h⟩
        | some c' =>
          cases hrw : t.state.rawMode with
          | true => exact ⟨_, rfl, h.position, h.length, h.temp⟩
          | false => simp [hrw, hc] at hy
    | some x =>
      obtain ⟨c', key⟩ := x
      have hcl : t.calls (.host c) = t.echoOf c' key := by simp only [Terminal.calls, hy]
      have hen : ¬ t.ErasesEnd (.host c) ↔ ∃ p, t.echoOf c' key = some p := by
        constructor
        · intro hnt
          obtain ⟨p, hp, -⟩ := echoOf_spec (E := E) h c' key fun he => hnt ⟨he.1, c', he.2 ▸ hy⟩
          exact ⟨p, hp⟩
        · rintro ⟨p, hp⟩ ⟨hfl, c'', hers⟩
          cases hy.symm.trans hers
          have hmv : moveLine t.lineBuffer lineBufferMax (lineBufferMax + 1) (sizeAfter lineBufferMax)
              = none := if_neg (by decide)
          rw [Terminal.echoOf, hfl, if_neg (by decide), hmv] at hp
          cases hp
      rw [hcl]
      refine ⟨hen, fun p hp => ?_⟩
      have he : ¬ (t.lineBufferPosition = lineBufferMax ∧ key = .erase) :=
        fun he => hen.2 ⟨p, hp⟩ ⟨he.1, c', he.2 ▸ hy⟩
      obtain ⟨q, hq, htm, hb⟩ := echoOf_spec (E := E) h c' key he
      obtain rfl := mem_unique hp hq
      obtain ⟨hif, hlength⟩ := @tempInside_iff E p.1 p.2 (htm ▸ h.temp)
      refine ⟨hif, fun hw => ?_⟩
      rw [Terminal.key] at hy
      split at hy
      · cases hy
      · next hrw =>
        obtain ⟨c'', hc, hx⟩ := map_eq_some_iff.1 hy
        cases hx
        rw [Terminal.turn, processCharacter_parts hc (by simpa using hrw), hp]
        exact ⟨_, rfl, hb _ (SameLine.echo _ _) (hlength hw)⟩
  | session c =>
    refine hpl _ rfl rfl ?_
    have hreturn : (t.writeReturn E (convertOutput t.state c)).2.Bounded := by
      unfold Terminal.writeReturn
      split
      · exact h.writePlain _
      · exact h
    rw [Terminal.turn]
    generalize t.writeReturn E (convertOutput t.state c) = r at hreturn ⊢
    obtain ⟨st, t'⟩ := r
    cases st with
    | success => exact ⟨_, rfl, Terminal.Bounded.writePlain hreturn _⟩
    | _ => exact ⟨_, rfl, hreturn⟩
  | flush => exact hpl [] rfl rfl ⟨_, rfl, h.flushTempBuffer⟩
  | passHost bytes => exact hpl [] rfl rfl ⟨_, rfl, h.position, h.length, h.temp⟩
  | passSession bytes => exact hpl [] rfl rfl ⟨_, rfl, h.position, h.length, h.temp⟩
  | setState state => exact hpl [] rfl rfl ⟨_, rfl, h.position, h.length, h.temp⟩

/-! ### The calls as turns -/

theorem processCharacters_turns (bytes : List Byte) (t : Terminal) (i : Nat) :
    ∃ n, (t.processCharacters E i bytes).map (·.terminal)
      = ((bytes.take n).map Event.host).foldlM (Terminal.turn E) t := by
  induction bytes generalizing t i with
  | nil => exact ⟨0, rfl⟩
  | cons c cs ih =>
    cases hc : t.processCharacter E c with
    | none => exact ⟨1, by simp [Terminal.processCharacters, Terminal.turn, hc]⟩
    | some r =>
      obtain ⟨st, t'⟩ := r
      by_cases hst : st = .success
      · obtain ⟨n, hn⟩ := ih t' (i + 1)
        exact ⟨n + 1, by simp [Terminal.processCharacters, Terminal.turn, hc, hst, hn]⟩
      · exact ⟨1, by simp [Terminal.processCharacters, Terminal.turn, hc, hst]⟩

/-- A call of the host passes its bytes on, or makes a turn for each of them up to the first that fails,
and flushes. -/
theorem writeHostFile_turns (t : Terminal) (bytes : List Byte) :
    ∃ evs, (evs = [.passHost bytes] ∨ ∃ n, evs = (bytes.take n).map .host ++ [.flush]) ∧
      (t.writeHostFile E bytes).map (·.terminal) = evs.foldlM (Terminal.turn E) t := by
  unfold Terminal.writeHostFile
  split
  · exact ⟨_, .inl rfl, by simp [Terminal.turn]⟩
  · obtain ⟨n, hn⟩ := processCharacters_turns (E := E) bytes t 0
    refine ⟨_, .inr ⟨n, rfl⟩, ?_⟩
    rw [foldlM_append, ← hn]
    cases t.processCharacters E 0 bytes with
    | none => rfl
    | some w => rfl

theorem writeConverted_turns (bytes : List Byte) (t : Terminal) (i : Nat) :
    ∃ n, some (t.writeConverted E i bytes).terminal
      = ((bytes.take n).map Event.session).foldlM (Terminal.turn E) t := by
  induction bytes generalizing t i with
  | nil => exact ⟨0, rfl⟩
  | cons c cs ih =>
    cases hr : t.writeReturn E (convertOutput t.state c) with
    | mk st t₁ =>
      cases st with
      | success =>
        cases hw : t₁.writePlain E (convertOutput t.state c) with
        | mk st t₂ =>
          cases st with
          | success =>
            obtain ⟨n, hn⟩ := ih t₂ (i + 1)
            exact ⟨n + 1, by simp [Terminal.writeConverted, Terminal.turn, hr, hw, hn]⟩
          | _ => exact ⟨1, by simp [Terminal.writeConverted, Terminal.turn, hr, hw]⟩
      | _ => exact ⟨1, by simp [Terminal.writeConverted, Terminal.turn, hr]⟩

theorem writeSessionFile_turns (t : Terminal) (bytes : List Byte) :
    ∃ evs, (evs = [.passSession bytes] ∨ ∃ n, evs = (bytes.take n).map .session ++ [.flush]) ∧
      some (t.writeSessionFile E bytes).terminal = evs.foldlM (Terminal.turn E) t := by
  unfold Terminal.writeSessionFile
  split
  · exact ⟨_, .inl rfl, by simp [Terminal.turn]⟩
  · obtain ⟨n, hn⟩ := writeConverted_turns (E := E) bytes t 0
    refine ⟨_, .inr ⟨n, rfl⟩, ?_⟩
    rw [foldlM_append, ← hn]
    rfl

end

/-- **From its creation on a terminal stays in the bounds of its buffers exactly when no `Erase` comes
with the position at the end of the line buffer and no caret is written to the last place of the
temporary one.** -/
theorem inBounds_iff_avoids (E : Environment) (state : TerminalState) (evs : List Event) :
    (initializeTerminal state).InBounds E evs ↔ (initializeTerminal state).Avoids E evs := by
  have hrn : ∀ t : Terminal, t.Bounded → (t.InBounds E evs ↔ t.Avoids E evs) := by
    induction evs with
    | nil => exact fun t h => iff_of_true h trivial
    | cons ev evs ih =>
      intro t h
      obtain ⟨he, hc⟩ := @turn_spec E t ev h
      constructor
      · rintro ⟨-, ⟨p, hp, hin⟩, t', ht', hrs⟩
        obtain ⟨hif, hgs⟩ := hc p hp
        obtain ⟨u, hu, hb⟩ := hgs (hif.1 hin)
        obtain rfl := mem_unique ht' hu
        refine ⟨⟨he.2 ⟨p, hp⟩, fun q hq => ?_⟩, fun u hu => ?_⟩
        · obtain rfl := mem_unique hp hq
          exact hif.1 hin
        · obtain rfl := mem_unique ht' hu
          exact (ih t' hb).1 hrs
      · rintro ⟨⟨hnt, hw⟩, hrs⟩
        obtain ⟨p, hp⟩ := he.1 hnt
        obtain ⟨hif, hgs⟩ := hc p hp
        obtain ⟨t', ht', hb⟩ := hgs (hw p hp)
        exact ⟨h, ⟨p, hp, hif.2 (hw p hp)⟩, t', ht', (ih t' hb).2 (hrs t' ht')⟩
  exact hrn _ ⟨le_rfl, Nat.zero_le _, Nat.zero_le _⟩

/-- Four times the character that clears the line, three letters, and then one that is echoed with a
caret. -/
theorem caret_at_last_place : ¬ (initializeTerminal defaultState).InBounds openPipes
    ([21, 21, 21, 21, 97, 97, 97, 1].map Event.host) := by
  rintro ⟨-, -, t₁, h₁, -, -, t₂, h₂, -, -, t₃, h₃, -, -, t₄, h₄, -, -, t₅, h₅, -, -, t₆, h₆, -, -, t₇, h₇,
    -, ⟨p, hp, hin⟩, -⟩
  cases h₁
  cases h₂
  cases h₃
  cases h₄
  cases h₅
  cases h₆
  cases h₇
  cases hp
  exact absurd (hin.1 32) (by decide)

end Boron.Tty
