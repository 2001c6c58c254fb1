import Boron.Tty.Terminal

/-! # The line discipline

What a terminal should deliver is said without buffers: an editor that keeps the current line, of
any length, and the lines that are finished. The terminal follows the editor for every division of
the characters into calls, as long as no character comes when the line buffer is full, unless it
ends or clears the line, and no end of file character comes. A full buffer is flushed but the
character that found it full is lost, `Erase` at a full buffer moves memory of the size -1, and the
end of file character is not counted as written. -/

namespace Boron.Tty

open Function List Option

/-! ## The editor -/

/-- What a character does to the line. -/
inductive Key
  | erase
  | eraseLine
  | signal
  | endOfLine
  | endOfFile
  | normal
  deriving DecidableEq

/-- The key of a converted character. -/
def keyOf (s : TerminalState) (c : Byte) : Key :=
  if c = s.erase then .erase
  else if c = s.eraseLine then .eraseLine
  else if c = s.interrupt then .signal
  else if c = s.suspend then .signal
  else if c = carriageReturn ∨ c = lineFeed ∨ c = s.endOfLine ∨ c = s.endOfLine2 then .endOfLine
  else if c = s.endOfFile then .endOfFile
  else .normal

/-- The characters of the finished lines, and the current line. -/
structure Editor where
  finished : List Byte
  line : List Byte

namespace Editor

def empty : Editor := { finished := [], line := [] }

def press (e : Editor) (c : Byte) : Key → Editor
  | .erase => { e with line := e.line.dropLast }
  | .eraseLine => { e with line := [] }
  | .signal => e
  | .endOfLine => { finished := e.finished ++ e.line ++ [c], line := [] }
  | .endOfFile => { finished := e.finished ++ e.line, line := [] }
  | .normal => { e with line := e.line ++ [c] }

/-- One character of the host. In raw mode it is delivered at once. -/
def step (s : TerminalState) (e : Editor) (c : Byte) : Editor :=
  match convertInput s c with
  | none => e
  | some c => if s.rawMode then { e with finished := e.finished ++ [c] } else e.press c (keyOf s c)

/-- Whether a character ends a call. -/
def endsCall (s : TerminalState) (c : Byte) : Bool :=
  (convertInput s c).any fun c => !s.rawMode && keyOf s c = .endOfFile

/-- The characters of a call up to the first that ends it. -/
def consumed (s : TerminalState) : List Byte → List Byte
  | [] => []
  | c :: cs => if endsCall s c then [c] else c :: consumed s cs

end Editor

/-- The image of the session's characters under the output conversions. -/
def outputImage (s : TerminalState) (bytes : List Byte) : List Byte :=
  bytes.flatMap fun c =>
    let c := if s.convertCRToNLOutput ∧ c = carriageReturn then lineFeed else c
    if s.convertNLToCRNL ∧ c = lineFeed then [carriageReturn, c] else [c]

/-! ## What is expected -/

/-- A call on a terminal. -/
inductive Call
  | writeHost (bytes : List Byte)
  | writeSession (bytes : List Byte)
  | setState (state : TerminalState)

/-- Every finished line is delivered, and the bytes delivered with those in the line buffer are the
characters that were not erased. -/
def Kept (t : Terminal) (e : Editor) : Prop :=
  e.finished <+: t.hostToSession ∧ t.hostToSession ++ t.line = e.finished ++ e.line

/-- The calls do what the editor and the output conversions say. -/
def Right (E : Environment) : Terminal → Editor → List Call → Prop
  | t, e, [] => Kept t e
  | t, e, .writeHost bytes :: calls => Kept t e ∧
    ∃ w, t.writeHostFile E bytes = some w ∧
      w.bytesWritten = (Editor.consumed t.state bytes).length ∧
      Right E w.terminal ((Editor.consumed t.state bytes).foldl (Editor.step t.state) e) calls
  | t, e, .writeSession bytes :: calls => Kept t e ∧
    (t.writeSessionFile E bytes).bytesWritten = bytes.length ∧
    (t.writeSessionFile E bytes).terminal.sessionToHost
      = t.sessionToHost ++ outputImage t.state bytes ∧
    Right E (t.writeSessionFile E bytes).terminal e calls
  | t, e, .setState state :: calls => Kept t e ∧ Right E (t.setTerminalState state) e calls

/-- What goes into a terminal, before it is divided into calls. -/
inductive Item
  | host (c : Byte)
  | session (c : Byte)
  | setState (state : TerminalState)

def Call.items : Call → List Item
  | .writeHost bytes => bytes.map .host
  | .writeSession bytes => bytes.map .session
  | .setState state => [.setState state]

/-- The terminal is right however the stream is divided into calls. -/
def LineDiscipline (E : Environment) (t : Terminal) (e : Editor) (stream : List Item) : Prop :=
  ∀ calls : List Call, calls.flatMap Call.items = stream → Right E t e calls

/-- A character that the code handles: it is no end of file, and if the current line is as long as
the line buffer, it does not go into the line or erase from it. -/
def Fits (s : TerminalState) (e : Editor) (c : Byte) : Prop :=
  s.rawMode = false → ∀ c' ∈ convertInput s c, keyOf s c' ≠ .endOfFile ∧
    (lineBufferMax ≤ e.line.length → keyOf s c' ≠ .normal ∧ keyOf s c' ≠ .erase)

instance (s : TerminalState) (e : Editor) (c : Byte) : Decidable (Fits s e c) :=
  have (_ : s.rawMode = false) : Decidable (∀ c' ∈ convertInput s c, keyOf s c' ≠ .endOfFile ∧
      (lineBufferMax ≤ e.line.length → keyOf s c' ≠ .normal ∧ keyOf s c' ≠ .erase)) :=
    Option.decidableForallMem _
  inferInstanceAs (Decidable (s.rawMode = false → _))

/-- Each character of the host fits when the editor comes to it. -/
def Fitting : TerminalState → Editor → List Item → Prop
  | _, _, [] => True
  | s, e, .host c :: stream => Fits s e c ∧ Fitting s (e.step s c) stream
  | s, e, .session _ :: stream => Fitting s e stream
  | _, e, .setState s :: stream => Fitting s e stream

/-- Every write to a pipe succeeds, and the pipe takes all of it. -/
def PipesAccept (E : Environment) : Prop := ∀ n bytes, E.pipeWrite n bytes = (.success, bytes)

variable {E : Environment} {t t' t'' : Terminal} {e : Editor} {c : Byte}

/-! ## The temporary buffer leaves the line alone -/

/-- Two terminals with the same state, line and delivered bytes. -/
structure SameLine (t t' : Terminal) : Prop where
  state : t'.state = t.state
  lineBuffer : t'.lineBuffer = t.lineBuffer
  position : t'.lineBufferPosition = t.lineBufferPosition
  length : t'.lineBufferLength = t.lineBufferLength
  hostToSession : t'.hostToSession = t.hostToSession

namespace SameLine

theorem refl (t : Terminal) : SameLine t t := ⟨rfl, rfl, rfl, rfl, rfl⟩

theorem trans (h : SameLine t t') (h' : SameLine t' t'') : SameLine t t'' where
  state := h'.state.trans h.state
  lineBuffer := h'.lineBuffer.trans h.lineBuffer
  position := h'.position.trans h.position
  length := h'.length.trans h.length
  hostToSession := h'.hostToSession.trans h.hostToSession

theorem flushTempBuffer (t : Terminal) : SameLine t (t.flushTempBuffer E).2 := by
  unfold Terminal.flushTempBuffer
  split
  · exact refl t
  · exact ⟨rfl, rfl, rfl, rfl, rfl⟩

theorem storeTemp (t : Terminal) (c : Byte) : SameLine t (t.storeTemp E c) := by
  unfold Terminal.storeTemp
  split <;> exact ⟨rfl, rfl, rfl, rfl, rfl⟩

theorem makeRoom (t : Terminal) : SameLine t (t.makeRoom E).2 := by
  unfold Terminal.makeRoom
  split
  · exact flushTempBuffer t
  · exact refl t

theorem writePlain (t : Terminal) (c : Byte) : SameLine t (t.writePlain E c).2 := by
  have h := makeRoom (E := E) t
  unfold Terminal.writePlain
  split
  · next hrm =>
    rw [hrm] at h
    exact h.trans (storeTemp _ c)
  · exact h

theorem writeEscaped (t : Terminal) (c : Byte) : SameLine t (t.writeEscaped E c).2 := by
  have h := makeRoom (E := E) t
  unfold Terminal.writeEscaped
  split
  · next t₁ hrm =>
    rw [hrm] at h
    split
    · exact h.trans (storeTemp _ _)
    · have h' := writePlain (E := E) t₁ 94
      split
      · next hc =>
        rw [hc] at h'
        exact (h.trans h').trans (storeTemp _ _)
      · exact h.trans h'
  · exact h

theorem foldl {f : Terminal → Byte → Terminal} (hf : ∀ t c, SameLine t (f t c))
    (bytes : List Byte) (t : Terminal) : SameLine t (bytes.foldl f t) := by
  induction bytes generalizing t with
  | nil => exact refl t
  | cons c cs ih => exact (hf t c).trans (ih (f t c))

theorem writeStringEcho (t : Terminal) (str : List Byte) : SameLine t (t.writeStringEcho E str) := by
  unfold Terminal.writeStringEcho
  split
  · exact foldl (fun t c => writePlain t c) str t
  · exact refl t

theorem writeCurrentLineFromPosition (t : Terminal) (pos : Nat) :
    SameLine t (t.writeCurrentLineFromPosition E pos) := by
  unfold Terminal.writeCurrentLineFromPosition
  split
  · exact foldl (fun t c => writeEscaped t c) _ t
  · exact refl t

theorem eraseEcho (t : Terminal) (str : List Byte) (pos : Nat) :
    SameLine t ((t.writeStringEcho E str).writeCurrentLineFromPosition E pos) :=
  (writeStringEcho t str).trans (writeCurrentLineFromPosition _ pos)

end SameLine

/-! ## Moves in the line buffer -/

theorem moveLine_eq_some (buf : Nat → Byte) {dst src size : Nat}
    (hds : dst + size ≤ lineBufferMax) (hsr : src + size ≤ lineBufferMax) :
    ∃ moved, moveLine buf dst src size = some moved ∧ ∀ i < dst, moved i = buf i :=
  ⟨_, if_pos ⟨hds, hsr⟩, fun _ hi => if_neg (by omega)⟩

theorem sizeAfter_eq {pos : Nat} (h : pos < lineBufferMax) :
    sizeAfter pos = lineBufferMax - pos - 1 := by
  unfold sizeAfter lineBufferMax at *
  omega

/-! ## The terminal follows the editor -/

/-- The line buffer holds the editor's line, edited at its end, and the finished lines are
delivered. -/
structure Follows (t : Terminal) (e : Editor) : Prop where
  position : t.lineBufferPosition = t.lineBufferLength
  line : t.line = e.line
  bound : t.lineBufferLength ≤ lineBufferMax
  delivered : t.hostToSession = e.finished

theorem length_line (t : Terminal) : t.line.length = t.lineBufferLength := by
  simp [Terminal.line, Terminal.chars]

theorem chars_succ (t : Terminal) (n : Nat) : t.chars 0 (n + 1) = t.chars 0 n ++ [t.lineBuffer n] := by
  rw [Terminal.chars, range'_1_concat, map_append, Nat.zero_add]
  rfl

theorem SameLine.line_eq (h : SameLine t t') : t'.line = t.line := by
  rw [Terminal.line, Terminal.line, Terminal.chars, Terminal.chars, h.lineBuffer, h.length]

namespace Follows

theorem length_eq (h : Follows t e) : e.line.length = t.lineBufferLength := by
  rw [← h.line, length_line]

theorem kept (h : Follows t e) : Kept t e := by
  rw [Kept, h.delivered, h.line]
  exact ⟨prefix_rfl, rfl⟩

theorem sameLine (h : Follows t e) (hs : SameLine t t') : Follows t' e where
  position := by rw [hs.position, hs.length, h.position]
  line := by rw [hs.line_eq, h.line]
  bound := hs.length ▸ h.bound
  delivered := hs.hostToSession.trans h.delivered

/-! ### One lemma for each key -/

theorem eraseCharacter (h : Follows t e) (hfl : t.lineBufferLength < lineBufferMax) :
    ∃ t', t.eraseCharacter E = some (.success, t') ∧ t'.state = t.state ∧
      Follows t' { e with line := e.line.dropLast } := by
  unfold Terminal.eraseCharacter
  have hpos := h.position
  have hln := h.length_eq
  split
  · next hz =>
    have hnil : e.line = [] := length_eq_zero_iff.1 (by omega)
    refine ⟨t, rfl, rfl, ?_⟩
    rw [hnil, dropLast_nil, ← hnil]
    exact h
  · next hz =>
    -- the memory moved lies behind the line
    have hsize := sizeAfter_eq (hpos ▸ hfl)
    have hds : t.lineBufferPosition + sizeAfter t.lineBufferPosition ≤ lineBufferMax := by omega
    have hsr : t.lineBufferPosition + 1 + sizeAfter t.lineBufferPosition ≤ lineBufferMax := by omega
    obtain ⟨buf, hmv, hp⟩ := moveLine_eq_some t.lineBuffer hds hsr
    rw [hmv]
    have hu : Follows { t with
        lineBuffer := buf
        lineBufferLength := t.lineBufferLength - 1
        lineBufferPosition := t.lineBufferPosition - 1 } { e with line := e.line.dropLast } := by
      refine ⟨by simp only [hpos], ?_, (Nat.sub_le _ _).trans h.bound, h.delivered⟩
      obtain ⟨n, hn⟩ : ∃ n, t.lineBufferLength = n + 1 := ⟨t.lineBufferLength - 1, by omega⟩
      have hin : e.line.dropLast = t.chars 0 n := by
        rw [← h.line, Terminal.line, hn, chars_succ, dropLast_concat]
      rw [hin, Terminal.line, hn]
      refine map_congr_left fun i hi => hp i ?_
      have hi' : i < n := by simpa [mem_range'_1] using hi
      omega
    refine ⟨_, rfl, ?_⟩
    split
    · exact ⟨(SameLine.eraseEcho _ _ _).state, hu.sameLine (SameLine.eraseEcho _ _ _)⟩
    · exact ⟨rfl, hu⟩

theorem eraseCurrentLine (h : Follows t e) : (t.eraseCurrentLine E).state = t.state ∧
      Follows (t.eraseCurrentLine E) { e with line := [] } := by
  have hs := SameLine.writeStringEcho (E := E) t
    (Terminal.eraseSequence (t.countVisibleCharacters 0 t.lineBufferPosition))
  exact ⟨hs.state, rfl, rfl, Nat.zero_le _, hs.hostToSession.trans h.delivered⟩

theorem flushLineBuffer (hE : PipesAccept E) (h : Follows t e) :
    (t.flushLineBuffer E).1 = .success ∧ (t.flushLineBuffer E).2.state = t.state ∧
      Follows (t.flushLineBuffer E).2 { finished := e.finished ++ e.line, line := [] } := by
  unfold Terminal.flushLineBuffer
  split
  · next hz =>
    have hnil : e.line = [] := length_eq_zero_iff.1 (h.length_eq.trans hz)
    refine ⟨rfl, rfl, h.position, ?_, h.bound, ?_⟩
    · rw [h.line, hnil]
    · rw [h.delivered, hnil, append_nil]
  · simp only [Terminal.writeSessionPipe, hE _ _]
    refine ⟨trivial, trivial, rfl, rfl, Nat.zero_le _, ?_⟩
    rw [h.delivered, h.line]

theorem writeCharacter (hE : PipesAccept E) (h : Follows t e) (c : Byte) :
    (t.writeCharacter E c).1 = .success ∧ (t.writeCharacter E c).2.state = t.state ∧
      Follows (t.writeCharacter E c).2 { e with finished := e.finished ++ [c] } := by
  simp only [Terminal.writeCharacter, Terminal.writeSessionPipe, hE _ _]
  exact ⟨trivial, trivial, h.position, h.line, h.bound, by rw [h.delivered]⟩

theorem endLine (hE : PipesAccept E) (h : Follows t e) (c : Byte) :
    (t.endLine E c).1 = .success ∧ (t.endLine E c).2.state = t.state ∧
      Follows (t.endLine E c).2 { finished := e.finished ++ e.line ++ [c], line := [] } := by
  have he : SameLine t (if t.state.echo then (t.writePlain E c).2 else t) := by
    split
    · exact SameLine.writePlain t c
    · exact SameLine.refl t
  have hs := he.trans (SameLine.flushTempBuffer (E := E) _)
  obtain ⟨hfl, hst, hln⟩ := (h.sameLine hs).flushLineBuffer hE
  obtain ⟨_, hst', hen⟩ := hln.writeCharacter hE c
  exact ⟨hfl, hst'.trans (hst.trans hs.state), hen⟩

theorem insertCharacter (h : Follows t e) (hfl : t.lineBufferLength < lineBufferMax) (c : Byte) :
    ∃ t', t.insertCharacter E c = some (.success, t') ∧ t'.state = t.state ∧
      Follows t' { e with line := e.line ++ [c] } := by
  have hpos := h.position
  have hsize := sizeAfter_eq (hpos ▸ hfl)
  have hds : t.lineBufferPosition + 1 + sizeAfter t.lineBufferPosition ≤ lineBufferMax := by omega
  have hsr : t.lineBufferPosition + sizeAfter t.lineBufferPosition ≤ lineBufferMax := by omega
  obtain ⟨buf, hmv, hp⟩ := moveLine_eq_some t.lineBuffer hds hsr
  have hst : storeLine buf t.lineBufferPosition c
      = some (update buf t.lineBufferPosition c) := if_pos (by omega)
  have hs := SameLine.writeCurrentLineFromPosition (E := E)
    { t with
      lineBuffer := update buf t.lineBufferPosition c
      lineBufferLength := t.lineBufferLength + 1 } t.lineBufferPosition
  rw [Terminal.insertCharacter, if_neg (by omega), hmv]
  simp only [bind_eq_bind, bind_some, hst]
  refine ⟨_, rfl, hs.state, ?_, ?_, ?_, ?_⟩
  · exact (congrArg (· + 1) (hs.position.trans hpos)).trans hs.length.symm
  · refine (hs.line_eq).trans ?_
    rw [Terminal.line]
    refine (chars_succ _ _).trans ?_
    rw [← h.line]
    congr 1
    · refine map_congr_left fun i hi => ?_
      have := mem_range'_1.1 hi
      have hne : i ≠ t.lineBufferPosition := by omega
      simp only [update_of_ne hne]
      exact hp i (by omega)
    · simp only [hpos, update_self]
  · exact hs.length.trans_le hfl
  · exact hs.hostToSession.trans h.delivered

end Follows

/-! ### A character -/

variable {c' : Byte}

/-- The code tells the keys apart as the editor does. -/
theorem processCharacter_eq (hc : convertInput t.state c = some c') (hw : t.state.rawMode = false) :
    t.processCharacter E c = match keyOf t.state c' with
      | .erase => t.eraseCharacter E
      | .eraseLine => some (.success, t.eraseCurrentLine E)
      | .signal => some (.success, t)
      | .endOfLine => some (t.endLine E c')
      | .endOfFile => some (t.endFile E)
      | .normal => t.insertCharacter E c' := by
  unfold Terminal.processCharacter keyOf
  rw [hc]
  simp only [hw, Bool.false_eq_true, if_false]
  by_cases hers : c' = t.state.erase
  · rw [if_pos hers, if_pos hers]
  rw [if_neg hers, if_neg hers]
  by_cases hln : c' = t.state.eraseLine
  · rw [if_pos hln, if_pos hln]
  rw [if_neg hln, if_neg hln]
  by_cases hin : c' = t.state.interrupt
  · rw [if_pos hin, if_pos hin]
  rw [if_neg hin, if_neg hin]
  by_cases hp : c' = t.state.suspend
  · rw [if_pos hp, if_pos hp]
  rw [if_neg hp, if_neg hp]
  by_cases he : c' = carriageReturn ∨ c' = lineFeed ∨ c' = t.state.endOfLine ∨ c' = t.state.endOfLine2
  · rw [if_pos he, if_pos he]
  rw [if_neg he, if_neg he]
  by_cases hfl : c' = t.state.endOfFile
  · rw [if_pos hfl, if_pos hfl]
  · rw [if_neg hfl, if_neg hfl]

theorem Follows.processCharacter (hE : PipesAccept E) (h : Follows t e) (hft : Fits t.state e c) :
    ∃ t', t.processCharacter E c = some (.success, t') ∧ t'.state = t.state ∧
      Follows t' (e.step t.state c) := by
  unfold Editor.step
  cases hc : convertInput t.state c with
  | none => exact ⟨t, by simp [Terminal.processCharacter, hc], rfl, h⟩
  | some c' =>
    dsimp only
    cases hrw : t.state.rawMode with
    | true =>
      obtain ⟨hst, hstt, hw⟩ := h.writeCharacter hE c'
      refine ⟨(t.writeCharacter E c').2, ?_, hstt, hw⟩
      simp [Terminal.processCharacter, hc, hrw, Prod.ext_iff, hst]
    | false =>
      obtain ⟨hef, hfl⟩ := hft hrw c' hc
      have hrm : keyOf t.state c' = .normal ∨ keyOf t.state c' = .erase →
          t.lineBufferLength < lineBufferMax := by
        intro hy
        by_contra hge
        have := hfl (by rw [h.length_eq]; omega)
        tauto
      rw [processCharacter_eq hc hrw]
      cases hy : keyOf t.state c' with
      | erase => exact h.eraseCharacter (hrm (.inr hy))
      | eraseLine => exact ⟨_, rfl, h.eraseCurrentLine⟩
      | signal => exact ⟨t, rfl, rfl, h⟩
      | endOfLine =>
        obtain ⟨hst, he⟩ := h.endLine hE c'
        exact ⟨(t.endLine E c').2, by rw [← hst], he⟩
      | endOfFile => exact absurd hy hef
      | normal => exact h.insertCharacter (hrm (.inl hy)) c'

/-! ### A call of the host -/

variable {s : TerminalState}

theorem not_endsCall_of_fits (h : Fits s e c) : Editor.endsCall s c = false := by
  unfold Editor.endsCall
  cases hc : convertInput s c with
  | none => rfl
  | some c' =>
    cases hw : s.rawMode with
    | true => simp
    | false => simpa using (h hw c' hc).1

variable {bytes : List Byte}

variable {stream : List Item}

/-- The items of a call fit one after another, up to the items that follow. -/
theorem fitting_append_host : Fitting s e (bytes.map .host ++ stream) ↔
      Fitting s e (bytes.map .host) ∧ Fitting s (bytes.foldl (Editor.step s) e) stream := by
  induction bytes generalizing e with
  | nil => simp [Fitting]
  | cons c cs ih =>
    simp only [map_cons, cons_append, foldl_cons, Fitting]
    rw [ih, and_assoc]

theorem consumed_of_fitting (h : Fitting s e (bytes.map .host)) : Editor.consumed s bytes = bytes := by
  induction bytes generalizing e with
  | nil => rfl
  | cons c cs ih =>
    obtain ⟨hc, hcs⟩ := h
    rw [Editor.consumed, not_endsCall_of_fits hc, ih hcs]
    rfl

theorem Follows.processCharacters (hE : PipesAccept E) (h : Follows t e) (i : Nat)
    (hft : Fitting t.state e (bytes.map .host)) :
    ∃ t', t.processCharacters E i bytes
        = some { status := .success, bytesWritten := i + bytes.length, terminal := t' } ∧
      t'.state = t.state ∧ Follows t' (bytes.foldl (Editor.step t.state) e) := by
  induction bytes generalizing t e i with
  | nil => exact ⟨t, rfl, rfl, h⟩
  | cons c cs ih =>
    obtain ⟨hc, hcs⟩ := hft
    obtain ⟨t₁, hrn, hst, h₁⟩ := h.processCharacter hE hc
    obtain ⟨t₂, hrn', hst', h₂⟩ := ih h₁ (i + 1) (by rwa [hst])
    refine ⟨t₂, ?_, hst'.trans hst, by rwa [hst] at h₂⟩
    simp only [Terminal.processCharacters, hrn, bind_eq_bind, bind_some, if_true, hrn',
      length_cons, Nat.add_assoc, Nat.add_comm 1]

theorem flushTempBuffer_nil (t : Terminal) : (t.flushTempBuffer E).2.tempBuffer = [] := by
  unfold Terminal.flushTempBuffer
  split
  · assumption
  · rfl

theorem foldl_step_raw (hw : s.rawMode = true) (hc : s.ignoreCR = false)
    (hnl : s.convertCRToNL = false) (hc' : s.convertNLToCR = false) (bytes : List Byte) :
    bytes.foldl (Editor.step s) e = { e with finished := e.finished ++ bytes } := by
  induction bytes generalizing e with
  | nil => simp
  | cons c cs ih => simp [ih, Editor.step, convertInput, hw, hc, hnl, hc']

theorem Follows.writeHostFile (hE : PipesAccept E) (h : Follows t e)
    (htm : t.tempBuffer = []) (hft : Fitting t.state e (bytes.map .host)) :
    ∃ w, t.writeHostFile E bytes = some w ∧ w.bytesWritten = bytes.length ∧
      w.terminal.state = t.state ∧ w.terminal.tempBuffer = [] ∧
      Follows w.terminal (bytes.foldl (Editor.step t.state) e) := by
  unfold Terminal.writeHostFile
  split
  · next hw =>
    obtain ⟨hw, _, hc, hnl, hc'⟩ := hw
    simp only [Bool.not_eq_true] at hc hnl hc'
    rw [foldl_step_raw hw hc hnl hc']
    simp only [Terminal.writeSessionPipe, hE _ _]
    exact ⟨_, rfl, rfl, rfl, htm, h.position, h.line, h.bound, by rw [h.delivered]⟩
  · obtain ⟨t₁, hrn, hst, h₁⟩ := h.processCharacters hE 0 hft
    have hs := SameLine.flushTempBuffer (E := E) t₁
    rw [hrn]
    exact ⟨_, rfl, Nat.zero_add _, hs.state.trans hst, flushTempBuffer_nil t₁, h₁.sameLine hs⟩

/-! ### A call of the session -/

/-- What the session to host pipe has taken and will take with the next flush. -/
def sent (t : Terminal) : List Byte := t.sessionToHost ++ t.tempBuffer

theorem flushTempBuffer_sent (hE : PipesAccept E) (t : Terminal) :
    (t.flushTempBuffer E).1 = .success ∧ (t.flushTempBuffer E).2.sessionToHost = sent t := by
  unfold Terminal.flushTempBuffer sent
  split
  · next hnil => exact ⟨rfl, by simp [hnil]⟩
  · simp [Terminal.writeHostPipe, hE _ _]

theorem makeRoom_sent (hE : PipesAccept E) (t : Terminal) :
    ∃ t', t.makeRoom E = (.success, t') ∧ sent t' = sent t ∧ t'.tempBuffer.length < tempBufferMax := by
  unfold Terminal.makeRoom
  split
  · obtain ⟨hst, hsn⟩ := flushTempBuffer_sent hE t
    refine ⟨_, Prod.ext hst rfl, ?_, ?_⟩
    · rw [sent, hsn, flushTempBuffer_nil, append_nil]
    · rw [flushTempBuffer_nil]
      decide
  · next hrm => exact ⟨t, rfl, rfl, by omega⟩

theorem writePlain_sent (hE : PipesAccept E) (t : Terminal) (c : Byte) :
    ∃ t', t.writePlain E c = (.success, t') ∧ sent t' = sent t ++ [c] ∧ SameLine t t' := by
  obtain ⟨t₁, hrm, hsn, hlt⟩ := makeRoom_sent hE t
  have hs := SameLine.writePlain (E := E) t c
  refine ⟨_, ?_, ?_, hs⟩
  · simp only [Terminal.writePlain, hrm]
  · simp only [Terminal.writePlain, hrm, Terminal.storeTemp, if_pos hlt, ← hsn]
    exact (append_assoc _ _ _).symm

theorem writeReturn_sent (hE : PipesAccept E) (t : Terminal) (c : Byte) :
    ∃ t', t.writeReturn E c = (.success, t') ∧
      sent t' = sent t ++ (if t.state.convertNLToCRNL ∧ c = lineFeed then [carriageReturn] else []) ∧
      SameLine t t' := by
  unfold Terminal.writeReturn
  split
  · exact writePlain_sent hE t carriageReturn
  · exact ⟨t, rfl, (append_nil _).symm, SameLine.refl t⟩

theorem outputImage_cons (s : TerminalState) (c : Byte) (cs : List Byte) : outputImage s (c :: cs) =
      (if s.convertNLToCRNL ∧ convertOutput s c = lineFeed then [carriageReturn] else []) ++
        [convertOutput s c] ++ outputImage s cs := by
  change (if s.convertNLToCRNL ∧ convertOutput s c = lineFeed then [carriageReturn, convertOutput s c]
    else [convertOutput s c]) ++ outputImage s cs = _
  split <;> rfl

theorem writeConverted_sent (hE : PipesAccept E) (bytes : List Byte) (t : Terminal) (i : Nat) :
    (t.writeConverted E i bytes).bytesWritten = i + bytes.length ∧
      sent (t.writeConverted E i bytes).terminal = sent t ++ outputImage t.state bytes ∧
      SameLine t (t.writeConverted E i bytes).terminal := by
  induction bytes generalizing t i with
  | nil => simp [Terminal.writeConverted, outputImage, SameLine.refl]
  | cons c cs ih =>
    obtain ⟨t₁, hrn₁, hsn₁, hs₁⟩ := writeReturn_sent hE t (convertOutput t.state c)
    obtain ⟨t₂, hrn₂, hsn₂, hs₂⟩ := writePlain_sent hE t₁ (convertOutput t.state c)
    have hrn : t.writeConverted E i (c :: cs) = t₂.writeConverted E (i + 1) cs := by
      simp only [Terminal.writeConverted, hrn₁, hrn₂]
    obtain ⟨hcount, hsn, hs⟩ := ih t₂ (i + 1)
    have hs₁₂ := hs₁.trans hs₂
    rw [hrn]
    refine ⟨?_, ?_, hs₁₂.trans hs⟩
    · rw [hcount, length_cons]
      omega
    · rw [hsn, hsn₂, hsn₁, hs₁₂.state, outputImage_cons]
      simp only [append_assoc]

/-- Without conversions the image is the text. -/
theorem outputImage_id (hnl : s.convertNLToCRNL = false)
    (hc : s.convertCRToNLOutput = false) (bytes : List Byte) : outputImage s bytes = bytes := by
  simp [outputImage, hnl, hc]

theorem writeSessionFile_sent (hE : PipesAccept E) (ht : t.tempBuffer = []) (bytes : List Byte) :
    (t.writeSessionFile E bytes).bytesWritten = bytes.length ∧
      (t.writeSessionFile E bytes).terminal.sessionToHost
        = t.sessionToHost ++ outputImage t.state bytes ∧
      (t.writeSessionFile E bytes).terminal.tempBuffer = [] ∧
      SameLine t (t.writeSessionFile E bytes).terminal := by
  unfold Terminal.writeSessionFile
  split
  · next hw =>
    obtain ⟨hnl, hc⟩ := hw
    simp only [Bool.not_eq_true] at hnl hc
    rw [outputImage_id hnl hc]
    simp only [Terminal.writeHostPipe, hE _ _]
    exact ⟨trivial, trivial, ht, rfl, rfl, rfl, rfl, rfl⟩
  · obtain ⟨hcount, hsn, hs⟩ := writeConverted_sent hE bytes t 0
    refine ⟨hcount.trans (Nat.zero_add _), ?_, flushTempBuffer_nil _,
      hs.trans (SameLine.flushTempBuffer _)⟩
    refine (flushTempBuffer_sent hE _).2.trans (hsn.trans ?_)
    rw [sent, ht, append_nil]

/-! ## Streams -/

theorem Right.kept {calls : List Call} (h : Right E t e calls) : Kept t e := by
  match calls with
  | [] => exact h
  | .writeHost _ :: _ => exact h.1
  | .writeSession _ :: _ => exact h.1
  | .setState _ :: _ => exact h.1

theorem fitting_append_session : Fitting s e (bytes.map .session ++ stream) ↔ Fitting s e stream := by
  induction bytes with
  | nil => rfl
  | cons c cs ih => exact ih

theorem Follows.setState (h : Follows t e) (state : TerminalState) :
    Follows (t.setTerminalState state) e :=
  ⟨h.position, h.line, h.bound, h.delivered⟩

/-- Calls whose characters all fit do what is expected of them. -/
theorem right_of_fitting (hE : PipesAccept E) (calls : List Call) (h : Follows t e)
    (htm : t.tempBuffer = []) (hft : Fitting t.state e (calls.flatMap Call.items)) :
    Right E t e calls := by
  induction calls generalizing t e with
  | nil => exact h.kept
  | cons call calls ih =>
    rw [flatMap_cons] at hft
    cases call with
    | writeHost bytes =>
      obtain ⟨hb, hrs⟩ := fitting_append_host.1 hft
      obtain ⟨w, hw, hcount, hst, htm', h'⟩ := h.writeHostFile hE htm hb
      have hc := consumed_of_fitting hb
      refine ⟨h.kept, w, hw, by rw [hcount, hc], ?_⟩
      rw [hc]
      exact ih h' htm' (by rwa [hst])
    | writeSession bytes =>
      obtain ⟨hcount, hsn, htm', hs⟩ := writeSessionFile_sent hE htm bytes
      refine ⟨h.kept, hcount, hsn, ih (h.sameLine hs) htm' ?_⟩
      rw [hs.state]
      exact fitting_append_session.1 hft
    | setState state => exact ⟨h.kept, ih (h.setState state) htm hft⟩

theorem step_eq (hc : convertInput s c = some c')
    (hw : s.rawMode = false) : e.step s c = e.press c' (keyOf s c') := by
  simp [Editor.step, hc, hw]

theorem eraseCharacter_full (h : t.lineBufferPosition = lineBufferMax) : t.eraseCharacter E = none := by
  have hmv : moveLine t.lineBuffer lineBufferMax (lineBufferMax + 1) (sizeAfter lineBufferMax)
      = none := if_neg (by decide)
  rw [Terminal.eraseCharacter, h, if_neg (by decide), hmv]
  rfl

theorem insertCharacter_full (hE : PipesAccept E) (h : Follows t e)
    (hfl : t.lineBufferLength = lineBufferMax) :
    ∃ t', t.insertCharacter E c = some (.success, t') ∧
      Follows t' { finished := e.finished ++ e.line, line := [] } := by
  obtain ⟨hst, _, h₁⟩ := h.flushLineBuffer hE
  exact ⟨_, by rw [Terminal.insertCharacter, if_pos hfl.ge, ← hst], h₁⟩

/-- A character that does not fit, written by a call of its own, breaks what is expected. -/
theorem not_kept_of_not_fits (hE : PipesAccept E) (h : Follows t e) (hft : ¬ Fits t.state e c)
    {w : Terminal.Written} (hw : t.writeHostFile E [c] = some w)
    (hcount : w.bytesWritten = (Editor.consumed t.state [c]).length) :
    ¬ Kept w.terminal ((Editor.consumed t.state [c]).foldl (Editor.step t.state) e) := by
  unfold Fits at hft
  push Not at hft
  obtain ⟨hrw, c', hc, hks⟩ := hft
  have hc : convertInput t.state c = some c' := hc
  have hcn : Editor.consumed t.state [c] = [c] := by
    rw [Editor.consumed]
    split <;> rfl
  have hst : [c].foldl (Editor.step t.state) e = e.press c' (keyOf t.state c') := step_eq hc hrw
  rw [Terminal.writeHostFile, if_neg (by simp [hrw]), Terminal.processCharacters,
    processCharacter_eq hc hrw] at hw
  rw [hcn] at hcount ⊢
  rw [hst]
  by_cases hy : keyOf t.state c' = .endOfFile
  · -- the character is not counted
    rw [hy] at hw
    cases hw
    exact absurd hcount Nat.zero_ne_one
  · obtain ⟨hfl, hy⟩ := hks hy
    have hlength := h.length_eq
    have hb := h.bound
    have hlen : t.lineBufferLength = lineBufferMax := by omega
    by_cases hnr : keyOf t.state c' = .normal
    · -- the line is flushed, the character dropped
      obtain ⟨t₁, hin, h₁⟩ := insertCharacter_full (c := c') hE h hlen
      rw [hnr] at hw ⊢
      simp only [hin] at hw
      cases hw
      have hln := (h₁.sameLine (SameLine.flushTempBuffer (E := E) t₁)).kept.2
      rintro ⟨_, hp⟩
      have hls := congrArg List.length (hln.symm.trans hp)
      simp only [Editor.press, length_append, length_singleton, length_nil] at hls
      omega
    · -- the move leaves the line buffer
      rw [hy hnr] at hw
      simp only [eraseCharacter_full (h.position.trans hlen)] at hw
      exact absurd hw (by simp)

/-- A division of the stream into calls of one character. -/
def Item.call : Item → Call
  | .host c => .writeHost [c]
  | .session c => .writeSession [c]
  | .setState state => .setState state

theorem items_calls (stream : List Item) : (stream.map Item.call).flatMap Call.items = stream := by
  induction stream with
  | nil => rfl
  | cons item stream ih =>
    rw [map_cons, flatMap_cons, ih]
    cases item <;> rfl

theorem fitting_of_lineDiscipline (hE : PipesAccept E) (stream : List Item) (h : Follows t e)
    (htm : t.tempBuffer = []) (hrg : LineDiscipline E t e stream) : Fitting t.state e stream := by
  induction stream generalizing t e with
  | nil => trivial
  | cons item stream ih =>
    have hcn : ∀ calls : List Call, calls.flatMap Call.items = stream →
        Right E t e (item.call :: calls) := fun calls hc => hrg _ (by
      rw [flatMap_cons, hc]
      cases item <;> rfl)
    cases item with
    | host c =>
      by_cases hft : Fits t.state e c
      · have hh : Fitting t.state e ([c].map .host) := ⟨hft, trivial⟩
        obtain ⟨w, hw, _, hst, htm', h'⟩ := h.writeHostFile hE htm hh
        refine ⟨hft, ?_⟩
        rw [← hst] at h' ⊢
        refine ih h' htm' fun calls hc => ?_
        obtain ⟨_, w', hw', _, hrs⟩ := hcn calls hc
        cases hw.symm.trans hw'
        rwa [consumed_of_fitting hh, ← hst] at hrs
      · obtain ⟨_, w, hw, hcount, hrs⟩ := hcn _ (items_calls stream)
        exact absurd hrs.kept (not_kept_of_not_fits hE h hft hw hcount)
    | session c =>
      obtain ⟨_, _, htm', hs⟩ := writeSessionFile_sent hE htm [c]
      have hft := ih (h.sameLine hs) htm' fun calls hc => (hcn calls hc).2.2.2
      rwa [hs.state] at hft
    | setState state =>
      exact ih (h.setState state) htm fun calls hc => (hcn calls hc).2

theorem follows_initializeTerminal (state : TerminalState) :
    Follows (initializeTerminal state) Editor.empty :=
  ⟨rfl, rfl, Nat.zero_le _, rfl⟩

/-- From its creation on a terminal keeps every character, counts every character and converts every
character of the session, however the stream is divided into calls, exactly when each character of
the host fits. -/
theorem line_discipline_iff_fitting (E : Environment) (hE : PipesAccept E) (state : TerminalState)
    (stream : List Item) :
    LineDiscipline E (initializeTerminal state) Editor.empty stream ↔
      Fitting state Editor.empty stream :=
  ⟨fitting_of_lineDiscipline hE stream (follows_initializeTerminal state) rfl,
    fun hft calls hc => right_of_fitting hE calls (follows_initializeTerminal state) rfl (by rwa [hc])⟩

/-- Pipes that take everything. -/
def openPipes : Environment where
  pipeWrite := fun _ bytes => (.success, bytes)
  overrun := fun temp c => temp ++ [c]

/-- `ab`, the erase character, `c` and a line feed. -/
theorem line_discipline_short_line :
    LineDiscipline openPipes (initializeTerminal defaultState) Editor.empty
      [.host 97, .host 98, .host 127, .host 99, .host 10] := by
  refine (line_discipline_iff_fitting openPipes (fun _ _ => rfl) defaultState _).2 ?_
  refine ⟨?_, ?_, ?_, ?_, ?_, trivial⟩ <;> decide

/-! ## A line that is too long -/

/-- A run of one ordinary character fits as long as the line does. -/
theorem fitting_replicate (line : List Byte) (n : Nat) :
    Fitting defaultState { finished := [], line := line } (List.replicate n (.host 97)) →
      n ≤ lineBufferMax - line.length := by
  induction n generalizing line with
  | zero => exact fun _ => Nat.zero_le _
  | succ n ih =>
    intro h
    obtain ⟨hft, hrs⟩ := h
    have hrm : line.length < lineBufferMax := by
      by_contra hge
      exact ((hft rfl 97 (by decide)).2 (Nat.not_lt.1 hge)).1 (by decide)
    have := ih (line ++ [97]) hrs
    rw [length_append, length_singleton] at this
    omega

/-- A line of 4097 characters. -/
theorem long_line_loses_character :
    ¬ LineDiscipline openPipes (initializeTerminal defaultState) Editor.empty
      (List.replicate 4097 (.host 97)) := by
  intro h
  have hft := fitting_of_lineDiscipline (fun _ _ => rfl) _ (follows_initializeTerminal defaultState)
    rfl h
  have := fitting_replicate [] 4097 hft
  revert this
  decide

end Boron.Tty
