import Mathlib.Data.List.Range
import Mathlib.Algebra.Ring.Nat

/-! # Terminals (`tty/ttyhost.c`, `tty/ttysess.c`)

A terminal joins two pipes. What the host writes is edited in a line buffer and goes to the session
line by line, what the session writes goes to the host through a small buffer that also takes the
echo. Every call runs under the state mutex. The calls here have taken it and mapped the caller's
buffer, and each write to a pipe ends as the pipe decides.

A store past the end of `TempBuffer` hits `TempBufferLength`, which lies behind it; what the next
flush finds is then up to the compiler. A move of memory that leaves `LineBuffer` is `none`. -/

namespace Boron.Tty

abbrev Byte := UInt8

def lineBufferMax : Nat := 4096
def tempBufferMax : Nat := 32

def carriageReturn : Byte := 13
def lineFeed : Byte := 10

/-- The `BSTATUS` values that the code tells apart. -/
inductive Status
  | success
  | endOfFile
  | other (code : Nat)
  deriving DecidableEq

/-- `TERMINAL_STATE`, the fields that reading and writing look at. -/
structure TerminalState where
  rawMode : Bool
  echo : Bool
  ignoreCR : Bool
  convertCRToNL : Bool
  convertNLToCR : Bool
  convertNLToCRNL : Bool
  convertCRToNLOutput : Bool
  endOfFile : Byte
  endOfLine : Byte
  endOfLine2 : Byte
  erase : Byte
  interrupt : Byte
  eraseLine : Byte
  suspend : Byte
  deriving DecidableEq

/-- What lies outside: the end of the `n`-th write to a pipe with the bytes the pipe took, and the
characters found by the next flush after a store behind the full `TempBuffer`. -/
structure Environment where
  pipeWrite : Nat → List Byte → Status × List Byte
  overrun : List Byte → Byte → List Byte

/-- `TERMINAL`; `tempBuffer` is the first `TempBufferLength` bytes of `TempBuffer`. The pipes are
everything they have taken. -/
structure Terminal where
  state : TerminalState
  lineBuffer : Nat → Byte
  lineBufferPosition : Nat
  lineBufferLength : Nat
  tempBuffer : List Byte
  hostToSession : List Byte
  sessionToHost : List Byte
  pipeWrites : Nat

/-- The state that `TtyInitializeTerminal` sets. -/
def defaultState : TerminalState where
  rawMode := false
  echo := true
  ignoreCR := false
  convertCRToNL := false
  convertNLToCR := false
  convertNLToCRNL := true
  convertCRToNLOutput := false
  endOfFile := 4
  endOfLine := lineFeed
  endOfLine2 := 255
  erase := 127
  interrupt := 3
  eraseLine := 21
  suspend := 26

/-- `TtyInitializeTerminal`, on an object that has been cleared. -/
def initializeTerminal (state : TerminalState) : Terminal where
  state := state
  lineBuffer := fun _ => 0
  lineBufferPosition := 0
  lineBufferLength := 0
  tempBuffer := []
  hostToSession := []
  sessionToHost := []
  pipeWrites := 0

/-- The conversions of input; `none` when the character is ignored. -/
def convertInput (s : TerminalState) (c : Byte) : Option Byte :=
  if s.ignoreCR ∧ c = carriageReturn then none
  else if s.convertCRToNL ∧ c = carriageReturn then some lineFeed
  else if s.convertNLToCR ∧ c = lineFeed then some carriageReturn
  else some c

/-- The conversion of a character of the session. -/
def convertOutput (s : TerminalState) (c : Byte) : Byte :=
  if s.convertCRToNLOutput ∧ c = carriageReturn then lineFeed else c

/-! ## The line buffer -/

/-- `memmove` within `LineBuffer`. -/
def moveLine (buffer : Nat → Byte) (dst src size : Nat) : Option (Nat → Byte) :=
  if dst + size ≤ lineBufferMax ∧ src + size ≤ lineBufferMax then
    some fun i => if dst ≤ i ∧ i < dst + size then buffer (src + (i - dst)) else buffer i
  else none

/-- `LineBuffer[i] = c`. -/
def storeLine (buffer : Nat → Byte) (i : Nat) (c : Byte) : Option (Nat → Byte) :=
  if i < lineBufferMax then some (Function.update buffer i c) else none

/-- `sizeof(LineBuffer) - position - 1` as a `size_t`. -/
def sizeAfter (position : Nat) : Nat := (lineBufferMax + 2 ^ 64 - position - 1) % 2 ^ 64

namespace Terminal

variable (E : Environment)

/-- `LineBuffer[start .. start + length]`. -/
def chars (t : Terminal) (start length : Nat) : List Byte :=
  (List.range' start length).map t.lineBuffer

/-- The characters of the current line. -/
def line (t : Terminal) : List Byte := t.chars 0 t.lineBufferLength

/-! ## Writing to the pipes -/

/-- `IoWriteFile` on the host to session pipe. -/
def writeSessionPipe (t : Terminal) (bytes : List Byte) : Status × Terminal :=
  let (status, put) := E.pipeWrite t.pipeWrites bytes
  (status, { t with hostToSession := t.hostToSession ++ put, pipeWrites := t.pipeWrites + 1 })

/-- `IoWriteFile` on the session to host pipe. -/
def writeHostPipe (t : Terminal) (bytes : List Byte) : Status × Terminal :=
  let (status, put) := E.pipeWrite t.pipeWrites bytes
  (status, { t with sessionToHost := t.sessionToHost ++ put, pipeWrites := t.pipeWrites + 1 })

/-- `TtyFlushTempBuffer`. -/
def flushTempBuffer (t : Terminal) : Status × Terminal :=
  if t.tempBuffer = [] then (.success, t)
  else
    let (status, t) := t.writeHostPipe E t.tempBuffer
    (status, { t with tempBuffer := [] })

/-- `TempBuffer[TempBufferLength++] = c`. -/
def storeTemp (t : Terminal) (c : Byte) : Terminal :=
  if t.tempBuffer.length < tempBufferMax then { t with tempBuffer := t.tempBuffer ++ [c] }
  else { t with tempBuffer := E.overrun t.tempBuffer c }

/-- The flush at the start of `TtyWriteCharacterToTempBuffer`. -/
def makeRoom (t : Terminal) : Status × Terminal :=
  if tempBufferMax ≤ t.tempBuffer.length then t.flushTempBuffer E else (.success, t)

/-- `TtyWriteCharacterToTempBuffer` without `Escape`. -/
def writePlain (t : Terminal) (c : Byte) : Status × Terminal :=
  match t.makeRoom E with
  | (.success, t) => (.success, t.storeTemp E c)
  | failed => failed

/-- Whether `Escape` writes a caret in front, and the character that follows. -/
def escapeCharacter (c : Byte) : Bool × Byte :=
  if c = 127 then (true, 63) else if c ≤ 31 then (true, c + 64) else (false, c)

/-- `TtyWriteCharacterToTempBuffer` with `Escape`. -/
def writeEscaped (t : Terminal) (c : Byte) : Status × Terminal :=
  match t.makeRoom E with
  | (.success, t) =>
    match escapeCharacter c with
    | (false, c) => (.success, t.storeTemp E c)
    | (true, c) =>
      match t.writePlain E 94 with
      | (.success, t) => (.success, t.storeTemp E c)
      | failed => failed
  | failed => failed

/-- `TtyWriteCharacter`. -/
def writeCharacter (t : Terminal) (c : Byte) : Status × Terminal := t.writeSessionPipe E [c]

/-- `TtyFlushLineBuffer`. -/
def flushLineBuffer (t : Terminal) : Status × Terminal :=
  if t.lineBufferLength = 0 then (.success, t)
  else
    match t.writeSessionPipe E t.line with
    | (.success, t) => (.success, { t with lineBufferLength := 0, lineBufferPosition := 0 })
    | failed => failed

/-! ## Echo -/

/-- `TtyWriteStringEcho`. -/
def writeStringEcho (t : Terminal) (string : List Byte) : Terminal :=
  if t.state.echo then string.foldl (fun t c => (t.writePlain E c).2) t else t

/-- `TtyWriteCurrentLineFromPosition`. -/
def writeCurrentLineFromPosition (t : Terminal) (position : Nat) : Terminal :=
  if t.state.echo then
    (t.chars position (t.lineBufferLength - position)).foldl (fun t c => (t.writeEscaped E c).2) t
  else t

/-- `TtyCountVisibleCharacters`. -/
def countVisibleCharacters (t : Terminal) (start length : Nat) : Nat :=
  length + (t.chars start length).countP fun c => c ≤ 31 || c = 127

/-- The escape sequence that goes back `n` columns and clears the rest of the row. -/
def eraseSequence (n : Nat) : List Byte :=
  [27, 91] ++ (Nat.toDigits 10 n).map (fun d => UInt8.ofNat d.toNat) ++ [68, 27, 91, 75]

/-! ## The host's characters -/

/-- The `Erase` character. -/
def eraseCharacter (t : Terminal) : Option (Status × Terminal) :=
  if t.lineBufferPosition = 0 then some (.success, t)
  else do
    let buffer ← moveLine t.lineBuffer t.lineBufferPosition (t.lineBufferPosition + 1)
      (sizeAfter t.lineBufferPosition)
    let t := { t with
      lineBuffer := buffer
      lineBufferLength := t.lineBufferLength - 1
      lineBufferPosition := t.lineBufferPosition - 1 }
    let t := if t.state.echo then
        (t.writeStringEcho E
          (eraseSequence (t.countVisibleCharacters t.lineBufferPosition 1))).writeCurrentLineFromPosition
          E t.lineBufferPosition
      else t
    return (.success, t)

/-- The `EraseLine` character. -/
def eraseCurrentLine (t : Terminal) : Terminal :=
  { t.writeStringEcho E (eraseSequence (t.countVisibleCharacters 0 t.lineBufferPosition)) with
    lineBufferLength := 0, lineBufferPosition := 0 }

/-- A character that ends the line. -/
def endLine (t : Terminal) (c : Byte) : Status × Terminal :=
  let t := if t.state.echo then (t.writePlain E c).2 else t
  let t := (t.flushTempBuffer E).2
  let (status, t) := t.flushLineBuffer E
  (status, (t.writeCharacter E c).2)

/-- The `EndOfFile` character. -/
def endFile (t : Terminal) : Status × Terminal := (.endOfFile, (t.flushLineBuffer E).2)

/-- Any other character. -/
def insertCharacter (t : Terminal) (c : Byte) : Option (Status × Terminal) :=
  if lineBufferMax ≤ t.lineBufferLength then some (t.flushLineBuffer E)
  else do
    let buffer ← moveLine t.lineBuffer (t.lineBufferPosition + 1) t.lineBufferPosition
      (sizeAfter t.lineBufferPosition)
    let buffer ← storeLine buffer t.lineBufferPosition c
    let t := { t with lineBuffer := buffer, lineBufferLength := t.lineBufferLength + 1 }
    let t := t.writeCurrentLineFromPosition E t.lineBufferPosition
    return (.success, { t with lineBufferPosition := t.lineBufferPosition + 1 })

/-- `TtyProcessCharacter`. -/
def processCharacter (t : Terminal) (c : Byte) : Option (Status × Terminal) :=
  match convertInput t.state c with
  | none => some (.success, t)
  | some c =>
    if t.state.rawMode then some (t.writeCharacter E c)
    else if c = t.state.erase then t.eraseCharacter E
    else if c = t.state.eraseLine then some (.success, t.eraseCurrentLine E)
    else if c = t.state.interrupt then some (.success, t)
    else if c = t.state.suspend then some (.success, t)
    else if c = carriageReturn ∨ c = lineFeed ∨ c = t.state.endOfLine ∨ c = t.state.endOfLine2 then
      some (t.endLine E c)
    else if c = t.state.endOfFile then some (t.endFile E)
    else t.insertCharacter E c

/-! ## The calls -/

/-- What a call returns and leaves. -/
structure Written where
  status : Status
  bytesWritten : Nat
  terminal : Terminal

/-- The loop of `TtyWriteHostFile` from its `i`-th turn on. -/
def processCharacters (t : Terminal) (i : Nat) : List Byte → Option Written
  | [] => some { status := .success, bytesWritten := i, terminal := t }
  | c :: cs => do
    let (status, t) ← t.processCharacter E c
    if status = .success then t.processCharacters (i + 1) cs
    else return { status := status, bytesWritten := i, terminal := t }

/-- `TtyWriteHostFile`. -/
def writeHostFile (t : Terminal) (bytes : List Byte) : Option Written :=
  if t.state.rawMode ∧ ¬ t.state.echo ∧ ¬ t.state.ignoreCR ∧ ¬ t.state.convertCRToNL ∧
      ¬ t.state.convertNLToCR then
    let put := (E.pipeWrite t.pipeWrites bytes).2
    let (status, t) := t.writeSessionPipe E bytes
    some { status := status, bytesWritten := put.length, terminal := t }
  else do
    let w ← t.processCharacters E 0 bytes
    return { w with terminal := (w.terminal.flushTempBuffer E).2 }

/-- The carriage return in front of a line feed. -/
def writeReturn (t : Terminal) (c : Byte) : Status × Terminal :=
  if t.state.convertNLToCRNL ∧ c = lineFeed then t.writePlain E carriageReturn else (.success, t)

/-- The loop of `TtyWriteSessionFile` from its `i`-th turn on. -/
def writeConverted (t : Terminal) (i : Nat) : List Byte → Written
  | [] => { status := .success, bytesWritten := i, terminal := t }
  | char :: chars =>
    let c := convertOutput t.state char
    match t.writeReturn E c with
    | (.success, t) =>
      match t.writePlain E c with
      | (.success, t) => t.writeConverted (i + 1) chars
      | (status, t) => { status := status, bytesWritten := i, terminal := t }
    | (status, t) => { status := status, bytesWritten := i, terminal := t }

/-- `TtyWriteSessionFile`. -/
def writeSessionFile (t : Terminal) (bytes : List Byte) : Written :=
  if ¬ t.state.convertNLToCRNL ∧ ¬ t.state.convertCRToNLOutput then
    let put := (E.pipeWrite t.pipeWrites bytes).2
    let (status, t) := t.writeHostPipe E bytes
    { status := status, bytesWritten := put.length, terminal := t }
  else
    let w := t.writeConverted E 0 bytes
    { w with terminal := (w.terminal.flushTempBuffer E).2 }

/-- `IOCTL_TERMINAL_SET_TERMINAL_STATE`. -/
def setTerminalState (t : Terminal) (state : TerminalState) : Terminal := { t with state := state }

end Terminal

end Boron.Tty
