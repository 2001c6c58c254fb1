import Boron.Io.Pipe

/-! # Pipes are first in, first out

The ring arithmetic of one turn is summed up in `Takes` and `Puts`: a read takes a front part of
what is buffered, a write puts its bytes behind it. Both keep the equation between the bytes
delivered, the bytes buffered and the bytes accepted, and only the holder of the mutex takes a turn,
so the equation holds in every state of every interleaving. -/

namespace Boron.Io

open Function List Option

/-! ## The ring -/

namespace Pipe

/-- `Head` and `Tail` are positions of the buffer. -/
structure Ok (B : Nat) (p : Pipe) : Prop where
  size : p.bufferSize = B
  head : p.head < B
  tail : p.tail < B

/-- How many bytes the pipe holds. -/
def count (p : Pipe) : Nat := (p.head + p.bufferSize - p.tail) % p.bufferSize

/-- The bytes the pipe holds, the oldest first. -/
def buffered (p : Pipe) : List Byte := ringAt p.bufferSize p.buffer p.tail p.count

variable {B : Nat} {p : Pipe}

theorem Ok.count_eq (h : p.Ok B) :
    p.count = if p.tail ≤ p.head then p.head - p.tail else p.head + p.bufferSize - p.tail := by
  have := h.size
  have := h.head
  have := h.tail
  have hle : p.head + p.bufferSize - p.tail < 2 * p.bufferSize := by omega
  rw [count, ← wrap_eq_mod hle]
  split <;> split <;> omega

theorem Ok.count_lt (h : p.Ok B) : p.count < B := by
  have := h.head
  rw [count, h.size]
  exact Nat.mod_lt _ (by omega)

theorem Ok.freeSpace_eq (h : p.Ok B) : p.freeSpace + p.count + 1 = B := by
  have := h.size
  have := h.head
  have := h.tail
  rw [h.count_eq, freeSpace]
  split <;> omega

/-- The head stands behind what is buffered. -/
theorem Ok.head_eq (h : p.Ok B) : p.head = (p.tail + p.count) % B := by
  have := h.size
  have := h.head
  have := h.tail
  have hlt := h.count_lt
  rw [← wrap_eq_mod (show p.tail + p.count < 2 * B by omega), h.count_eq]
  split <;> split <;> omega

variable {q : Pipe} {n : Nat}

theorem Ok.count_of_head (hq : q.Ok B) (hn : n < B) (hh : q.head = (q.tail + n) % B) : q.count = n := by
  have := hq.size
  have := hq.tail
  have := hq.head
  rw [hq.count_eq]
  rw [← wrap_eq_mod (show q.tail + n < 2 * B by omega)] at hh
  split at hh <;> split <;> omega

/-! ## Reading -/

theorem le_of_scanNewline {i j k : Nat} (h : p.scanNewline n i j = some k) : i < k ∧ k ≤ i + n := by
  induction n generalizing i j with
  | zero => simp [scanNewline] at h
  | succ n ih =>
    simp only [scanNewline] at h
    generalize (if p.bufferSize ≤ j then 0 else j) = j' at h
    split at h
    · have := ih h
      omega
    · cases h
      omega

/-- A read took the bytes `xs` from the front of the pipe and put them behind what the caller's
buffer held. -/
structure Takes (p : Pipe) (c : Call) (r : Turn) : Prop where
  size : r.pipe.bufferSize = p.bufferSize
  tail : r.pipe.tail < p.bufferSize
  head : r.pipe.head = p.head
  buffered : p.buffered = r.moved ++ r.pipe.buffered
  direction : r.call.direction = c.direction
  data : r.call.mdl.data r.call.bytes = c.mdl.data c.bytes ++ r.moved

theorem copyOut_spec (mdl : Mdl) (br : Nat) (h : p.Ok B) (hpos : 0 < n) (hn : n < B) :
    (p.copyOut mdl br n ((p.tail + n) % B)).2 = ringAt B p.buffer p.tail n ∧
    (p.copyOut mdl br n ((p.tail + n) % B)).1.data (br + n)
      = mdl.data br ++ ringAt B p.buffer p.tail n := by
  have hsize := h.size
  have hta := h.tail
  have hw := wrap_eq_mod (show p.tail + n < 2 * B by omega)
  have hon : ∀ xs : List Byte, (mdl.mmCopyIntoMdl br xs).data (br + xs.length) = mdl.data br ++ xs := by
    intro xs
    rw [Mdl.data, Mdl.byteAt_mmCopyIntoMdl, Mdl.byteOffset_mmCopyIntoMdl, readAt_writeAt, Mdl.data]
  simp only [copyOut, ← hw]
  by_cases hle : B ≤ p.tail + n
  · -- The data is split in two.
    rw [if_pos hle, if_neg (by omega), hsize, ringAt_eq_readAt_append (by omega) hle (by omega)]
    refine ⟨rfl, ?_⟩
    generalize hfs : readAt p.buffer p.tail (B - p.tail) = first
    generalize hsn : readAt p.buffer 0 (n - (B - p.tail)) = second
    have hln1 : first.length = B - p.tail := by rw [← hfs, length_readAt]
    have hln2 : second.length = n - (B - p.tail) := by rw [← hsn, length_readAt]
    have htl : n = (first ++ second).length := by
      rw [length_append]
      omega
    rw [if_neg (show B - p.tail ≠ 0 by omega)]
    split
    · next hz =>
        have hnil : second = [] := eq_nil_of_length_eq_zero (by omega)
        rw [hnil, append_nil] at htl ⊢
        conv_lhs => rw [htl]
        exact hon first
    · have hb := hon (first ++ second)
      rw [← htl] at hb
      rw [← hb, Mdl.data, Mdl.data]
      simp only [Mdl.byteAt_mmCopyIntoMdl, Mdl.byteOffset_mmCopyIntoMdl]
      rw [← Nat.add_assoc, ← hln1, writeAt_append]
  · rw [if_neg hle, if_pos (by omega), ringAt_eq_readAt (by omega)]
    refine ⟨rfl, ?_⟩
    have := hon (readAt p.buffer p.tail n)
    rwa [length_readAt] at this

variable {c : Call}

theorem takes_readData (h : p.Ok B) (hdt : p.head ≠ p.tail)
    (hmr : c.bytes < c.byteCount) : p.Takes c (p.readData c) := by
  have hsize := h.size
  have htl := h.tail
  have hcount := h.count_lt
  have hpos : 0 < p.count := by
    have := h.head
    rw [h.count_eq]
    split <;> omega
  simp only [readData, ← h.count_eq]
  generalize hread : (if p.count < c.byteCount - c.bytes then p.count else c.byteCount - c.bytes)
    = readSize
  generalize hnw : (if c.flags.finishOnNewline then p.scanNewline readSize 0 p.tail else none) = newline
  have hc : ∀ k, newline = some k → 0 < k ∧ k ≤ readSize := by
    rintro k rfl
    split at hnw
    · have := le_of_scanNewline hnw
      omega
    · cases hnw
  generalize hn : newline.getD readSize = n
  have hb : 0 < n ∧ n ≤ p.count := by
    have hrd : 0 < readSize ∧ readSize ≤ p.count := by split at hread <;> omega
    cases newline with
    | none =>
      obtain rfl : readSize = n := hn
      exact hrd
    | some k =>
      obtain rfl : k = n := hn
      have := hc k rfl
      omega
  have hw : (if p.bufferSize ≤ p.tail + n then p.tail + n - p.bufferSize else p.tail + n)
      = (p.tail + n) % B := by
    rw [hsize]
    exact wrap_eq_mod (by omega)
  rw [hw]
  obtain ⟨hmv, hmd⟩ := copyOut_spec c.mdl c.bytes h hb.1 (Nat.lt_of_le_of_lt hb.2 hcount)
  have hlt : (p.tail + n) % B < B := Nat.mod_lt _ (by omega)
  refine ⟨rfl, hsize ▸ hlt, rfl, ?_, rfl, ?_⟩
  · obtain ⟨m, hm⟩ := Nat.exists_eq_add_of_le hb.2
    have ha : ({ p with tail := (p.tail + n) % B } : Pipe).count = m := by
      refine Ok.count_of_head (B := B) ⟨hsize, h.head, hlt⟩ (by omega) ?_
      rw [Nat.mod_add_mod, Nat.add_assoc, ← hm]
      exact h.head_eq
    have hrs : ({ p with tail := (p.tail + n) % B } : Pipe).buffered
        = ringAt B p.buffer (p.tail + n) m := by
      rw [buffered, ha, ← ringAt_mod B p.buffer (p.tail + n) m, hsize]
    rw [hmv, hrs, buffered, hsize, hm, ringAt_add]
  · rw [hmv, hmd]

/-! ## Writing -/

/-- A write put the bytes `xs` of the caller's buffer behind what the pipe held. -/
structure Puts (p : Pipe) (c : Call) (r : Turn) : Prop where
  size : r.pipe.bufferSize = p.bufferSize
  head : r.pipe.head < p.bufferSize
  tail : r.pipe.tail = p.tail
  buffered : r.pipe.buffered = p.buffered ++ r.moved
  direction : r.call.direction = c.direction
  data : r.call.mdl.data r.call.bytes = c.mdl.data c.bytes ++ r.moved

theorem copyIn_spec (mdl : Mdl) (bw : Nat) (h : p.Ok B) (hn : n < B) :
    (p.copyIn mdl bw n ((p.head + n) % B)).2 = readAt mdl.byteAt (mdl.byteOffset + bw) n ∧
    RingWrite B p.buffer p.head (readAt mdl.byteAt (mdl.byteOffset + bw) n)
      (p.copyIn mdl bw n ((p.head + n) % B)).1 := by
  have hsize := h.size
  have hh := h.head
  have hw := wrap_eq_mod (show p.head + n < 2 * B by omega)
  simp only [copyIn, ← hw]
  by_cases hle : B ≤ p.head + n
  · rw [if_pos hle, if_neg (by omega), hsize]
    simp only [Mdl.mmCopyFromMdl_eq, ← Nat.add_assoc, ← readAt_add]
    rw [show B - p.head + (n - (B - p.head)) = n by omega]
    refine ⟨rfl, ?_⟩
    rw [if_neg (show B - p.head ≠ 0 by omega)]
    conv in readAt _ _ n => rw [show n = B - p.head + (n - (B - p.head)) by omega, readAt_add]
    generalize hfs : readAt mdl.byteAt (mdl.byteOffset + bw) (B - p.head) = first
    generalize hsn : readAt mdl.byteAt (mdl.byteOffset + bw + (B - p.head)) (n - (B - p.head)) = second
    have hln1 : first.length = B - p.head := by rw [← hfs, length_readAt]
    have hln2 : second.length = n - (B - p.head) := by rw [← hsn, length_readAt]
    have hp : RingWrite B p.buffer p.head (first ++ second)
        (writeAt (writeAt p.buffer p.head first) 0 second) := .split (by omega) (by omega)
    split
    · next hz =>
        rw [eq_nil_of_length_eq_zero (hln2.trans hz)] at hp ⊢
        rwa [writeAt_nil] at hp
    · exact hp
  · rw [if_neg hle, if_pos (by omega), Mdl.mmCopyFromMdl_eq]
    exact ⟨rfl, RingWrite.contiguous (by rw [length_readAt]; omega)⟩

theorem puts_writeData (h : p.Ok B) : p.Puts c (p.writeData c) := by
  have hsize := h.size
  have hfr := h.freeSpace_eq
  simp only [writeData]
  generalize hn : (if p.freeSpace < c.byteCount - c.bytes then p.freeSpace
    else c.byteCount - c.bytes) = n
  have hle : n ≤ p.freeSpace := by split at hn <;> omega
  have hmd : (if p.bufferSize ≤ p.head + n then (p.head + n) % p.bufferSize else p.head + n)
      = (p.head + n) % B := by
    rw [hsize]
    split
    · rfl
    · exact (Nat.mod_eq_of_lt (by omega)).symm
  rw [hmd]
  obtain ⟨hmv, hw⟩ := copyIn_spec c.mdl c.bytes h (show n < B by omega)
  have hlt : (p.head + n) % B < B := Nat.mod_lt _ (by omega)
  refine ⟨rfl, hsize ▸ hlt, rfl, ?_, rfl, ?_⟩
  · rw [hmv]
    have haf : ({ p with head := (p.head + n) % B } : Pipe).count = p.count + n := by
      refine Ok.count_of_head (B := B) ⟨hsize, hlt, h.tail⟩ (by omega) ?_
      rw [h.head_eq, Nat.mod_add_mod, Nat.add_assoc]
    have hst : RingWrite B p.buffer (p.tail + p.count)
        (readAt c.mdl.byteAt (c.mdl.byteOffset + c.bytes) n)
        (p.copyIn c.mdl c.bytes n ((p.head + n) % B)).1 := by
      refine .of_mod ?_
      rw [← h.head_eq]
      exact hw
    have ha := hst.append (by rw [length_readAt]; omega)
    rw [length_readAt] at ha
    exact (congrArg (ringAt p.bufferSize _ p.tail) haf).trans (hsize ▸ ha)
  · rw [hmv, Mdl.data, Mdl.data, readAt_add]

/-! ## Turns -/

variable {next : Next}

theorem Takes.idle (h : p.Ok B) (c : Call)
    (hsize : q.bufferSize = p.bufferSize) (hh : q.head = p.head) (htl : q.tail = p.tail)
    (hb : q.buffer = p.buffer) : p.Takes c ⟨q, c, [], next⟩ := by
  refine ⟨hsize, ?_, hh, ?_, rfl, (append_nil _).symm⟩
  · rw [h.size]
    exact htl ▸ h.tail
  · simp only [Pipe.buffered, Pipe.count, hsize, hh, htl, hb, nil_append]

theorem takes_readTurn (h : p.Ok B) (c : Call) : p.Takes c (p.readTurn c) := by
  rw [readTurn]
  split
  · next hmr =>
      split
      · split_ifs
        all_goals exact .idle h c rfl rfl rfl rfl
      · next hdt => exact takes_readData h hdt hmr
  · exact .idle h c rfl rfl rfl rfl

theorem Puts.idle (h : p.Ok B) {c' : Call}
    (hsize : q.bufferSize = p.bufferSize) (hh : q.head = p.head) (htl : q.tail = p.tail)
    (hb : q.buffer = p.buffer) (hdr : c'.direction = c.direction)
    (hmd : c'.mdl = c.mdl) (hy : c'.bytes = c.bytes) : p.Puts c ⟨q, c', [], next⟩ := by
  refine ⟨hsize, ?_, htl, ?_, hdr, ?_⟩
  · rw [h.size]
    exact hh ▸ h.head
  · simp only [Pipe.buffered, Pipe.count, hsize, hh, htl, hb, append_nil]
  · rw [append_nil, hmd, hy]

theorem puts_writeTurn (h : p.Ok B) (c : Call) : p.Puts c (p.writeTurn c) := by
  rw [writeTurn]
  split
  · simp only []
    split_ifs
    · exact .idle h rfl rfl rfl rfl rfl rfl rfl
    · exact .idle h rfl rfl rfl rfl rfl rfl rfl
    · exact .idle h rfl rfl rfl rfl rfl rfl rfl
    · have hp := puts_writeData (c := { c with iosbBytes := c.bytes }) h
      exact ⟨hp.size, hp.head, hp.tail, hp.buffered, hp.direction, hp.data⟩
  · exact .idle h rfl rfl rfl rfl rfl rfl rfl

variable {r : Turn}

theorem Takes.ok (h : p.Ok B) (ht : p.Takes c r) : r.pipe.Ok B :=
  ⟨ht.size.trans h.size, ht.head ▸ h.head, h.size ▸ ht.tail⟩

theorem Puts.ok (h : p.Ok B) (ht : p.Puts c r) : r.pipe.Ok B :=
  ⟨ht.size.trans h.size, h.size ▸ ht.head, ht.tail ▸ h.tail⟩

theorem Ok.length_buffered (h : p.Ok B) : p.buffered.length ≤ B - 1 := by
  have := h.count_lt
  rw [buffered, length_ringAt]
  omega

end Pipe

/-! ## Interleavings -/

/-- The bytes that a log attributes to one call. -/
def loggedBy {T : Type} [DecidableEq T] (log : List (T × Byte)) (t : T) : List Byte :=
  (log.filter fun e => e.1 = t).map (·.2)

section

variable {T : Type} [DecidableEq T]

@[simp] theorem loggedBy_append_self (log : List (T × Byte)) (t : T) (xs : List Byte) :
    loggedBy (log ++ xs.map (t, ·)) t = loggedBy log t ++ xs := by
  simp [loggedBy, List.filter_map, comp_def]

theorem loggedBy_append_of_ne (log : List (T × Byte)) {t u : T} (xs : List Byte) (h : u ≠ t) :
    loggedBy (log ++ xs.map (t, ·)) u = loggedBy log u := by
  simp [loggedBy, List.filter_map, comp_def, h.symm]

end

/-- The bytes a call has moved so far, as its caller sees them. -/
def Call.moved (c : Call) (direction : Direction) : List Byte :=
  if c.direction = direction then c.mdl.data c.bytes else []

namespace PipeSystem

variable {T : Type} [DecidableEq T] {B : Nat} {s : PipeSystem T}

/-- **First in, first out.** Everything delivered, then everything still buffered, is everything
accepted, in order; and what is delivered to a call, or accepted from it, is what stands in the
first bytes of the caller's buffer. -/
structure Fifo (B : Nat) (s : PipeSystem T) : Prop where
  ok : s.pipe.Ok B
  stream : s.delivered.map (·.2) ++ s.pipe.buffered = s.accepted.map (·.2)
  delivered : ∀ t, loggedBy s.delivered t = (s.call t).moved .read
  accepted : ∀ t, loggedBy s.accepted t = (s.call t).moved .write

variable {s' : PipeSystem T}

theorem Fifo.congr (h : s.Fifo B) (hp : s'.pipe = s.pipe)
    (hdl : s'.delivered = s.delivered) (ha : s'.accepted = s.accepted)
    (hc : ∀ t d, (s'.call t).moved d = (s.call t).moved d) : s'.Fifo B where
  ok := hp ▸ h.ok
  stream := by rw [hp, hdl, ha, h.stream]
  delivered t := by rw [hdl, h.delivered, hc]
  accepted t := by rw [ha, h.accepted, hc]

theorem moved_finish (c : Call) (st : IoStatus) (d : Direction) :
    (c.finish st).moved d = c.moved d := by
  rw [Call.finish]
  split <;> rfl

variable {t : T}

theorem moved_setCall {c : Call} (hc : ∀ d, c.moved d = (s.call t).moved d) (u : T)
    (d : Direction) : ((s.setCall t c).call u).moved d = (s.call u).moved d := by
  by_cases hu : u = t
  · subst hu
    simp only [setCall, update_self, hc]
  · simp only [setCall, update_of_ne hu]

/-- How a turn ends is of no concern to the bytes. -/
theorem Fifo.settle {c : Call} (h : (s.setCall t c).Fifo B) (next : Next) : (s.settle t c next).Fifo B := by
  have hmv : ∀ c' : Call, (∀ d, c'.moved d = c.moved d) → ∀ u d,
      ((s.setCall t c').call u).moved d = ((s.setCall t c).call u).moved d := by
    intro c' hc' u d
    by_cases hu : u = t
    · subst hu
      simp only [setCall, update_self, hc']
    · simp only [setCall, update_of_ne hu]
  cases next with
  | again => exact h
  | sleep => exact h.congr rfl rfl rfl (hmv _ fun _ => rfl)
  | finish st => exact h.congr rfl rfl rfl (hmv _ (moved_finish c st))

theorem Fifo.turn (h : s.Fifo B) (t : T) :
    (({ s with pipe := (s.pipe.turn (s.call t)).pipe }.logMoved t (s.call t).direction
      (s.pipe.turn (s.call t)).moved).setCall t (s.pipe.turn (s.call t)).call).Fifo B := by
  cases hd : (s.call t).direction with
  | read =>
    have htr : s.pipe.turn (s.call t) = s.pipe.readTurn (s.call t) := by
      rw [Pipe.turn, hd]
    rw [htr]
    have ht := Pipe.takes_readTurn h.ok (s.call t)
    generalize s.pipe.readTurn (s.call t) = r at ht
    refine ⟨ht.ok h.ok, ?_, ?_, ?_⟩
    · have hst := h.stream
      rw [ht.buffered, ← append_assoc] at hst
      simpa [logMoved, setCall, comp_def] using hst
    · intro u
      simp only [logMoved, setCall]
      by_cases hu : u = t
      · subst hu
        rw [loggedBy_append_self, h.delivered, update_self, Call.moved, Call.moved,
          if_pos hd, if_pos (ht.direction.trans hd), ht.data]
      · rw [loggedBy_append_of_ne _ _ hu, h.delivered, update_of_ne hu]
    · intro u
      simp only [logMoved, setCall]
      by_cases hu : u = t
      · subst hu
        have hne : r.call.direction ≠ .write := by rw [ht.direction, hd]; exact nofun
        have hne' : (s.call u).direction ≠ .write := by rw [hd]; exact nofun
        rw [h.accepted, update_self, Call.moved, Call.moved, if_neg hne, if_neg hne']
      · rw [h.accepted, update_of_ne hu]
  | write =>
    have htr : s.pipe.turn (s.call t) = s.pipe.writeTurn (s.call t) := by
      rw [Pipe.turn, hd]
    rw [htr]
    have ht := Pipe.puts_writeTurn h.ok (s.call t)
    generalize s.pipe.writeTurn (s.call t) = r at ht
    refine ⟨ht.ok h.ok, ?_, ?_, ?_⟩
    · simp only [logMoved, setCall, map_append, List.map_map, comp_def, List.map_id']
      rw [ht.buffered, ← append_assoc, h.stream]
    · intro u
      simp only [logMoved, setCall]
      by_cases hu : u = t
      · subst hu
        have hne : r.call.direction ≠ .read := by rw [ht.direction, hd]; exact nofun
        have hne' : (s.call u).direction ≠ .read := by rw [hd]; exact nofun
        rw [h.delivered, update_self, Call.moved, Call.moved, if_neg hne, if_neg hne']
      · rw [h.delivered, update_of_ne hu]
    · intro u
      simp only [logMoved, setCall]
      by_cases hu : u = t
      · subst hu
        rw [loggedBy_append_self, h.accepted, update_self, Call.moved, Call.moved,
          if_pos hd, if_pos (ht.direction.trans hd), ht.data]
      · rw [loggedBy_append_of_ne _ _ hu, h.accepted, update_of_ne hu]

theorem Fifo.step {a : PipeAction T} (h : s.Fifo B) (hst : s.step a = some s') : s'.Fifo B := by
  cases a with
  | enter t acq =>
    simp only [PipeSystem.step] at hst
    split_ifs at hst
    · cases hst
      exact h.congr rfl rfl rfl (moved_setCall fun _ => rfl)
    · cases hst
      exact h.congr rfl rfl rfl (moved_setCall (moved_finish _ _))
  | turn t =>
    simp only [PipeSystem.step] at hst
    split_ifs at hst
    cases hst
    exact (h.turn t).settle _
  | wake t sig =>
    simp only [PipeSystem.step] at hst
    split_ifs at hst
    · cases hst
      exact h.congr rfl rfl rfl (moved_setCall fun _ => rfl)
    · cases hst
      exact h.congr rfl rfl rfl (moved_setCall (moved_finish _ _))
  | recount n =>
    cases hst
    exact ⟨⟨h.ok.size, h.ok.head, h.ok.tail⟩, h.stream, h.delivered, h.accepted⟩

/-- A pipe just made, and calls that have not begun. -/
structure Fresh (B : Nat) (s : PipeSystem T) : Prop where
  pipe : s.pipe = iopInitializePipe B
  mutex : s.mutex = none
  delivered : s.delivered = []
  accepted : s.accepted = []
  call : ∀ t, (s.call t).phase = .entering ∧ (s.call t).bytes = 0 ∧
    (s.call t).byteCount = (s.call t).mdl.byteCount

theorem Fresh.fifo (h : s.Fresh B) (hB : 0 < B) : s.Fifo B := by
  have hmv : ∀ t d, (s.call t).moved d = [] := by
    intro t d
    rw [Call.moved, (h.call t).2.1]
    split <;> rfl
  have hok : s.pipe.Ok B := by
    rw [h.pipe]
    exact ⟨rfl, hB, hB⟩
  refine ⟨hok, ?_, ?_, ?_⟩
  · have hcount : s.pipe.count = 0 := by
      rw [hok.count_eq, h.pipe]
      rfl
    rw [h.delivered, h.accepted, Pipe.buffered, hcount]
    rfl
  · intro t
    rw [h.delivered, hmv]
    rfl
  · intro t
    rw [h.accepted, hmv]
    rfl

/-- **Pipes are first in, first out.** In every state reached by any interleaving of any reads and
writes with any flags, `Head` and `Tail` are below the buffer size, at most `B - 1` bytes are
buffered, and no byte is lost, duplicated, reordered or invented. -/
theorem pipe_fifo (hB : 2 ≤ B) {s₀ : PipeSystem T} (hs : s₀.Fresh B)
    (h : Reaches step (fun _ _ => True) s₀ s) :
    s.pipe.head < B ∧ s.pipe.tail < B ∧ s.pipe.buffered.length ≤ B - 1 ∧
      s.delivered.map (·.2) ++ s.pipe.buffered = s.accepted.map (·.2) ∧
      (∀ t, loggedBy s.delivered t = (s.call t).moved .read) ∧
      (∀ t, loggedBy s.accepted t = (s.call t).moved .write) := by
  have hfi : s.Fifo B :=
    h.invariant (I := Fifo B) (hs.fifo (by omega)) fun _ _ _ ht _ hst => ht.step hst
  exact ⟨hfi.ok.head, hfi.ok.tail, hfi.ok.length_buffered, hfi.stream, hfi.delivered, hfi.accepted⟩

/-- A write of `abcd` and a read of three bytes that ends at a newline, on a buffer of four. -/
def sample : PipeSystem Bool where
  pipe := iopInitializePipe 4
  mutex := none
  call t :=
    if t then ⟨.write, ⟨false, false, false, false⟩, ⟨4094, 4, fun i j =>
      if i = 0 then (if j = 4094 then 97 else 98) else (if j = 0 then 10 else 100)⟩, 4, 0, 0,
      .entering⟩
    else ⟨.read, ⟨false, false, true, false⟩, ⟨0, 4, fun _ _ => 0⟩, 4, 0, 0, .entering⟩
  delivered := []
  accepted := []

/-- The writer fills the buffer and sleeps; the reader takes a line; the writer ends. -/
def sampleRun : List (PipeAction Bool) :=
  [.recount 2, .enter true true, .turn true, .turn true, .enter false true, .turn false,
    .turn false, .wake true true, .enter true true, .turn true, .turn true]

theorem pipe_fifo_sample :
    ∃ s, Reaches step (fun _ _ => True) sample s ∧ s.delivered.map (·.2) = [97, 98, 10] ∧
      s.pipe.head = 0 ∧ s.delivered.map (·.2) ++ s.pipe.buffered = s.accepted.map (·.2) := by
  obtain ⟨s, hrn, hs⟩ : ∃ s, runChecked step (fun _ _ => true) sampleRun sample = some s ∧
      decide (s.delivered.map (·.2) = [97, 98, 10] ∧ s.pipe.head = 0) = true :=
    (Option.any_eq_true _ _).1 (by decide +kernel)
  have hc : Reaches step (fun _ _ => True) sample s :=
    .of_runChecked (fun _ _ _ => trivial) hrn
  have hfr : sample.Fresh 4 :=
    ⟨rfl, rfl, rfl, rfl, fun t => by cases t <;> exact ⟨rfl, rfl, rfl⟩⟩
  obtain ⟨hdl, hh⟩ := of_decide_eq_true hs
  exact ⟨s, hc, hdl, hh, (pipe_fifo (by decide) hfr hc).2.2.2.1⟩

end PipeSystem

end Boron.Io
