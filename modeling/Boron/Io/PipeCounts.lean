import Boron.Io.PipeFifo

/-! # The byte counts of pipe calls

A read stores `BytesRead` in the status block when it returns. A write stores `BytesWritten` at the
start of each turn of its loop, and not after the last one: when it has written all its bytes, the
status block has the count from before the last turn with data (`pipe_counts_iff`). -/

namespace Boron.Io

open Function Option

/-- The status block of a call that returned has the bytes moved, and for a write that succeeded that
is all it was asked to write. -/
structure Call.Right (c : Call) (status : IoStatus) : Prop where
  moved : c.iosbBytes = c.bytes
  whole : c.direction = .write → status = .success → c.iosbBytes = c.mdl.byteCount

/-- A write between two turns: the status block is behind only within the loop, and is behind when the
loop is about to end. -/
structure Call.Writing (c : Call) : Prop where
  bytes_le : c.bytes ≤ c.byteCount
  iosb_le : c.iosbBytes ≤ c.bytes
  request : c.byteCount = c.mdl.byteCount
  waiting : c.phase = .entering ∨ c.phase = .sleeping →
    c.iosbBytes = c.bytes ∧ (c.bytes < c.byteCount ∨ c.byteCount = 0)
  looping : c.phase = .looping →
    c.iosbBytes < c.bytes ∨ c.bytes < c.byteCount ∨ c.byteCount = 0

/-- What holds of every call at any time. -/
def Call.Counting (c : Call) : Prop := c.direction = .write → c.Writing

/-- The call is a write of at least a byte, and its bytes are written. -/
def Call.WroteAll (c : Call) : Prop :=
  c.direction = .write ∧ 0 < c.byteCount ∧ c.byteCount ≤ c.bytes

instance (c : Call) : Decidable c.WroteAll := inferInstanceAs (Decidable (_ ∧ _ ∧ _))

/-- The call after a turn, when it goes on, sleeps or has returned. -/
def Turn.settled (r : Turn) : Call :=
  match r.next with
  | .again => r.call
  | .sleep => { r.call with phase := .sleeping }
  | .finish status => r.call.finish status

/-! ## One call -/

/-- The call counts, and if it has returned, it has returned with the right count. -/
structure Call.Sound (c : Call) : Prop where
  counting : c.Counting
  right : ∀ status, c.phase = .finished status → c.Right status

section

variable {p : Pipe} {c : Call}

theorem Call.finish_read (hdr : c.direction = .read) (st : IoStatus) :
    c.finish st = { c with phase := .finished st, iosbBytes := c.bytes } := by
  simp only [Call.finish, hdr]

theorem Call.finish_write (hdr : c.direction = .write) (st : IoStatus) :
    c.finish st = { c with phase := .finished st } := by
  simp only [Call.finish, hdr]

theorem Call.sound_finish_read (hdr : c.direction = .read) (st : IoStatus) : (c.finish st).Sound := by
  rw [Call.finish_read hdr]
  have hnt : c.direction ≠ .write := by
    rw [hdr]
    exact fun h => by cases h
  exact ⟨fun h => absurd h hnt, fun _ _ => ⟨rfl, fun h => absurd h hnt⟩⟩

theorem Call.Writing.sound_finish {st : IoStatus} (h : c.Writing)
    (hdr : c.direction = .write) (hb : c.iosbBytes = c.bytes)
    (hst : st = .success → c.byteCount = 0) : (c.finish st).Sound := by
  rw [Call.finish_write hdr]
  refine ⟨fun _ => ⟨h.bytes_le, h.iosb_le, h.request, ?_, fun h => by cases h⟩, ?_⟩
  · rintro (h | h) <;> cases h
  · intro st' hp
    obtain rfl := Phase.finished.inj hp
    refine ⟨hb, fun _ hc => ?_⟩
    have hz := hst hc
    have hle := h.bytes_le
    have hq := h.request
    change c.iosbBytes = c.mdl.byteCount
    omega

theorem sound_readTurn (hdr : c.direction = .read) (hp : c.phase = .looping) :
    (p.readTurn c).settled.Sound := by
  have hgs : ∀ c' : Call, c'.direction = .read → (∀ status, c'.phase ≠ .finished status) →
      c'.Sound := by
    intro c' hc' hnt
    refine ⟨fun h => ?_, fun status h => absurd h (hnt status)⟩
    rw [hc'] at h
    cases h
  have hlp : ∀ status, c.phase ≠ .finished status := by
    intro status
    rw [hp]
    exact fun h => by cases h
  rw [Pipe.readTurn]
  by_cases hmr : c.bytes < c.byteCount
  · rw [if_pos hmr]
    by_cases he : p.head = p.tail
    · rw [if_pos he]
      split_ifs
      · exact Call.sound_finish_read hdr _
      · exact Call.sound_finish_read hdr _
      · exact Call.sound_finish_read hdr _
      · exact hgs _ hdr fun status h => by cases h
    · rw [if_neg he]
      exact hgs _ hdr hlp
  · rw [if_neg hmr]
    exact Call.sound_finish_read hdr _

theorem sound_writeTurn (h : c.Writing) (hdr : c.direction = .write)
    (hp : c.phase = .looping) (hnt : ¬ c.WroteAll) :
    (p.writeTurn c).settled.Sound := by
  rw [Pipe.writeTurn]
  by_cases hmr : c.bytes < c.byteCount
  · rw [if_pos hmr]
    have hst : ({ c with iosbBytes := c.bytes } : Call).Writing :=
      ⟨h.bytes_le, Nat.le_refl _, h.request, fun _ => ⟨rfl, .inl hmr⟩, fun _ => .inr (.inl hmr)⟩
    by_cases hfl : p.freeSpace = 0
    · rw [if_pos hfl]
      split_ifs
      · exact Call.Writing.sound_finish hst hdr rfl fun h => by cases h
      · exact Call.Writing.sound_finish hst hdr rfl fun h => by cases h
      · refine ⟨fun _ => ⟨h.bytes_le, Nat.le_refl _, h.request, fun _ => ⟨rfl, .inl hmr⟩, ?_⟩, ?_⟩
        · exact fun h => by cases h
        · exact fun _ h => by cases h
    · rw [if_neg hfl]
      generalize hn : (if p.freeSpace < c.byteCount - c.bytes then p.freeSpace
        else c.byteCount - c.bytes) = n
      have hb : 0 < n ∧ c.bytes + n ≤ c.byteCount := by
        split at hn <;> omega
      have hc : (p.writeData { c with iosbBytes := c.bytes }).settled
          = { c with iosbBytes := c.bytes, bytes := c.bytes + n } := by
        rw [← hn]
        rfl
      rw [hc]
      refine ⟨fun _ => ⟨hb.2, Nat.le_add_right .., h.request, ?_, fun _ => .inl ?_⟩, ?_⟩
      · rintro (h | h)
        · exact absurd (hp.symm.trans h) fun h => by cases h
        · exact absurd (hp.symm.trans h) fun h => by cases h
      · exact Nat.lt_add_of_pos_right hb.1
      · exact fun _ h => absurd (hp.symm.trans h) fun h => by cases h
  · rw [if_neg hmr]
    have hz : c.byteCount = 0 := by
      by_contra hpos
      exact hnt ⟨hdr, by omega, by omega⟩
    have hle := h.bytes_le
    have hib := h.iosb_le
    exact h.sound_finish hdr (by omega) fun _ => hz

/-- The last turn of a write of at least a byte reports too little. -/
theorem wrong_writeTurn (h : c.Writing) (hp : c.phase = .looping) (ha : c.WroteAll) :
    (p.writeTurn c).settled.Counting ∧ (p.writeTurn c).settled.phase = .finished .success ∧
      ¬ (p.writeTurn c).settled.Right .success := by
  obtain ⟨hdr, hpos, hle⟩ := ha
  have hlg := h.looping hp
  have hb := h.bytes_le
  have hst : (p.writeTurn c).settled = { c with phase := .finished .success } := by
    rw [Pipe.writeTurn, if_neg (by omega)]
    exact Call.finish_write hdr _
  rw [hst]
  refine ⟨fun _ => ⟨hb, h.iosb_le, h.request, ?_, fun h => by cases h⟩, rfl, fun hrg => ?_⟩
  · rintro (h | h) <;> cases h
  have hmv : c.iosbBytes = c.bytes := hrg.moved
  omega

theorem Call.Counting.sound_wait {phase : Phase} (h : c.Counting)
    (hp : c.phase = .entering ∨ c.phase = .sleeping)
    (hnext : phase = .looping ∨ phase = .entering) : ({ c with phase := phase } : Call).Sound := by
  refine ⟨fun hdr => ?_, fun st hfn => ?_⟩
  · have hw := h hdr
    exact ⟨hw.bytes_le, hw.iosb_le, hw.request, fun _ => hw.waiting hp, fun _ =>
      .inr (hw.waiting hp).2⟩
  · rcases hnext with rfl | rfl <;> cases hfn

theorem Call.Counting.sound_interrupted (h : c.Counting)
    (hp : c.phase = .entering ∨ c.phase = .sleeping) :
    (c.finish .interrupted).Sound := by
  cases hdr : c.direction with
  | read => exact Call.sound_finish_read hdr _
  | write =>
    have hw := h hdr
    exact hw.sound_finish hdr (hw.waiting hp).1 fun h => by cases h

end

/-! ## Any number of calls -/

namespace PipeSystem

variable {T : Type} [DecidableEq T] {B : Nat} {s s' : PipeSystem T}

/-- The bytes that calls of one direction have moved. -/
def moved (s : PipeSystem T) : Direction → List (T × Byte)
  | .read => s.delivered
  | .write => s.accepted

/-- Every call that has returned has in its status block the number of its bytes that were moved, and
a write that succeeded has written all it was asked to. -/
def Counted (s : PipeSystem T) : Prop :=
  ∀ t status, (s.call t).phase = .finished status →
    (s.call t).iosbBytes = (loggedBy (s.moved (s.call t).direction) t).length ∧
      ((s.call t).direction = .write → status = .success →
        (s.call t).iosbBytes = (s.call t).mdl.byteCount)

/-- The step is the turn in which a write of at least a byte finds that it has written all of them. -/
def EndsWrite (s : PipeSystem T) : PipeAction T → Prop
  | .turn t => (s.call t).WroteAll
  | _ => False

instance (s : PipeSystem T) : DecidablePred s.EndsWrite
  | .turn t => inferInstanceAs (Decidable (s.call t).WroteAll)
  | .enter .. | .wake .. | .recount _ => inferInstanceAs (Decidable False)

/-- A pipe just made, and calls that have stored a count of zero and not done more. -/
structure Begun (B : Nat) (s : PipeSystem T) : Prop extends s.Fresh B where
  iosb : ∀ t, (s.call t).iosbBytes = 0

/-- What holds between the steps of any run. -/
structure Tracked (B : Nat) (s : PipeSystem T) : Prop where
  fifo : s.Fifo B
  counting : ∀ t, (s.call t).Counting

theorem Fifo.length_moved (h : s.Fifo B) (t : T) :
    (loggedBy (s.moved (s.call t).direction) t).length = (s.call t).bytes := by
  cases hd : (s.call t).direction with
  | read => rw [moved, h.delivered, Call.moved, if_pos hd, Mdl.length_data]
  | write => rw [moved, h.accepted, Call.moved, if_pos hd, Mdl.length_data]

theorem counted_iff (h : s.Fifo B) :
    s.Counted ↔ ∀ t status, (s.call t).phase = .finished status → (s.call t).Right status := by
  refine forall_congr' fun t => forall_congr' fun status => imp_congr_right fun _ => ?_
  rw [h.length_moved]
  exact ⟨fun h => ⟨h.1, h.2⟩, fun h => ⟨h.1, h.2⟩⟩

theorem Begun.tracked (h : s.Begun B) (hB : 0 < B) : s.Tracked B := by
  refine ⟨h.fifo hB, fun t _ => ?_⟩
  obtain ⟨hp, hb, hq⟩ := h.call t
  have hib := h.iosb t
  refine ⟨by omega, by omega, hq, fun _ => ⟨by omega, by omega⟩, fun h => ?_⟩
  rw [hp] at h
  cases h

theorem Begun.counted (h : s.Begun B) : s.Counted := by
  intro t st hfn
  rw [(h.call t).1] at hfn
  cases hfn

section

variable {t : T} {c : Call}

theorem call_setCall (u : T) : (s.setCall t c).call u = if u = t then c else s.call u :=
  update_apply ..

theorem call_settle (r : Turn) (u : T) :
    (s.settle t r.call r.next).call u = if u = t then r.settled else s.call u := by
  unfold settle Turn.settled
  cases r.next with
  | again => exact update_apply ..
  | sleep => exact update_apply ..
  | finish st => exact update_apply ..

omit [DecidableEq T] in
theorem call_logMoved (s : PipeSystem T) (t : T) (dir : Direction) (bytes : List Byte) :
    (s.logMoved t dir bytes).call = s.call := by
  cases dir with
  | read => rfl
  | write => rfl

theorem call_turn (hst : s.step (.turn t) = some s') : (s.call t).phase = .looping ∧
    ∀ u, s'.call u = if u = t then (s.pipe.turn (s.call t)).settled else s.call u := by
  simp only [step] at hst
  split_ifs at hst with htr
  cases hst
  refine ⟨htr.1, fun u => ?_⟩
  rw [call_settle, call_logMoved]

theorem sound_step {a : PipeAction T} (h : s.Tracked B) (hst : s.step a = some s')
    (hnt : ¬ s.EndsWrite a) (u : T) : s'.call u = s.call u ∨ (s'.call u).Sound := by
  have hon : ∀ {t : T} {c : Call}, c.Sound → (∀ u, s'.call u = if u = t then c else s.call u) →
      s'.call u = s.call u ∨ (s'.call u).Sound := by
    intro t c hc hcl
    rw [hcl u]
    by_cases hu : u = t
    · rw [if_pos hu]
      exact .inr hc
    · rw [if_neg hu]
      exact .inl rfl
  cases a with
  | enter t acq =>
    simp only [step] at hst
    split_ifs at hst with hp ha
    · cases hst
      exact hon ((h.counting t).sound_wait (.inl hp) (.inl rfl)) fun u => call_setCall u
    · cases hst
      exact hon ((h.counting t).sound_interrupted (.inl hp)) fun u => call_setCall u
  | turn t =>
    obtain ⟨hlp, hcl⟩ := call_turn hst
    refine hon ?_ hcl
    rw [Pipe.turn]
    cases hdr : (s.call t).direction with
    | read => exact sound_readTurn hdr hlp
    | write => exact sound_writeTurn (h.counting t hdr) hdr hlp hnt
  | wake t sig =>
    simp only [step] at hst
    split_ifs at hst with hp
    · cases hst
      exact hon ((h.counting t).sound_wait (.inr hp) (.inr rfl)) fun u => call_setCall u
    · cases hst
      exact hon ((h.counting t).sound_interrupted (.inr hp)) fun u => call_setCall u
  | recount n =>
    cases hst
    exact .inl rfl

end

/-- The turn that ends a write changes one call only, and leaves it with a wrong count. -/
theorem call_endsWrite {t : T} (h : s.Tracked B) (hst : s.step (.turn t) = some s')
    (he : (s.call t).WroteAll) : (∀ u, u ≠ t → s'.call u = s.call u) ∧
      (s'.call t).Counting ∧ (s'.call t).phase = .finished .success ∧ ¬ (s'.call t).Right .success := by
  obtain ⟨hp, hc⟩ := call_turn hst
  have htr : s.pipe.turn (s.call t) = s.pipe.writeTurn (s.call t) := by
    rw [Pipe.turn, he.1]
  refine ⟨fun u hu => by rw [hc u, if_neg hu], ?_⟩
  rw [hc t, if_pos rfl, htr]
  exact wrong_writeTurn (h.counting t he.1) hp he

theorem tracked_step {a : PipeAction T} (h : s.Tracked B) (hst : s.step a = some s') :
    s'.Tracked B := by
  refine ⟨h.fifo.step hst, fun u => ?_⟩
  by_cases he : s.EndsWrite a
  · cases a with
    | turn t =>
      obtain ⟨hother, hc, -⟩ := call_endsWrite h hst he
      by_cases hu : u = t
      · exact hu ▸ hc
      · rw [hother u hu]
        exact h.counting u
    | _ => exact absurd he id
  · rcases sound_step h hst he u with heq | hsn
    · exact heq ▸ h.counting u
    · exact hsn.counting

theorem counted_step {a : PipeAction T} (hc : s.Counted) (h : s.Tracked B)
    (hst : s.step a = some s') : s'.Counted ↔ ¬ s.EndsWrite a := by
  have hfi := h.fifo.step hst
  constructor
  · intro hc' he
    cases a with
    | turn t =>
      obtain ⟨-, -, hp, hw⟩ := call_endsWrite h hst he
      exact hw ((counted_iff hfi).1 hc' t .success hp)
    | _ => exact he
  · intro hnt
    refine (counted_iff hfi).2 fun u status hp => ?_
    rcases sound_step h hst hnt u with heq | hsn
    · rw [heq] at hp ⊢
      exact (counted_iff h.fifo).1 hc u status hp
    · exact hsn.right status hp

/-- **The counts are right in every state of a run just if no step of it ends a write** of at least a
byte with success. -/
theorem pipe_counts_iff (hB : 0 < B) (hs : s.Begun B) (as : List (PipeAction T)) :
    Stays step Counted s as ↔ Along step (fun s a => ¬ s.EndsWrite a) s as := by
  have htr : Along step (fun s _ => s.Tracked B) s as :=
    .of_invariant (hs.tracked hB) fun _ _ _ h hst => tracked_step h hst
  exact stays_iff_along (fun _ _ _ hc h hst => counted_step hc h hst) hs.counted htr

theorem begun_sample : sample.Begun 4 where
  toFresh := ⟨rfl, rfl, rfl, rfl, fun t => by cases t <;> exact ⟨rfl, rfl, rfl⟩⟩
  iosb t := by cases t <;> rfl

/-- The writer sleeps on a full pipe and is interrupted; the reader takes a line. -/
theorem pipe_counts_sample :
    Stays step Counted sample [.recount 2, .enter true true, .turn true, .turn true,
      .wake true false, .enter false true, .turn false, .turn false] :=
  (pipe_counts_iff (by decide) begun_sample _).2 (by decide +kernel)

/-- The writer ends, with the count from before its last byte. -/
theorem pipe_counts_wrong :
    ¬ ∀ s, sample.Begun 4 → Reaches step (fun _ _ => True) sample s → s.Counted := by
  intro h
  obtain ⟨s, hrn, hs⟩ : ∃ s, runChecked step (fun _ _ => true) sampleRun sample = some s ∧
      decide ((s.call true).phase = .finished .success ∧ (s.call true).direction = .write ∧
        (s.call true).mdl.byteCount = 4 ∧ (s.call true).iosbBytes = 3) = true :=
    (any_eq_true _ _).1 (by decide +kernel)
  obtain ⟨hp, hdr, hq, hb⟩ := of_decide_eq_true hs
  have hc := h s begun_sample (.of_runChecked (fun _ _ _ => trivial) hrn)
  have hw := (hc true .success hp).2 hdr rfl
  rw [hq, hb] at hw
  cases hw

end PipeSystem

end Boron.Io
