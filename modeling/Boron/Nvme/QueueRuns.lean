import Boron.Lib.Laps
import Boron.Nvme.Queue
import Mathlib.Data.List.Perm.Basic
import Mathlib.Data.List.Nodup

/-! # Runs of a queue pair

The table of entries knows the commands in flight (`TableOk`), and each ring's ends are less than a
lap apart (`SubmissionOk`, `CompletionOk`). For the completion ring the controller sees to that. For
the submission ring nothing does: the semaphore lets in as many commands as the ring has slots, or
more. In runs that never use the last slot, of queues whose sizes agree, everything that is promised
of a queue holds (`queue_safe_of_calm`). -/

namespace Boron.Nvme

open Function List Option

/-! ## The table of entries -/

/-- The table has an entry for each command in flight, under the command's identifier. -/
structure TableOk (entries : Nat → Option Nat) (flight : List Command) : Prop where
  entry : ∀ i k, i < entryCount ∧ entries i = some k ↔ ⟨i, some k⟩ ∈ flight
  call : ∀ c ∈ flight, c.call ≠ none
  distinct : (flight.map Command.commandIdentifier).Nodup

namespace TableOk

variable {entries : Nat → Option Nat} {flight flight' : List Command} {c : Command} {i k : Nat}

section

variable (h : TableOk entries flight)
include h

theorem perm (hp : flight.Perm flight') : TableOk entries flight' where
  entry i k := (h.entry i k).trans hp.mem_iff
  call c hc := h.call c (hp.mem_iff.2 hc)
  distinct := (hp.map _).nodup_iff.1 h.distinct

theorem lookup (hc : c ∈ flight) :
    ∃ k, c.call = some k ∧ c.commandIdentifier < entryCount ∧ entries c.commandIdentifier = some k := by
  obtain ⟨k, hk⟩ := ne_none_iff_exists'.1 (h.call c hc)
  refine ⟨k, hk, (h.entry _ _).2 ?_⟩
  rw [← hk]
  exact hc

/-- There is a free place as long as less commands are in flight than the table has places. -/
theorem exists_free (hln : flight.length < entryCount) :
    ∃ i ∈ List.range entryCount, entries i = none := by
  by_contra hfl
  have hb : List.range entryCount ⊆ flight.map Command.commandIdentifier := by
    intro i hi
    obtain ⟨k, hk⟩ := ne_none_iff_exists'.1 fun hnn => hfl ⟨i, hi, hnn⟩
    exact List.mem_map.2 ⟨_, (h.entry i k).1 ⟨mem_range.1 hi, hk⟩, rfl⟩
  have hle := (subperm_of_subset nodup_range hb).length_le
  rw [length_range, length_map] at hle
  omega

theorem insert (hi : i < entryCount) (hfr : entries i = none) :
    TableOk (update entries i (some k)) (⟨i, some k⟩ :: flight) := by
  have hw : ∀ k', (⟨i, some k'⟩ : Command) ∉ flight := by
    intro k' hme
    have he := ((h.entry i k').2 hme).2
    rw [hfr] at he
    cases he
  refine ⟨fun j k' => ?_, fun c hc => ?_, ?_⟩
  · rw [mem_cons]
    by_cases hj : j = i
    · subst hj
      rw [update_self]
      constructor
      · rintro ⟨-, hk⟩
        cases hk
        exact .inl rfl
      · rintro (hk | hme)
        · cases hk
          exact ⟨hi, rfl⟩
        · exact (hw k' hme).elim
    · rw [update_of_ne hj, h.entry]
      refine ⟨.inr, ?_⟩
      rintro (hk | hme)
      · cases hk
        exact (hj rfl).elim
      · exact hme
  · rcases mem_cons.1 hc with rfl | hme
    · nofun
    · exact h.call c hme
  · refine nodup_cons.2 ⟨fun hme => ?_, h.distinct⟩
    obtain ⟨c, hc, hid⟩ := List.mem_map.1 hme
    obtain ⟨k', hk', -, he⟩ := h.lookup hc
    rw [hid, hfr] at he
    cases he

end

theorem remove (h : TableOk entries (c :: flight)) :
    TableOk (update entries c.commandIdentifier none) flight := by
  obtain ⟨hnt, hds⟩ := nodup_cons.1 h.distinct
  refine ⟨fun j k' => ?_, fun d hd => h.call d (mem_cons_of_mem _ hd), hds⟩
  by_cases hj : j = c.commandIdentifier
  · subst hj
    rw [update_self]
    refine ⟨nofun, fun hme => ?_⟩
    exact (hnt (List.mem_map.2 ⟨_, hme, rfl⟩)).elim
  · rw [update_of_ne hj, h.entry, mem_cons]
    refine ⟨?_, .inr⟩
    rintro (rfl | hme)
    · exact (hj rfl).elim
    · exact hme

end TableOk

namespace Queue

variable {s s' : Queue} {N M : Nat}

/-! ## The rings -/

/-- The submission ring of `N` slots. -/
structure SubmissionOk (s : Queue) (N : Nat) : Prop where
  index : s.submissionIndex = s.submissions.length % N
  doorBell : s.submissionDoorBell = s.submissions.length % N
  head : s.head = s.consumed % N
  consumed_le : s.consumed ≤ s.submissions.length
  lap : s.submissions.length < s.consumed + N
  holds : RingHolds N s.submissionRing s.submissions s.consumed
  written : ∀ x, (s.submissionRing x).call ≠ none →
    ∃ i, s.submissions[i]? = some (s.submissionRing x) ∧ i % N = x

/-- The completion ring of `M` slots. The driver tells the controller how far it has read when the DPC
ends. -/
structure CompletionOk (s : Queue) (M : Nat) : Prop where
  index : s.completionIndex = s.received.length % M
  phase : s.completionPhase = lapPhase M s.received.length
  tail : s.tail = s.completions.length % M
  posted : s.phase = lapPhase M s.completions.length
  received_le : s.received.length ≤ s.completions.length
  ring : PhaseRing M s.completionRing Completion.phase s.completions
  doorBell : ∃ told, told ≤ s.received.length ∧ s.completions.length < told + M ∧
    s.completionDoorBell = told % M ∧ (s.dpc = none ∨ s.dpc = some 0 → told = s.received.length)

/-- The commands: where they are, and whose they are. -/
structure CommandsOk (s : Queue) : Prop where
  taken : (s.accepted ++ s.completions.map Completion.command).Perm (s.submissions.take s.consumed)
  distinct : (s.submissions.map Command.call ++ s.admitted.map some).Nodup
  submitted : ∀ c ∈ s.submissions, ∃ k < s.calls, c.call = some k
  admitted : ∀ k ∈ s.admitted, k < s.calls
  table : TableOk s.entries s.inFlight
  room : s.semaphore + s.admitted.length + s.inFlight.length = entryCount
  own : s.received.map (fun x => (some x.1, x.2))
    = (s.completions.take s.received.length).map fun c => (c.call, c.call)

structure Inv (s : Queue) (N M : Nat) : Prop where
  sizes : s.sizes = ⟨N, M, N, M⟩
  two_le : 2 ≤ N
  le : N ≤ M
  crashed : s.crashed = false
  overwritten : s.overwritten = false
  submission : s.SubmissionOk N
  completion : s.CompletionOk M
  commands : s.CommandsOk

/-- Something is pending exactly if the controller's index is not at the doorbell. -/
theorem SubmissionOk.head_eq_iff (h : s.SubmissionOk N) :
    s.head = s.submissionDoorBell ↔ s.consumed = s.submissions.length := by
  rw [h.head, h.doorBell, mod_eq_mod_iff_of_lap h.consumed_le h.lap]

/-- The driver sees a completion exactly if there is one that it has not handed out. -/
theorem CompletionOk.isPosted_iff (h : s.CompletionOk M) (hM : 0 < M) :
    s.isPosted = true ↔ s.received.length < s.completions.length := by
  obtain ⟨told, htl, hp, -, -⟩ := h.doorBell
  rw [isPosted, decide_eq_true_iff, h.index, h.phase]
  exact h.ring.phase_eq_iff hM h.received_le (by omega)

theorem CompletionOk.next (h : s.CompletionOk M) (hlt : s.received.length < s.completions.length) :
    s.completionRing s.completionIndex = s.completions[s.received.length] := by
  obtain ⟨told, htl, hp, -, -⟩ := h.doorBell
  rw [h.index]
  exact h.ring.read hlt (by omega)

theorem CommandsOk.submissions_perm (h : s.CommandsOk) :
    ((s.completions.take s.received.length).map Completion.command ++ s.inFlight).Perm
      s.submissions := by
  have hp : (s.completions.take s.received.length).map Completion.command
      ++ (s.completions.drop s.received.length).map Completion.command
      = s.completions.map Completion.command := by
    rw [← map_append, take_append_drop]
  have htk := h.taken.append_right (s.submissions.drop s.consumed)
  rw [take_append_drop, ← hp] at htk
  refine List.Perm.trans ?_ htk
  rw [inFlight]
  refine perm_iff_count.2 fun c => ?_
  simp only [count_append]
  omega

theorem CommandsOk.nodup (h : s.CommandsOk) : s.submissions.Nodup :=
  Nodup.of_map _ (nodup_append.1 h.distinct).1

theorem CommandsOk.move (h : s.CommandsOk) (ha : s'.admitted = s.admitted)
    (hc : s'.calls = s.calls) (hsm : s'.semaphore = s.semaphore)
    (he : s'.entries = s.entries) (hb : s'.submissions = s.submissions)
    (hrc : s'.received = s.received)
    (htk : s'.completions.take s.received.length = s.completions.take s.received.length)
    (htn : (s'.accepted ++ s'.completions.map Completion.command).Perm (s.submissions.take s'.consumed))
    (hfl : s.inFlight.Perm s'.inFlight) : s'.CommandsOk where
  taken := by rwa [hb]
  distinct := by rw [hb, ha]; exact h.distinct
  submitted := by rw [hb, hc]; exact h.submitted
  admitted := by rw [ha, hc]; exact h.admitted
  table := by rw [he]; exact h.table.perm hfl
  room := by rw [hsm, ha, ← hfl.length_eq]; exact h.room
  own := by rw [hrc, htk]; exact h.own

/-! ## The steps -/

namespace Inv

section

variable (h : s.Inv N M)
include h

theorem passSemaphore (hs : s.passSemaphore = some s') : s'.Inv N M := by
  unfold Queue.passSemaphore at hs
  split at hs
  · cases hs
  · next hsm =>
      cases hs
      obtain ⟨hz, hw, hle, hcr, hov, hb, hp, hcm⟩ := h
      refine ⟨hz, hw, hle, hcr, hov,
        ⟨hb.index, hb.doorBell, hb.head, hb.consumed_le, hb.lap, hb.holds, hb.written⟩,
        ⟨hp.index, hp.phase, hp.tail, hp.posted, hp.received_le, hp.ring, hp.doorBell⟩,
        ⟨hcm.taken, ?_, fun c hc => ?_, fun k hk => ?_, hcm.table, ?_, hcm.own⟩⟩
      · rw [map_cons, nodup_middle]
        refine nodup_cons.2 ⟨fun hme => ?_, hcm.distinct⟩
        rcases mem_append.1 hme with hme | hme
        · obtain ⟨c, hc, hcl⟩ := List.mem_map.1 hme
          obtain ⟨k, hk, hcl'⟩ := hcm.submitted c hc
          rw [hcl] at hcl'
          cases hcl'
          exact (Nat.lt_irrefl _ hk).elim
        · obtain ⟨k, hk, hcl⟩ := List.mem_map.1 hme
          cases hcl
          exact (Nat.lt_irrefl _ (hcm.admitted _ hk)).elim
      · obtain ⟨k, hk, hcl⟩ := hcm.submitted c hc
        exact ⟨k, Nat.lt_succ_of_lt hk, hcl⟩
      · rcases mem_cons.1 hk with rfl | hk
        · exact Nat.lt_succ_self _
        · exact Nat.lt_succ_of_lt (hcm.admitted k hk)
      · have hrm := hcm.room
        have hfl : Queue.inFlight { s with
            semaphore := s.semaphore - 1, calls := s.calls + 1, admitted := s.calls :: s.admitted }
            = s.inFlight := rfl
        rw [hfl]
        simp only [length_cons]
        omega

theorem interrupt (hs : s.interrupt = some s') : s'.Inv N M := by
  unfold Queue.interrupt at hs
  split at hs
  · cases hs
  · next hp =>
      cases hs
      obtain ⟨hz, hw, hle, hcr, hov, hb, hcm, hc⟩ := h
      obtain ⟨told, htl, hlp, hbl, hsm⟩ := hcm.doorBell
      exact ⟨hz, hw, hle, hcr, hov,
        ⟨hb.index, hb.doorBell, hb.head, hb.consumed_le, hb.lap, hb.holds, hb.written⟩,
        ⟨hcm.index, hcm.phase, hcm.tail, hcm.posted, hcm.received_le, hcm.ring,
          told, htl, hlp, hbl, fun _ => hsm (.inl (not_not.1 hp))⟩,
        ⟨hc.taken, hc.distinct, hc.submitted, hc.admitted, hc.table, hc.room, hc.own⟩⟩

theorem finish (hs : s.finish = some s') : s'.Inv N M := by
  unfold Queue.finish at hs
  split at hs
  · cases hs
  · next count hdp =>
      split at hs
      · cases hs
      · cases hs
        obtain ⟨hsz, htw, hle, hcr, hov, hb, hc, hcm⟩ := h
        obtain ⟨told, htl, hp, hbl, hsm⟩ := hc.doorBell
        have hw : (if count ≠ 0 then s.completionIndex else s.completionDoorBell)
            = s.received.length % M := by
          split
          · exact hc.index
          · next hz =>
              rw [not_not] at hz
              subst hz
              rw [hbl, hsm (.inr hdp)]
        have hp' : s.completions.length < s.received.length + M := by omega
        exact ⟨hsz, htw, hle, hcr, hov,
          ⟨hb.index, hb.doorBell, hb.head, hb.consumed_le, hb.lap, hb.holds, hb.written⟩,
          ⟨hc.index, hc.phase, hc.tail, hc.posted, hc.received_le, hc.ring,
            s.received.length, Nat.le_refl _, hp', hw, fun _ => rfl⟩,
          ⟨hcm.taken, hcm.distinct, hcm.submitted, hcm.admitted, hcm.table, hcm.room, hcm.own⟩⟩

theorem consume (hs : s.consume = some s') : s'.Inv N M := by
  unfold Queue.consume at hs
  split at hs
  · cases hs
  · next hh =>
      cases hs
      obtain ⟨hz, hw, hle, hcr, hov, hb, hc, hcm⟩ := h
      rw [hb.head_eq_iff] at hh
      have hlt : s.consumed < s.submissions.length := Nat.lt_of_le_of_ne hb.consumed_le hh
      have hread : s.submissionRing s.head = s.submissions[s.consumed] := by
        rw [hb.head]
        exact hb.holds s.consumed (Nat.le_refl _) hlt
      refine ⟨hz, hw, hle, hcr, hov, ?_,
        ⟨hc.index, hc.phase, hc.tail, hc.posted, hc.received_le, hc.ring, hc.doorBell⟩, ?_⟩
      · refine ⟨hb.index, hb.doorBell, ?_, hlt, ?_, hb.holds.mono (Nat.le_succ _), hb.written⟩
        · rw [hz, hb.head]
          exact succ_mod _
        · exact Nat.lt_of_lt_of_le hb.lap (Nat.add_le_add_right (Nat.le_succ _) _)
      · refine hcm.move rfl rfl rfl rfl rfl rfl rfl ?_ ?_
        · rw [take_add_one, List.getElem?_eq_getElem hlt, hread]
          refine List.Perm.trans ?_ (hcm.taken.append_right _)
          refine perm_iff_count.2 fun c => ?_
          simp only [count_append, toList_some]
          omega
        · have hdrop := drop_eq_getElem_cons hlt
          simp only [Queue.inFlight, hread, hdrop]
          refine perm_iff_count.2 fun c => ?_
          simp only [count_append, count_cons, count_nil]
          omega

theorem post {command : Command} (hs : s.post command = some s') : s'.Inv N M := by
  unfold Queue.post at hs
  split at hs
  · cases hs
  · next hcn =>
      cases hs
      obtain ⟨hz, hw, hle, hcr, hov, hb, hc, hcm⟩ := h
      rw [not_or, not_not] at hcn
      obtain ⟨hme, hrm⟩ := hcn
      obtain ⟨told, htl, hlp, hbl, hsm⟩ := hc.doorBell
      have hnext : (s.tail + 1) % s.sizes.toldCompletion = (s.completions.length + 1) % M := by
        rw [hz, hc.tail]
        exact succ_mod _
      -- The controller does not let the ring become full.
      have hlp' : s.completions.length + 1 < told + M := by
        refine Nat.lt_of_le_of_ne hlp fun hfl => hrm ?_
        rw [isFull, decide_eq_true_iff, hnext, hbl, hfl, Nat.add_mod_right]
      refine ⟨hz, hw, hle, hcr, hov,
        ⟨hb.index, hb.doorBell, hb.head, hb.consumed_le, hb.lap, hb.holds, hb.written⟩,
        ⟨hc.index, hc.phase, ?_, ?_, ?_, ?_, told, htl, ?_, hbl, hsm⟩, ?_⟩
      · simp only [hnext, length_append, length_singleton]
      · simp only [hnext, hc.posted, length_append, length_singleton]
        exact (lapPhase_succ _).symm
      · rw [length_append, length_singleton]
        exact Nat.le_succ_of_le hc.received_le
      · simp only [hc.tail]
        exact hc.ring.push hc.posted
      · rwa [length_append, length_singleton]
      · have hp := perm_cons_erase hme
        have hsm' : Completion.command ⟨command.commandIdentifier, s.phase, command.call⟩
            = command := rfl
        refine hcm.move rfl rfl rfl rfl rfl rfl ?_ ?_ ?_
        · exact take_append_of_le_length hc.received_le
        · refine List.Perm.trans ?_ hcm.taken
          rw [map_append]
          refine List.Perm.trans ?_ (hp.symm.append_right _)
          refine perm_iff_count.2 fun c => ?_
          simp only [count_append, count_cons, map_cons, map_nil, hsm', count_nil]
          omega
        · simp only [Queue.inFlight, drop_append_of_le_length hc.received_le, map_append]
          refine List.Perm.trans ((hp.append_left _).append_right _) ?_
          refine perm_iff_count.2 fun c => ?_
          simp only [count_append, count_cons, map_cons, map_nil, hsm', count_nil]
          omega

theorem receive (hs : s.receive = some s') : s'.Inv N M := by
  unfold Queue.receive at hs
  split at hs
  · cases hs
  · next count hdp =>
      split at hs
      · cases hs
      · next hp =>
          obtain ⟨hz, htw, hle, hcr, hov, hb, hcm, hcd⟩ := h
          rw [Bool.not_eq_true', Bool.not_eq_false, hcm.isPosted_iff (by omega)] at hp
          obtain ⟨told, htl, hlp, hbl, -⟩ := hcm.doorBell
          have hnext := hcm.next hp
          -- The completion at the head of those that are not handed out is one of a command in flight.
          have hdrop := drop_eq_getElem_cons hp
          generalize hc : s.completions[s.received.length] = completion at hnext hdrop
          have hfl : s.inFlight.Perm (completion.command :: (s.submissions.drop s.consumed ++ s.accepted
                ++ (s.completions.drop (s.received.length + 1)).map Completion.command)) := by
            rw [Queue.inFlight, hdrop, map_cons]
            exact perm_middle
          have htb := hcd.table.perm hfl
          obtain ⟨k, hcl, hid, he⟩ := htb.lookup mem_cons_self
          replace hid : completion.commandIdentifier < entryCount := hid
          replace he : s.entries completion.commandIdentifier = some k := he
          simp only [hnext, hid, he, if_true] at hs
          cases hs
          have hx : (s.completionIndex + 1) % s.sizes.completion = (s.received.length + 1) % M := by
            rw [hz, hcm.index]
            exact succ_mod _
          refine ⟨hz, htw, hle, hcr, hov,
            ⟨hb.index, hb.doorBell, hb.head, hb.consumed_le, hb.lap, hb.holds, hb.written⟩,
            ⟨?_, ?_, hcm.tail, hcm.posted, ?_, hcm.ring, told, ?_, hlp, hbl, ?_⟩,
            ⟨hcd.taken, hcd.distinct, hcd.submitted, hcd.admitted, ?_, ?_, ?_⟩⟩
          · simp only [hx, length_append, length_singleton]
          · simp only [hx, hcm.phase, length_append, length_singleton]
            exact (lapPhase_succ _).symm
          · rw [length_append, length_singleton]
            exact hp
          · rw [length_append, length_singleton]
            exact Nat.le_succ_of_le htl
          · rintro (hdp' | hdp') <;> cases hdp'
          · have hw : TableOk (update s.entries completion.commandIdentifier none) _ :=
              htb.remove
            simpa only [Queue.inFlight, length_append, length_singleton] using hw
          · have hrm := hcd.room
            rw [hfl.length_eq, length_cons] at hrm
            simp only [Queue.inFlight, length_append, length_singleton] at hrm ⊢
            omega
          · simp only [map_append, map_cons, map_nil, length_append, length_singleton]
            rw [take_add_one, List.getElem?_eq_getElem hp, hc, map_append, hcd.own]
            replace hcl : completion.call = some k := hcl
            simp [hcl]

end

/-- The slot behind the last submission has been taken, as the ring is not a whole lap long. -/
theorem slotInUse_eq_false (hb : s.SubmissionOk N) (hc : s.CommandsOk) : s.slotInUse = false := by
  rw [slotInUse, decide_eq_false_iff_not]
  intro hme
  obtain ⟨k, -, hcl⟩ := hc.submitted _ (mem_of_mem_drop hme)
  obtain ⟨i, hi, hsl⟩ := hb.written s.submissionIndex (by rw [hcl]; nofun)
  obtain ⟨j, hj⟩ := mem_iff_getElem?.1 hme
  rw [List.getElem?_drop] at hj
  obtain ⟨hlt, hgt⟩ := List.getElem?_eq_some_iff.1 hi
  obtain rfl : i = s.consumed + j := 
    (List.getElem?_inj hlt hc.nodup).1 (hi.trans hj.symm)
  rw [hb.index, mod_eq_mod_iff_of_lap (Nat.le_of_lt hlt) (by have := hb.lap; omega)] at hsl
  omega

/-- A submission leaves a slot free, or the ring would look empty to the controller. -/
theorem submit (h : s.Inv N M) {call : Nat} (hs : s.submit call = some s')
    (hfr : (s.submissionIndex + 1) % s.sizes.submission ≠ s.head) : s'.Inv N M := by
  unfold Queue.submit at hs
  split at hs
  · cases hs
  · next hcn =>
      obtain ⟨hz, hw, hle, hcr, hov, hb, hcp, hcm⟩ := h
      rw [not_or, not_not, not_not] at hcn
      obtain ⟨-, ha⟩ := hcn
      have hpos := length_pos_of_mem ha
      have hrm := hcm.room
      obtain ⟨i, hi, hnn⟩ := hcm.table.exists_free (by omega)
      have hsm : s.freeIndex.isSome := by
        rw [freeIndex, List.find?_isSome]
        exact ⟨i, hi, decide_eq_true hnn⟩
      obtain ⟨index, hix⟩ := isSome_iff_exists.1 hsm
      have hme := mem_range.1 (mem_of_find?_eq_some hix)
      have hnn' : s.entries index = none := by simpa using List.find?_some hix
      simp only [hix] at hs
      cases hs
      have hnext : (s.submissionIndex + 1) % s.sizes.submission = (s.submissions.length + 1) % N := by
        rw [hz, hb.index]
        exact succ_mod _
      have hlp : s.submissions.length + 1 < s.consumed + N := by
        refine Nat.lt_of_le_of_ne hb.lap fun hfl => hfr ?_
        rw [hnext, hfl, Nat.add_mod_right, hb.head]
      have hfs : some call ∉ s.submissions.map Command.call := fun hcl =>
        (nodup_append.1 hcm.distinct).2.2 _ hcl _ (List.mem_map_of_mem ha) rfl
      refine ⟨hz, hw, hle, hcr, ?_, ?_,
        ⟨hcp.index, hcp.phase, hcp.tail, hcp.posted, hcp.received_le, hcp.ring, hcp.doorBell⟩, ?_⟩
      · rw [hov, Bool.false_or]
        exact slotInUse_eq_false hb hcm
      · refine ⟨?_, ?_, hb.head, ?_, ?_, ?_, fun x hx => ?_⟩
        · simp only [hnext, length_append, length_singleton]
        · simp only [hnext, length_append, length_singleton]
        · rw [length_append]
          exact Nat.le_add_right_of_le hb.consumed_le
        · rwa [length_append, length_singleton]
        · simp only [hb.index]
          exact hb.holds.push hb.lap _
        · by_cases hsl : x = s.submissionIndex
          · refine ⟨s.submissions.length, ?_, ?_⟩
            · simp only [hsl, update_self, List.getElem?_concat_length]
            · rw [hsl, hb.index]
          · simp only [update_of_ne hsl] at hx ⊢
            obtain ⟨j, hj, hjx⟩ := hb.written x hx
            obtain ⟨hlt, -⟩ := List.getElem?_eq_some_iff.1 hj
            exact ⟨j, by rw [List.getElem?_append_left hlt, hj], hjx⟩
      · have hp := perm_cons_erase ha
        have hfg : ((⟨index, some call⟩ : Command) :: s.inFlight).Perm
            ((s.submissions ++ [(⟨index, some call⟩ : Command)]).drop s.consumed ++ s.accepted
              ++ (s.completions.drop s.received.length).map Completion.command) := by
          rw [drop_append_of_le_length hb.consumed_le, Queue.inFlight]
          refine perm_iff_count.2 fun c => ?_
          simp only [count_append, count_cons, count_nil]
          omega
        refine ⟨?_, ?_, fun c hc => ?_, fun k hk => hcm.admitted k (mem_of_mem_erase hk),
          (hcm.table.insert hme hnn').perm hfg, ?_, hcm.own⟩
        · rw [take_append_of_le_length hb.consumed_le]
          exact hcm.taken
        · have hnd := ((hp.map some).append_left _).nodup_iff.1 hcm.distinct
          rwa [map_append, append_assoc]
        · rcases mem_append.1 hc with hc | hc
          · exact hcm.submitted c hc
          · rw [mem_singleton.1 hc]
            exact ⟨call, hcm.admitted call ha, rfl⟩
        · have hln := hfg.length_eq
          rw [length_cons] at hln
          simp only [Queue.inFlight] at hln hrm ⊢
          rw [← hln, length_erase_of_mem ha]
          omega

end Inv

/-! ## Runs -/

/-- A command is submitted only if a slot of the ring stays free. -/
def Calm (s : Queue) : Action → Prop
  | .submit _ => (s.submissionIndex + 1) % s.sizes.submission ≠ s.head
  | _ => True

/-- The controllers whose admin queue, or whose I/O queues, have the sizes that they were told. -/
def Matched (kind : QueueKind) (mqes : BitVec 16) : Prop :=
  match kind with
  | .admin => 255 ≤ mqes.toNat ∧ mqes.toNat < 65535
  | .io => 1 ≤ mqes.toNat ∧ mqes.toNat ≤ 63

theorem Inv.step {a : Action} (h : s.Inv N M) (hc : s.Calm a) (hs : s.step a = some s') :
    s'.Inv N M := by
  unfold Queue.step at hs
  simp only [h.crashed, Bool.false_eq_true, ↓reduceIte] at hs
  cases a with
  | passSemaphore => exact h.passSemaphore hs
  | submit call => exact h.submit hs hc
  | interrupt => exact h.interrupt hs
  | receive => exact h.receive hs
  | finish => exact h.finish hs
  | consume => exact h.consume hs
  | post cmd => exact h.post hs

theorem maximumQueueEntries_eq (mqes : BitVec 16) : maximumQueueEntries mqes
      = (mqes.toNat + (if 2 ^ 15 ≤ mqes.toNat then 2 ^ 64 - 2 ^ 16 else 0) + 1) % 2 ^ 64 := by
  rw [maximumQueueEntries, BitVec.toNat_add, BitVec.toNat_signExtend, BitVec.toNat_setWidth,
    BitVec.msb_eq_decide, Nat.mod_eq_of_lt (show mqes.toNat < 2 ^ 64 by omega)]
  simp

variable {kind : QueueKind} {mqes : BitVec 16}

theorem sizes_of_matched (h : Matched kind mqes) :
    ∃ N M, setUp kind mqes = ⟨N, M, N, M⟩ ∧ 2 ≤ N ∧ N ≤ M ∧ N ≤ 64 ∧ M ≤ 256 := by
  have hx := maximumQueueEntries_eq mqes
  have hb : submissionQueueSize = 64 := rfl
  have hc : completionQueueSize = 256 := rfl
  cases kind with
  | admin =>
    simp only [Matched] at h
    have hge : 256 ≤ maximumQueueEntries mqes := by
      rw [hx]
      split <;> omega
    refine ⟨64, 256, ?_, by decide⟩
    simp only [setUp, nvmeSetupQueue, hb, hc, Nat.min_eq_right hge,
      Nat.min_eq_right (show 64 ≤ maximumQueueEntries mqes by omega)]
    rfl
  | io =>
    simp only [Matched] at h
    have heq : maximumQueueEntries mqes = mqes.toNat + 1 := by
      rw [hx, if_neg (by omega)]
      omega
    refine ⟨mqes.toNat + 1, mqes.toNat + 1, ?_, by omega, Nat.le_refl _, by omega, by omega⟩
    simp only [setUp, nvmeSetupQueue, hb, hc, heq, toldSize, Sizes.mk.injEq]
    omega

theorem inv_start (hz : setUp kind mqes = ⟨N, M, N, M⟩)
    (hw : 2 ≤ N) (hle : N ≤ M) : (start kind mqes).Inv N M := by
  refine ⟨hz, hw, hle, ?_, rfl, ?_, ?_, ?_⟩
  · simp only [start, hz, decide_eq_false_iff_not]
    omega
  · refine ⟨(Nat.zero_mod _).symm, (Nat.zero_mod _).symm, (Nat.zero_mod _).symm, Nat.le_refl _, ?_,
      nofun, fun x hx => (hx rfl).elim⟩
    simp only [start, length_nil]
    omega
  · have hp : lapPhase M 0 = true := lapPhase_of_lt (by omega)
    refine ⟨(Nat.zero_mod _).symm, hp.symm, (Nat.zero_mod _).symm, hp.symm, Nat.le_refl _,
      ⟨nofun, fun _ _ _ => rfl, nofun⟩, 0, Nat.le_refl _, ?_, (Nat.zero_mod _).symm, fun _ => rfl⟩
    simp only [start, length_nil]
    omega
  · exact ⟨List.Perm.refl _, nodup_nil, nofun, nofun,
      ⟨fun _ _ => ⟨nofun, nofun⟩, nofun, nodup_nil⟩, rfl, rfl⟩

/-- What was received, by the calls of the completions. -/
theorem CommandsOk.mem_received (h : s.CommandsOk) {x : Nat × Option Nat} (hx : x ∈ s.received) :
    x.2 = some x.1 := by
  have hme := List.mem_map_of_mem (f := fun x : Nat × Option Nat => (some x.1, x.2)) hx
  rw [h.own] at hme
  obtain ⟨c, -, hc⟩ := List.mem_map.1 hme
  obtain ⟨hfs, hsn⟩ := Prod.mk.inj hc
  exact hsn.symm.trans hfs

theorem CommandsOk.received_map (h : s.CommandsOk) : (s.received.map Prod.fst).map some
    = ((s.completions.take s.received.length).map Completion.command).map Command.call := by
  have hfs := congrArg (List.map Prod.fst) h.own
  simpa only [List.map_map, comp_def, Completion.command] using hfs

theorem CommandsOk.received_nodup (h : s.CommandsOk) : (s.received.map Prod.fst).Nodup := by
  have hc := (h.submissions_perm.map Command.call).nodup_iff.2 (nodup_append.1 h.distinct).1
  rw [map_append, ← h.received_map] at hc
  exact Nodup.of_map _ (nodup_append.1 hc).1

/-- Once nothing is left to do, every command's completion has been received. -/
theorem Inv.all_received (h : s.Inv N M) (hil : s.Idle) :
    ∀ c ∈ s.submissions, ∃ call, c.call = some call ∧ call ∈ s.received.map Prod.fst := by
  obtain ⟨-, hw, hle, -, -, hsb, hcm, hcd⟩ := id h
  have hcn := hsb.head_eq_iff.1 hil.head
  have hrc : s.received.length = s.completions.length := by
    have hnt := hcm.isPosted_iff (show 0 < M by omega)
    rw [hil.posted] at hnt
    have hcount := hcm.received_le
    by_contra hne
    exact absurd (hnt.2 (by omega)) (by decide)
  have ha : s.accepted = [] := by
    refine hil.post.resolve_right fun hfl => ?_
    obtain ⟨told, -, -, hb, hsm⟩ := hcm.doorBell
    rw [isFull, decide_eq_true_iff, hb, hsm (.inl hil.dpc), hrc, h.sizes, hcm.tail, succ_mod] at hfl
    have heq := (mod_eq_mod_iff_of_lap (Nat.le_succ _) (by omega)).1 hfl.symm
    omega
  intro c hc
  have hfg : s.inFlight = [] := by
    rw [Queue.inFlight, ha, hcn, hrc, drop_length, drop_length]
    rfl
  have hp := hcd.submissions_perm
  rw [hfg, append_nil] at hp
  obtain ⟨k, -, hcl⟩ := hcd.submitted c hc
  refine ⟨k, hcl, ?_⟩
  have hme := List.mem_map_of_mem (f := Command.call) (hp.mem_iff.2 hc)
  rw [← hcd.received_map, hcl] at hme
  obtain ⟨k', hk', hso⟩ := List.mem_map.1 hme
  cases hso
  exact hk'

theorem Inv.safe (h : s.Inv N M) (hN : N ≤ 64) (hM : M ≤ 256) : s.Safe where
  crashed := h.crashed
  sizes := by rw [h.sizes]; exact ⟨rfl, rfl⟩
  fits := by
    rw [h.sizes]
    exact ⟨Nat.mul_le_mul_right submissionEntrySize hN, Nat.mul_le_mul_right completionEntrySize hM⟩
  distinct := h.commands.table.distinct
  overwritten := h.overwritten
  own _ hx := h.commands.mem_received hx
  once := h.commands.received_nodup
  all := h.all_received

/-- **The queue protocol.** A queue whose sizes agree keeps its promises for as long as no submission
takes the last slot of the ring. -/
theorem queue_safe_of_calm {kind : QueueKind} {mqes : BitVec 16} (hm : Matched kind mqes)
    (h : Reaches step Calm (start kind mqes) s) : s.Safe := by
  obtain ⟨N, M, hz, hw, hle, hN, hM⟩ := sizes_of_matched hm
  have hin := h.invariant (I := fun s => s.Inv N M) (inv_start hz hw hle)
    fun t a u ht hc hst => ht.step hc hst
  exact hin.safe hN hM

/-- An executable test for `Calm`. -/
def calmTest (s : Queue) : Action → Bool
  | .submit _ => (s.submissionIndex + 1) % s.sizes.submission ≠ s.head
  | _ => true

theorem calm_of_test (s : Queue) (a : Action) (h : s.calmTest a = true) : s.Calm a := by
  cases a with
  | submit call =>
    simp only [calmTest, decide_eq_true_iff] at h
    exact h
  | _ => trivial

/-- A command goes to the controller and comes back. -/
theorem queue_safe_of_calm_roundTrip : ∃ s : Queue, Reaches step Calm (start .io 7) s ∧
    s.received = [(0, some 0)] ∧ s.Safe := by
  have hrn : (runChecked step calmTest
      [.passSemaphore, .submit 0, .consume, .post ⟨0, some 0⟩, .interrupt, .receive, .finish]
      (start .io 7)).map (·.received) = some [(0, some 0)] := by decide
  obtain ⟨s, hs, hrv⟩ := map_eq_some_iff.1 hrn
  have hc := Reaches.of_runChecked calm_of_test hs
  have hmt : Matched .io 7 := ⟨by decide, by decide⟩
  exact ⟨s, hc, hrv, queue_safe_of_calm hmt hc⟩

/-- With room for 1024 entries the counts of an I/O queue are exchanged. With room for two they agree,
but three commands fit through the semaphore, and the third overwrites the first. -/
theorem queue_not_safe : (¬ ∀ (kind : QueueKind) (mqes : BitVec 16) (s : Queue), 1 ≤ mqes.toNat →
      Reaches step (fun _ _ => True) (start kind mqes) s → s.Safe) ∧
    ∃ s, Reaches step (fun _ _ => True) (start .io 1) s ∧ s.sizes = ⟨2, 2, 2, 2⟩ ∧
      s.overwritten = true := by
  constructor
  · intro ha
    exact absurd (ha .io 1023 _ (by decide) .refl).sizes (by decide)
  · have hrn : (runChecked step (fun _ _ => true)
        [.passSemaphore, .submit 0, .passSemaphore, .submit 1, .passSemaphore, .submit 2]
        (start .io 1)).map (fun s => (s.sizes, s.overwritten)) = some (⟨2, 2, 2, 2⟩, true) := by decide
    obtain ⟨s, hs, hov⟩ := map_eq_some_iff.1 hrn
    obtain ⟨hz, hov⟩ := Prod.mk.inj hov
    exact ⟨s, Reaches.of_runChecked (fun _ _ _ => trivial) hs, hz, hov⟩

end Queue

end Boron.Nvme
