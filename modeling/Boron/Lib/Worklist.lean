import Mathlib.Data.Fintype.BigOperators

/-! # Work lists

A walk of a directed graph with a queue of nodes to visit and a list of the nodes visited. Each turn
takes the node at the head of the queue: a test on the visited nodes decides whether it is dropped,
otherwise it is visited and its successors go to the tail of the queue. The walk whose test is
membership visits every node in reach once, and another test does so when it gives the same answers
at the turns of that walk. -/

namespace Boron

open Function List

/-- The nodes still to look at, and the nodes visited, in order. -/
structure Worklist (V : Type*) where
  queue : List V
  visited : List V
deriving DecidableEq

namespace Worklist

variable {V : Type*} {next : V → List V} {test test' : List V → V → Bool} {s : Worklist V} {v : V}

/-- One turn of the loop; nothing happens when the queue is empty. -/
def turn (next : V → List V) (test : List V → V → Bool) (s : Worklist V) : Worklist V :=
  match s.queue with
  | [] => s
  | v :: rest =>
    if test s.visited v then { s with queue := rest }
    else { queue := rest ++ next v, visited := s.visited ++ [v] }

/-- The test of the walk by identity. -/
def isVisited [DecidableEq V] (visited : List V) (v : V) : Bool := decide (v ∈ visited)

/-! ## Spec of a turn -/

theorem turn_nil (h : s.queue = []) : turn next test s = s := by
  simp [turn, h]

theorem turn_drop {rest : List V} (h : s.queue = v :: rest) (ht : test s.visited v = true) :
    turn next test s = { s with queue := rest } := by
  simp [turn, h, ht]

theorem turn_visit {rest : List V} (h : s.queue = v :: rest) (ht : test s.visited v = false) :
    turn next test s = { queue := rest ++ next v, visited := s.visited ++ [v] } := by
  simp [turn, h, ht]

theorem turn_cases (next : V → List V) (test : List V → V → Bool) (s : Worklist V) :
    (s.queue = [] ∧ turn next test s = s) ∨
    (∃ v rest, s.queue = v :: rest ∧ test s.visited v = true ∧
      turn next test s = { s with queue := rest }) ∨
    (∃ v rest, s.queue = v :: rest ∧ test s.visited v = false ∧
      turn next test s = { queue := rest ++ next v, visited := s.visited ++ [v] }) := by
  cases hq : s.queue with
  | nil => exact .inl ⟨rfl, turn_nil hq⟩
  | cons v rest =>
    cases ht : test s.visited v with
    | true => exact .inr (.inl ⟨v, rest, rfl, ht, turn_drop hq ht⟩)
    | false => exact .inr (.inr ⟨v, rest, rfl, ht, turn_visit hq ht⟩)

theorem visited_extends (next : V → List V) (test : List V → V → Bool) (s : Worklist V) (n : Nat) :
    s.visited <+: ((turn next test)^[n] s).visited := by
  induction n generalizing s with
  | zero => exact prefix_rfl
  | succ n ih =>
    rw [iterate_succ_apply]
    refine List.IsPrefix.trans ?_ (ih _)
    obtain ⟨_, h⟩ | ⟨_, _, _, _, h⟩ | ⟨_, _, _, _, h⟩ := turn_cases next test s <;> rw [h]
    exact prefix_append _ _

/-- Once the queue is empty the state no longer changes. -/
theorem iterate_of_nil (h : s.queue = []) (n : Nat) : (turn next test)^[n] s = s :=
  iterate_fixed (turn_nil h) n

/-- A node dropped before it is visited stays out, when the test holds for ever once it does. -/
theorem notMem_visited_iterate (next : V → List V)
    (hmn : ∀ l m v, test l v = true → test (l ++ m) v = true) (ht : test s.visited v = true)
    (hv : v ∉ s.visited) (n : Nat) :
    v ∉ ((turn next test)^[n] s).visited := by
  induction n generalizing s with
  | zero => exact hv
  | succ n ih =>
    rw [iterate_succ_apply]
    obtain ⟨_, he⟩ | ⟨_, _, _, _, he⟩ | ⟨w, rest, _, hw, he⟩ := turn_cases next test s
    · exact ih (by rwa [he]) (by rwa [he])
    · exact ih (by rwa [he]) (by rwa [he])
    · have hne : v ≠ w := by
        rintro rfl
        rw [ht] at hw
        exact Bool.noConfusion hw
      refine ih ?_ ?_ <;> rw [he]
      · exact hmn _ _ _ ht
      · simp [hv, hne]

/-! ## Two tests -/

/-- The tests give the same answer for the head of the queue. -/
def AgreeAt (test test' : List V → V → Bool) (s : Worklist V) : Prop :=
  ∀ v ∈ s.queue.head?, test s.visited v = test' s.visited v

theorem turn_congr (h : AgreeAt test test' s) : turn next test s = turn next test' s := by
  unfold turn
  cases hq : s.queue with
  | nil => rfl
  | cons v rest =>
    have hv := h v (by rw [hq]; rfl)
    simp only [hv]

theorem iterate_congr {n : Nat} (h : ∀ k < n, AgreeAt test test' ((turn next test')^[k] s)) :
    (turn next test)^[n] s = (turn next test')^[n] s := by
  induction n with
  | zero => rfl
  | succ n ih =>
    rw [iterate_succ_apply', iterate_succ_apply', ih fun k hk => h k (Nat.lt_succ_of_lt hk)]
    exact turn_congr (h n (Nat.lt_succ_self n))

/-! ## The walk by identity -/

section

/-- The invariant of the walk from `roots`: nothing is visited twice, all of it is in reach, and each
successor of a visited node is visited or waits. -/
structure Inv (next : V → List V) (roots : List V) (s : Worklist V) : Prop where
  nodup : s.visited.Nodup
  rooted : ∀ v ∈ roots, v ∈ s.visited
  closed : ∀ u ∈ s.visited, ∀ v ∈ next u, v ∈ s.visited ∨ v ∈ s.queue
  reached : ∀ v ∈ s.visited ++ s.queue, ∃ r ∈ roots, Relation.ReflTransGen (fun u w => w ∈ next u) r v

/-- The walk from `roots`, which are visited at the start. -/
def start (next : V → List V) (roots : List V) : Worklist V :=
  { queue := roots.flatMap next, visited := roots }

variable {roots : List V}

theorem Inv.start (h : roots.Nodup) : Inv next roots (start next roots) where
  nodup := h
  rooted := fun _ hv => hv
  closed := fun u hu v hv => .inr (mem_flatMap.2 ⟨u, hu, hv⟩)
  reached := by
    intro v hv
    rcases mem_append.1 hv with hv | hv
    · exact ⟨v, hv, .refl⟩
    · obtain ⟨r, hr, hv⟩ := mem_flatMap.1 hv
      exact ⟨r, hr, .single hv⟩

variable [DecidableEq V]

theorem Inv.turn (h : Inv next roots s) : Inv next roots (turn next isVisited s) := by
  obtain ⟨_, he⟩ | ⟨v, rest, hq, ht, he⟩ | ⟨v, rest, hq, ht, he⟩ := turn_cases next isVisited s
  · rwa [he]
  · have hv : v ∈ s.visited := of_decide_eq_true ht
    rw [he]
    refine ⟨h.nodup, h.rooted, fun u hu w hw => ?_, fun w hw => h.reached w ?_⟩
    · rcases h.closed u hu w hw with hw | hw
      · exact .inl hw
      · rw [hq] at hw
        rcases mem_cons.1 hw with rfl | hw
        · exact .inl hv
        · exact .inr hw
    · rw [hq]
      simp only [mem_append, mem_cons] at hw ⊢
      tauto
  · have hv : v ∉ s.visited := of_decide_eq_false ht
    have hrt := h.reached v (by simp [hq])
    rw [he]
    refine ⟨?_, fun r hr => mem_append_left _ (h.rooted r hr), fun u hu w hw => ?_, fun w hw => ?_⟩
    · exact nodup_append.2 ⟨h.nodup, nodup_singleton v, by
        intro a ha b hb
        rintro rfl
        exact hv (mem_singleton.1 hb ▸ ha)⟩
    · rcases mem_append.1 hu with hu | hu
      · rcases h.closed u hu w hw with hw | hw
        · exact .inl (mem_append_left _ hw)
        · rw [hq] at hw
          rcases mem_cons.1 hw with rfl | hw
          · exact .inl (by simp)
          · exact .inr (mem_append_left _ hw)
      · obtain rfl := mem_singleton.1 hu
        exact .inr (mem_append_right _ hw)
    · obtain ⟨r, hr, hrv⟩ := hrt
      have hw' : w ∈ s.visited ++ s.queue ∨ w ∈ next v := by
        rw [hq]
        simp only [mem_append, mem_cons, not_mem_nil, or_false] at hw ⊢
        tauto
      rcases hw' with hw' | hw'
      · exact h.reached w hw'
      · exact ⟨r, hr, hrv.tail hw'⟩

theorem Inv.iterate (h : Inv next roots s) (n : Nat) :
    Inv next roots ((Worklist.turn next isVisited)^[n] s) := by
  induction n with
  | zero => exact h
  | succ n ih =>
    rw [iterate_succ_apply']
    exact ih.turn

/-- When the queue is empty, a node in reach has been visited once. -/
theorem Inv.count_eq_one (h : Inv next roots s) (hq : s.queue = []) {r : V}
    (hr : r ∈ roots) (hv : Relation.ReflTransGen (fun u w => w ∈ next u) r v) :
    s.visited.count v = 1 := by
  refine count_eq_one_of_mem h.nodup ?_
  induction hv with
  | refl => exact h.rooted r hr
  | tail _ hw ih =>
    rcases h.closed _ ih _ hw with hw | hw
    · exact hw
    · rw [hq] at hw
      exact absurd hw not_mem_nil

/-! ### Termination -/

variable [Fintype V]

/-- The turns a walk still takes: the waiting nodes, and the successors of the nodes not visited. -/
def turnsLeft (next : V → List V) (s : Worklist V) : Nat :=
  s.queue.length + ∑ v ∈ Finset.univ.filter (· ∉ s.visited), (next v).length

theorem turnsLeft_turn (next : V → List V) (hq : s.queue ≠ []) :
    turnsLeft next s = turnsLeft next (turn next isVisited s) + 1 := by
  obtain ⟨h, _⟩ | ⟨v, rest, hs, _, he⟩ | ⟨v, rest, hs, ht, he⟩ := turn_cases next isVisited s
  · exact absurd h hq
  · rw [he]
    simp only [turnsLeft, hs, length_cons]
    omega
  · have hv : v ∉ s.visited := of_decide_eq_false ht
    have hp : Finset.univ.filter (· ∉ s.visited)
        = insert v (Finset.univ.filter (· ∉ s.visited ++ [v])) := by
      ext w
      by_cases hw : w = v <;> simp [hw, hv]
    rw [he]
    simp only [turnsLeft, hs, hp, length_cons, length_append]
    rw [Finset.sum_insert (by simp)]
    omega

/-- The walk by identity ends. -/
theorem exists_queue_nil (next : V → List V) (s : Worklist V) :
    ∃ n, ((turn next isVisited)^[n] s).queue = [] := by
  induction hk : turnsLeft next s generalizing s with
  | zero =>
    refine ⟨0, ?_⟩
    rw [iterate_zero_apply]
    by_contra hq
    have := turnsLeft_turn next hq
    omega
  | succ k ih =>
    by_cases hq : s.queue = []
    · exact ⟨0, hq⟩
    · have := turnsLeft_turn next hq
      obtain ⟨n, hn⟩ := ih (turn next isVisited s) (by omega)
      exact ⟨n + 1, by rwa [iterate_succ_apply]⟩

/-! ### Another test -/

/-- The walk with a test that keeps what it holds ends with each node in reach visited once exactly
when the test gives at each turn of the walk by identity the answer of that walk. -/
theorem visits_once_iff (hrt : roots.Nodup) (hmn : ∀ l m v, test l v = true → test (l ++ m) v = true) :
    (∃ n, ((turn next test)^[n] (start next roots)).queue = [] ∧
      ∀ r ∈ roots, ∀ v, Relation.ReflTransGen (fun u w => w ∈ next u) r v →
        ((turn next test)^[n] (start next roots)).visited.count v = 1) ↔
    ∀ k, AgreeAt test isVisited ((turn next isVisited)^[k] (start next roots)) := by
  have hin : ∀ k, Inv next roots ((turn next isVisited)^[k] (start next roots)) :=
    (Inv.start hrt).iterate
  refine ⟨fun ⟨n, hn, hcount⟩ => ?_, fun h => ?_⟩
  · by_contra hb
    push Not at hb
    classical
    -- the first turn whose answers differ: the walks agree up to it
    have hk := Nat.find_spec hb
    have hmi := fun j hj => not_not.1 (Nat.find_min hb (m := j) hj)
    generalize Nat.find hb = k at hk hmi
    have hsm : (turn next test)^[k] (start next roots) = _ := iterate_congr hmi
    have hls : ∀ m, (turn next test)^[n] ((turn next test)^[m] (start next roots))
        = (turn next test)^[n] (start next roots) := by
      intro m
      rw [← iterate_add_apply, Nat.add_comm, iterate_add_apply, iterate_of_nil hn]
    unfold AgreeAt at hk
    push Not at hk
    obtain ⟨v, hh, hne⟩ := hk
    obtain ⟨rest, hq⟩ := List.head?_eq_some_iff.1 hh
    obtain ⟨r, hr, hrv⟩ := (hin k).reached v (by simp [hq])
    have hon := hcount r hr v hrv
    rw [← hsm] at hne hq
    by_cases hv : v ∈ ((turn next test)^[k] (start next roots)).visited
    · -- visited a second time
      have ht : test ((turn next test)^[k] (start next roots)).visited v = false := by
        simpa [isVisited, hv] using hne
      have htr : turn next test _ = _ := turn_visit hq ht
      rw [← iterate_succ_apply' (turn next test)] at htr
      have hle := (visited_extends next test ((turn next test)^[k + 1] (start next roots))
        n).sublist.count_le v
      rw [hls, hon, htr, count_append, count_singleton_self] at hle
      have := count_pos_iff.2 hv
      omega
    · -- never visited
      have ht : test ((turn next test)^[k] (start next roots)).visited v = true := by
        simpa [isVisited, hv] using hne
      have hot := notMem_visited_iterate next hmn ht hv n
      rw [hls] at hot
      rw [count_eq_zero.2 hot] at hon
      exact absurd hon (by decide)
  · obtain ⟨n, hn⟩ := exists_queue_nil next (start next roots)
    refine ⟨n, ?_⟩
    rw [iterate_congr fun k _ => h k]
    exact ⟨hn, fun r hr v hrv => (hin n).count_eq_one hn hr hrv⟩

end

end Worklist

end Boron
