import Mathlib.Data.List.Range
import Mathlib.Tactic.Linarith
import Mathlib.Tactic.LinearCombination
import Mathlib.Tactic.Ring

/-! # Lines (`libCoreGraphics/source/prims.c`)

`CGDrawLine` fills a rectangle for a vertical or horizontal line and runs Bresenham's loop for any
other. The loop over columns draws the rounded line (`walk_rounded`). The loop over rows takes the
step back of the error term the wrong way round, and so misses the other endpoint of every line that
it draws (`walk_steep`). -/

namespace Boron.Cg

open List

/-- An `int`; a value that overflows is undefined. -/
def int32 (v : Int) : Option Int := if -2 ^ 31 ≤ v ∧ v < 2 ^ 31 then some v else none

def cgMin (a b : Int) : Int := if a < b then a else b

def cgAbs (x : Int) : Int := if x < 0 then -x else x

/-- The points of the rectangle that is handed to `CGFillRectangle`. -/
def rectangle (x y width height : Int) : List (Int × Int) :=
  (range height.toNat).flatMap fun yi : Nat =>
    (range width.toNat).map fun xi : Nat => (x + xi, y + yi)

/-- A direction of the shorter axis. -/
def toward (up : Bool) : Int := if up then 1 else -1

/-- Both loops of `CGDrawLine`: points along the longer axis, up to `stop`, with the coordinate along
the shorter axis behind it; `grow` and `fall` are what is added to the error term. -/
def walk (up : Bool) (grow fall stop : Int) : (fuel : Nat) → (error major minor : Int) →
    Option (List (Int × Int))
  | 0, _, major, _ => if major < stop then none else some []
  | fuel + 1, error, major, minor =>
    if ¬ major < stop then some []
    else
      (int32 (major + 1)).bind fun major =>
        if error < 0 then
          (int32 (error + grow)).bind fun error =>
            (walk up grow fall stop fuel error major minor).map ((major, minor) :: ·)
        else
          (int32 (minor + toward up)).bind fun minor =>
            (int32 (error + fall)).bind fun error =>
              (walk up grow fall stop fuel error major minor).map ((major, minor) :: ·)

/-- The points that `CGDrawLine` draws, in order. -/
def cgDrawLine (x1 y1 x2 y2 : Int) : Option (List (Int × Int)) :=
  if x1 = x2 then
    (int32 (y1 - y2)).map fun d => rectangle x1 (cgMin y1 y2) 1 (cgAbs d + 1)
  else if y1 = y2 then
    (int32 (x1 - x2)).map fun d => rectangle (cgMin x1 x2) y1 (cgAbs d + 1) 1
  else
    (int32 (x2 - x1)).bind fun dx =>
      (int32 (y2 - y1)).bind fun dy =>
        let dx1 := cgAbs dx
        let dy1 := cgAbs dy
        (int32 (2 * dy1 - dx1)).bind fun px =>
          (int32 (2 * dx1 - dy1)).bind fun py =>
            let up := decide (dx < 0 ∧ dy < 0 ∨ dx > 0 ∧ dy > 0)
            if dy1 ≤ dx1 then
              let start := if dx ≥ 0 then (x1, y1) else (x2, y2)
              let xe := if dx ≥ 0 then x2 else x1
              (walk up (2 * dy1) (2 * (dy1 - dx1)) xe dx1.toNat px start.1 start.2).map (start :: ·)
            else
              let start := if dy ≥ 0 then (y1, x1) else (y2, x2)
              let ye := if dy ≥ 0 then y2 else y1
              -- the loop over columns falls by `Dy1 - Dx1` as well
              (walk up (2 * dx1) (2 * (dy1 - dx1)) ye dy1.toNat py start.1 start.2).map
                fun points => (start :: points).map Prod.swap

/-! ## What a line is -/

/-- The coordinate along the longer axis, and the other one. -/
def along (x1 y1 x2 y2 : Int) (p : Int × Int) : Int := if |y2 - y1| ≤ |x2 - x1| then p.1 else p.2

def across (x1 y1 x2 y2 : Int) (p : Int × Int) : Int := if |y2 - y1| ≤ |x2 - x1| then p.2 else p.1

/-- The points are a line from one endpoint to the other, within half a unit of the ideal one. -/
structure Draws (x1 y1 x2 y2 : Int) (points : List (Int × Int)) : Prop where
  length : (points.length : Int) = max |x2 - x1| |y2 - y1| + 1
  ends : points.head? = some (x1, y1) ∧ points.getLast? = some (x2, y2) ∨
    points.head? = some (x2, y2) ∧ points.getLast? = some (x1, y1)
  steps : points.IsChain fun p q => along x1 y1 x2 y2 q = along x1 y1 x2 y2 p + 1 ∧
    |across x1 y1 x2 y2 q - across x1 y1 x2 y2 p| ≤ 1
  box : ∀ p ∈ points, min x1 x2 ≤ p.1 ∧ p.1 ≤ max x1 x2 ∧ min y1 y2 ≤ p.2 ∧ p.2 ≤ max y1 y2
  ideal : ∀ p ∈ points,
    2 * |(x2 - x1) * (p.2 - y1) - (y2 - y1) * (p.1 - x1)| ≤ max |x2 - x1| |y2 - y1|

/-- The endpoints of a line whose differences are far from overflowing. -/
structure Ends (x1 y1 x2 y2 : Int) : Prop where
  x1_int : -2 ^ 31 ≤ x1 ∧ x1 < 2 ^ 31
  y1_int : -2 ^ 31 ≤ y1 ∧ y1 < 2 ^ 31
  x2_int : -2 ^ 31 ≤ x2 ∧ x2 < 2 ^ 31
  y2_int : -2 ^ 31 ≤ y2 ∧ y2 < 2 ^ 31
  dx : |x2 - x1| < 2 ^ 29
  dy : |y2 - y1| < 2 ^ 29

/-- The call draws the line, and the same points for exchanged endpoints and, exchanged, for
exchanged axes. -/
def LineRight (x1 y1 x2 y2 : Int) : Prop :=
  ∃ points, cgDrawLine x1 y1 x2 y2 = some points ∧ Draws x1 y1 x2 y2 points ∧
    (∃ other, cgDrawLine x2 y2 x1 y1 = some other ∧ ∀ p, p ∈ other ↔ p ∈ points) ∧
    ∃ other, cgDrawLine y1 x1 y2 x2 = some other ∧ ∀ p, p.swap ∈ other ↔ p ∈ points

/-! ## The rounded line -/

/-- How far the shorter axis has come after `i` steps: `d * i / len`, rounded. -/
def rounded (len d i : Int) : Int := (2 * d * i + len) / (2 * len)

def line (x y : Int) (up : Bool) (len : Nat) (d : Int) : List (Int × Int) :=
  (range (len + 1)).map fun i : Nat => (x + i, y + toward up * rounded len d i)

section

variable {up : Bool} {len d i x y : Int}

theorem int32_eq {v w : Int} (h : int32 v = some w) : w = v := by
  rw [int32] at h
  split at h
  · exact (Option.some.inj h).symm
  · cases h

theorem rounded_spec (hln : 0 < len) : 0 ≤ 2 * d * i + len - 2 * len * rounded len d i ∧
      2 * d * i + len - 2 * len * rounded len d i < 2 * len := by
  have hdv := Int.mul_ediv_add_emod (2 * d * i + len) (2 * len)
  have hno := Int.emod_nonneg (2 * d * i + len) (show 2 * len ≠ 0 by omega)
  have hlt := Int.emod_lt_of_pos (2 * d * i + len) (show 0 < 2 * len by omega)
  rw [rounded]
  omega

theorem rounded_eq (hln : 0 < len) {q : Int} (hw : 0 ≤ 2 * d * i + len - 2 * len * q)
    (hh : 2 * d * i + len - 2 * len * q < 2 * len) : rounded len d i = q :=
  ((Int.ediv_emod_unique (by omega)).2 ⟨Int.sub_add_cancel .., hw, hh⟩).1

theorem rounded_zero (hln : 0 < len) : rounded len d 0 = 0 :=
  rounded_eq hln (by omega) (by omega)

theorem rounded_len (hln : 0 < len) : rounded len d len = d := by
  have hc : 2 * d * len = 2 * len * d := by ring
  exact rounded_eq hln (by omega) (by omega)

theorem rounded_mem (hln : 0 < len) (hd : 0 ≤ d) (hi : 0 ≤ i) (hle : i ≤ len) :
    0 ≤ rounded len d i ∧ rounded len d i ≤ d := by
  have hpos : 0 ≤ d * i := Int.mul_nonneg hd hi
  have hml : d * i ≤ d * len := Int.mul_le_mul_of_nonneg_left hle hd
  refine ⟨Int.ediv_nonneg (by rw [Int.mul_assoc]; omega) (by omega), ?_⟩
  refine Int.le_of_lt_add_one (Int.ediv_lt_of_lt_mul (by omega) ?_)
  have hri : (d + 1) * (2 * len) = 2 * (d * len) + 2 * len := by ring
  rw [Int.mul_assoc, hri]
  omega

/-- The error term before step `i + 1`; it tells whether the shorter axis moves on. -/
def drift (len d i : Int) : Int := 2 * d * (i + 1) - len - 2 * len * rounded len d i

theorem rounded_succ (hln : 0 < len) (hd : 0 ≤ d) (hle : d ≤ len) :
    rounded len d (i + 1) = if drift len d i < 0 then rounded len d i else rounded len d i + 1 := by
  have hp := rounded_spec (d := d) (i := i) hln
  have hsu : 2 * d * (i + 1) = 2 * d * i + 2 * d := by ring
  rw [drift]
  split
  · exact rounded_eq hln (by omega) (by omega)
  · have hml : 2 * len * (rounded len d i + 1) = 2 * len * rounded len d i + 2 * len := by ring
    exact rounded_eq hln (by omega) (by omega)

/-- The loop over the longer axis from its `i`-th step on. The induction is over the steps left; the
error term is `drift` at each of them. -/
theorem walk_rounded {fuel : Nat} (hln : 0 < len) (hd : 0 ≤ d) (hle : d ≤ len) (hsm : len < 2 ^ 29)
    (hx : -2 ^ 31 ≤ x ∧ x + len < 2 ^ 31)
    (hy : ∀ m, 0 ≤ m → m ≤ d → -2 ^ 31 ≤ y + toward up * m ∧ y + toward up * m < 2 ^ 31)
    (hi : 0 ≤ i) (hfu : i + fuel = len) :
    walk up (2 * d) (2 * (d - len)) (x + len) fuel (drift len d i) (x + i)
        (y + toward up * rounded len d i)
      = some ((range fuel).map fun j : Nat =>
        (x + (i + 1 + j), y + toward up * rounded len d (i + 1 + j))) := by
  induction fuel generalizing i with
  | zero => rw [walk, if_neg (by omega)]; rfl
  | succ fuel ih =>
    have hp := rounded_spec (d := d) (i := i) hln
    have hnext := rounded_succ (i := i) hln hd hle
    have hme := rounded_mem (i := i + 1) hln hd (by omega) (by omega)
    have hsu : 2 * d * (i + 1) = 2 * d * i + 2 * d := by ring
    have hsu' : 2 * d * (i + 1 + 1) = 2 * d * i + 2 * d + 2 * d := by ring
    have hdr : drift len d i = 2 * d * (i + 1) - len - 2 * len * rounded len d i := rfl
    have hdr' : drift len d (i + 1) = 2 * d * (i + 1 + 1) - len - 2 * len * rounded len d (i + 1) := rfl
    have hre := ih (i := i + 1) (by omega) (by omega)
    have hta : (range (fuel + 1)).map (fun j : Nat =>
          (x + (i + 1 + j), y + toward up * rounded len d (i + 1 + j)))
        = (x + (i + 1), y + toward up * rounded len d (i + 1)) :: (range fuel).map fun j : Nat =>
          (x + (i + 1 + 1 + j), y + toward up * rounded len d (i + 1 + 1 + j)) := by
      rw [range_succ_eq_map, map_cons, map_map]
      simp [Function.comp_def, Int.add_comm, Int.add_left_comm]
    rw [walk, if_neg (by omega), Int.add_assoc x, int32, if_pos (by omega), Option.bind_some, hta]
    have hy' := hy _ hme.1 hme.2
    split
    · next hng =>
      rw [if_pos hng] at hnext
      have he : drift len d i + 2 * d = drift len d (i + 1) := by
        rw [hdr, hdr', hnext]
        omega
      rw [he, ← hnext, int32, if_pos (by omega), Option.bind_some, hre]
      rfl
    · next hpos =>
      rw [if_neg hpos] at hnext
      have hml : 2 * len * (rounded len d i + 1) = 2 * len * rounded len d i + 2 * len := by ring
      have he : drift len d i + 2 * (d - len) = drift len d (i + 1) := by
        rw [hdr, hdr', hnext, hml]
        omega
      have hmi : y + toward up * rounded len d i + toward up
          = y + toward up * rounded len d (i + 1) := by
        rw [hnext]
        ring
      rw [hmi, he, int32, if_pos hy', Option.bind_some, int32, if_pos (by omega), Option.bind_some, hre]
      rfl

/-- The loop over rows: once the error term is not negative it only grows. So the points that do not
move along the shorter axis are the first ones. -/
theorem walk_steep {fuel : Nat} {fall stop error : Int} {points : List (Int × Int)} (hfl : 0 ≤ fall)
    (hp : walk up (2 * d) fall stop fuel error x y = some points) {q : Int × Int} (hq : q ∈ points)
    (hst : q.1 = stop) :
    ∃ k, 0 ≤ k ∧ q.2 = y + toward up * (stop - x - k) ∧ (k = 0 ∨ error + 2 * d * (k - 1) < 0) := by
  induction fuel generalizing error x y points with
  | zero =>
    rw [walk] at hp
    split at hp
    · cases hp
    · cases hp
      cases hq
  | succ fuel ih =>
    rw [walk] at hp
    split at hp
    · cases hp
      cases hq
    · obtain ⟨x', hx', hp⟩ := Option.bind_eq_some_iff.1 hp
      obtain rfl := int32_eq hx'
      split at hp
      · next hng =>
        obtain ⟨error', he, hp⟩ := Option.bind_eq_some_iff.1 hp
        obtain rfl := int32_eq he
        obtain ⟨rest, hrs, rfl⟩ := Option.map_eq_some_iff.1 hp
        rcases mem_cons.1 hq with rfl | hq
        · exact ⟨1, by omega, by rw [← hst]; ring, .inr (by omega)⟩
        · obtain ⟨k, hk, hq2, hw⟩ := ih hrs hq
          refine ⟨k + 1, by omega, by rw [hq2]; ring, .inr ?_⟩
          rcases hw with rfl | hw
          · omega
          · rw [show error + 2 * d * (k + 1 - 1) = error + 2 * d + 2 * d * (k - 1) by ring]
            exact hw
      · next hpos =>
        obtain ⟨y', hy', hp⟩ := Option.bind_eq_some_iff.1 hp
        obtain rfl := int32_eq hy'
        obtain ⟨error', he, hp⟩ := Option.bind_eq_some_iff.1 hp
        obtain rfl := int32_eq he
        obtain ⟨rest, hrs, rfl⟩ := Option.map_eq_some_iff.1 hp
        rcases mem_cons.1 hq with rfl | hq
        · exact ⟨0, le_rfl, by rw [← hst]; ring, .inl rfl⟩
        · obtain ⟨k, hk, hq2, hw⟩ := ih hrs hq
          exact ⟨k, hk, by rw [hq2]; ring, hw.imp_right fun hw => by linarith⟩

end

/-! ## The calls -/

section

variable {x1 y1 x2 y2 : Int} {points : List (Int × Int)}

theorem int32_of {v : Int} (h : -2 ^ 31 ≤ v ∧ v < 2 ^ 31) : int32 v = some v := if_pos h

theorem cgAbs_eq (x : Int) : cgAbs x = |x| := by
  rw [cgAbs]
  split
  · next hng => exact (abs_of_neg hng).symm
  · next hpos => exact (abs_of_nonneg (not_lt.1 hpos)).symm

theorem cgMin_eq (a b : Int) : cgMin a b = min a b := by
  rw [cgMin]
  split <;> omega

theorem Ends.symm (h : Ends x1 y1 x2 y2) : Ends x2 y2 x1 y1 :=
  ⟨h.x2_int, h.y2_int, h.x1_int, h.y1_int, abs_sub_comm x2 x1 ▸ h.dx, abs_sub_comm y2 y1 ▸ h.dy⟩

theorem Ends.swap (h : Ends x1 y1 x2 y2) : Ends y1 x1 y2 x2 :=
  ⟨h.y1_int, h.x1_int, h.y2_int, h.x2_int, h.dy, h.dx⟩

theorem cgDrawLine_vertical (h : Ends x1 y1 x1 y2) : cgDrawLine x1 y1 x1 y2
    = some ((range (|y2 - y1|.toNat + 1)).map fun k : Nat => (x1, min y1 y2 + k)) := by
  have hy := abs_lt.1 h.dy
  rw [cgDrawLine, if_pos rfl, int32_of (by omega), Option.map_some, cgMin_eq, cgAbs_eq, rectangle,
    abs_sub_comm, Int.toNat_add (abs_nonneg _) (by decide)]
  simp [← map_eq_flatMap]

theorem cgDrawLine_horizontal (h : Ends x1 y1 x2 y1) : cgDrawLine x1 y1 x2 y1
    = some ((range (|x2 - x1|.toNat + 1)).map fun k : Nat => (min x1 x2 + k, y1)) := by
  by_cases hx : x1 = x2
  · subst hx
    rw [cgDrawLine_vertical h]
    simp
  · have hdx := abs_lt.1 h.dx
    rw [cgDrawLine, if_neg hx, if_pos rfl, int32_of (by omega), Option.map_some, cgMin_eq, cgAbs_eq,
      rectangle, abs_sub_comm, Int.toNat_add (abs_nonneg _) (by decide)]
    simp

/-- The endpoints may be exchanged. -/
theorem cgDrawLine_comm (h : Ends x1 y1 x2 y2) : cgDrawLine x2 y2 x1 y1 = cgDrawLine x1 y1 x2 y2 := by
  by_cases hx : x1 = x2
  · subst hx
    rw [cgDrawLine_vertical h, cgDrawLine_vertical h.symm, abs_sub_comm, min_comm]
  · by_cases hy : y1 = y2
    · subst hy
      rw [cgDrawLine_horizontal h, cgDrawLine_horizontal h.symm, abs_sub_comm, min_comm]
    · have hdx := abs_lt.1 h.dx
      have hdy := abs_lt.1 h.dy
      have hu : decide (x1 - x2 < 0 ∧ y1 - y2 < 0 ∨ x1 - x2 > 0 ∧ y1 - y2 > 0)
          = decide (x2 - x1 < 0 ∧ y2 - y1 < 0 ∨ x2 - x1 > 0 ∧ y2 - y1 > 0) :=
        decide_eq_decide.2 (by omega)
      have hc : x1 - x2 ≥ 0 ↔ ¬ x2 - x1 ≥ 0 := by omega
      have hw : y1 - y2 ≥ 0 ↔ ¬ y2 - y1 ≥ 0 := by omega
      simp only [cgDrawLine, if_neg hx, if_neg (Ne.symm hx), if_neg hy, if_neg (Ne.symm hy), cgAbs_eq,
        int32_of (show -2 ^ 31 ≤ x1 - x2 ∧ x1 - x2 < 2 ^ 31 by omega),
        int32_of (show -2 ^ 31 ≤ y1 - y2 ∧ y1 - y2 < 2 ^ 31 by omega),
        int32_of (show -2 ^ 31 ≤ x2 - x1 ∧ x2 - x1 < 2 ^ 31 by omega),
        int32_of (show -2 ^ 31 ≤ y2 - y1 ∧ y2 - y1 < 2 ^ 31 by omega), Option.bind_some, hu,
        abs_sub_comm x1 x2, abs_sub_comm y1 y2, hc, hw, ite_not]

/-- A line that is not steep, from left to right. -/
theorem cgDrawLine_columns (h : Ends x1 y1 x2 y2) (hx : x1 < x2) (hfl : |y2 - y1| ≤ x2 - x1) :
    cgDrawLine x1 y1 x2 y2 = some (line x1 y1 (decide (y1 < y2)) (x2 - x1).toNat |y2 - y1|) := by
  have hln : ((x2 - x1).toNat : Int) = x2 - x1 := Int.toNat_of_nonneg (by omega)
  have ha : |x2 - x1| = x2 - x1 := abs_of_pos (by omega)
  by_cases hy : y1 = y2
  · subst hy
    rw [cgDrawLine_horizontal h, line, ha, Int.sub_self, abs_zero, min_eq_left hx.le]
    refine congrArg some (map_congr_left fun i _ => ?_)
    rw [hln, rounded_eq (q := 0) (by omega) (by omega) (by omega), Int.mul_zero, Int.add_zero]
  · have hdx := abs_lt.1 h.dx
    have hdy' := abs_lt.1 h.dy
    have hpos := abs_pos.2 (sub_ne_zero.2 (Ne.symm hy))
    have hx1 := h.x1_int
    have hx2 := h.x2_int
    have hu : decide (x2 - x1 < 0 ∧ y2 - y1 < 0 ∨ x2 - x1 > 0 ∧ y2 - y1 > 0) = decide (y1 < y2) :=
      decide_eq_decide.2 (by omega)
    have hw := @walk_rounded (decide (y1 < y2)) (x2 - x1) |y2 - y1| 0 x1 y1 (x2 - x1).toNat (by omega)
      (by omega) hfl (by omega) (by omega)
      (fun m hm hmd => by
        have hy1 := h.y1_int
        have hy2 := h.y2_int
        by_cases hlt : y1 < y2
        · rw [abs_of_pos (by omega)] at hmd
          simp only [toward, decide_eq_true hlt, if_true]
          omega
        · rw [abs_of_neg (by omega)] at hmd
          simp only [toward, decide_eq_false hlt, Bool.false_eq_true, if_false]
          omega) le_rfl (by omega)
    rw [rounded_zero (by omega), drift, rounded_zero (by omega)] at hw
    simp only [Int.mul_zero, Int.add_zero, Int.zero_add, Int.mul_one, Int.sub_zero] at hw
    rw [show x1 + (x2 - x1) = x2 by omega] at hw
    simp only [cgDrawLine, if_neg hx.ne, if_neg hy, cgAbs_eq, ha,
      int32_of (show -2 ^ 31 ≤ x2 - x1 ∧ x2 - x1 < 2 ^ 31 by omega),
      int32_of (show -2 ^ 31 ≤ y2 - y1 ∧ y2 - y1 < 2 ^ 31 by omega), Option.bind_some,
      int32_of (show -2 ^ 31 ≤ 2 * |y2 - y1| - (x2 - x1) ∧ 2 * |y2 - y1| - (x2 - x1) < 2 ^ 31 by omega),
      int32_of (show -2 ^ 31 ≤ 2 * (x2 - x1) - |y2 - y1| ∧ 2 * (x2 - x1) - |y2 - y1| < 2 ^ 31 by omega),
      if_pos hfl, hu, if_pos (show x2 - x1 ≥ 0 by omega), hw, Option.map_some]
    rw [line, range_succ_eq_map, map_cons, map_map, hln, Int.natCast_zero, rounded_zero (by omega)]
    simp [Function.comp_def, Int.add_comm]

theorem abs_toward_mul (up : Bool) (v : Int) : |toward up * v| = |v| := by
  cases up <;> simp [toward]

theorem toward_mul_abs (y1 y2 : Int) : toward (decide (y1 < y2)) * |y2 - y1| = y2 - y1 := by
  by_cases hy : y1 < y2
  · rw [decide_eq_true hy, toward, if_pos rfl, abs_of_pos (by omega), Int.one_mul]
  · rw [decide_eq_false hy, toward, if_neg Bool.false_ne_true, abs_of_nonpos (by omega)]
    omega

theorem mem_line {p : Int × Int} {up : Bool} {len : Nat} {d x y : Int} :
    p ∈ line x y up len d ↔ ∃ i : Int, (0 ≤ i ∧ i ≤ len) ∧ (x + i, y + toward up * rounded len d i) = p := by
  rw [line, mem_map]
  constructor
  · rintro ⟨i, hi, rfl⟩
    have hi := mem_range.1 hi
    exact ⟨i, ⟨by omega, by omega⟩, rfl⟩
  · rintro ⟨i, hi, rfl⟩
    exact ⟨i.toNat, mem_range.2 (by omega), by rw [Int.toNat_of_nonneg hi.1]⟩

theorem draws_line (hx : x1 < x2) (hfl : |y2 - y1| ≤ x2 - x1) :
    Draws x1 y1 x2 y2 (line x1 y1 (decide (y1 < y2)) (x2 - x1).toNat |y2 - y1|) := by
  have hln : ((x2 - x1).toNat : Int) = x2 - x1 := Int.toNat_of_nonneg (by omega)
  have ha : |x2 - x1| = x2 - x1 := abs_of_pos (by omega)
  have hpos : 0 < x2 - x1 := by omega
  have hd := abs_nonneg (y2 - y1)
  have he := toward_mul_abs y1 y2
  constructor
  case length => rw [line, length_map, length_range, ha, max_eq_left hfl, ← hln]; rfl
  case ends =>
    left
    rw [line, head?_map, head?_range, getLast?_map, getLast?_range, if_neg (Nat.succ_ne_zero _),
      if_neg (Nat.succ_ne_zero _), Option.map_some, Option.map_some, Nat.add_sub_cancel, hln,
      rounded_len hpos, he, Int.natCast_zero, rounded_zero hpos]
    simp
  case steps =>
    rw [line, isChain_map, isChain_range_succ]
    intro i hi
    simp only [along, across, ha, if_pos hfl, hln, Nat.succ_eq_add_one, Int.natCast_add,
      Int.natCast_one]
    refine ⟨by omega, ?_⟩
    rw [add_sub_add_left_eq_sub, ← mul_sub, abs_toward_mul, rounded_succ hpos hd hfl]
    split
    · rw [sub_self, abs_zero]
      decide
    · rw [add_sub_cancel_left]
      decide
  case box =>
    intro p hp
    obtain ⟨i, hi, rfl⟩ := mem_line.1 hp
    rw [hln] at hi ⊢
    have hme := rounded_mem hpos hd hi.1 hi.2
    by_cases hy : y1 < y2
    · rw [abs_of_pos (by omega)] at hme ⊢
      rw [decide_eq_true hy, toward, if_pos rfl]
      omega
    · rw [abs_of_nonpos (by omega)] at hme ⊢
      rw [decide_eq_false hy, toward, if_neg Bool.false_ne_true]
      omega
  case ideal =>
    intro p hp
    obtain ⟨i, hi, rfl⟩ := mem_line.1 hp
    rw [hln]
    have hsp := rounded_spec (d := |y2 - y1|) (i := i) hpos
    have hrn : (x2 - x1) * (y1 + toward (decide (y1 < y2)) * rounded (x2 - x1) |y2 - y1| i - y1)
          - (y2 - y1) * (x1 + i - x1)
        = toward (decide (y1 < y2)) * ((x2 - x1) * rounded (x2 - x1) |y2 - y1| i - |y2 - y1| * i) := by
      linear_combination i * he
    rw [hrn, abs_toward_mul, ha, max_eq_left hfl]
    have hb : |(x2 - x1) * rounded (x2 - x1) |y2 - y1| i - |y2 - y1| * i| * 2 ≤ x2 - x1 := by
      rw [Int.mul_assoc, Int.mul_assoc] at hsp
      rcases abs_cases ((x2 - x1) * rounded (x2 - x1) |y2 - y1| i - |y2 - y1| * i) with h | h <;> omega
    omega

theorem Draws.symm (h : Draws x1 y1 x2 y2 points) : Draws x2 y2 x1 y1 points := by
  have hal : along x2 y2 x1 y1 = along x1 y1 x2 y2 := by
    funext p
    rw [along, along, abs_sub_comm y1, abs_sub_comm x1]
  have ha : across x2 y2 x1 y1 = across x1 y1 x2 y2 := by
    funext p
    rw [across, across, abs_sub_comm y1, abs_sub_comm x1]
  constructor
  case length => rw [abs_sub_comm x1, abs_sub_comm y1]; exact h.length
  case ends => exact h.ends.symm
  case steps => rw [hal, ha]; exact h.steps
  case box => exact fun p hp => by simpa only [min_comm, max_comm] using h.box p hp
  case ideal =>
    intro p hp
    have hng : (x1 - x2) * (p.2 - y2) - (y1 - y2) * (p.1 - x2)
        = -((x2 - x1) * (p.2 - y1) - (y2 - y1) * (p.1 - x1)) := by ring
    rw [hng, abs_neg, abs_sub_comm x1, abs_sub_comm y1]
    exact h.ideal p hp

theorem draws_vertical (hy : y1 ≤ y2) :
    Draws x1 y1 x1 y2 ((range (|y2 - y1|.toNat + 1)).map fun k : Nat => (x1, min y1 y2 + k)) := by
  have ha : |y2 - y1| = y2 - y1 := abs_of_nonneg (by omega)
  rw [ha, min_eq_left hy]
  constructor
  case length =>
    rw [length_map, length_range, Int.sub_self, ha]
    simp
    omega
  case ends =>
    left
    rw [head?_map, head?_range, getLast?_map, getLast?_range, if_neg (Nat.succ_ne_zero _),
      if_neg (Nat.succ_ne_zero _), Option.map_some, Option.map_some, Nat.add_sub_cancel]
    simp
    omega
  case steps =>
    rw [isChain_map, isChain_range_succ]
    intro k hk
    rw [along, along, across, across, if_neg (by rw [ha, Int.sub_self, abs_zero]; omega),
      if_neg (by rw [ha, Int.sub_self, abs_zero]; omega), if_neg (by rw [ha, Int.sub_self, abs_zero]; omega),
      if_neg (by rw [ha, Int.sub_self, abs_zero]; omega)]
    simp
    omega
  case box =>
    intro p hp
    obtain ⟨k, hk, rfl⟩ := mem_map.1 hp
    have hk := mem_range.1 hk
    omega
  case ideal =>
    intro p hp
    obtain ⟨k, hk, rfl⟩ := mem_map.1 hp
    simp

theorem rows_miss (h : Ends x1 y1 x2 y2) (hx : x1 ≠ x2) (hy : y1 < y2) (hst : |x2 - x1| < y2 - y1)
    (hp : cgDrawLine x1 y1 x2 y2 = some points) : (x2, y2) ∉ points := by
  have hdx := abs_lt.1 h.dx
  have hdy := abs_lt.1 h.dy
  have hpos := abs_pos.2 (sub_ne_zero.2 (Ne.symm hx))
  have ha : |y2 - y1| = y2 - y1 := abs_of_pos (by omega)
  have hu : decide (x2 - x1 < 0 ∧ y2 - y1 < 0 ∨ x2 - x1 > 0 ∧ y2 - y1 > 0) = decide (x1 < x2) :=
    decide_eq_decide.2 (by omega)
  simp only [cgDrawLine, if_neg hx, if_neg hy.ne, cgAbs_eq, ha,
    int32_of (show -2 ^ 31 ≤ x2 - x1 ∧ x2 - x1 < 2 ^ 31 by omega),
    int32_of (show -2 ^ 31 ≤ y2 - y1 ∧ y2 - y1 < 2 ^ 31 by omega), Option.bind_some,
    int32_of (show -2 ^ 31 ≤ 2 * (y2 - y1) - |x2 - x1| ∧ 2 * (y2 - y1) - |x2 - x1| < 2 ^ 31 by omega),
    int32_of (show -2 ^ 31 ≤ 2 * |x2 - x1| - (y2 - y1) ∧ 2 * |x2 - x1| - (y2 - y1) < 2 ^ 31 by omega),
    if_neg (not_le.2 hst), hu, if_pos (show y2 - y1 ≥ 0 by omega), Option.map_eq_some_iff] at hp
  obtain ⟨rest, hrs, rfl⟩ := hp
  intro hme
  obtain ⟨q, hq, hsw⟩ := mem_map.1 hme
  obtain ⟨hq1, hq2⟩ := Prod.mk.inj hsw
  rcases mem_cons.1 hq with rfl | hq
  · exact hy.ne hq2
  · obtain ⟨k, hk, hmn, hw⟩ := walk_steep (by omega) hrs hq hq2
    have hmv : toward (decide (x1 < x2)) * |x2 - x1| = toward (decide (x1 < x2)) * (y2 - y1 - k) := by
      rw [toward_mul_abs]
      linarith
    -- so the line has moved `|x2 - x1|` times, and has gone straight on `k` times
    have hsm : |x2 - x1| = y2 - y1 - k := by
      cases hlt : decide (x1 < x2) <;> rw [hlt] at hmv <;> simp [toward] at hmv <;> omega
    rcases hw with rfl | hw
    · omega
    · have hsu : 0 ≤ (|x2 - x1| - 1) * (k - 1) := mul_nonneg (by omega) (by omega)
      nlinarith

theorem steep_miss (h : Ends x1 y1 x2 y2) (hx : x1 ≠ x2) (hst : |x2 - x1| < |y2 - y1|)
    (hp : cgDrawLine x1 y1 x2 y2 = some points) :
    ¬ ((x1, y1) ∈ points ∧ (x2, y2) ∈ points) := by
  rintro ⟨hfs, hsn⟩
  rcases lt_trichotomy y1 y2 with hy | rfl | hy
  · exact rows_miss h hx hy (by rwa [abs_of_pos (show 0 < y2 - y1 by omega)] at hst) hp hsn
  · rw [Int.sub_self, abs_zero] at hst
    exact absurd (abs_nonneg (x2 - x1)) (not_le.2 hst)
  · rw [abs_sub_comm, abs_sub_comm y2, abs_of_pos (show 0 < y1 - y2 by omega)] at hst
    exact rows_miss h.symm (Ne.symm hx) hy hst ((cgDrawLine_comm h).trans hp) hfs

/-- A vertical line, and one that is not steep, is drawn. -/
theorem draws_of_flat (h : Ends x1 y1 x2 y2) (hfl : x1 = x2 ∨ |y2 - y1| ≤ |x2 - x1|) :
    ∃ points, cgDrawLine x1 y1 x2 y2 = some points ∧ Draws x1 y1 x2 y2 points := by
  by_cases hx : x1 = x2
  · subst hx
    rcases le_total y1 y2 with hy | hy
    · exact ⟨_, cgDrawLine_vertical h, draws_vertical hy⟩
    · exact ⟨_, (cgDrawLine_comm h).symm.trans (cgDrawLine_vertical h.symm), (draws_vertical hy).symm⟩
  · have hfl := hfl.resolve_left hx
    rcases lt_or_gt_of_ne hx with hlt | hlt
    · rw [abs_of_pos (show 0 < x2 - x1 by omega)] at hfl
      exact ⟨_, cgDrawLine_columns h hlt hfl, draws_line hlt hfl⟩
    · rw [abs_sub_comm, abs_sub_comm x2, abs_of_pos (show 0 < x1 - x2 by omega)] at hfl
      exact ⟨_, (cgDrawLine_comm h).symm.trans (cgDrawLine_columns h.symm hlt hfl),
        (draws_line hlt hfl).symm⟩

theorem Draws.mem_ends (h : Draws x1 y1 x2 y2 points) : (x1, y1) ∈ points ∧ (x2, y2) ∈ points := by
  rcases h.ends with ⟨hh, hls⟩ | ⟨hh, hls⟩
  · exact ⟨mem_of_mem_head? hh, mem_of_mem_getLast? hls⟩
  · exact ⟨mem_of_mem_getLast? hls, mem_of_mem_head? hh⟩

/-- The points of a diagonal from `(x1, y1)` to `(x2, y2)`. -/
def OnDiagonal (x1 y1 x2 y2 : Int) (p : Int × Int) : Prop :=
  (min x1 x2 ≤ p.1 ∧ p.1 ≤ max x1 x2) ∧ (x2 - x1 = y2 - y1 → p.2 - y1 = p.1 - x1) ∧
    (x2 - x1 = y1 - y2 → p.2 - y1 = x1 - p.1)

theorem mem_diagonal (h : Ends x1 y1 x2 y2) (hx : x1 ≠ x2) (hdg : |x2 - x1| = |y2 - y1|)
    (hp : cgDrawLine x1 y1 x2 y2 = some points) (p : Int × Int) :
    p ∈ points ↔ OnDiagonal x1 y1 x2 y2 p := by
  wlog hlt : x1 < x2 generalizing x1 y1 x2 y2
  · rw [this h.symm (Ne.symm hx) (by rwa [abs_sub_comm, abs_sub_comm y1])
      ((cgDrawLine_comm h).trans hp) (by omega)]
    rw [OnDiagonal, OnDiagonal, min_comm, max_comm]
    rcases abs_eq_abs.1 hdg with hd | hd <;> constructor <;> rintro ⟨hb, hu, hw⟩ <;>
      refine ⟨hb, fun _ => ?_, fun _ => ?_⟩ <;> omega
  have hpos : 0 < x2 - x1 := by omega
  have ha : |x2 - x1| = x2 - x1 := abs_of_pos hpos
  rw [ha] at hdg
  cases hp.symm.trans (cgDrawLine_columns h hlt hdg.ge)
  have hln : ((x2 - x1).toNat : Int) = x2 - x1 := Int.toNat_of_nonneg (by omega)
  have hrn : ∀ i, rounded (x2 - x1) (x2 - x1) i = i :=
    fun i => rounded_eq hpos (by omega) (by omega)
  rw [mem_line, hln, ← hdg]
  have hst : ∀ i, y1 + toward (decide (y1 < y2)) * rounded (x2 - x1) (x2 - x1) i
      = if y1 < y2 then y1 + i else y1 - i := by
    intro i
    rw [hrn]
    by_cases hy : y1 < y2
    · rw [decide_eq_true hy, if_pos hy, toward, if_pos rfl, Int.one_mul]
    · rw [decide_eq_false hy, if_neg hy, toward, if_neg Bool.false_ne_true]
      omega
  have hdy := abs_cases (y2 - y1)
  rw [← hdg] at hdy
  simp only [hst]
  constructor
  · rintro ⟨i, hi, rfl⟩
    dsimp only [OnDiagonal]
    split <;> omega
  · rintro ⟨hb, hu, hw⟩
    refine ⟨p.1 - x1, by omega, Prod.ext (by dsimp only; omega) ?_⟩
    split <;> omega

/-- **`CGDrawLine` draws the vertical lines and those that are not steep. It draws the same points for
exchanged axes as well just for the vertical, the horizontal and the diagonal ones: every other line
that is steep, or becomes so, ends beside its endpoint.** -/
theorem cgDrawLine_right_iff (h : Ends x1 y1 x2 y2) :
    ((∃ points, cgDrawLine x1 y1 x2 y2 = some points ∧ Draws x1 y1 x2 y2 points) ↔
        x1 = x2 ∨ |y2 - y1| ≤ |x2 - x1|) ∧
      (LineRight x1 y1 x2 y2 ↔ x1 = x2 ∨ y1 = y2 ∨ |x2 - x1| = |y2 - y1|) := by
  have hdr : ∀ {x1 y1 x2 y2 : Int}, Ends x1 y1 x2 y2 →
      (∃ points, cgDrawLine x1 y1 x2 y2 = some points ∧ (x1, y1) ∈ points ∧ (x2, y2) ∈ points) →
        x1 = x2 ∨ |y2 - y1| ≤ |x2 - x1| := by
    rintro x1 y1 x2 y2 h ⟨points, hp, hme⟩
    by_contra hnt
    obtain ⟨hx, hst⟩ := not_or.1 hnt
    exact steep_miss h hx (not_le.1 hst) hp hme
  refine ⟨⟨fun ⟨points, hp, hd⟩ => hdr h ⟨points, hp, hd.mem_ends⟩, draws_of_flat h⟩, ?_⟩
  constructor
  · rintro ⟨points, hp, hd, -, other, hother, hsm⟩
    have hfl := hdr h ⟨points, hp, hd.mem_ends⟩
    have hme := hd.mem_ends
    have hfl' := hdr h.swap ⟨other, hother, (hsm (x1, y1)).2 hme.1, (hsm (x2, y2)).2 hme.2⟩
    rcases hfl with hx | hfl
    · exact .inl hx
    · exact .inr (hfl'.imp_right fun hfl' => le_antisymm hfl' hfl)
  · intro hc
    obtain ⟨points, hp, hd⟩ := draws_of_flat h
      (hc.imp_right fun hc => hc.elim (fun hy => by simp [hy]) ge_of_eq)
    refine ⟨points, hp, hd, ⟨points, (cgDrawLine_comm h).trans hp, fun _ => Iff.rfl⟩, ?_⟩
    by_cases hx : x1 = x2
    · subst hx
      cases hp.symm.trans (cgDrawLine_vertical h)
      exact ⟨_, cgDrawLine_horizontal h.swap, fun p => by simp [Prod.ext_iff, and_comm]⟩
    · by_cases hy : y1 = y2
      · subst hy
        cases hp.symm.trans (cgDrawLine_horizontal h)
        exact ⟨_, cgDrawLine_vertical h.swap, fun p => by simp [Prod.ext_iff, and_comm]⟩
      · have hdg := (hc.resolve_left hx).resolve_left hy
        obtain ⟨other, hother, -⟩ := draws_of_flat h.swap (.inr hdg.le)
        refine ⟨other, hother, fun p => ?_⟩
        rw [mem_diagonal h.swap hy hdg.symm hother, mem_diagonal h hx hdg hp]
        dsimp only [OnDiagonal, Prod.swap]
        rcases abs_eq_abs.1 hdg with hd | hd <;> omega

theorem cgDrawLine_right_diagonal : LineRight 0 0 3 (-3) :=
  (cgDrawLine_right_iff ⟨by decide, by decide, by decide, by decide, by decide, by decide⟩).2.2
    (.inr (.inr (by decide)))

theorem steep_line_misses_end : ¬ ∀ x1 y1 x2 y2 : Int, Ends x1 y1 x2 y2 →
    ∃ points, cgDrawLine x1 y1 x2 y2 = some points ∧ Draws x1 y1 x2 y2 points := by
  intro ha
  obtain ⟨points, hp, hd⟩ := ha 0 0 1 3
    ⟨by decide, by decide, by decide, by decide, by decide, by decide⟩
  obtain rfl := Option.some.inj ((show cgDrawLine 0 0 1 3 = some [(0, 0), (0, 1), (1, 2), (2, 3)] by
    decide).symm.trans hp)
  exact absurd (hd.box (2, 3) (by decide)).2.1 (by decide)

end

end Boron.Cg
