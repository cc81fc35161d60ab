import Mathlib.Algebra.Order.Floor.Ring
import Mathlib.Algebra.Order.Round
import Mathlib.Tactic.Linarith
import Mathlib.Tactic.Ring

/-! # Rounding onto a bounded symmetric grid

Half-to-even rounding in an ordered field with a floor, and its restriction to
the integers of absolute value at most a bound. Both return a nearest point of
the set they round to, which is all the later error comparisons use.
-/

namespace K8sLearn.Rounding

variable {K : Type*} [Field K] [LinearOrder K] [FloorRing K]

/-- Round to the nearest integer, a tie going to the even neighbour. -/
def roundHalfEven (x : K) : ℤ :=
  if Int.fract x < 1 / 2 then ⌊x⌋
  else if 1 / 2 < Int.fract x then ⌊x⌋ + 1
  else if Even ⌊x⌋ then ⌊x⌋
  else ⌊x⌋ + 1

theorem roundHalfEven_cases (x : K) :
    (roundHalfEven x = ⌊x⌋ ∧ Int.fract x ≤ 1 / 2) ∨
      (roundHalfEven x = ⌊x⌋ + 1 ∧ 1 / 2 ≤ Int.fract x) := by
  unfold roundHalfEven
  split_ifs with h₁ h₂ h₃
  · exact Or.inl ⟨rfl, h₁.le⟩
  · exact Or.inr ⟨rfl, h₂.le⟩
  · exact Or.inl ⟨rfl, not_lt.mp h₂⟩
  · exact Or.inr ⟨rfl, not_lt.mp h₁⟩

variable [IsStrictOrderedRing K]

theorem abs_sub_roundHalfEven_le (x : K) : |x - roundHalfEven x| ≤ 1 / 2 := by
  have hx := Int.floor_add_fract x
  have h0 := Int.fract_nonneg x
  have h1 := Int.fract_lt_one x
  rw [abs_le]
  rcases roundHalfEven_cases x with ⟨h, hf⟩ | ⟨h, hf⟩
  · rw [h]; constructor <;> linarith
  · rw [h]; push_cast; constructor <;> linarith

theorem roundHalfEven_nearest (x : K) (m : ℤ) : |x - roundHalfEven x| ≤ |x - m| := by
  by_cases h : roundHalfEven x = m
  · rw [h]
  · have hd : (1 : K) ≤ |(m : K) - roundHalfEven x| := by
      have : 1 ≤ |m - roundHalfEven x| := Int.one_le_abs (sub_ne_zero.mpr (Ne.symm h))
      exact_mod_cast this
    have ht : |(m : K) - roundHalfEven x| ≤ |x - m| + |x - roundHalfEven x| := by
      rw [abs_sub_comm x (m : K)]
      exact abs_sub_le _ _ _
    linarith [abs_sub_roundHalfEven_le x]

theorem roundHalfEven_intCast (m : ℤ) : roundHalfEven (m : K) = m := by
  have h := roundHalfEven_nearest (m : K) m
  rw [sub_self, abs_zero] at h
  have h0 : (m : K) - roundHalfEven (m : K) = 0 := abs_nonpos_iff.mp h
  exact_mod_cast (sub_eq_zero.mp h0).symm

theorem roundHalfEven_le {x : K} {m : ℤ} (h : x ≤ m) : roundHalfEven x ≤ m := by
  by_contra hlt
  have hm : (m : K) + 1 ≤ roundHalfEven x := by exact_mod_cast not_le.mp hlt
  have hn := roundHalfEven_nearest x m
  rw [abs_sub_comm, abs_of_nonneg (show (0 : K) ≤ roundHalfEven x - x by linarith), abs_sub_comm,
    abs_of_nonneg (show (0 : K) ≤ m - x by linarith)] at hn
  linarith

theorem le_roundHalfEven {x : K} {m : ℤ} (h : (m : K) ≤ x) : m ≤ roundHalfEven x := by
  by_contra hlt
  have hm : (roundHalfEven x : K) + 1 ≤ m := by exact_mod_cast not_le.mp hlt
  have hn := roundHalfEven_nearest x m
  rw [abs_of_nonneg (show (0 : K) ≤ x - roundHalfEven x by linarith),
    abs_of_nonneg (show (0 : K) ≤ x - m by linarith)] at hn
  linarith

theorem roundHalfEven_mono {x y : K} (h : x ≤ y) : roundHalfEven x ≤ roundHalfEven y := by
  have hle : ∀ z : K, roundHalfEven z ≤ ⌊z⌋ + 1 := fun z => by
    rcases roundHalfEven_cases z with ⟨hz, -⟩ | ⟨hz, -⟩ <;> omega
  rcases (Int.floor_le_floor h).lt_or_eq with hlt | heq
  · have hy : ⌊y⌋ ≤ roundHalfEven y := le_roundHalfEven (Int.floor_le y)
    have hx := hle x
    omega
  · -- of two numbers with the same floor the fractional parts decide
    have hfract : Int.fract x ≤ Int.fract y := by
      rw [Int.fract, Int.fract, heq]
      exact sub_le_sub_right h _
    unfold roundHalfEven
    rw [heq]
    split_ifs <;> first | omega | (exfalso; linarith)

/-- Clamp to the interval from `lo` to `hi`; an empty interval gives `hi`. -/
def clamp {α : Type*} [LinearOrder α] (lo hi x : α) : α := min (max x lo) hi

theorem clamp_eq_self {α : Type*} [LinearOrder α] {lo hi x : α} (hl : lo ≤ x) (hu : x ≤ hi) :
    clamp lo hi x = x := by
  rw [clamp, max_eq_left hl, min_eq_left hu]

theorem clamp_mem {α : Type*} [LinearOrder α] {lo hi : α} (h : lo ≤ hi) (x : α) :
    lo ≤ clamp lo hi x ∧ clamp lo hi x ≤ hi :=
  ⟨le_min (le_max_right _ _) h, min_le_right _ _⟩

theorem clamp_cases {α : Type*} [LinearOrder α] {lo hi : α} (h : lo ≤ hi) (x : α) :
    (clamp lo hi x = x) ∨ (clamp lo hi x = lo ∧ x ≤ lo) ∨ (clamp lo hi x = hi ∧ hi ≤ x) := by
  rcases le_total x lo with hl | hl
  · exact Or.inr (Or.inl ⟨by rw [clamp, max_eq_right hl, min_eq_left h], hl⟩)
  · rcases le_total x hi with hu | hu
    · exact Or.inl (clamp_eq_self hl hu)
    · exact Or.inr (Or.inr ⟨by rw [clamp, max_eq_left hl, min_eq_right hu], hu⟩)

theorem clamp_roundHalfEven_nearest (x : K) {lo hi m : ℤ} (hl : lo ≤ m) (hu : m ≤ hi) :
    |x - (clamp lo hi (roundHalfEven x) : ℤ)| ≤ |x - m| := by
  rcases clamp_cases (hl.trans hu) (roundHalfEven x) with h | ⟨h, hr⟩ | ⟨h, hr⟩
  · rw [h]; exact roundHalfEven_nearest x m
  · -- the rounding lies at or below `lo`, so `lo` separates it from `m`
    rw [h]
    by_cases he : (m : ℤ) = lo
    · rw [he]
    · have hm : (lo : K) + 1 ≤ m := by exact_mod_cast lt_of_le_of_ne hl (Ne.symm he)
      have hr' : (roundHalfEven x : K) ≤ lo := by exact_mod_cast hr
      have hx := abs_le.mp (abs_sub_roundHalfEven_le x)
      rw [abs_sub_comm x (m : K), abs_of_nonneg (show (0 : K) ≤ m - x by linarith), abs_le]
      constructor <;> linarith
  · rw [h]
    by_cases he : (m : ℤ) = hi
    · rw [he]
    · have hm : (m : K) + 1 ≤ hi := by exact_mod_cast lt_of_le_of_ne hu he
      have hr' : (hi : K) ≤ roundHalfEven x := by exact_mod_cast hr
      have hx := abs_le.mp (abs_sub_roundHalfEven_le x)
      rw [abs_of_nonneg (show (0 : K) ≤ x - m by linarith), abs_le]
      constructor <;> linarith

end K8sLearn.Rounding
