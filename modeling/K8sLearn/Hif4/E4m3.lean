import Mathlib.Algebra.Order.Field.Power
import Mathlib.Data.Int.Log
import Mathlib.Data.Rat.Floor
import Mathlib.Data.Sign.Basic
import Mathlib.Tactic.FieldSimp
import Mathlib.Tactic.NormNum
import Mathlib.Tactic.Positivity
import K8sLearn.Lib.Rounding

/-! # Rounding to E4M3

`_quantize_e4m3` rounds the mantissa to a whole number of eighths and clamps it to 8 to 15
before it looks for a carry, so the carry branch is dead. The result is a value of the
format, and a nearest one unless the mantissa rounds up to 16.
-/

namespace K8sLearn.Hif4

open Rounding

def quantizeE4m3 (x : ℚ) : ℚ :=
  let xAbs := |x|
  let result :=
    if 0 < xAbs then
      let xNz := clamp (2 ^ (-9 : ℤ)) 448 xAbs
      let exp := Int.log 2 xNz
      let mantScaled := clamp 8 15 (roundHalfEven (xNz / 2 ^ (exp - 3)))
      let carry := 16 ≤ mantScaled
      let mantScaled := if carry then mantScaled - 8 else mantScaled
      let exp := if carry then exp + 1 else exp
      clamp (2 ^ (-9 : ℤ)) 448 ((mantScaled : ℚ) * 2 ^ (exp - 3))
    else 0
  SignType.sign x * result

/-- The number with exponent field `e` and mantissa field `m`. -/
def e4m3 (e m : ℕ) : ℚ :=
  if e = 0 then m / 8 * 2 ^ (-6 : ℤ) else (1 + m / 8) * 2 ^ ((e : ℤ) - 7)

/-- The values of the format: four exponent bits, three mantissa bits, the last code not a
number. -/
def IsE4m3 (v : ℚ) : Prop := ∃ e < 16, ∃ m < 8, ¬ (e = 15 ∧ m = 7) ∧ |v| = e4m3 e m

/-- The power of two at which a positive number's eighths are counted. -/
def spacing (a : ℚ) : ℚ := 2 ^ (Int.log 2 a - 3)

section Binade

variable {a : ℚ}

theorem spacing_pos (a : ℚ) : 0 < spacing a := by unfold spacing; positivity

theorem eight_mul_spacing (a : ℚ) : 8 * spacing a = 2 ^ Int.log 2 a := by
  rw [spacing, zpow_sub₀ two_ne_zero]
  ring

theorem sixteen_mul_spacing (a : ℚ) : 16 * spacing a = 2 ^ (Int.log 2 a + 1) := by
  rw [zpow_add_one₀ two_ne_zero, ← eight_mul_spacing]
  ring

theorem eight_mul_spacing_le (ha : 0 < a) : 8 * spacing a ≤ a := by
  rw [eight_mul_spacing]
  exact_mod_cast Int.zpow_log_le_self (by norm_num) ha

theorem lt_sixteen_mul_spacing (a : ℚ) : a < 16 * spacing a := by
  rw [sixteen_mul_spacing]
  exact_mod_cast Int.lt_zpow_succ_log_self (by norm_num) a

theorem log_eq {e : ℤ} (hl : 2 ^ e ≤ a) (hu : a < 2 ^ (e + 1)) : Int.log 2 a = e := by
  have hpos : 0 < a := lt_of_lt_of_le (by positivity) hl
  apply le_antisymm
  · rw [← Int.lt_add_one_iff, ← Int.lt_zpow_iff_log_lt (by norm_num) hpos]
    exact_mod_cast hu
  · rw [← Int.zpow_le_iff_le_log (by norm_num) hpos]
    exact_mod_cast hl

theorem log_eighths {k : ℤ} (h8 : 8 ≤ k) (h15 : k ≤ 15) (e : ℤ) :
    Int.log 2 ((k : ℚ) * 2 ^ (e - 3)) = e := by
  have hk8 : (8 : ℚ) ≤ k := by exact_mod_cast h8
  have hk15 : (k : ℚ) ≤ 15 := by exact_mod_cast h15
  have hp : (0 : ℚ) < 2 ^ (e - 3) := by positivity
  have h2e : (2 : ℚ) ^ e = 8 * 2 ^ (e - 3) := by
    rw [zpow_sub₀ two_ne_zero]
    ring
  apply log_eq
  · rw [h2e]
    nlinarith
  · rw [zpow_add_one₀ two_ne_zero, h2e]
    nlinarith

def mantissa (a : ℚ) : ℤ := clamp 8 15 (roundHalfEven (a / spacing a))

theorem mantissa_mem (a : ℚ) : 8 ≤ mantissa a ∧ mantissa a ≤ 15 := clamp_mem (by norm_num) _

theorem mantissa_eq_min (ha : 0 < a) : mantissa a = min (roundHalfEven (a / spacing a)) 15 := by
  have h8 : ((8 : ℤ) : ℚ) ≤ a / spacing a := by
    rw [le_div_iff₀ (spacing_pos a)]
    exact_mod_cast eight_mul_spacing_le ha
  rw [mantissa, clamp, max_eq_left (le_roundHalfEven h8)]

theorem mantissa_sub_half_le (ha : 0 < a) : (mantissa a - 1 / 2) * spacing a ≤ a := by
  rw [← le_div_iff₀ (spacing_pos a)]
  have hm : (mantissa a : ℚ) ≤ roundHalfEven (a / spacing a) := by
    rw [mantissa_eq_min ha]
    exact_mod_cast min_le_left _ _
  linarith [(abs_le.mp (abs_sub_roundHalfEven_le (a / spacing a))).1]

theorem log_le_eight (ha : 0 < a) (hu : a ≤ 448) : Int.log 2 a ≤ 8 := by
  have hlt : a < ((2 : ℕ) : ℚ) ^ (9 : ℤ) := by norm_num; linarith
  have := (Int.lt_zpow_iff_log_lt (by norm_num) ha).mp hlt
  omega

theorem mantissa_le_fourteen (ha : 0 < a) (hu : a ≤ 448) (h8 : Int.log 2 a = 8) :
    mantissa a ≤ 14 := by
  rw [mantissa_eq_min ha]
  apply min_le_of_left_le
  apply roundHalfEven_le
  rw [div_le_iff₀ (spacing_pos a), spacing, h8]
  norm_num
  exact hu

theorem mantissa_mul_spacing_le (ha : 0 < a) (hu : a ≤ 448) : mantissa a * spacing a ≤ 448 := by
  have hp := spacing_pos a
  rcases (log_le_eight ha hu).lt_or_eq with h | h
  · have h16 : 16 * spacing a ≤ 2 ^ (8 : ℤ) := by
      rw [sixteen_mul_spacing]
      exact zpow_le_zpow_right₀ (by norm_num) (by omega)
    have hm : (mantissa a : ℚ) ≤ 15 := by exact_mod_cast (mantissa_mem a).2
    norm_num at h16
    nlinarith
  · have hm : (mantissa a : ℚ) ≤ 14 := by exact_mod_cast mantissa_le_fourteen ha hu h
    have hs : spacing a = 32 := by rw [spacing, h]; norm_num
    rw [hs]
    linarith

theorem le_mantissa_mul_spacing {l : ℤ} (hl : 2 ^ l ≤ a) : 2 ^ l ≤ mantissa a * spacing a := by
  have ha : 0 < a := lt_of_lt_of_le (by positivity) hl
  have hlog : l ≤ Int.log 2 a := (Int.zpow_le_iff_le_log (by norm_num) ha).mp (by exact_mod_cast hl)
  have hm : (8 : ℚ) ≤ mantissa a := by exact_mod_cast (mantissa_mem a).1
  calc (2 : ℚ) ^ l ≤ 2 ^ Int.log 2 a := zpow_le_zpow_right₀ (by norm_num) hlog
    _ = 8 * spacing a := (eight_mul_spacing a).symm
    _ ≤ mantissa a * spacing a := mul_le_mul_of_nonneg_right hm (spacing_pos a).le

/-- The rounding of a positive number within range. -/
def roundE4m3 (a : ℚ) : ℚ := mantissa a * spacing a

/-- The mantissa never carries, and the outer clamp is without effect. -/
theorem quantizeE4m3_eq_round {x : ℚ} (hx : x ≠ 0) :
    quantizeE4m3 x = SignType.sign x * roundE4m3 (clamp (2 ^ (-9 : ℤ)) 448 |x|) := by
  have ha : 0 < |x| := abs_pos.mpr hx
  simp only [quantizeE4m3, if_pos ha]
  obtain ⟨hl, hu⟩ := clamp_mem (show (2 : ℚ) ^ (-9 : ℤ) ≤ 448 by norm_num) |x|
  generalize clamp (2 ^ (-9 : ℤ)) 448 |x| = a at hl hu
  have hpos : 0 < a := lt_of_lt_of_le (by positivity) hl
  have hcarry : ¬ 16 ≤ mantissa a := by
    have := (mantissa_mem a).2
    omega
  have hm : clamp 8 15 (roundHalfEven (a / 2 ^ (Int.log 2 a - 3))) = mantissa a := rfl
  simp only [hm, if_neg hcarry]
  rw [← spacing, clamp_eq_self (le_mantissa_mul_spacing hl) (mantissa_mul_spacing_le hpos hu),
    roundE4m3]

theorem quantizeE4m3_eq {x : ℚ} (hl : 2 ^ (-9 : ℤ) ≤ |x|) (hu : |x| ≤ 448) :
    quantizeE4m3 x = SignType.sign x * (mantissa |x| * spacing |x|) := by
  have hx : x ≠ 0 := abs_pos.mp (lt_of_lt_of_le (by positivity) hl)
  rw [quantizeE4m3_eq_round hx, clamp_eq_self hl hu, roundE4m3]

end Binade

section Nearest

variable {x v a : ℚ}

theorem abs_sign_mul (hx : x ≠ 0) (q : ℚ) : |SignType.sign x * q| = |q| := by
  rcases lt_or_gt_of_ne hx with h | h
  · simp [sign_neg h]
  · simp [sign_pos h]

theorem abs_sign_mul_sub (hx : x ≠ 0) (q : ℚ) : |SignType.sign x * q - x| = abs (q - |x|) := by
  rw [← abs_sign_mul hx (q - |x|), mul_sub, sign_mul_abs]

theorem le_log (hl : 2 ^ (-6 : ℤ) ≤ a) : -6 ≤ Int.log 2 a :=
  (Int.zpow_le_iff_le_log (by norm_num) (lt_of_lt_of_le (by positivity) hl)).mp
    (by exact_mod_cast hl)

/-- Eight to fifteen eighths of a power of two are a value, but for the last code. -/
theorem isE4m3_of_abs_eq {k e : ℤ} (h8 : 8 ≤ k) (h15 : k ≤ 15) (hl : -6 ≤ e) (hu : e ≤ 8)
    (hlast : ¬ (e = 8 ∧ k = 15)) (hv : |v| = k * 2 ^ (e - 3)) : IsE4m3 v := by
  obtain ⟨E, hE⟩ := Int.eq_ofNat_of_zero_le (show 0 ≤ e + 7 by omega)
  obtain ⟨m, hm⟩ := Int.eq_ofNat_of_zero_le (show 0 ≤ k - 8 by omega)
  refine ⟨E, by omega, m, by omega, by omega, ?_⟩
  have hk : (k : ℚ) = m + 8 := by
    have : k = m + 8 := by omega
    exact_mod_cast this
  have he : (E : ℤ) - 7 = e := by omega
  rw [hv, e4m3, if_neg (by omega), he, hk, zpow_sub₀ two_ne_zero]
  ring

theorem isE4m3_quantizeE4m3 (hl : 2 ^ (-6 : ℤ) ≤ |x|) (hu : |x| ≤ 448) :
    IsE4m3 (quantizeE4m3 x) := by
  have ha : 0 < |x| := lt_of_lt_of_le (by positivity) hl
  have hl' : (2 : ℚ) ^ (-9 : ℤ) ≤ |x| := le_trans (by norm_num) hl
  obtain ⟨h8, h15⟩ := mantissa_mem |x|
  apply isE4m3_of_abs_eq h8 h15 (le_log hl) (log_le_eight ha hu)
  · rintro ⟨he, hm⟩
    have := mantissa_le_fourteen ha hu he
    omega
  · have hpos : (0 : ℚ) < mantissa |x| := by exact_mod_cast (by omega : 0 < mantissa |x|)
    rw [quantizeE4m3_eq hl' hu, abs_sign_mul (abs_pos.mp ha),
      abs_of_pos (mul_pos hpos (spacing_pos _)), spacing]

/-- The values near a number: those of its own power of two are eighths of it, the others lie
below or above. -/
theorem IsE4m3.cases (hv : IsE4m3 v) (hl : 2 ^ (-6 : ℤ) ≤ a) :
    |v| ≤ 8 * spacing a ∨ (∃ k : ℤ, 8 ≤ k ∧ k ≤ 15 ∧ |v| = k * spacing a) ∨
      16 * spacing a ≤ |v| := by
  obtain ⟨E, -, m, hm, -, hv⟩ := hv
  have hm7 : (m : ℚ) ≤ 7 := by exact_mod_cast Nat.le_of_lt_succ hm
  have hlog := le_log hl
  rw [hv, e4m3, eight_mul_spacing, sixteen_mul_spacing]
  split_ifs with hE
  · refine Or.inl (le_trans ?_ (zpow_le_zpow_right₀ (by norm_num) hlog))
    have hp : (0 : ℚ) < 2 ^ (-6 : ℤ) := by positivity
    nlinarith
  have hp : (0 : ℚ) < 2 ^ ((E : ℤ) - 7) := by positivity
  have hm0 : (0 : ℚ) ≤ m := Nat.cast_nonneg m
  rcases lt_trichotomy ((E : ℤ) - 7) (Int.log 2 a) with h | h | h
  · refine Or.inl (le_trans ?_ (zpow_le_zpow_right₀ (by norm_num) (Int.add_one_le_of_lt h)))
    rw [zpow_add_one₀ two_ne_zero]
    nlinarith
  · refine Or.inr (Or.inl ⟨m + 8, by omega, by omega, ?_⟩)
    rw [spacing, ← h, zpow_sub₀ two_ne_zero ((E : ℤ) - 7) 3]
    push_cast
    ring
  · refine Or.inr (Or.inr (le_trans (zpow_le_zpow_right₀ (by norm_num) (Int.add_one_le_of_lt h)) ?_))
    nlinarith

theorem mantissa_nearest (a : ℚ) {k : ℤ} (h8 : 8 ≤ k) (h15 : k ≤ 15) :
    |mantissa a * spacing a - a| ≤ |k * spacing a - a| := by
  have hp := spacing_pos a
  have hscale : ∀ c : ℚ, c * spacing a - a = spacing a * (c - a / spacing a) := by
    intro c
    field_simp
  rw [hscale, hscale, abs_mul, abs_mul, abs_sub_comm, abs_sub_comm (k : ℚ)]
  exact mul_le_mul_of_nonneg_left (clamp_roundHalfEven_nearest _ h8 h15) (abs_nonneg _)

theorem quantizeE4m3_nearest (hl : 2 ^ (-6 : ℤ) ≤ |x|) (hu : |x| ≤ 448)
    (hx : |x| ≤ 31 / 32 * 2 ^ (Int.log 2 |x| + 1)) (hv : IsE4m3 v) :
    |quantizeE4m3 x - x| ≤ |v - x| := by
  have ha : 0 < |x| := lt_of_lt_of_le (by positivity) hl
  have hl' : (2 : ℚ) ^ (-9 : ℤ) ≤ |x| := le_trans (by norm_num) hl
  rw [quantizeE4m3_eq hl' hu, abs_sign_mul_sub (abs_pos.mp ha)]
  refine le_trans ?_ (abs_abs_sub_abs_le v x)
  have h8a := eight_mul_spacing_le ha
  rcases hv.cases hl with h | ⟨k, h8, h15, h⟩ | h
  · -- eight eighths lie between such a value and the number
    refine (mantissa_nearest |x| le_rfl (by norm_num)).trans ?_
    push_cast
    rw [abs_of_nonpos (sub_nonpos.mpr h8a), abs_of_nonpos (sub_nonpos.mpr (h.trans h8a))]
    linarith
  · rw [h]
    exact mantissa_nearest |x| h8 h15
  · -- fifteen eighths are at least as near as sixteen
    rw [← sixteen_mul_spacing] at hx
    have h16 := lt_sixteen_mul_spacing |x|
    refine (mantissa_nearest |x| (by norm_num) le_rfl).trans ?_
    push_cast
    rw [abs_of_nonneg (show 0 ≤ |v| - |x| by linarith), abs_le]
    constructor <;> linarith

/-- Beyond that the mantissa should carry, and the next power of two is nearer. -/
theorem exists_nearer (hl : 2 ^ (-6 : ℤ) ≤ |x|) (hu : |x| ≤ 448)
    (hx : 31 / 32 * 2 ^ (Int.log 2 |x| + 1) < |x|) :
    ∃ v, IsE4m3 v ∧ |v - x| < |quantizeE4m3 x - x| := by
  have ha : 0 < |x| := lt_of_lt_of_le (by positivity) hl
  have hl' : (2 : ℚ) ^ (-9 : ℤ) ≤ |x| := le_trans (by norm_num) hl
  have hne := abs_pos.mp ha
  have hp := spacing_pos |x|
  have h16 := lt_sixteen_mul_spacing |x|
  have hlog : Int.log 2 |x| ≠ 8 := by
    intro h
    rw [h] at hx
    norm_num at hx
    linarith
  have hle := log_le_eight ha hu
  refine ⟨SignType.sign x * (16 * spacing |x|), ?_, ?_⟩
  · apply isE4m3_of_abs_eq (k := 8) (e := Int.log 2 |x| + 1) le_rfl (by norm_num)
      (by have := le_log hl; omega) (by omega) (by omega)
    rw [abs_sign_mul hne, abs_of_pos (by positivity), sixteen_mul_spacing, zpow_sub₀ two_ne_zero]
    push_cast
    ring
  · rw [← sixteen_mul_spacing] at hx
    have hm : (mantissa |x| : ℚ) * spacing |x| ≤ 15 * spacing |x| :=
      mul_le_mul_of_nonneg_right (by exact_mod_cast (mantissa_mem |x|).2) hp.le
    rw [quantizeE4m3_eq hl' hu, abs_sign_mul_sub hne, abs_sign_mul_sub hne,
      abs_of_pos (sub_pos.mpr h16),
      abs_of_neg (show mantissa |x| * spacing |x| - |x| < 0 by linarith)]
    linarith

/-- The rounding is to a nearest value exactly up to fifteen and a half sixteenths of the next
power of two. -/
theorem quantizeE4m3_nearest_iff (hl : 2 ^ (-6 : ℤ) ≤ |x|) (hu : |x| ≤ 448) :
    (IsE4m3 (quantizeE4m3 x) ∧ ∀ v, IsE4m3 v → |quantizeE4m3 x - x| ≤ |v - x|) ↔
      |x| ≤ 31 / 32 * 2 ^ (Int.log 2 |x| + 1) := by
  constructor
  · rintro ⟨-, h⟩
    by_contra hx
    obtain ⟨v, hv, hlt⟩ := exists_nearer hl hu (not_le.mp hx)
    exact absurd (h v hv) (not_le.mpr hlt)
  · exact fun hx => ⟨isE4m3_quantizeE4m3 hl hu, fun v hv => quantizeE4m3_nearest hl hu hx hv⟩

theorem quantizeE4m3_nearest_iff_five_thirds :
    IsE4m3 (quantizeE4m3 (5 / 3)) ∧
      ∀ v, IsE4m3 v → |quantizeE4m3 (5 / 3) - 5 / 3| ≤ |v - 5 / 3| := by
  have hlog : Int.log 2 |(5 / 3 : ℚ)| = 0 := log_eq (by norm_num) (by norm_num)
  refine (quantizeE4m3_nearest_iff (by norm_num) (by norm_num)).mpr ?_
  rw [hlog]
  norm_num

/-- Just below two the result is 15/8, though two is nearer. -/
theorem quantizeE4m3_not_nearest :
    (2 ^ (-6 : ℤ) ≤ |(63 / 32 : ℚ)| ∧ |(63 / 32 : ℚ)| ≤ 448) ∧
      ¬ (IsE4m3 (quantizeE4m3 (63 / 32)) ∧
        ∀ v, IsE4m3 v → |quantizeE4m3 (63 / 32) - 63 / 32| ≤ |v - 63 / 32|) := by
  have hlog : Int.log 2 |(63 / 32 : ℚ)| = 0 := log_eq (by norm_num) (by norm_num)
  have hl : (2 : ℚ) ^ (-6 : ℤ) ≤ |(63 / 32 : ℚ)| := by norm_num
  have hu : |(63 / 32 : ℚ)| ≤ 448 := by norm_num
  obtain ⟨v, hv, hlt⟩ := exists_nearer hl hu (by rw [hlog]; norm_num)
  exact ⟨⟨hl, hu⟩, fun h => absurd (h.2 v hv) (not_le.mpr hlt)⟩

end Nearest

end K8sLearn.Hif4
