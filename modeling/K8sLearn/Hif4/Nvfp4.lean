import K8sLearn.Hif4.E4m3
import K8sLearn.Hif4.Format

/-! # The NVFP4 projection

`quantize_nvfp4` scales each 16 channels by the E4M3 rounding of a sixth of their largest
absolute value and rounds them to E2M1. The scale is off by so little that the largest
element takes the topmost code, unless the scale is clamped; a second pass therefore finds
the scale of the first, and quantizing what was dequantized changes nothing.
-/

namespace K8sLearn.Hif4

open Rounding

/-- The level of an absolute value; the masks of the source are disjoint. -/
def e2m1Level (xAbs : ℚ) : ℚ :=
  if 5 ≤ xAbs then 6
  else if 7 / 2 ≤ xAbs then 4
  else if 5 / 2 ≤ xAbs then 3
  else if 7 / 4 ≤ xAbs then 2
  else if 5 / 4 ≤ xAbs then 3 / 2
  else if 3 / 4 ≤ xAbs then 1
  else if 1 / 4 ≤ xAbs then 1 / 2
  else 0

def quantizeE2m1 (x : ℚ) : ℚ := SignType.sign x * e2m1Level |x|

def absMax (l : List ℚ) : ℚ := (l.map fun v => |v|).foldr max 0

/-- `t.abs().amax(dim=-1, keepdim=True)`. -/
def amaxLast (t : Tensor ℚ) : Tensor ℚ where
  shape := t.shape.dropLast ++ [1]
  data := (List.range t.shape.dropLast.prod).map fun r =>
    absMax ((t.data.drop (t.shape.getLastD 0 * r)).take (t.shape.getLastD 0))
  length_data := by simp

/-- The scale of a block with this largest absolute value. -/
def nvfp4Scale (vmax : ℚ) : ℚ := max (quantizeE4m3 (vmax / 6)) (2 ^ (-16 : ℤ))

def quantizeNvfp4 (x : Tensor ℚ) : Option (Tensor ℚ × Tensor ℚ) :=
  let channels := x.shape.getLastD 0
  if x.shape = [] ∨ channels % 16 ≠ 0 then none
  else
    (x.reshape (x.shape.dropLast ++ [channels / 16, 16])).bind fun xBlocks =>
    let vmax := amaxLast xBlocks
    let scale := vmax.map nvfp4Scale
    (Tensor.zipBroadcast (· / ·) xBlocks scale).bind fun normalized =>
    let quantFloat := normalized.map quantizeE2m1
    (quantFloat.reshape (quantFloat.shape.dropLast.dropLast ++
      [quantFloat.shape.dropLast.getLastD 1 * quantFloat.shape.getLastD 1])).bind fun quantFloat =>
    (scale.reshape scale.shape.dropLast).map fun scale => (quantFloat, scale)

def dequantizeNvfp4 (quantFloat scaleFloat : Tensor ℚ) : Option (Tensor ℚ) :=
  if quantFloat.shape.getLastD 0 % 16 ≠ 0 then none else dequantNvfp4 quantFloat scaleFloat

section Level

variable {a b x : ℚ}

theorem monotone_level {f : ℚ → ℚ} {w u : ℚ} (c : ℚ) (hf : Monotone f ∧ ∀ a, f a ≤ w)
    (hwu : w ≤ u) :
    (Monotone fun a => if c ≤ a then u else f a) ∧ ∀ a, (if c ≤ a then u else f a) ≤ u := by
  have hle : ∀ a, (if c ≤ a then u else f a) ≤ u := by
    intro a
    split_ifs
    exacts [le_rfl, (hf.2 a).trans hwu]
  refine ⟨fun a b hab => ?_, hle⟩
  by_cases hb : c ≤ b
  · simpa only [if_pos hb] using hle a
  · have ha : ¬ c ≤ a := fun h => hb (h.trans hab)
    simpa only [if_neg ha, if_neg hb] using hf.1 hab

theorem e2m1Level_levels : Monotone e2m1Level ∧ ∀ a, e2m1Level a ≤ 6 := by
  have h : (Monotone fun _ : ℚ => (0 : ℚ)) ∧ ∀ _ : ℚ, (0 : ℚ) ≤ 0 := ⟨monotone_const, fun _ => le_rfl⟩
  have h := monotone_level (u := 1 / 2) (1 / 4) h (by norm_num)
  have h := monotone_level (u := 1) (3 / 4) h (by norm_num)
  have h := monotone_level (u := 3 / 2) (5 / 4) h (by norm_num)
  have h := monotone_level (u := 2) (7 / 4) h (by norm_num)
  have h := monotone_level (u := 3) (5 / 2) h (by norm_num)
  have h := monotone_level (u := 4) (7 / 2) h (by norm_num)
  exact monotone_level 5 h (by norm_num)

theorem e2m1Level_mono (h : a ≤ b) : e2m1Level a ≤ e2m1Level b := e2m1Level_levels.1 h

theorem e2m1Level_le_six (a : ℚ) : e2m1Level a ≤ 6 := e2m1Level_levels.2 a

theorem e2m1Level_nonneg (a : ℚ) : 0 ≤ e2m1Level a := by
  unfold e2m1Level
  split_ifs <;> norm_num

theorem e2m1Level_zero : e2m1Level 0 = 0 := by norm_num [e2m1Level]

theorem e2m1Level_level (a : ℚ) : e2m1Level (e2m1Level a) = e2m1Level a := by
  have h : ∀ l ∈ [(6 : ℚ), 4, 3, 2, 3 / 2, 1, 1 / 2, 0], e2m1Level l = l := by
    simp only [List.mem_cons, List.not_mem_nil, or_false]
    rintro l (rfl | rfl | rfl | rfl | rfl | rfl | rfl | rfl) <;> norm_num [e2m1Level]
  apply h
  unfold e2m1Level
  split_ifs <;> simp

theorem abs_quantizeE2m1 (x : ℚ) : |quantizeE2m1 x| = e2m1Level |x| := by
  by_cases hx : x = 0
  · simp [hx, quantizeE2m1, e2m1Level_zero]
  · rw [quantizeE2m1, abs_sign_mul hx, abs_of_nonneg (e2m1Level_nonneg _)]

theorem quantizeE2m1_idem (x : ℚ) : quantizeE2m1 (quantizeE2m1 x) = quantizeE2m1 x := by
  rw [quantizeE2m1, abs_quantizeE2m1, e2m1Level_level, ← abs_quantizeE2m1, sign_mul_abs]

end Level

section Scale

variable {a M : ℚ}

theorem roundE4m3_mem (hl : 2 ^ (-9 : ℤ) ≤ a) (hu : a ≤ 448) :
    2 ^ (-9 : ℤ) ≤ roundE4m3 a ∧ roundE4m3 a ≤ 448 :=
  ⟨le_mantissa_mul_spacing hl, mantissa_mul_spacing_le (lt_of_lt_of_le (by positivity) hl) hu⟩

theorem roundE4m3_eighths {k : ℤ} (h8 : 8 ≤ k) (h15 : k ≤ 15) (e : ℤ) :
    roundE4m3 ((k : ℚ) * 2 ^ (e - 3)) = k * 2 ^ (e - 3) := by
  have hs : spacing ((k : ℚ) * 2 ^ (e - 3)) = 2 ^ (e - 3) := by rw [spacing, log_eighths h8 h15]
  have hp : (2 : ℚ) ^ (e - 3) ≠ 0 := by positivity
  rw [roundE4m3, mantissa, hs, mul_div_cancel_right₀ _ hp, roundHalfEven_intCast,
    clamp_eq_self h8 h15]

theorem roundE4m3_idem (a : ℚ) : roundE4m3 (roundE4m3 a) = roundE4m3 a :=
  roundE4m3_eighths (mantissa_mem a).1 (mantissa_mem a).2 _

theorem roundE4m3_smallest : roundE4m3 (2 ^ (-9 : ℤ)) = 2 ^ (-9 : ℤ) := by
  have h := roundE4m3_eighths (k := 8) le_rfl (by norm_num) (-9)
  norm_num at h ⊢
  exact h

theorem five_sixths_roundE4m3_le (ha : 0 < a) : 5 / 6 * roundE4m3 a ≤ a := by
  have h := mantissa_sub_half_le ha
  have hm : (8 : ℚ) ≤ mantissa a := by exact_mod_cast (mantissa_mem a).1
  have hp := spacing_pos a
  rw [roundE4m3]
  nlinarith

theorem nvfp4Scale_eq (hM : 0 < M) :
    nvfp4Scale M = roundE4m3 (clamp (2 ^ (-9 : ℤ)) 448 (M / 6)) := by
  have h6 : 0 < M / 6 := by positivity
  obtain ⟨hl, hu⟩ := clamp_mem (show (2 : ℚ) ^ (-9 : ℤ) ≤ 448 by norm_num) (M / 6)
  rw [nvfp4Scale, quantizeE4m3_eq_round h6.ne', abs_of_pos h6, sign_pos h6, SignType.coe_one,
    one_mul, max_eq_left]
  exact le_trans (by norm_num) (roundE4m3_mem hl hu).1

theorem nvfp4Scale_pos (M : ℚ) : 0 < nvfp4Scale M := lt_max_of_lt_right (by positivity)

/-- The largest element after the first pass is zero or leads to the scale of the first pass. -/
theorem nvfp4Scale_stable (hM : 0 < M) (h0 : e2m1Level (M / nvfp4Scale M) ≠ 0) :
    nvfp4Scale (e2m1Level (M / nvfp4Scale M) * nvfp4Scale M) = nvfp4Scale M := by
  have hS := nvfp4Scale_pos M
  have hlev : 0 < e2m1Level (M / nvfp4Scale M) := lt_of_le_of_ne (e2m1Level_nonneg _) (Ne.symm h0)
  obtain ⟨hl, hu⟩ := clamp_mem (show (2 : ℚ) ^ (-9 : ℤ) ≤ 448 by norm_num) (M / 6)
  have hSm : 2 ^ (-9 : ℤ) ≤ nvfp4Scale M ∧ nvfp4Scale M ≤ 448 := by
    rw [nvfp4Scale_eq hM]
    exact roundE4m3_mem hl hu
  have hfix : roundE4m3 (nvfp4Scale M) = nvfp4Scale M := by
    rw [nvfp4Scale_eq hM, roundE4m3_idem]
  rw [nvfp4Scale_eq (mul_pos hlev hS)]
  by_cases hbig : 5 / 6 * nvfp4Scale M ≤ M / 6
  · -- the largest element takes the topmost code
    have hsix : e2m1Level (M / nvfp4Scale M) = 6 := by
      rw [e2m1Level, if_pos]
      rw [le_div_iff₀ hS]
      linarith
    rw [hsix, mul_div_cancel_left₀ _ (by norm_num), clamp_eq_self hSm.1 hSm.2, hfix]
  · -- the scale was raised to the smallest one, which a smaller maximum keeps
    have hlow : clamp (2 ^ (-9 : ℤ)) 448 (M / 6) = 2 ^ (-9 : ℤ) := by
      have hle := five_sixths_roundE4m3_le (lt_of_lt_of_le (by positivity) hl)
      rw [← nvfp4Scale_eq hM] at hle
      rcases clamp_cases (show (2 : ℚ) ^ (-9 : ℤ) ≤ 448 by norm_num) (M / 6) with h | h | h
      · rw [h] at hle
        exact absurd hle hbig
      · exact h.1
      · rw [h.1] at hle
        linarith
    have hSeq : nvfp4Scale M = 2 ^ (-9 : ℤ) := by rw [nvfp4Scale_eq hM, hlow, roundE4m3_smallest]
    have hle : e2m1Level (M / nvfp4Scale M) * nvfp4Scale M / 6 ≤ 2 ^ (-9 : ℤ) := by
      rw [← hSeq]
      nlinarith [e2m1Level_le_six (M / nvfp4Scale M)]
    rw [clamp, max_eq_right hle, min_eq_left (by norm_num), roundE4m3_smallest, hSeq]

end Scale

section Block

variable {l : List ℚ} {v : ℚ}

def projectBlock (l : List ℚ) : List ℚ :=
  l.map fun v => quantizeE2m1 (v / nvfp4Scale (absMax l)) * nvfp4Scale (absMax l)

theorem absMax_nonneg (l : List ℚ) : 0 ≤ absMax l := by
  unfold absMax
  induction l with
  | nil => exact le_rfl
  | cons v l ih => exact le_max_of_le_right ih

theorem abs_le_absMax (h : v ∈ l) : |v| ≤ absMax l := by
  induction l with
  | nil => cases h
  | cons w l ih =>
    rcases List.mem_cons.mp h with rfl | h
    · exact le_max_left _ _
    · exact le_max_of_le_right (ih h)

theorem absMax_map {g h : ℚ → ℚ} (hg : ∀ v, |g v| = h |v|) (h0 : h 0 = 0)
    (hmono : ∀ a b, a ≤ b → h a ≤ h b) (l : List ℚ) : absMax (l.map g) = h (absMax l) := by
  induction l with
  | nil => exact h0.symm
  | cons v l ih =>
    have hm : h (max |v| (absMax l)) = max (h |v|) (h (absMax l)) :=
      Monotone.map_max fun a b hab => hmono a b hab
    change max |g v| (absMax (l.map g)) = h (max |v| (absMax l))
    rw [hm, hg, ih]

theorem absMax_projectBlock (l : List ℚ) : absMax (projectBlock l) =
    e2m1Level (absMax l / nvfp4Scale (absMax l)) * nvfp4Scale (absMax l) := by
  have hS := nvfp4Scale_pos (absMax l)
  apply absMax_map (h := fun a => e2m1Level (a / nvfp4Scale (absMax l)) * nvfp4Scale (absMax l))
  · intro v
    rw [abs_mul, abs_quantizeE2m1, abs_div, abs_of_pos hS]
  · rw [zero_div, e2m1Level_zero, zero_mul]
  · intro a b hab
    exact mul_le_mul_of_nonneg_right (e2m1Level_mono (div_le_div_of_nonneg_right hab hS.le)) hS.le

theorem projectBlock_idem (l : List ℚ) : projectBlock (projectBlock l) = projectBlock l := by
  have hS := nvfp4Scale_pos (absMax l)
  by_cases h0 : absMax (projectBlock l) = 0
  · -- a block of zeros stays one
    conv_rhs => rw [← List.map_id (projectBlock l)]
    apply List.map_congr_left
    intro v hv
    have hz : v = 0 := abs_nonpos_iff.mp (h0 ▸ abs_le_absMax hv)
    simp [hz, quantizeE2m1]
  · have hlev : e2m1Level (absMax l / nvfp4Scale (absMax l)) ≠ 0 := by
      intro h
      exact h0 (by rw [absMax_projectBlock, h, zero_mul])
    have hM : 0 < absMax l := by
      refine lt_of_le_of_ne (absMax_nonneg l) fun h => hlev ?_
      rw [← h, zero_div, e2m1Level_zero]
    have hscale : nvfp4Scale (absMax (projectBlock l)) = nvfp4Scale (absMax l) := by
      rw [absMax_projectBlock, nvfp4Scale_stable hM hlev]
    rw [projectBlock, hscale, projectBlock, List.map_map]
    apply List.map_congr_left
    intro v _
    rw [Function.comp_apply, mul_div_cancel_right₀ _ hS.ne', quantizeE2m1_idem]

end Block

/-- `dequantize_nvfp4(quantize_nvfp4(x))`. -/
def projectNvfp4 (x : Tensor ℚ) : Option (Tensor ℚ) :=
  (quantizeNvfp4 x).bind fun q => dequantizeNvfp4 q.1 q.2

section Tensors

variable {x y : Tensor ℚ} {init : List ℕ} {c : ℕ}

def blockOf (data : List ℚ) (b : ℕ) : List ℚ := (data.drop (16 * b)).take 16

theorem length_blockOf {data : List ℚ} {n b : ℕ} (hn : data.length = n * 16) (hb : b < n) :
    (blockOf data b).length = 16 := by
  simp [blockOf, hn]
  omega

theorem getD_blockOf (data : List ℚ) (b : ℕ) {j : ℕ} (hj : j < 16) :
    (blockOf data b).getD j 0 = data.getD (16 * b + j) 0 := by
  simp [blockOf, List.getD, hj]

theorem eq_of_blockOf {data data' : List ℚ} {n : ℕ} (hn : data.length = n * 16)
    (hn' : data'.length = n * 16) (h : ∀ b < n, blockOf data b = blockOf data' b) :
    data = data' := by
  apply List.ext_getElem (hn.trans hn'.symm)
  intro i hi hi'
  have hj : i % 16 < 16 := Nat.mod_lt i (by norm_num)
  have he := congrArg (·.getD (i % 16) 0) (h (i / 16) (by omega))
  simp only [getD_blockOf _ _ hj, Nat.div_add_mod] at he
  rwa [List.getD_eq_getElem _ _ hi, List.getD_eq_getElem _ _ hi'] at he

theorem length_of_shape (hx : x.shape = init ++ [16 * c]) : x.data.length = init.prod * c * 16 := by
  rw [x.length_data, hx]
  simp
  ring

theorem quantizeNvfp4_spec (hx : x.shape = init ++ [16 * c]) :
    ∃ q s, quantizeNvfp4 x = some (q, s) ∧ q.shape = x.shape ∧ s.shape = init ++ [c] ∧
      (∀ i < x.data.length, q.data.getD i 0 =
        quantizeE2m1 (x.data.getD i 0 / nvfp4Scale (absMax (blockOf x.data (i / 16))))) ∧
      ∀ b < init.prod * c, s.data.getD b 0 = nvfp4Scale (absMax (blockOf x.data b)) := by
  have hlen := length_of_shape hx
  have hguard : ¬ (x.shape = [] ∨ x.shape.getLastD 0 % 16 ≠ 0) := by simp [hx]
  have hcut : x.shape.dropLast ++ [x.shape.getLastD 0 / 16, 16] = init ++ [c] ++ [16] := by
    simp [hx]
  obtain ⟨w, hw, hws, hwd⟩ := Tensor.exists_reshape (t := x) (s := init ++ [c] ++ [16]) (by
    simp [hlen, mul_assoc])
  set scale := (amaxLast w).map nvfp4Scale with hscale
  have hss : scale.shape = init ++ [c] ++ [1] := by simp [hscale, amaxLast, hws]
  have hsd : ∀ b < init.prod * c, ∀ d, scale.data.getD b d =
      nvfp4Scale (absMax (blockOf x.data b)) := by
    intro b hb d
    simp [hscale, amaxLast, hws, List.getD, hb, hwd, blockOf]
  obtain ⟨z, hz, hzs, hzd⟩ := Tensor.zipBroadcast_last (f := (· / ·)) hws hss
  rw [hws] at hzs
  obtain ⟨q, hq, hqs, hqd⟩ := Tensor.exists_reshape (t := z.map quantizeE2m1)
    (s := init ++ [c * 16]) (by rw [Tensor.length_data, Tensor.map_shape, hzs]; simp)
  obtain ⟨s, hs, hss', hsd'⟩ := Tensor.exists_reshape (t := scale) (s := init ++ [c]) (by
    rw [Tensor.length_data, hss]
    simp)
  refine ⟨q, s, ?_, by rw [hqs, hx, mul_comm], hss', fun i hi => ?_, fun b hb => ?_⟩
  · have hd₁ : (init ++ [c] ++ [16]).dropLast.dropLast ++ [(init ++ [c] ++ [16]).dropLast.getLastD 1 *
        (init ++ [c] ++ [16]).getLastD 1] = init ++ [c * 16] := by simp
    have hd₂ : (init ++ [c] ++ [1]).dropLast = init ++ [c] := by simp
    have hzs' : (z.map quantizeE2m1).shape = init ++ [c] ++ [16] := hzs
    simp only [quantizeNvfp4, if_neg hguard, hcut, hw, Option.bind_some, ← hscale, hz, hzs', hd₁,
      hq, hss, hd₂, hs, Option.map_some]
  · have hi' : i < w.data.length := hwd ▸ hi
    have hiz : i < z.data.length := by
      rw [z.length_data, hzs, ← hws, ← w.length_data]
      exact hi'
    have hb : i / 16 < init.prod * c := by omega
    rw [hqd, Tensor.map_data, List.getD_eq_getElem _ _ (by simpa using hiz), List.getElem_map,
      ← List.getD_eq_getElem z.data 0 hiz, hzd i 0 0 0 hi', hwd, hsd _ hb]
  · rw [hsd', hsd b hb]

theorem projectNvfp4_spec (hx : x.shape = init ++ [16 * c]) :
    ∃ y, projectNvfp4 x = some y ∧ y.shape = x.shape ∧
      ∀ b < init.prod * c, blockOf y.data b = projectBlock (blockOf x.data b) := by
  obtain ⟨q, s, hqs, hq, hs, hqd, hsd⟩ := quantizeNvfp4_spec hx
  obtain ⟨y, hy, hys, hyd⟩ := dequantNvfp4_spec q s init (hq.trans hx) hs
  have hguard : ¬ q.shape.getLastD 0 % 16 ≠ 0 := by simp [hq, hx]
  refine ⟨y, ?_, hys.trans hq, fun b hb => ?_⟩
  · rw [projectNvfp4, hqs, Option.bind_some, dequantizeNvfp4, if_neg hguard, hy]
  · have hlen := length_of_shape hx
    have hqlen : q.data.length = x.data.length := by rw [q.length_data, hq, x.length_data]
    have hylen : y.data.length = init.prod * c * 16 := by
      rw [y.length_data, hys, ← q.length_data, hqlen, hlen]
    apply List.ext_getElem (by rw [length_blockOf hylen hb, projectBlock, List.length_map,
      length_blockOf hlen hb])
    intro j hj _
    have hj16 : j < 16 := length_blockOf hylen hb ▸ hj
    have hi : 16 * b + j < x.data.length := by omega
    have hdiv : (16 * b + j) / 16 = b := by omega
    have hjx : j < (blockOf x.data b).length := by rwa [length_blockOf hlen hb]
    rw [← List.getD_eq_getElem _ 0 hj, getD_blockOf _ _ hj16, hyd _ _ (hqlen ▸ hi), hqd _ hi, hdiv,
      hsd b hb]
    simp only [projectBlock, List.getElem_map]
    rw [← List.getD_eq_getElem _ 0 hjx, getD_blockOf _ _ hj16]

/-- Every tensor that the format takes is projected, and its projection is its own. -/
theorem projectNvfp4_idem (hx : x.shape ≠ []) (hc : x.shape.getLastD 0 % 16 = 0) :
    ∃ y, projectNvfp4 x = some y ∧ projectNvfp4 y = some y := by
  obtain ⟨c, hc⟩ := Nat.dvd_of_mod_eq_zero hc
  have hsh : x.shape = x.shape.dropLast ++ [16 * c] := by
    rw [← hc, List.getLastD_eq_getLast?, List.getLast?_eq_some_getLast hx, Option.getD_some,
      List.dropLast_append_getLast hx]
  obtain ⟨y, hy, hys, hyb⟩ := projectNvfp4_spec hsh
  obtain ⟨z, hz, hzs, hzb⟩ := projectNvfp4_spec (hys.trans hsh)
  refine ⟨y, hy, ?_⟩
  rw [hz]
  refine congrArg some (Tensor.ext hzs ?_)
  apply eq_of_blockOf (length_of_shape ((hzs.trans hys).trans hsh))
    (length_of_shape (hys.trans hsh))
  intro b hb
  rw [hzb b hb, hyb b hb, projectBlock_idem]

/-- One block that the format does not represent exactly. -/
def sevenths : Tensor ℚ := ⟨[1, 16], (List.range 16).map fun i : ℕ => (i : ℚ) / 7, by simp⟩

theorem projectNvfp4_idem_sevenths :
    ∃ y, projectNvfp4 sevenths = some y ∧ projectNvfp4 y = some y :=
  projectNvfp4_idem (by decide) (by decide)

end Tensors

end K8sLearn.Hif4
