import K8sLearn.Hif4.Quantize

/-! # The reference quantizer

`standard_hif4_quantize` rounds a seventh of the largest element to the nearest scale
and picks the micro-exponents by thresholds on the group maxima. Its parameters are
legal and its scale is the looked-up entry or the one before it, so the search, which
tries both, is never worse.
-/

namespace K8sLearn.Hif4

open Rounding

def quantizeToE6m2 (x : ℚ) : ℚ :=
  if 0 < x then
    let xNz := clamp (2 ^ (-48 : ℤ)) 49152 x
    let idx : ℤ := searchsorted generateE6m2Table xNz
    let valLo := generateE6m2Table.getD (clamp 0 254 (idx - 1)).toNat 0
    let valHi := generateE6m2Table.getD (clamp 0 254 idx).toNat 0
    if |xNz - valHi| < |xNz - valLo| then valHi else valLo
  else 0

/-- `standard_hif4_quantize` for one block. -/
def standardBlock (x : Block ℚ) : Encoding :=
  let vmax := amax x
  let sf := quantizeToE6m2 (vmax / 7)
  let sfSafe := max sf (2 ^ (-48 : ℤ))
  let v8 i := Finset.univ.sup' Finset.univ_nonempty fun t : Fin 2 × Fin 4 => |x i t.1 t.2|
  let lv2 i : ℚ := if 4 ≤ v8 i / sfSafe then 2 else 1
  let v4 i j := Finset.univ.sup' Finset.univ_nonempty fun k : Fin 4 => |x i j k|
  let lv3 i j : ℚ := if 2 ≤ v4 i j / max (sfSafe * lv2 i) (1 / 10 ^ 38) then 2 else 1
  let d i j := max (sfSafe * lv2 i * lv3 i j) (1 / 10 ^ 38)
  { scaleFactor := if 0 < vmax then sf else 2 ^ (-48 : ℤ)
    scaleLv2 := lv2
    scaleLv3 := lv3
    sign := fun i j k => SignType.sign (x i j k)
    mant := fun i j k => (clamp 0 7 (roundHalfEven (|x i j k| * 4 / d i j)) : ℤ) * (1 / 4) }

/-- `standard_hif4_quantize`; the reshape to rows infers an axis, which an empty last axis
leaves undetermined. -/
def standardHif4Quantize (x : Tensor ℚ) : Option (Tensor Encoding) :=
  let prefixShape := x.shape.dropLast
  let c := x.shape.getLastD 0
  if x.shape = [] ∨ c = 0 then none
  else if prefixShape.prod * c ≠ prefixShape.prod * (c / 64 * 64) then none
  else
    some {
      shape := prefixShape ++ [c / 64]
      data := (List.range (prefixShape.prod * (c / 64))).map fun b =>
        standardBlock (blockAt x.data b)
      length_data := by simp }

theorem e6m2_last : e6m2 254 = 49152 := by norm_num [e6m2]

/-- The nearest scale is the looked-up entry or the one before it, also where the value is
clamped to the range of the table. -/
theorem quantizeToE6m2_eq {x : ℚ} (hx : 0 < x) :
    ∃ i < 255, quantizeToE6m2 x = e6m2 i ∧
      searchsorted generateE6m2Table (max x (2 ^ (-48 : ℤ))) ≤ i + 1 ∧
      i ≤ searchsorted generateE6m2Table (max x (2 ^ (-48 : ℤ))) := by
  unfold quantizeToE6m2 clamp
  rw [if_pos hx]
  dsimp only
  generalize max x (2 ^ (-48 : ℤ)) = y
  have hcl : ∀ (z : ℤ) (i : ℕ), min (max z 0) 254 = i →
      generateE6m2Table.getD (min (max z 0) 254).toNat 0 = e6m2 i := by
    intro z i hz
    exact generateE6m2Table_getD hz (by omega)
  rcases le_or_gt y 49152 with hy | hy
  · have hidx := searchsorted_le_of_le (x := y) (i := 254) (by norm_num) (by rwa [e6m2_last])
    rw [min_eq_left hy]
    generalize searchsorted generateE6m2Table y = idx at hidx ⊢
    rw [hcl (idx - 1) (idx - 1) (by omega), hcl idx idx (by omega)]
    split_ifs
    · exact ⟨idx, by omega, rfl, by omega, le_rfl⟩
    · exact ⟨idx - 1, by omega, rfl, by omega, by omega⟩
  · -- above the table the clamped value is the last entry, which is nearest to itself
    have hle := searchsorted_le y
    have hlast : 254 < searchsorted generateE6m2Table y :=
      (e6m2_lt_iff_lt_searchsorted y (by norm_num)).mp (by rwa [e6m2_last])
    rw [min_eq_right hy.le, ← e6m2_last, searchsorted_e6m2 (by norm_num),
      hcl ((254 : ℕ) : ℤ) 254 (by norm_num), hcl (((254 : ℕ) : ℤ) - 1) 253 (by norm_num)]
    have hgap := sub_pos.mpr (e6m2_lt_succ 253)
    rw [if_pos (by rw [sub_self, abs_zero]; exact abs_pos.mpr hgap.ne')]
    exact ⟨254, by norm_num, rfl, by omega, hlast.le⟩

theorem standardBlock_scaleFactor (x : Block ℚ) :
    ∃ i < 255, (standardBlock x).scaleFactor = e6m2 i ∧ position x ≤ i + 1 ∧ i ≤ position x := by
  simp only [standardBlock]
  split_ifs with h
  · exact quantizeToE6m2_eq (div_pos h (by norm_num))
  · have h0 : amax x = 0 := le_antisymm (not_lt.mp h) (amax_nonneg x)
    have ht : target x = e6m2 0 := by
      rw [target, h0, e6m2_zero, zero_div, max_eq_right (by positivity)]
    have hpos : position x = 0 := by
      rw [position, ht, searchsorted_e6m2 (by norm_num)]
    exact ⟨0, by norm_num, e6m2_zero.symm, by omega, by omega⟩

theorem standardBlock_legal (x : Block ℚ) : (standardBlock x).Legal where
  scaleFactor_mem := by
    obtain ⟨i, hi, he, -⟩ := standardBlock_scaleFactor x
    rw [he]
    exact e6m2_mem hi
  scaleLv2_mem i := by
    simp only [standardBlock]
    split_ifs <;> simp
  scaleLv3_mem i j := by
    simp only [standardBlock]
    split_ifs <;> simp
  sign_mem i j k := by
    simp only [standardBlock]
    cases SignType.sign (x i j k) <;> simp
  mant_mem i j k := by
    simp only [standardBlock]
    generalize roundHalfEven (_ : ℚ) = m
    have hm := clamp_mem (show (0 : ℤ) ≤ 7 by norm_num) m
    refine ⟨(clamp 0 7 m).toNat, by omega, ?_⟩
    have hc : (((clamp 0 7 m).toNat : ℤ) : ℚ) = (clamp 0 7 m : ℤ) := by
      rw [Int.toNat_of_nonneg hm.1]
    rw [← hc]
    push_cast
    ring

theorem standardBlock_mem_candidates {n : ℕ} (hn : n = 3 ∨ Odd n ∧ 5 ≤ n ∧ n ≤ 255)
    (x : Block ℚ) : (standardBlock x).scaleFactor ∈ candidates n x := by
  obtain ⟨i, hi, he, hl, hu⟩ := standardBlock_scaleFactor x
  rw [he]
  rcases hn with rfl | ⟨⟨h, rfl⟩, h5, h255⟩
  · exact mem_candidates_three hi hl hu
  · exact mem_candidates (by omega) (by omega) hi (by omega) (by omega)

theorem standardHif4Quantize_spec {x : Tensor ℚ} {q : Tensor Encoding}
    (h : standardHif4Quantize x = some q) :
    q.shape = x.shape.dropLast ++ [x.shape.getLastD 0 / 64] ∧
      ∀ (b : ℕ) (hb : b < q.data.length), q.data[b] = standardBlock (blockAt x.data b) := by
  unfold standardHif4Quantize at h
  extract_lets prefixShape c at h
  split_ifs at h
  cases h
  exact ⟨rfl, fun b hb => by simp⟩

theorem exists_standardHif4Quantize {x : Tensor ℚ} (hb : Blockable x)
    (hc : x.shape.getLastD 0 ≠ 0) : ∃ q, standardHif4Quantize x = some q := by
  obtain ⟨hs, hm, -⟩ := hb
  have hd : x.shape.getLastD 0 = x.shape.getLastD 0 / 64 * 64 := by omega
  unfold standardHif4Quantize
  extract_lets prefixShape c
  rw [if_neg (not_or.mpr ⟨hs, hc⟩), if_neg (not_not.mpr (congrArg _ hd))]
  exact ⟨_, rfl⟩

/-- Every block of the searched parameters is at most as far from the tensor, in the metric of
the importance, as that block of the reference parameters. Both return on every tensor that can
be cut into at least one block, with an importance of its shape when it has a second axis. -/
theorem quantizeHif4_le_standard (x : Tensor ℚ) (imp : Option (Tensor ℚ))
    (himp : ∀ t, imp = some t → t.shape = x.shape ∧ ∀ a ∈ t.data, 0 ≤ a) (n : ℕ)
    (hn : n = 3 ∨ Odd n ∧ 5 ≤ n ∧ n ≤ 255) (chunkRows : Option ℕ) :
    (Blockable x → x.shape.getLastD 0 ≠ 0 → imp = none ∨ 1 < x.shape.length →
      chunkRows ≠ some 0 →
      (∃ p, quantizeHif4 x n imp chunkRows = some p) ∧ ∃ q, standardHif4Quantize x = some q) ∧
    ∀ p q, quantizeHif4 x n imp chunkRows = some p → standardHif4Quantize x = some q →
      p.shape = q.shape ∧
      ∀ (b : ℕ) (hp : b < p.data.length) (hq : b < q.data.length),
        sqDist (weights (imp.map fun t => blockAt t.data b)) p.data[b].value (blockAt x.data b) ≤
          sqDist (weights (imp.map fun t => blockAt t.data b)) q.data[b].value
            (blockAt x.data b) := by
  have hn2 : 2 ≤ n := by
    rcases hn with rfl | ⟨-, h5, -⟩ <;> omega
  constructor
  · rintro hb hc hi hch
    have hfit : Fits x imp := by
      cases imp with
      | none => exact fits_none x
      | some t => exact ⟨hi.resolve_left (by simp), Or.inl (himp t rfl).1⟩
    exact ⟨exists_quantizeHif4 hn2 hb hfit chunkRows hch, exists_standardHif4Quantize hb hc⟩
  · rintro p q hp hq
    obtain ⟨-, hblock⟩ := quantizeHif4_getElem hn2 hp
    obtain ⟨-, hshape, -⟩ := quantizeHif4_spec hn2 hp
    obtain ⟨hqshape, hqblock⟩ := standardHif4Quantize_spec hq
    refine ⟨hshape.trans hqshape.symm, fun b hbp hbq => ?_⟩
    obtain ⟨iw, hiw, he⟩ := hblock b hbp
    have hiw' : iw = imp.map fun t => blockAt t.data b := by
      cases imp with
      | none => exact hiw.of_none rfl
      | some t => exact hiw.of_shape_eq t rfl (himp t rfl).1
    have hnonneg : ∀ i j k, 0 ≤ weights iw i j k := by
      cases iw with
      | none => exact fun i j k => zero_le_one
      | some p =>
        obtain ⟨t, ht, -⟩ := Option.map_eq_some_iff.mp hiw'.symm
        exact fun i j k => (himp t ht).2 _ (hiw.mem t p ht rfl i j k)
    rw [← hiw', he, hqblock b hbq]
    exact searchBlock_le hn2 hnonneg (standardBlock_legal _) (standardBlock_mem_candidates hn _)

/-- Sixty-four elements that grow by a third, with their indices as importance. -/
def ramp : Tensor ℚ := ⟨[1, 64], (List.range 64).map fun i : ℕ => (i : ℚ) / 3, by simp⟩

theorem quantizeHif4_le_standard_ramp :
    ∃ p q, quantizeHif4 ramp 5 (some ramp) none = some p ∧ standardHif4Quantize ramp = some q ∧
      ∀ (hp : 0 < p.data.length) (hq : 0 < q.data.length),
        sqDist (blockAt ramp.data 0) p.data[0].value (blockAt ramp.data 0) ≤
          sqDist (blockAt ramp.data 0) q.data[0].value (blockAt ramp.data 0) := by
  have himp : ∀ t, some ramp = some t → t.shape = ramp.shape ∧ ∀ a ∈ t.data, 0 ≤ a := by
    rintro t ⟨⟩
    refine ⟨rfl, fun a ha => ?_⟩
    obtain ⟨i, -, rfl⟩ := List.mem_map.mp ha
    positivity
  have h := quantizeHif4_le_standard ramp (some ramp) himp 5 (Or.inr (by decide)) none
  obtain ⟨⟨p, hp⟩, q, hq⟩ := h.1 (by decide) (by decide) (Or.inr (by decide)) (by simp)
  exact ⟨p, q, hp, hq, fun hbp hbq => (h.2 p q hp hq).2 0 hbp hbq⟩

end K8sLearn.Hif4
