import K8sLearn.Hif4.BlockSearch

/-! # Candidate scales

`_e6m2_candidates` looks the target up in the scale table and takes a window of
entries around the position found, shifted inward at both ends of the table. The
shift loses nothing: every table entry within half a window of the position is
among the candidates.
-/

namespace K8sLearn.Hif4

open Rounding

/-- `torch.searchsorted(table, x)`: the first position whose entry is not below `x`. -/
def searchsorted (table : List ℚ) (x : ℚ) : ℕ := table.findIdx fun v => decide (x ≤ v)

theorem e6m2_lt_iff_lt_searchsorted (x : ℚ) {i : ℕ} (hi : i < 255) :
    e6m2 i < x ↔ i < searchsorted generateE6m2Table x := by
  have hget : ∀ (j : ℕ) (hj : j < generateE6m2Table.length), generateE6m2Table[j] = e6m2 j := by
    intro j hj
    simp [generateE6m2Table_eq]
  constructor
  · intro h
    by_contra hn
    have hle : searchsorted generateE6m2Table x ≤ i := not_lt.mp hn
    have hlen : searchsorted generateE6m2Table x < generateE6m2Table.length := by simp; omega
    have hx := List.findIdx_getElem (w := hlen)
    simp only [decide_eq_true_eq] at hx
    change x ≤ generateE6m2Table[searchsorted generateE6m2Table x] at hx
    rw [hget] at hx
    exact absurd (hx.trans (e6m2_strictMono.monotone hle)) (not_le.mpr h)
  · intro h
    have hx := List.not_of_lt_findIdx h
    rw [hget] at hx
    simpa using hx

theorem searchsorted_le (x : ℚ) : searchsorted generateE6m2Table x ≤ 255 := by
  have h : searchsorted generateE6m2Table x ≤ generateE6m2Table.length := List.findIdx_le_length
  simpa using h

theorem searchsorted_le_of_le {x : ℚ} {i : ℕ} (hi : i < 255) (h : x ≤ e6m2 i) :
    searchsorted generateE6m2Table x ≤ i :=
  not_lt.mp fun hlt => absurd ((e6m2_lt_iff_lt_searchsorted x hi).mpr hlt) (not_lt.mpr h)

theorem searchsorted_e6m2 {i : ℕ} (hi : i < 255) : searchsorted generateE6m2Table (e6m2 i) = i := by
  apply le_antisymm (searchsorted_le_of_le hi le_rfl)
  cases i with
  | zero => exact Nat.zero_le _
  | succ i => exact (e6m2_lt_iff_lt_searchsorted _ (by omega)).mp (e6m2_lt_succ i)

/-- The index offsets of the candidates around the looked-up position. -/
def candidateOffsets (n : ℕ) : List ℤ :=
  if n ≤ 4 then
    if n = 2 then [0, 4]
    else if n = 3 then [-1, 0, 4]
    else [-1, 0, 2, 4]
  else (List.range n).map fun t : ℕ => (t : ℤ) - (n / 2 : ℕ)

def e6m2Candidates (target : ℚ) (n : ℕ) : List ℚ :=
  let half : ℤ := (n / 2 : ℕ)
  let idx := clamp half (254 - half) (searchsorted generateE6m2Table target : ℤ)
  (candidateOffsets n).map fun o => generateE6m2Table.getD (clamp 0 254 (idx + o)).toNat 0

theorem generateE6m2Table_getD {z : ℤ} {i : ℕ} (h : z = i) (hi : i < 255) :
    generateE6m2Table.getD z.toNat 0 = e6m2 i := by
  rw [h, Int.toNat_natCast, generateE6m2Table_eq]
  simp [List.getD, hi]

theorem mem_table_of_mem_e6m2Candidates {target : ℚ} {n : ℕ} {s : ℚ}
    (h : s ∈ e6m2Candidates target n) : s ∈ generateE6m2Table := by
  obtain ⟨o, -, rfl⟩ := List.mem_map.mp h
  generalize clamp _ _ _ + o = z
  have hz := clamp_mem (show (0 : ℤ) ≤ 254 by norm_num) z
  refine mem_generateE6m2Table.mpr ⟨(clamp 0 254 z).toNat, by omega, ?_⟩
  exact (generateE6m2Table_getD (by omega) (by omega)).symm

/-- Every table entry within half a window of the looked-up position is a candidate. -/
theorem mem_e6m2Candidates {target : ℚ} {h i : ℕ} (h2 : 2 ≤ h) (h127 : h ≤ 127) (hi : i < 255)
    (hl : searchsorted generateE6m2Table target ≤ i + h)
    (hu : i ≤ searchsorted generateE6m2Table target + h) :
    e6m2 i ∈ e6m2Candidates target (2 * h + 1) := by
  have hidx := searchsorted_le target
  have hhalf : (2 * h + 1) / 2 = h := by omega
  simp only [e6m2Candidates, candidateOffsets, hhalf, show ¬ 2 * h + 1 ≤ 4 by omega, if_false,
    List.map_map, List.mem_map, List.mem_range, Function.comp_apply]
  generalize searchsorted generateE6m2Table target = idx at *
  have hc : clamp (h : ℤ) (254 - h) idx = min (max (idx : ℤ) h) (254 - h) := rfl
  -- the position inside the window, counted from its left end
  refine ⟨(i + h - min (max (idx : ℤ) h) (254 - h)).toNat, by omega, ?_⟩
  apply generateE6m2Table_getD ?_ hi
  rw [hc, clamp_eq_self] <;> omega

theorem mem_e6m2Candidates_three {target : ℚ} {i : ℕ} (hi : i < 255)
    (hl : searchsorted generateE6m2Table target ≤ i + 1)
    (hu : i ≤ searchsorted generateE6m2Table target) :
    e6m2 i ∈ e6m2Candidates target 3 := by
  have hidx := searchsorted_le target
  simp only [e6m2Candidates, candidateOffsets]
  generalize searchsorted generateE6m2Table target = idx at *
  have hc : clamp (((3 / 2 : ℕ) : ℤ)) (254 - ((3 / 2 : ℕ) : ℤ)) idx =
      min (max (idx : ℤ) 1) 253 := rfl
  rw [hc]
  -- the third offset reaches the last entry when the position is clamped at the top
  have hcase : i + 1 = min (max idx 1) 253 ∨ i = min (max idx 1) 253 ∨
      (i = 254 ∧ min (max idx 1) 253 = 253) := by omega
  have hcast : min (max (idx : ℤ) 1) 253 = ((min (max idx 1) 253 : ℕ) : ℤ) := by push_cast; rfl
  rw [hcast]
  rcases hcase with h | h | ⟨h, h'⟩
  · refine List.mem_map.mpr ⟨-1, by norm_num, generateE6m2Table_getD ?_ hi⟩
    rw [clamp_eq_self] <;> omega
  · refine List.mem_map.mpr ⟨0, by norm_num, generateE6m2Table_getD ?_ hi⟩
    rw [clamp_eq_self] <;> omega
  · refine List.mem_map.mpr ⟨4, by norm_num, generateE6m2Table_getD ?_ hi⟩
    rw [h', h]; rfl

theorem length_candidateOffsets {n : ℕ} (hn : 2 ≤ n) : (candidateOffsets n).length = n := by
  unfold candidateOffsets
  split_ifs with h h' h''
  · simp [h']
  · simp [h'']
  · simp; omega
  · simp

@[simp] theorem length_e6m2Candidates (target : ℚ) (n : ℕ) :
    (e6m2Candidates target n).length = (candidateOffsets n).length := by
  simp [e6m2Candidates]

end K8sLearn.Hif4
