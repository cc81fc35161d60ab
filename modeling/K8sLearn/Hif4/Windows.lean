import Mathlib.Algebra.Group.Nat.Even
import K8sLearn.Hif4.Quantize

/-! # Nested windows

The centre of the candidate window is clamped by the half-width, so near the ends of
the scale table windows of two sizes have two centres. The centres are never further
apart than the half-widths are: the windows are nested wherever the target lies, and
a wider one finds an encoding at least as good.
-/

namespace K8sLearn.Hif4

open Rounding

/-- The clamped index at which a window of half-width `h` is centred. -/
def centre (h pos : ℕ) : ℕ := min (max pos h) (254 - h)

theorem mem_e6m2Candidates_iff {target s : ℚ} {h : ℕ} (h2 : 2 ≤ h) (h127 : h ≤ 127) :
    s ∈ e6m2Candidates target (2 * h + 1) ↔ ∃ i < 255, e6m2 i = s ∧
      centre h (searchsorted generateE6m2Table target) ≤ i + h ∧
      i ≤ centre h (searchsorted generateE6m2Table target) + h := by
  have hhalf : (2 * h + 1) / 2 = h := by omega
  simp only [e6m2Candidates, candidateOffsets, hhalf, show ¬ 2 * h + 1 ≤ 4 by omega, if_false,
    List.map_map, List.mem_map, List.mem_range, Function.comp_apply]
  generalize searchsorted generateE6m2Table target = pos
  have hc : clamp (h : ℤ) (254 - h) pos = (centre h pos : ℕ) := by
    simp only [clamp, centre]
    omega
  have hm : h ≤ centre h pos ∧ centre h pos ≤ 254 - h := by
    unfold centre
    omega
  have hself : ∀ t < 2 * h + 1, clamp 0 254 ((centre h pos : ℕ) + ((t : ℤ) - h)) =
      ((centre h pos + t - h : ℕ) : ℤ) := by
    intro t ht
    rw [clamp_eq_self] <;> omega
  rw [hc]
  constructor
  · rintro ⟨t, ht, rfl⟩
    refine ⟨centre h pos + t - h, by omega, ?_, by omega, by omega⟩
    exact (generateE6m2Table_getD (hself t ht) (by omega)).symm
  · rintro ⟨i, hi, rfl, hl, hu⟩
    refine ⟨i + h - centre h pos, by omega, ?_⟩
    refine generateE6m2Table_getD ?_ hi
    rw [hself _ (by omega)]
    omega

theorem centre_near (pos : ℕ) {h₁ h₂ : ℕ} (hle : h₁ ≤ h₂) (h127 : h₂ ≤ 127) :
    centre h₁ pos ≤ centre h₂ pos + (h₂ - h₁) ∧ centre h₂ pos ≤ centre h₁ pos + (h₂ - h₁) := by
  unfold centre
  omega

theorem e6m2Candidates_subset {h₁ h₂ : ℕ} (h2 : 2 ≤ h₁) (hle : h₁ ≤ h₂) (h127 : h₂ ≤ 127)
    (target : ℚ) : e6m2Candidates target (2 * h₁ + 1) ⊆ e6m2Candidates target (2 * h₂ + 1) := by
  intro s hs
  obtain ⟨i, hi, rfl, hl, hu⟩ := (mem_e6m2Candidates_iff h2 (by omega)).mp hs
  have hnear := centre_near (searchsorted generateE6m2Table target) hle h127
  exact (mem_e6m2Candidates_iff (by omega) h127).mpr ⟨i, hi, rfl, by omega, by omega⟩

theorem searchBlock_scaleFactor_mem {n : ℕ} (hn : 2 ≤ n) (w : Block ℚ) (imp : Option (Block ℚ)) :
    (searchBlock n w imp).scaleFactor ∈ candidates n w := by
  obtain ⟨s, hs, he, -⟩ := exists_searchBlock hn w imp
  rw [he]
  exact hs

/-- A wider window finds an encoding of the block at least as good. -/
theorem searchBlock_anti {h₁ h₂ : ℕ} (h2 : 2 ≤ h₁) (hle : h₁ ≤ h₂) (h127 : h₂ ≤ 127)
    (w : Block ℚ) {imp : Option (Block ℚ)} (hp : ∀ i j k, 0 ≤ weights imp i j k) :
    sqDist (weights imp) (searchBlock (2 * h₂ + 1) w imp).value w ≤
      sqDist (weights imp) (searchBlock (2 * h₁ + 1) w imp).value w := by
  have hmem := searchBlock_scaleFactor_mem (n := 2 * h₁ + 1) (by omega) w imp
  exact searchBlock_le (by omega) hp (searchBlock_legal (by omega))
    (e6m2Candidates_subset h2 hle h127 _ hmem)

theorem ImportanceAt.weights_nonneg {x : Tensor ℚ} {imp : Option (Tensor ℚ)} {b : ℕ}
    {iw : Option (Block ℚ)} (h : ImportanceAt x imp b iw)
    (himp : ∀ t, imp = some t → ∀ v ∈ t.data, 0 ≤ v) : ∀ i j k, 0 ≤ weights iw i j k := by
  intro i j k
  cases iw with
  | none => simp
  | some p =>
    cases imp with
    | none => exact absurd (h.of_none rfl) (by simp)
    | some t => exact himp t rfl _ (h.mem t p rfl rfl i j k)

/-- Both window sizes search the same blocks with the same weights, and on every block the
wider window is at least as close. -/
theorem quantizeHif4_wider_window (x : Tensor ℚ) (importance : Option (Tensor ℚ))
    (himp : ∀ t, importance = some t → ∀ v ∈ t.data, 0 ≤ v) (chunkRows : Option ℕ)
    (n₁ n₂ : ℕ) (ho₁ : Odd n₁) (ho₂ : Odd n₂) (h5 : 5 ≤ n₁) (hle : n₁ ≤ n₂) (h255 : n₂ ≤ 255) :
    ((∃ p, quantizeHif4 x n₁ importance chunkRows = some p) ↔
      ∃ p, quantizeHif4 x n₂ importance chunkRows = some p) ∧
    ∀ p₁ p₂, quantizeHif4 x n₁ importance chunkRows = some p₁ →
      quantizeHif4 x n₂ importance chunkRows = some p₂ →
      ∃ q, searchedBlocks x importance chunkRows = some q ∧
        q.data.length = x.data.length / 64 ∧ p₁.data.length = q.data.length ∧
        p₂.data.length = q.data.length ∧
        ∀ (b : ℕ) (w : Block ℚ) (iw : Option (Block ℚ)) (e₁ e₂ : Encoding),
          q.data[b]? = some (w, iw) → p₁.data[b]? = some e₁ → p₂.data[b]? = some e₂ →
          BlockAt x importance b (w, iw) ∧
          sqDist (weights iw) e₂.value w ≤ sqDist (weights iw) e₁.value w := by
  obtain ⟨h₁, rfl⟩ := ho₁
  obtain ⟨h₂, rfl⟩ := ho₂
  rw [quantizeHif4_eq (by omega), quantizeHif4_eq (by omega)]
  constructor
  · simp [Option.map_eq_some_iff]
  · rintro p₁ p₂ hp₁ hp₂
    obtain ⟨q, hq, rfl⟩ := Option.map_eq_some_iff.mp hp₁
    rw [hq, Option.map_some] at hp₂
    obtain rfl := Option.some.inj hp₂
    obtain ⟨-, -, hf⟩ := searchedBlocks_spec hq
    obtain ⟨hlen, hget⟩ := List.forall₂_iff_get.mp hf
    refine ⟨q, hq, by simpa using hlen.symm, by simp, by simp, ?_⟩
    intro b w iw e₁ e₂ hb he₁ he₂
    obtain ⟨hlt, hqb⟩ := List.getElem?_eq_some_iff.mp hb
    have hblock : BlockAt x importance b (w, iw) := by
      simpa [hqb] using hget b (by rw [hlen]; exact hlt) hlt
    refine ⟨hblock, ?_⟩
    simp only [Tensor.map_data, List.getElem?_map, hb, Option.map_some, Option.some.injEq] at he₁ he₂
    rw [← he₁, ← he₂]
    exact searchBlock_anti (by omega) (by omega) (by omega) w (hblock.2.weights_nonneg himp)

/-- One row of 64 elements below the smallest scale, where both windows are clamped. -/
def tinyRow : Tensor ℚ := ⟨[1, 64], List.replicate 64 (2 ^ (-60 : ℤ)), rfl⟩

theorem quantizeHif4_wider_window_tinyRow :
    ∃ (p₁ p₂ : Tensor Encoding) (q : Tensor (Block ℚ × Option (Block ℚ))),
      quantizeHif4 tinyRow 5 none none = some p₁ ∧
      quantizeHif4 tinyRow 7 none none = some p₂ ∧ searchedBlocks tinyRow none none = some q ∧
      q.data.length = 1 ∧
      ∀ (b : ℕ) (w : Block ℚ) (iw : Option (Block ℚ)) (e₁ e₂ : Encoding),
        q.data[b]? = some (w, iw) → p₁.data[b]? = some e₁ → p₂.data[b]? = some e₂ →
        sqDist (weights iw) e₂.value w ≤ sqDist (weights iw) e₁.value w := by
  have hrow : tinyRow.data.length / 64 = 1 := by simp [tinyRow]
  have hmono := quantizeHif4_wider_window tinyRow none (by simp) none 5 7
    (by decide) (by decide) (by norm_num) (by norm_num) (by norm_num)
  obtain ⟨p₁, h₁⟩ := exists_quantizeHif4 (x := tinyRow) (n := 5) (by norm_num) (by decide)
    (fits_none tinyRow) none (by simp)
  obtain ⟨p₂, h₂⟩ := hmono.1.mp ⟨p₁, h₁⟩
  obtain ⟨q, hq, hlen, -, -, hle⟩ := hmono.2 p₁ p₂ h₁ h₂
  exact ⟨p₁, p₂, q, h₁, h₂, hq, hlen.trans hrow, fun b w iw e₁ e₂ hw he₁ he₂ =>
    (hle b w iw e₁ e₂ hw he₁ he₂).2⟩

end K8sLearn.Hif4
