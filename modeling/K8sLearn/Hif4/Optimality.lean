import K8sLearn.Hif4.Domination
import K8sLearn.Hif4.Quantize

/-! # Global optimality

Without an importance, a window of nine or more scales around the looked-up position
holds an encoding at least as good as any other of the format. The default thirteen
scales therefore lose nothing against all 255.
-/

namespace K8sLearn.Hif4

theorem searchBlock_optimal {h : ℕ} (h4 : 4 ≤ h) (h127 : h ≤ 127) (w : Block ℚ) {e : Encoding}
    (he : e.Legal) :
    sqDist (weights none) (searchBlock (2 * h + 1) w none).value w ≤
      sqDist (weights none) e.value w := by
  have hp : ∀ i j k, 0 ≤ weights none i j k := fun i j k => zero_le_one
  obtain ⟨i, hi, hes⟩ := mem_generateE6m2Table.mp he.scaleFactor_mem
  rcases Nat.lt_or_ge i (position w) with hpos | hpos
  · obtain ⟨i', e', hi', hlt, hnear, he', hes', hle⟩ := exists_legal_below hi hpos he hes.symm
    refine (searchBlock_le (by omega) hp he' ?_).trans hle
    rw [hes']
    exact mem_candidates (by omega) h127 hi' (by omega) (by omega)
  · obtain ⟨i', e', hi', hge, hnear, he', hes', hle⟩ := exists_legal_above hp hi hpos he hes.symm
    refine (searchBlock_le (by omega) hp he' ?_).trans hle
    rw [hes']
    exact mem_candidates (by omega) h127 hi' (by omega) (by omega)

/-- With thirteen candidates and no importance, every block of the returned parameters is a
best legal encoding of that block, and every tensor that can be cut is quantized. -/
theorem quantizeHif4_optimal (x : Tensor ℚ) (chunkRows : Option ℕ) :
    (Blockable x → chunkRows ≠ some 0 → ∃ p, quantizeHif4 x 13 none chunkRows = some p) ∧
      ∀ p, quantizeHif4 x 13 none chunkRows = some p →
        p.data.length = x.data.length / 64 ∧
        ∀ (b : ℕ) (hb : b < p.data.length), p.data[b].Legal ∧ ∀ e : Encoding, e.Legal →
          sqDist (weights none) p.data[b].value (blockAt x.data b) ≤
            sqDist (weights none) e.value (blockAt x.data b) := by
  refine ⟨fun hb hc => exists_quantizeHif4 (by norm_num) hb (fits_none x) chunkRows hc,
    fun p hp => ?_⟩
  obtain ⟨hlen, hblock⟩ := quantizeHif4_getElem (by norm_num) hp
  refine ⟨hlen, fun b hb => ?_⟩
  obtain ⟨iw, hiw, he⟩ := hblock b hb
  obtain rfl := hiw.of_none rfl
  rw [he]
  exact ⟨searchBlock_legal (by norm_num),
    fun e hle => searchBlock_optimal (h := 6) (by norm_num) (by norm_num) _ hle⟩

/-- One row of 64 equal elements that no encoding represents exactly. -/
def thirds : Tensor ℚ := ⟨[1, 64], List.replicate 64 (1 / 3), rfl⟩

theorem quantizeHif4_optimal_thirds :
    ∃ p, quantizeHif4 thirds 13 none none = some p ∧ p.data.length = 1 ∧
      ∀ (hb : 0 < p.data.length) (e : Encoding), e.Legal →
        sqDist (weights none) p.data[0].value (blockAt thirds.data 0) ≤
          sqDist (weights none) e.value (blockAt thirds.data 0) := by
  obtain ⟨p, hp⟩ := (quantizeHif4_optimal thirds none).1 (by decide) (by simp)
  obtain ⟨hlen, hopt⟩ := (quantizeHif4_optimal thirds none).2 p hp
  exact ⟨p, hp, hlen, fun hb e he => (hopt 0 hb).2 e he⟩

end K8sLearn.Hif4
