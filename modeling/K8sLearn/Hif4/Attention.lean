import K8sLearn.Hif4.Calibration
import K8sLearn.Hif4.Jacobian
import K8sLearn.Hif4.Smoothing
import K8sLearn.Hif4.Value

/-! # The attention layer

The calibration gives Q and K one rotation, where heads are whole blocks, and measures for
V how much each token is attended to. The online calls rotate Q and K alike, so the logits
are those of the layer; the importance of V is positive for every token. The softmax of a
row and the root of the head size are parameters.
-/

namespace K8sLearn.Hif4

def tabulate (m n : ℕ) (f : ℕ → ℕ → ℚ) : Tensor ℚ where
  shape := [m, n]
  data := (List.range m).flatMap fun i => (List.range n).map (f i)
  length_data := by simp

/-- The statistics of V while the samples are read. -/
structure VStats where
  rho : Tensor ℚ
  outNorm : Option (Tensor ℚ)
  samples : ℕ

section Importance

variable (softmax : List ℚ → List ℚ) (sqrt : ℕ → ℚ) (qHeads kvHeads headDim : ℕ)

/-- The attention of a query head to all tokens, for the token at an index. -/
def attnRow (q k : Tensor ℚ) (h i : ℕ) : List ℚ :=
  softmax ((List.range q.rows).map fun j =>
    (∑ d ∈ Finset.range headDim, headEntry q qHeads headDim h i d *
      headEntry k kvHeads headDim (h / (qHeads / kvHeads)) j d) * (1 / sqrt headDim))

/-- `(attn ** 2).sum(dim=(0, 1))` for the query heads of a group. -/
def tokenEnergy (q k : Tensor ℚ) (g t : ℕ) : ℚ :=
  ∑ u ∈ Finset.range (qHeads / kvHeads), ∑ i ∈ Finset.range q.rows,
    (attnRow softmax sqrt qHeads kvHeads headDim q k (g * (qHeads / kvHeads) + u) i).getD t 0 ^ 2

/-- `(out ** 2).sum(dim=(0, 2))` for the query heads of a group. -/
def outputEnergy (q k v : Tensor ℚ) (g t : ℕ) : ℚ :=
  ∑ u ∈ Finset.range (qHeads / kvHeads), ∑ d ∈ Finset.range headDim,
    (∑ j ∈ Finset.range q.rows,
      (attnRow softmax sqrt qHeads kvHeads headDim q k (g * (qHeads / kvHeads) + u) t).getD j 0 *
        headEntry v kvHeads headDim g j d) ^ 2

/-- The statistics before a first sample of this many tokens. -/
def startStats (seq : ℕ) : VStats where
  rho := tabulate kvHeads seq fun _ _ => 0
  outNorm := if seq ≤ 256 then some (tabulate kvHeads seq fun _ _ => 0) else none
  samples := 0

def statEntry (t : Tensor ℚ) (seq g i : ℕ) : ℚ := t.data.getD (g * seq + i) 0

/-- The body of the loop after the check of the length. -/
def addSample (stats : VStats) (q k : Tensor ℚ) (vPair : Nvfp4) : Option VStats :=
  let seq := q.rows
  if q.data.length ≠ seq * (qHeads * headDim) ∨ k.data.length ≠ seq * (kvHeads * headDim) then none
  else
    let rho := tabulate kvHeads seq fun g t =>
      statEntry stats.rho seq g t + tokenEnergy softmax sqrt qHeads kvHeads headDim q k g t
    match stats.outNorm with
    | none => some ⟨rho, none, stats.samples + 1⟩
    | some outNorm => (dequantNvfp4 vPair.1 vPair.2).bind fun v =>
      if v.data.length ≠ seq * (kvHeads * headDim) then none
      else
        some ⟨rho, some (tabulate kvHeads seq fun g t => statEntry outNorm seq g t +
          outputEnergy softmax sqrt qHeads kvHeads headDim q k v g t), stats.samples + 1⟩

/-- The loop over the samples, which a sample of another length ends. -/
def readSamples : List (QkvSample ℚ) → Option VStats → Option (Option VStats)
  | [], stats => some stats
  | sample :: samples, stats =>
    (dequantNvfp4 sample.q.1 sample.q.2).bind fun q =>
    (dequantNvfp4 sample.k.1 sample.k.2).bind fun k =>
    match stats with
    | none => (addSample softmax sqrt qHeads kvHeads headDim (startStats kvHeads q.rows) q k
        sample.v).bind fun stats => readSamples samples (some stats)
    | some stats =>
      if stats.rho.shape[1]? ≠ some q.rows then some (some stats)
      else (addSample softmax sqrt qHeads kvHeads headDim stats q k sample.v).bind fun stats =>
        readSamples samples (some stats)

def largest (l : List ℚ) : ℚ := l.foldr max 0

/-- `(t / max(n_samples, 1)).clamp(min=1e-8)`. -/
def sampleMean (samples : ℕ) (t : Tensor ℚ) : Tensor ℚ :=
  clampMin (1 / 10 ^ 8) (t.map (· / (max samples 1 : ℕ)))

/-- `rho * (1.0 + alpha * out_norm_n)`. -/
def weighTokens (rho outNorm : Tensor ℚ) : Option (Tensor ℚ) :=
  if outNorm.data = [] then none
  else
    Tensor.broadcastWith (fun r o => r * (1 + 1 / 2 * o)) rho
      (outNorm.map (· / (largest outNorm.data + 1 / 10 ^ 12)))

/-- The statements that follow the loop, where a sample was read. -/
def finishStats (stats : VStats) : Option (Tensor ℚ) :=
  let rho := sampleMean stats.samples stats.rho
  match stats.outNorm with
  | none => some rho
  | some outNorm => weighTokens rho (sampleMean stats.samples outNorm)

def computeVImportance (calibQkvList : List (QkvSample ℚ)) : Option (Tensor ℚ) :=
  if kvHeads = 0 ∨ headDim = 0 then none
  else
    (readSamples softmax sqrt qHeads kvHeads headDim calibQkvList none).bind fun stats =>
    match stats with
    | none => some (sampleMean 0 (full [kvHeads, 1] 1))
    | some stats => finishStats stats

end Importance

structure AttentionStates where
  hadamard : Option (List (List ℚ))
  v : VState

def hif4CalibrationAttention (softmax : List ℚ → List ℚ) (sqrt : ℕ → ℚ) (draw : ℕ → ℕ → Bool)
    (calibQkvList : List (QkvSample ℚ)) (qHeads kvHeads headDim : ℕ) : Option AttentionStates :=
  (computeVImportance softmax sqrt qHeads kvHeads headDim calibQkvList).bind fun rho =>
  (calibrationVState rho headDim).map fun v =>
    ⟨if headDim % 64 = 0 then some (hadamard draw 123) else none, v⟩

def hif4DynamicQuantizeQ (qQuant qScale : Tensor ℚ) (H : Option (List (List ℚ))) :
    Option (Tensor Encoding) :=
  ((dequantNvfp4 qQuant qScale).bind (rotateIfGiven H)).bind fun qFp =>
  quantizeHif4 qFp 13 none none

def hif4DynamicQuantizeK (kQuant kScale : Tensor ℚ) (H : Option (List (List ℚ))) :
    Option (Tensor Encoding) :=
  ((dequantNvfp4 kQuant kScale).bind (rotateIfGiven H)).bind fun kFp =>
  quantizeHif4 kFp 13 none none

section Calibration

variable (softmax : List ℚ → List ℚ) (sqrt : ℕ → ℚ) {qHeads kvHeads headDim seq : ℕ}

/-- The three tensors of a sample are matrices over the same tokens. -/
structure IsSampleOf (qHeads kvHeads headDim seq : ℕ) (sample : QkvSample ℚ) : Prop where
  q : IsMatrix seq (qHeads * headDim) sample.q
  k : IsMatrix seq (kvHeads * headDim) sample.k
  v : IsMatrix seq (kvHeads * headDim) sample.v

structure IsStats (kvHeads seq : ℕ) (stats : VStats) : Prop where
  rho : stats.rho.shape = [kvHeads, seq]
  outNorm : ∀ t ∈ stats.outNorm, t.shape = [kvHeads, seq]

variable (hq64 : 64 ∣ qHeads * headDim) (hk64 : 64 ∣ kvHeads * headDim)

include hk64 in
theorem exists_addSample (stats : VStats) {q k : Tensor ℚ}
    (hq : q.shape = [seq, qHeads * headDim]) (hk : k.shape = [seq, kvHeads * headDim])
    {v : Nvfp4} (hv : IsMatrix seq (kvHeads * headDim) v) :
    ∃ stats', addSample softmax sqrt qHeads kvHeads headDim stats q k v = some stats' ∧
      IsStats kvHeads seq stats' := by
  have hrows : q.rows = seq := by simp [Tensor.rows, hq]
  have hguard : ¬ (q.data.length ≠ seq * (qHeads * headDim) ∨
      k.data.length ≠ seq * (kvHeads * headDim)) := by
    simp [q.length_data, k.length_data, hq, hk]
  obtain ⟨vFp, hvFp, hvs⟩ := hv.exists_dequantNvfp4 hk64
  have hvlen : ¬ vFp.data.length ≠ seq * (kvHeads * headDim) := by simp [vFp.length_data, hvs]
  simp only [addSample, hrows, if_neg hguard]
  cases hout : stats.outNorm with
  | none => exact ⟨_, rfl, rfl, by simp⟩
  | some t =>
    simp only [hvFp, Option.bind_some, if_neg hvlen]
    exact ⟨_, rfl, rfl, by simp [tabulate]⟩

include hq64 hk64 in
theorem exists_readSamples {samples : List (QkvSample ℚ)}
    (h : ∀ sample ∈ samples, ∃ seq, IsSampleOf qHeads kvHeads headDim seq sample)
    {stats : VStats} (hs : IsStats kvHeads seq stats) :
    ∃ stats', readSamples softmax sqrt qHeads kvHeads headDim samples (some stats) =
      some (some stats') ∧ IsStats kvHeads seq stats' := by
  induction samples generalizing stats with
  | nil => exact ⟨stats, rfl, hs⟩
  | cons sample samples ih =>
    obtain ⟨seq', hq, hk, hv⟩ := h sample List.mem_cons_self
    obtain ⟨q, hqd, hqs⟩ := hq.exists_dequantNvfp4 hq64
    obtain ⟨k, hkd, hks⟩ := hk.exists_dequantNvfp4 hk64
    have hrows : q.rows = seq' := by simp [Tensor.rows, hqs]
    simp only [readSamples, hqd, hkd, Option.bind_some]
    split_ifs with hne
    · exact ⟨stats, rfl, hs⟩
    · obtain rfl : seq = seq' := by simpa [hs.rho, hrows] using hne
      obtain ⟨stats', hadd, hs'⟩ :=
        exists_addSample softmax sqrt hk64 stats hqs hks hv
      rw [hadd, Option.bind_some]
      exact ih (fun s hm => h s (List.mem_cons_of_mem _ hm)) hs'

theorem pos_of_mem_sampleMean {samples : ℕ} {t : Tensor ℚ} {v : ℚ}
    (hv : v ∈ (sampleMean samples t).data) : 0 < v := by
  obtain ⟨u, -, rfl⟩ := List.mem_map.mp hv
  exact lt_max_of_lt_right (by positivity)

theorem largest_nonneg (l : List ℚ) : 0 ≤ largest l := by
  induction l with
  | nil => exact le_rfl
  | cons a l ih => exact ih.trans (le_max_right _ _)

theorem exists_weighTokens {rho outNorm : Tensor ℚ} (hs : outNorm.shape = rho.shape)
    (hne : outNorm.data ≠ []) (hr : ∀ r ∈ rho.data, 0 < r) (ho : ∀ o ∈ outNorm.data, 0 < o) :
    ∃ t, weighTokens rho outNorm = some t ∧ t.shape = rho.shape ∧ ∀ v ∈ t.data, 0 < v := by
  have he : Tensor.Expandable (outNorm.map (· / (largest outNorm.data + 1 / 10 ^ 12))).shape.reverse
      rho.shape.reverse := by
    have hs' : (outNorm.map (· / (largest outNorm.data + 1 / 10 ^ 12))).shape = rho.shape := hs
    rw [hs']
    exact Tensor.expandable_self _
  obtain ⟨t, ht, hts, -⟩ :=
    Tensor.broadcastWith_getD (f := fun r o : ℚ => r * (1 + 1 / 2 * o)) he
  refine ⟨t, by rw [weighTokens, if_neg hne, ht], hts, ?_⟩
  intro v hv
  obtain ⟨r, hrm, z, hz, rfl⟩ := Tensor.mem_broadcastWith ht hv
  obtain ⟨o, hom, rfl⟩ := List.mem_map.mp hz
  have hlargest := largest_nonneg outNorm.data
  have ho' := ho o hom
  have hr' := hr r hrm
  positivity

theorem exists_finishStats {stats : VStats} (hs : IsStats kvHeads seq stats) (hkv : 0 < kvHeads)
    (hseq : 0 < seq) :
    ∃ rho, finishStats stats = some rho ∧ rho.shape = [kvHeads, seq] ∧ ∀ r ∈ rho.data, 0 < r := by
  unfold finishStats
  cases hout : stats.outNorm with
  | none => exact ⟨_, rfl, hs.rho, fun r hr => pos_of_mem_sampleMean hr⟩
  | some t =>
    have hts : (sampleMean stats.samples t).shape = [kvHeads, seq] := hs.outNorm t hout
    have hrs : (sampleMean stats.samples stats.rho).shape = [kvHeads, seq] := hs.rho
    have hne : (sampleMean stats.samples t).data ≠ [] := by
      apply List.ne_nil_of_length_pos
      rw [Tensor.length_data, hts]
      simp [hkv, hseq]
    obtain ⟨rho, hrho, hs', hpos⟩ := exists_weighTokens (hts.trans hrs.symm) hne
      (fun r hr => pos_of_mem_sampleMean hr) (fun o ho => pos_of_mem_sampleMean ho)
    exact ⟨rho, hrho, hs'.trans hrs, hpos⟩

include hq64 hk64 in
theorem exists_computeVImportance (hkv : 0 < kvHeads) (hdim : 0 < headDim) {calib : List (QkvSample ℚ)}
    (h : ∀ sample ∈ calib, ∃ seq, IsSampleOf qHeads kvHeads headDim seq sample) :
    ∃ rho calibSeq, computeVImportance softmax sqrt qHeads kvHeads headDim calib = some rho ∧
      0 < calibSeq ∧ rho.shape = [kvHeads, calibSeq] ∧ ∀ r ∈ rho.data, 0 < r := by
  have hguard : ¬ (kvHeads = 0 ∨ headDim = 0) := by omega
  rw [computeVImportance, if_neg hguard]
  cases calib with
  | nil => exact ⟨_, 1, rfl, one_pos, rfl, fun r hr => pos_of_mem_sampleMean hr⟩
  | cons sample calib =>
    obtain ⟨seq, hq, hk, hv⟩ := h sample List.mem_cons_self
    obtain ⟨q, hqd, hqs⟩ := hq.exists_dequantNvfp4 hq64
    obtain ⟨k, hkd, hks⟩ := hk.exists_dequantNvfp4 hk64
    have hrows : q.rows = seq := by simp [Tensor.rows, hqs]
    obtain ⟨stats, hadd, hs⟩ :=
      exists_addSample softmax sqrt hk64 (startStats kvHeads seq) hqs hks hv
    obtain ⟨stats, hread, hs⟩ := exists_readSamples softmax sqrt hq64 hk64
      (fun s hm => h s (List.mem_cons_of_mem _ hm)) hs
    obtain ⟨rho, hrho, hshape, hpos⟩ := exists_finishStats hs hkv hq.1
    refine ⟨rho, seq, ?_, hq.1, hshape, hpos⟩
    simp only [readSamples, hqd, hkd, Option.bind_some, hrows, hadd, hread, hrho]

end Calibration

section Online

variable {kvHeads headDim calibSeq seq : ℕ} {rho : Tensor ℚ}

theorem exists_vState (headDim : ℕ) (hs : rho.shape = [kvHeads, calibSeq]) :
    ∃ mean, calibrationVState rho headDim = some ⟨some rho, some mean, some calibSeq⟩ ∧
      mean.shape = [kvHeads * headDim] := by
  obtain ⟨u, hu, hus⟩ : ∃ u, meanRows rho = some u ∧ u.shape = [kvHeads] := by
    unfold meanRows
    split
    case h_1 m n hmn =>
      obtain ⟨rfl, rfl⟩ : kvHeads = m ∧ calibSeq = n := by simpa [hs] using hmn
      exact ⟨_, rfl, rfl⟩
    case h_2 hne => exact absurd hs (hne _ _)
  obtain ⟨mean, hrep, hms, -⟩ := repeatInterleave_eq [] headDim hus
  exact ⟨mean, by simp [calibrationVState, hs, hu, hrep], hms⟩

theorem exists_vImportance (hs : rho.shape = [kvHeads, calibSeq]) {mean x : Tensor ℚ}
    (hms : mean.shape = [kvHeads * headDim]) (hx : x.shape = [seq, kvHeads * headDim]) :
    ∃ imp, vImportance x kvHeads headDim ⟨some rho, some mean, some calibSeq⟩ = some imp ∧
      Fits x imp := by
  by_cases hseq : x.rows = calibSeq
  · obtain ⟨u, hu, hus⟩ : ∃ u, transpose rho = some u ∧ u.shape = [calibSeq] ++ [kvHeads] := by
      unfold transpose
      split
      case h_1 m n hmn =>
        obtain ⟨rfl, rfl⟩ : kvHeads = m ∧ calibSeq = n := by simpa [hs] using hmn
        exact ⟨_, rfl, rfl⟩
      case h_2 hne => exact absurd hs (hne _ _)
    obtain ⟨t, hrep, hts, -⟩ := repeatInterleave_eq [calibSeq] headDim hus
    refine ⟨some t, ?_, by simp [hx], .inl ?_⟩
    · simp [vImportance, if_pos hseq, hu, hrep, hts, hx]
    · rw [hts, hx, ← hseq, Tensor.rows, hx]
      rfl
  · refine ⟨some mean, ?_, by simp [hx], .inr ?_⟩
    · simp [vImportance, if_neg hseq, meanImportance, hms]
    · rw [hms, hx]
      rfl

theorem exists_quantizeV (hs : rho.shape = [kvHeads, calibSeq]) {mean : Tensor ℚ}
    (hms : mean.shape = [kvHeads * headDim]) (hk64 : 64 ∣ kvHeads * headDim) {v : Nvfp4}
    (hv : IsMatrix seq (kvHeads * headDim) v) :
    ∃ p x imp, hif4DynamicQuantizeV v.1 v.2 kvHeads headDim
      (some ⟨some rho, some mean, some calibSeq⟩) = some p ∧ x.shape = v.1.shape ∧
      quantizeHif4 x 13 imp none = some p := by
  obtain ⟨x, hx, hxs⟩ := hv.exists_dequantNvfp4 hk64
  obtain ⟨imp, himp, hfits⟩ := exists_vImportance hs hms hxs
  have hb : Blockable x :=
    ⟨by simp [hxs], by simpa [hxs] using Nat.mod_eq_zero_of_dvd hk64, by simp [hxs, hv.1.ne']⟩
  obtain ⟨p, hp⟩ := exists_quantizeHif4 (show 2 ≤ 13 by norm_num) hb hfits none (by simp)
  exact ⟨p, x, imp, by simp only [hif4DynamicQuantizeV, hx, Option.bind_some, himp, hp],
    hxs.trans hv.2.1.symm, hp⟩

end Online

section Logits

variable {qHeads kvHeads headDim seq : ℕ} {q k : Tensor ℚ}

theorem getD_full {heads headDim h d : ℕ} (hh : h < heads) (hd : d < headDim) :
    (full [heads * headDim] 1).data.getD (h * headDim + d) 0 = 1 := by
  have hlt : h * headDim + d < heads * headDim := by
    calc h * headDim + d < (h + 1) * headDim := by rw [Nat.succ_mul]; omega
      _ ≤ heads * headDim := Nat.mul_le_mul_right headDim hh
  simp [full, hlt]

theorem groupScale_full (kvHeads group headDim : ℕ) :
    GroupScale kvHeads group headDim (fun _ _ => (1 : ℚ)) (full [kvHeads * group * headDim] 1)
      (full [kvHeads * headDim] 1) := by
  constructor
  · exact fun _ _ => one_pos
  · rfl
  · rfl
  · exact fun _ hh _ hd => getD_full hh hd
  · exact fun _ hg _ hd => getD_full hg hd

theorem exists_rotated_logits (sqrt : ℕ → ℚ) {H : List (List ℚ)} (h : Orthonormal 64 H)
    (hkv : 0 < kvHeads) (hdvd : kvHeads ∣ qHeads) (hq : q.shape = [seq, qHeads * headDim])
    (hk : k.shape = [seq, kvHeads * headDim]) :
    ∃ qRot kRot s,
      rotateIfGiven (if headDim % 64 = 0 then some H else none) q = some qRot ∧
      rotateIfGiven (if headDim % 64 = 0 then some H else none) k = some kRot ∧
      qRot.shape = q.shape ∧ kRot.shape = k.shape ∧
      attentionScores sqrt q k qHeads kvHeads headDim = some s ∧
      attentionScores sqrt qRot kRot qHeads kvHeads headDim = some s := by
  split_ifs with hdim
  · have h64 := Nat.dvd_of_mod_eq_zero hdim
    have hlen : 0 < H.length := by simp [h.length_eq]
    have hq' : q.shape = [seq] ++ [qHeads * headDim] := hq
    have hk' : k.shape = [seq] ++ [kvHeads * headDim] := hk
    obtain ⟨qRot, hqr, hqs, -⟩ :=
      exists_applyHadamard hq' hlen (h.length_eq.symm ▸ Dvd.dvd.mul_left h64 qHeads)
    obtain ⟨kRot, hkr, hks, -⟩ :=
      exists_applyHadamard hk' hlen (h.length_eq.symm ▸ Dvd.dvd.mul_left h64 kvHeads)
    obtain ⟨q', k', s, hq'', hk'', -, hs, hs'⟩ := h.attentionScores_smooth (by norm_num) sqrt
      (groupScale_full kvHeads (qHeads / kvHeads) headDim) hq hk hkv hdvd h64
    rw [Nat.mul_div_cancel' hdvd, broadcastWith_ones (fun a => div_one a) hq, Option.bind_some,
      hqr] at hq''
    rw [broadcastWith_ones (fun a => mul_one a) hk, Option.bind_some, hkr] at hk''
    obtain rfl := Option.some.inj hq''
    obtain rfl := Option.some.inj hk''
    exact ⟨qRot, kRot, s, hqr, hkr, hqs, hks, hs, hs'⟩
  · obtain ⟨s, hs, -⟩ := attentionScores_eq sqrt hq hk hkv hdvd
    exact ⟨q, k, s, rfl, rfl, rfl, rfl, hs, hs⟩

end Logits

theorem exists_quantizeQ {hidden seq : ℕ} (h64 : 64 ∣ hidden) {pair : Nvfp4}
    (hp : IsMatrix seq hidden pair) {H : Option (List (List ℚ))} {fp rot : Tensor ℚ}
    (hfp : dequantNvfp4 pair.1 pair.2 = some fp) (hrot : rotateIfGiven H fp = some rot)
    (hs : rot.shape = [seq, hidden]) :
    ∃ p, hif4DynamicQuantizeQ pair.1 pair.2 H = some p ∧
      quantizeHif4 rot 13 none none = some p := by
  obtain ⟨p, hq⟩ := exists_quantizeHif4_matrix (n := 13) (by norm_num) hs hp.1 h64
    (show ∀ t ∈ (none : Option (Tensor ℚ)), t.shape = [hidden] by simp)
  exact ⟨p, by simp only [hif4DynamicQuantizeQ, hfp, Option.bind_some, hrot, hq], hq⟩

theorem hif4DynamicQuantizeK_eq : hif4DynamicQuantizeK = hif4DynamicQuantizeQ := rfl

theorem exists_attentionCalibration (softmax : List ℚ → List ℚ) (sqrt : ℕ → ℚ)
    (draw : ℕ → ℕ → Bool) {qHeads kvHeads headDim : ℕ} (hkv : 0 < kvHeads) (hdim : 0 < headDim)
    (hq64 : 64 ∣ qHeads * headDim) (hk64 : 64 ∣ kvHeads * headDim) {calib : List (QkvSample ℚ)}
    (hcalib : ∀ sample ∈ calib, ∃ seq, IsSampleOf qHeads kvHeads headDim seq sample) :
    ∃ rho mean calibSeq,
      hif4CalibrationAttention softmax sqrt draw calib qHeads kvHeads headDim =
        some ⟨if headDim % 64 = 0 then some (hadamard draw 123) else none,
          ⟨some rho, some mean, some calibSeq⟩⟩ ∧
      (∀ r ∈ rho.data, 0 < r) ∧ rho.shape = [kvHeads, calibSeq] ∧
      mean.shape = [kvHeads * headDim] := by
  obtain ⟨rho, calibSeq, hrho, -, hshape, hpos⟩ :=
    exists_computeVImportance softmax sqrt hq64 hk64 hkv hdim hcalib
  obtain ⟨mean, hv, hms⟩ := exists_vState headDim hshape
  refine ⟨rho, mean, calibSeq, ?_, hpos, hshape, hms⟩
  rw [hif4CalibrationAttention, hrho, Option.bind_some, hv, Option.map_some]

/-- On samples with whole blocks the calibration and every online call return, every token has
a positive importance, and the two matrices quantized for Q and K have the logits of the
layer. -/
theorem attention_logits_kept (softmax : List ℚ → List ℚ) (sqrt : ℕ → ℚ) (draw : ℕ → ℕ → Bool)
    {qHeads kvHeads headDim : ℕ} (hkv : 0 < kvHeads) (hdvd : kvHeads ∣ qHeads) (hdim : 0 < headDim)
    (hq64 : 64 ∣ qHeads * headDim) (hk64 : 64 ∣ kvHeads * headDim) {calib : List (QkvSample ℚ)}
    (hcalib : ∀ sample ∈ calib, ∃ seq, IsSampleOf qHeads kvHeads headDim seq sample) :
    ∃ states rho,
      hif4CalibrationAttention softmax sqrt draw calib qHeads kvHeads headDim = some states ∧
      states.v.rho = some rho ∧ (∀ r ∈ rho.data, 0 < r) ∧
      ∀ seq (sample : QkvSample ℚ), IsSampleOf qHeads kvHeads headDim seq sample →
        ∃ q k qRot kRot pq pk pv s,
          dequantNvfp4 sample.q.1 sample.q.2 = some q ∧
          dequantNvfp4 sample.k.1 sample.k.2 = some k ∧
          hif4DynamicQuantizeQ sample.q.1 sample.q.2 states.hadamard = some pq ∧
          quantizeHif4 qRot 13 none none = some pq ∧
          hif4DynamicQuantizeK sample.k.1 sample.k.2 states.hadamard = some pk ∧
          quantizeHif4 kRot 13 none none = some pk ∧
          hif4DynamicQuantizeV sample.v.1 sample.v.2 kvHeads headDim (some states.v) = some pv ∧
          attentionScores sqrt q k qHeads kvHeads headDim = some s ∧
          attentionScores sqrt qRot kRot qHeads kvHeads headDim = some s := by
  obtain ⟨rho, mean, calibSeq, hcal, hpos, hshape, hms⟩ :=
    exists_attentionCalibration softmax sqrt draw hkv hdim hq64 hk64 hcalib
  refine ⟨_, rho, hcal, rfl, hpos, ?_⟩
  rintro seq sample ⟨hq, hk, hv⟩
  obtain ⟨q, hqd, hqs⟩ := hq.exists_dequantNvfp4 hq64
  obtain ⟨k, hkd, hks⟩ := hk.exists_dequantNvfp4 hk64
  obtain ⟨qRot, kRot, s, hqr, hkr, hqrs, hkrs, hs, hs'⟩ :=
    exists_rotated_logits sqrt (hadamard_orthonormal draw 123) hkv hdvd hqs hks
  obtain ⟨pq, hpq, hpq'⟩ := exists_quantizeQ hq64 hq hqd hqr (hqrs.trans hqs)
  obtain ⟨pk, hpk, hpk'⟩ := exists_quantizeQ hk64 hk hkd hkr (hkrs.trans hks)
  obtain ⟨pv, -, -, hpv, -⟩ := exists_quantizeV hshape hms hk64 hv
  rw [hif4DynamicQuantizeK_eq]
  exact ⟨q, k, qRot, kRot, pq, pk, pv, s, hqd, hkd, hpq, hpq', hpk, hpk', hpv, hs, hs'⟩

def evenSoftmax (logits : List ℚ) : List ℚ := logits.map fun _ => 1 / logits.length

/-- Two query heads over one head of K and V, calibrated on one token; the root of the head
dimension is 8. -/
theorem attention_logits_kept_ones :
    ∃ states rho,
      hif4CalibrationAttention evenSoftmax (fun n => n.sqrt) (fun _ _ => true)
        [⟨(full [1, 128] 1, full [1, 8] 1), (full [1, 64] 1, full [1, 4] 1),
          (full [1, 64] 1, full [1, 4] 1)⟩] 2 1 64 = some states ∧
      states.v.rho = some rho ∧ ∀ r ∈ rho.data, 0 < r := by
  have hsample : IsSampleOf 2 1 64 1 ⟨(full [1, 128] 1, full [1, 8] 1),
      (full [1, 64] 1, full [1, 4] 1), (full [1, 64] 1, full [1, 4] 1)⟩ :=
    ⟨⟨one_pos, rfl, rfl⟩, ⟨one_pos, rfl, rfl⟩, ⟨one_pos, rfl, rfl⟩⟩
  obtain ⟨states, rho, hcal, hrho, hpos, -⟩ := attention_logits_kept evenSoftmax (fun n => n.sqrt)
    (fun _ _ => true) (show 0 < 1 by norm_num) (show 1 ∣ 2 by norm_num) (show 0 < 64 by norm_num)
    (by norm_num) (by norm_num) (fun sample hs => ⟨1, List.mem_singleton.mp hs ▸ hsample⟩)
  exact ⟨states, rho, hcal, hrho, hpos⟩

end K8sLearn.Hif4
