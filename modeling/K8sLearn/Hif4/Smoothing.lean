import Mathlib.Analysis.SpecialFunctions.Pow.Real
import K8sLearn.Hif4.Format
import K8sLearn.Hif4.Rotation
import K8sLearn.Lib.Lists

/-! # Smoothing Q and K

`_compute_qk_smooth_scale` finds one positive factor for each channel of a group of heads.
Q is divided by it, repeated for each query head of the group, and K is multiplied by it.
`_attention` pairs each query head with the key head of its group, so the factors cancel in
the logits, and a rotation of both sides is orthogonal.
-/

namespace K8sLearn.Hif4

theorem head_index {heads headDim h i d : ℕ} (hh : h < heads) (hd : d < headDim) :
    ((i * heads + h) * headDim + d) % (heads * headDim) = h * headDim + d := by
  have hlt : h * headDim + d < heads * headDim := by
    calc h * headDim + d < (h + 1) * headDim := by rw [Nat.succ_mul]; omega
      _ ≤ heads * headDim := Nat.mul_le_mul_right headDim hh
  have hsplit : (i * heads + h) * headDim + d = i * (heads * headDim) + (h * headDim + d) := by
    ring
  rw [hsplit, Nat.mul_add_mod_of_lt hlt]

theorem head_add_le {α : Type*} {x : Tensor α} {seq heads headDim h i : ℕ}
    (hx : x.shape = [seq, heads * headDim]) (hh : h < heads) (hi : i < seq) :
    (i * heads + h) * headDim + headDim ≤ x.data.length := by
  have hrow : i * heads + h + 1 ≤ seq * heads := by
    calc i * heads + h + 1 ≤ (i + 1) * heads := by rw [Nat.succ_mul]; omega
      _ ≤ seq * heads := Nat.mul_le_mul_right heads hi
  have hmul := Nat.mul_le_mul_right headDim hrow
  rw [x.length_data, hx, List.prod_cons, List.prod_singleton, ← mul_assoc]
  rwa [Nat.succ_mul] at hmul

section Attention

variable {K : Type*} [Field K]

/-- The element `[h, i, d]` of `x.reshape(seq, heads, head_dim).transpose(0, 1)`. -/
def headEntry (x : Tensor K) (heads headDim h i d : ℕ) : K :=
  x.data.getD ((i * heads + h) * headDim + d) 0

/-- The logits of `_attention`, one matrix for each query head. -/
def attentionScores (sqrt : ℕ → K) (q k : Tensor K) (qHeads kvHeads headDim : ℕ) :
    Option (Tensor K) :=
  let seq := q.rows
  let group := qHeads / kvHeads
  if q.shape = [] ∨ kvHeads = 0 ∨ q.data.length ≠ seq * (qHeads * headDim) ∨
      k.data.length ≠ seq * (kvHeads * headDim) ∨
      kvHeads * group * seq * headDim ≠ qHeads * seq * headDim then none
  else
    some {
      shape := [qHeads, seq, seq]
      data := (List.range qHeads).flatMap fun h => (List.range seq).flatMap fun i =>
        (List.range seq).map fun j =>
          (∑ d ∈ Finset.range headDim, headEntry q qHeads headDim h i d *
            headEntry k kvHeads headDim (h / group) j d) / sqrt headDim
      length_data := by simp }

def attention (sqrt : ℕ → K) (softmax : List K → List K) (q k v : Tensor K)
    (qHeads kvHeads headDim : ℕ) : Option (Tensor K) :=
  let seq := q.rows
  let group := qHeads / kvHeads
  (attentionScores sqrt q k qHeads kvHeads headDim).bind fun scores =>
  if v.data.length ≠ seq * (kvHeads * headDim) then none
  else
    some {
      shape := [seq, qHeads * headDim]
      data := (List.range seq).flatMap fun i => (List.range qHeads).flatMap fun h =>
        let attn := softmax ((List.range seq).map fun j =>
          scores.data.getD ((h * seq + i) * seq + j) 0)
        (List.range headDim).map fun d =>
          ∑ j ∈ Finset.range seq, attn.getD j 0 * headEntry v kvHeads headDim (h / group) j d
      length_data := by simp }

theorem attentionScores_eq (sqrt : ℕ → K) {q k : Tensor K} {qHeads kvHeads headDim seq : ℕ}
    (hq : q.shape = [seq, qHeads * headDim]) (hk : k.shape = [seq, kvHeads * headDim])
    (h0 : 0 < kvHeads) (hdvd : kvHeads ∣ qHeads) :
    ∃ s, attentionScores sqrt q k qHeads kvHeads headDim = some s ∧ s.shape = [qHeads, seq, seq] ∧
      s.data = (List.range qHeads).flatMap fun h => (List.range seq).flatMap fun i =>
        (List.range seq).map fun j =>
          (∑ d ∈ Finset.range headDim, headEntry q qHeads headDim h i d *
            headEntry k kvHeads headDim (h / (qHeads / kvHeads)) j d) / sqrt headDim := by
  have hrows : q.rows = seq := by simp [Tensor.rows, hq]
  have hguard : ¬ (q.shape = [] ∨ kvHeads = 0 ∨ q.data.length ≠ q.rows * (qHeads * headDim) ∨
      k.data.length ≠ q.rows * (kvHeads * headDim) ∨
      kvHeads * (qHeads / kvHeads) * q.rows * headDim ≠ qHeads * q.rows * headDim) := by
    simp [hrows, q.length_data, k.length_data, hq, hk, h0.ne', Nat.mul_div_cancel' hdvd]
  refine ⟨_, if_neg hguard, ?_, ?_⟩
  · simp [hrows]
  · simp [hrows]

end Attention

section SmoothScale

variable {K : Type*} [Field K] [LinearOrder K]

structure QkSample (K : Type*) where
  q : Tensor K × Tensor K
  k : Tensor K × Tensor K

/-- `x.reshape(seq, heads, head_dim).transpose(0, 1).abs().amax(dim=1)`, flattened; there is no
maximum over no tokens. -/
def amaxTokens (x : Tensor K) (seq channels : ℕ) : Option (List K) :=
  if seq = 0 ∨ x.data.length ≠ seq * channels then none
  else some ((List.range channels).map fun t =>
    ((List.range seq).map fun i => |x.data.getD (i * channels + t) 0|).foldl max 0)

def qkMaximaStep (qHeads kvHeads headDim : ℕ) (m : List K × List K) (sample : QkSample K) :
    Option (List K × List K) :=
  (dequantNvfp4 sample.q.1 sample.q.2).bind fun q =>
  (dequantNvfp4 sample.k.1 sample.k.2).bind fun k =>
  (amaxTokens q q.rows (qHeads * headDim)).bind fun maxQ =>
  (amaxTokens k q.rows (kvHeads * headDim)).map fun maxK =>
    (m.1.zipWith max maxQ, m.2.zipWith max maxK)

/-- `D_g`: the clamped ratio of the maxima of a channel, over all query heads of the group and in
the key head. -/
def groupScale (pow : K → K → K) (alpha : K) (group headDim : ℕ) (maxQ maxK : List K)
    (g d : ℕ) : K :=
  let maxQGroup := ((List.range group).map fun u =>
    maxQ.getD ((g * group + u) * headDim + d) 0).foldl max 0
  let ratio := pow (max maxQGroup (1 / 10 ^ 8)) alpha /
    pow (max (maxK.getD (g * headDim + d) 0) (1 / 10 ^ 8)) (1 - alpha)
  min (max ratio (1 / 10 ^ 4)) (10 ^ 4)

/-- `_compute_qk_smooth_scale`, given the power of two numbers. Without samples there is no
scale. -/
def computeQkSmoothScale (pow : K → K → K) (calibQkvList : List (QkSample K))
    (qHeads kvHeads headDim : ℕ) (alpha : K) : Option (Option (Tensor K × Tensor K)) :=
  let group := qHeads / kvHeads
  if kvHeads = 0 then none
  else if calibQkvList.isEmpty then some none
  else
    (calibQkvList.foldlM (qkMaximaStep qHeads kvHeads headDim)
      (List.replicate (qHeads * headDim) 0, List.replicate (kvHeads * headDim) 0)).bind fun m =>
    if group = 0 ∨ kvHeads * group * headDim ≠ qHeads * headDim then none
    else
      let dG := groupScale pow alpha group headDim m.1 m.2
      some (some (
        { shape := [kvHeads * group * headDim]
          data := (List.range (kvHeads * group)).flatMap fun h =>
            (List.range headDim).map fun d => dG (h / group) d
          length_data := by simp },
        { shape := [kvHeads * headDim]
          data := (List.range kvHeads).flatMap fun g => (List.range headDim).map fun d => dG g d
          length_data := by simp }))

end SmoothScale

section Unchanged

variable {K : Type*} [Field K] [LinearOrder K]

structure GroupScale (kvHeads group headDim : ℕ) (dG : ℕ → ℕ → K) (dQ dK : Tensor K) : Prop where
  pos : ∀ g d, 0 < dG g d
  shape_q : dQ.shape = [kvHeads * group * headDim]
  shape_k : dK.shape = [kvHeads * headDim]
  getD_q : ∀ h < kvHeads * group, ∀ d < headDim,
    dQ.data.getD (h * headDim + d) 0 = dG (h / group) d
  getD_k : ∀ g < kvHeads, ∀ d < headDim, dK.data.getD (g * headDim + d) 0 = dG g d

theorem exists_groupScale [IsStrictOrderedRing K] {pow : K → K → K} {calibQkvList : List (QkSample K)}
    {qHeads kvHeads headDim : ℕ} {alpha : K} {dQ dK : Tensor K}
    (h : computeQkSmoothScale pow calibQkvList qHeads kvHeads headDim alpha = some (some (dQ, dK))) :
    ∃ dG, GroupScale kvHeads (qHeads / kvHeads) headDim dG dQ dK := by
  simp only [computeQkSmoothScale] at h
  split_ifs at h
  · simp at h
  · simp at h
  · obtain ⟨m, -, h⟩ := Option.bind_eq_some_iff.mp h
    obtain ⟨rfl, rfl⟩ := Prod.mk.inj (Option.some.inj (Option.some.inj h))
    refine ⟨groupScale pow alpha (qHeads / kvHeads) headDim m.1 m.2, fun g d => ?_, rfl, rfl,
      fun h hh d hd => ?_, fun g hg d hd => ?_⟩
    · exact lt_min (lt_max_of_lt_right (by positivity)) (by positivity)
    · exact Lists.getD_flatMap_range hh hd
        (fun h => groupScale pow alpha (qHeads / kvHeads) headDim m.1 m.2 (h / (qHeads / kvHeads))) 0
    · exact Lists.getD_flatMap_range hg hd
        (groupScale pow alpha (qHeads / kvHeads) headDim m.1 m.2) 0

theorem Orthonormal.attentionScores_smooth {n : ℕ} {H : List (List K)} (h : Orthonormal n H)
    (hn : 0 < n) (sqrt : ℕ → K) {q k dQ dK : Tensor K} {qHeads kvHeads headDim seq : ℕ}
    {dG : ℕ → ℕ → K} (hG : GroupScale kvHeads (qHeads / kvHeads) headDim dG dQ dK)
    (hq : q.shape = [seq, qHeads * headDim]) (hk : k.shape = [seq, kvHeads * headDim])
    (h0 : 0 < kvHeads) (hdvd : kvHeads ∣ qHeads) (hc : n ∣ headDim) :
    ∃ q' k' s, ((Tensor.broadcastWith (· / ·) q dQ).bind fun q => applyHadamard q H) = some q' ∧
      ((Tensor.broadcastWith (· * ·) k dK).bind fun k => applyHadamard k H) = some k' ∧
      q'.rows = q.rows ∧ attentionScores sqrt q k qHeads kvHeads headDim = some s ∧
      attentionScores sqrt q' k' qHeads kvHeads headDim = some s := by
  have hlen : 0 < H.length := h.length_eq.symm ▸ hn
  have hcQ : H.length ∣ qHeads * headDim := h.length_eq.symm ▸ Dvd.dvd.mul_left hc qHeads
  have hcK : H.length ∣ kvHeads * headDim := h.length_eq.symm ▸ Dvd.dvd.mul_left hc kvHeads
  have hdQ : dQ.shape = [qHeads * headDim] := by rw [hG.shape_q, Nat.mul_div_cancel' hdvd]
  have hq' : q.shape = [seq] ++ [qHeads * headDim] := hq
  have hk' : k.shape = [seq] ++ [kvHeads * headDim] := hk
  obtain ⟨q', hq'', hqt⟩ := exists_turned (f := fun a d : K => a / d) (g := fun d => d⁻¹)
    (fun a d => div_eq_mul_inv a d) hq' hdQ hlen hcQ
  obtain ⟨k', hk'', hkt⟩ := exists_turned (f := fun a d : K => a * d) (g := id)
    (fun _ _ => rfl) hk' hG.shape_k hlen hcK
  obtain ⟨s, hs, hss, hsd⟩ := attentionScores_eq sqrt hq hk h0 hdvd
  obtain ⟨t, ht, hts, htd⟩ := attentionScores_eq sqrt (hqt.shape_eq.trans hq)
    (hkt.shape_eq.trans hk) h0 hdvd
  have hst : t = s := by
    refine Tensor.ext (hts.trans hss.symm) ?_
    rw [hsd, htd]
    refine List.flatMap_congr fun u hu => List.flatMap_congr fun i hi =>
      List.map_congr_left fun j hj => congrArg (· / sqrt headDim) ?_
    have hu := List.mem_range.mp hu
    have hi := List.mem_range.mp hi
    have hj := List.mem_range.mp hj
    have hqk : kvHeads * (qHeads / kvHeads) = qHeads := Nat.mul_div_cancel' hdvd
    have hg : u / (qHeads / kvHeads) < kvHeads := by
      apply Nat.div_lt_of_lt_mul
      rwa [mul_comm, hqk]
    apply h.sum_turned hn hqt hkt (Dvd.dvd.mul_left hc _) (Dvd.dvd.mul_left hc _) hc
      (head_add_le hq hu hi) (head_add_le hk hg hj)
    intro d hd
    rw [head_index hu hd, head_index hg hd, hG.getD_q u (hqk.symm ▸ hu) d hd, id,
      hG.getD_k _ hg d hd, inv_mul_cancel₀ (hG.pos _ d).ne']
  refine ⟨q', k', s, hq'', hk'', ?_, hs, hst ▸ ht⟩
  rw [Tensor.rows, Tensor.rows, hqt.shape_eq]

theorem Orthonormal.attention_smooth {n : ℕ} {H : List (List K)} (h : Orthonormal n H)
    (hn : 0 < n) (sqrt : ℕ → K) (softmax : List K → List K) {q k dQ dK : Tensor K} (v : Tensor K)
    {qHeads kvHeads headDim seq : ℕ} {dG : ℕ → ℕ → K}
    (hG : GroupScale kvHeads (qHeads / kvHeads) headDim dG dQ dK)
    (hq : q.shape = [seq, qHeads * headDim]) (hk : k.shape = [seq, kvHeads * headDim])
    (h0 : 0 < kvHeads) (hdvd : kvHeads ∣ qHeads) (hc : n ∣ headDim) :
    (((Tensor.broadcastWith (· / ·) q dQ).bind fun q => applyHadamard q H).bind fun q =>
      ((Tensor.broadcastWith (· * ·) k dK).bind fun k => applyHadamard k H).bind fun k =>
        attention sqrt softmax q k v qHeads kvHeads headDim) =
      attention sqrt softmax q k v qHeads kvHeads headDim := by
  obtain ⟨q', k', s, hq', hk', hrows, hs, hs'⟩ :=
    h.attentionScores_smooth hn sqrt hG hq hk h0 hdvd hc
  rw [hq', Option.bind_some, hk', Option.bind_some]
  simp only [attention, hrows, hs, hs', Option.bind_some]

/-- A sample whose tensors have the given sizes, and at least one token. -/
def QkSample.Fits (qHeads kvHeads headDim : ℕ) (sample : QkSample K) : Prop :=
  ∃ seq q k, 0 < seq ∧ dequantNvfp4 sample.q.1 sample.q.2 = some q ∧
    dequantNvfp4 sample.k.1 sample.k.2 = some k ∧ q.shape = [seq, qHeads * headDim] ∧
    k.shape = [seq, kvHeads * headDim]

theorem exists_amaxTokens {x : Tensor K} {seq channels : ℕ} (hs : 0 < seq)
    (hx : x.shape = [seq, channels]) : ∃ m, amaxTokens x seq channels = some m := by
  have hguard : ¬ (seq = 0 ∨ x.data.length ≠ seq * channels) := by
    simp [x.length_data, hx, hs.ne']
  exact ⟨_, if_neg hguard⟩

theorem exists_computeQkSmoothScale (pow : K → K → K) {calibQkvList : List (QkSample K)}
    {qHeads kvHeads headDim : ℕ} (alpha : K) (hne : calibQkvList ≠ [])
    (hfit : ∀ sample ∈ calibQkvList, sample.Fits qHeads kvHeads headDim) (h0 : 0 < kvHeads)
    (hq0 : 0 < qHeads) (hdvd : kvHeads ∣ qHeads) :
    ∃ dQ dK, computeQkSmoothScale pow calibQkvList qHeads kvHeads headDim alpha =
      some (some (dQ, dK)) := by
  have hstep : ∀ sample ∈ calibQkvList, ∀ m, ∃ m',
      qkMaximaStep qHeads kvHeads headDim m sample = some m' := by
    intro sample hs m
    obtain ⟨seq, q, k, hseq, hq, hk, hqs, hks⟩ := hfit sample hs
    have hrows : q.rows = seq := by simp [Tensor.rows, hqs]
    obtain ⟨maxQ, hmq⟩ := exists_amaxTokens hseq hqs
    obtain ⟨maxK, hmk⟩ := exists_amaxTokens hseq hks
    refine ⟨(m.1.zipWith max maxQ, m.2.zipWith max maxK), ?_⟩
    simp only [qkMaximaStep, hq, hk, hrows, hmq, hmk, Option.bind_some, Option.map_some]
  have hloop : ∀ l, l ⊆ calibQkvList → ∀ m, ∃ m',
      l.foldlM (qkMaximaStep qHeads kvHeads headDim) m = some m' := by
    intro l
    induction l with
    | nil => exact fun _ m => ⟨m, rfl⟩
    | cons sample l ih =>
      intro hl m
      obtain ⟨m', hm'⟩ := hstep sample (hl List.mem_cons_self) m
      obtain ⟨m'', hm''⟩ := ih (fun s hs => hl (List.mem_cons_of_mem _ hs)) m'
      exact ⟨m'', by rw [List.foldlM_cons, hm', Option.bind_eq_bind, Option.bind_some, hm'']⟩
  obtain ⟨m, hm⟩ := hloop calibQkvList (List.Subset.refl _)
    (List.replicate (qHeads * headDim) 0, List.replicate (kvHeads * headDim) 0)
  have hempty : calibQkvList.isEmpty = false := by simpa using hne
  have hgroup : ¬ (qHeads / kvHeads = 0 ∨
      kvHeads * (qHeads / kvHeads) * headDim ≠ qHeads * headDim) := by
    have hpos := Nat.div_pos (Nat.le_of_dvd hq0 hdvd) h0
    simp [Nat.mul_div_cancel' hdvd, hpos.ne']
  simp only [computeQkSmoothScale, if_neg h0.ne', hempty, Bool.false_eq_true, if_false, hm,
    Option.bind_some, if_neg hgroup]
  exact ⟨_, _, rfl⟩

end Unchanged

section Real

/-- Over the reals, with the Sylvester matrix or with signs on its columns: the matrix is
orthogonal, a smoothed and rotated product of activations and weights is the product, and
smoothing and rotating Q and K leaves the logits of every query head. -/
theorem smoothing_and_rotation_unchanged {b : ℕ} {signs : List ℝ} (hl : signs.length = 2 ^ b)
    (hs : ∀ s ∈ signs, s = 1 ∨ s = -1) {H : List (List ℝ)}
    (hH : H = hadamardSylvester (1 / √2) (2 ^ b) ∨ H = randomHadamard (1 / √2) (2 ^ b) signs) :
    ((H.length = 2 ^ b ∧ ∀ r ∈ H, r.length = 2 ^ b) ∧
      toMatrix (2 ^ b) H * (toMatrix (2 ^ b) H).transpose = 1 ∧
      (toMatrix (2 ^ b) H).transpose * toMatrix (2 ^ b) H = 1) ∧
    (∀ (x w D : Tensor ℝ) (init : List ℕ) (rows c : ℕ), x.shape = init ++ [c] →
      w.shape = [rows, c] → D.shape = [c] → (∀ d ∈ D.data, 0 < d) → 2 ^ b ∣ c →
      ∃ y, matmulTranspose x w = some y ∧
        (((smoothActivation x D).bind fun x => applyHadamard x H).bind fun x =>
          ((smoothWeight w D).bind fun w => applyHadamard w H).bind fun w =>
            matmulTranspose x w) = some y) ∧
    (∀ (calibQkvList : List (QkSample ℝ)) (alpha : ℝ) (q k dQ dK : Tensor ℝ)
      (qHeads kvHeads headDim seq : ℕ),
      computeQkSmoothScale (· ^ ·) calibQkvList qHeads kvHeads headDim alpha =
        some (some (dQ, dK)) →
      q.shape = [seq, qHeads * headDim] → k.shape = [seq, kvHeads * headDim] → 0 < kvHeads →
      kvHeads ∣ qHeads → 2 ^ b ∣ headDim →
      ∃ s, attentionScores (fun n => √n) q k qHeads kvHeads headDim = some s ∧
        (((Tensor.broadcastWith (· / ·) q dQ).bind fun q => applyHadamard q H).bind fun q =>
          ((Tensor.broadcastWith (· * ·) k dK).bind fun k => applyHadamard k H).bind fun k =>
            attentionScores (fun n => √n) q k qHeads kvHeads headDim) = some s) := by
  have hinv : 2 * (1 / √2 * (1 / √2)) = (1 : ℝ) := by
    rw [div_mul_div_comm, Real.mul_self_sqrt (by norm_num)]
    norm_num
  have hsquare : ∀ s ∈ signs, s * s = 1 := by
    intro s h
    rcases hs s h with rfl | rfl
    · norm_num
    · norm_num
  have h : Orthonormal (2 ^ b) H := by
    rcases hH with rfl | rfl
    · exact Orthonormal.hadamardSylvester hinv b
    · exact (Orthonormal.hadamardSylvester hinv b).zipWith_signs hl hsquare
  have hpos : 0 < 2 ^ b := by positivity
  refine ⟨⟨⟨h.length_eq, h.length_row⟩, h.toMatrix_mul_transpose⟩, ?_, ?_⟩
  · intro x w D init rows c hx hw hD hD0 hc
    exact h.matmul_smooth hpos hx hw hD (fun d hd => (hD0 d hd).ne') hc
  · intro calibQkvList alpha q k dQ dK qHeads kvHeads headDim seq hscale hq hk h0 hdvd hc
    obtain ⟨dG, hG⟩ := exists_groupScale hscale
    obtain ⟨q', k', s, hq', hk', -, hs, hs'⟩ :=
      h.attentionScores_smooth hpos (fun n => √n) hG hq hk h0 hdvd hc
    exact ⟨s, hs, by rw [hq', Option.bind_some, hk', Option.bind_some, hs']⟩

def ones (shape : List ℕ) : Tensor ℝ := ⟨shape, List.replicate shape.prod 1, by simp⟩

/-- Two query heads over one key head, with a calibration of one token. -/
theorem smoothing_and_rotation_unchanged_two_heads :
    ∃ dQ dK, computeQkSmoothScale (· ^ ·)
        [⟨(ones [1, 32], ones [1, 2]), (ones [1, 16], ones [1, 1])⟩] 2 1 16 (1 / 2 : ℝ) =
          some (some (dQ, dK)) ∧
      ∃ s, attentionScores (fun n => √n) (ones [3, 32]) (ones [3, 16]) 2 1 16 = some s ∧
        (((Tensor.broadcastWith (· / ·) (ones [3, 32]) dQ).bind fun q =>
            applyHadamard q (randomHadamard (1 / √2) 2 [1, -1])).bind fun q =>
          ((Tensor.broadcastWith (· * ·) (ones [3, 16]) dK).bind fun k =>
            applyHadamard k (randomHadamard (1 / √2) 2 [1, -1])).bind fun k =>
            attentionScores (fun n => √n) q k 2 1 16) = some s := by
  have hfit : ∀ sample ∈ [(⟨(ones [1, 32], ones [1, 2]), (ones [1, 16], ones [1, 1])⟩ :
      QkSample ℝ)], sample.Fits 2 1 16 := by
    intro sample hs
    obtain rfl := List.mem_singleton.mp hs
    obtain ⟨q, hq, hqs⟩ := exists_dequantNvfp4 (ones [1, 32]) (ones [1, 2]) [1] rfl rfl
    obtain ⟨k, hk, hks⟩ := exists_dequantNvfp4 (ones [1, 16]) (ones [1, 1]) [1] rfl rfl
    exact ⟨1, q, k, by norm_num, hq, hk, hqs, hks⟩
  obtain ⟨dQ, dK, hscale⟩ := exists_computeQkSmoothScale (· ^ ·) (1 / 2 : ℝ) (by simp) hfit
    (by norm_num) (by norm_num) (by norm_num)
  have hsigns : ∀ s ∈ [(1 : ℝ), -1], s = 1 ∨ s = -1 := by simp
  obtain ⟨-, -, hlogits⟩ := smoothing_and_rotation_unchanged (b := 1) rfl hsigns (Or.inr rfl)
  exact ⟨dQ, dK, hscale, hlogits _ _ (ones [3, 32]) (ones [3, 16]) dQ dK 2 1 16 3 hscale rfl rfl
    (by norm_num) (by norm_num) (by norm_num)⟩

end Real

end K8sLearn.Hif4
