import Mathlib.Algebra.BigOperators.Field
import Mathlib.Data.Matrix.Basic
import Mathlib.Tactic.IntervalCases
import K8sLearn.Hif4.Smoothing

/-! # The curvature of attention

`_compute_qk_jacobian_importance` replaces the product of one query with the Jacobian of its
softmax row by batched products over all queries. The second batched product takes the
columns of the attention weights where the first takes their rows, and the importance of a
query sums the squares over the key channels, while the Gram matrix sums them over the
value channels. Both are exactly right under a condition on the values, the keys and the
attention weights, stated here.
-/

namespace K8sLearn.Hif4

section Curvature

variable {K : Type*} [Field K]

/-- `Term1 - Term2` at `[i, c, r]`: `A` when `x` are the keys, `B` when `x` are the queries. -/
def curvatureTerm (seq : ℕ) (v x P : ℕ → ℕ → K) (i c r : ℕ) : K :=
  let vWeighted i t c := v t c * P i t
  let term1 := ∑ t ∈ Finset.range seq, vWeighted i t c * x t r
  let VP c j := ∑ t ∈ Finset.range seq, v t c * P t j
  let PX i r := ∑ t ∈ Finset.range seq, P i t * x t r
  term1 - VP c i * PX i r

/-- The four totals, by head or group, then by position and channel or by two channels. -/
structure Curvature (K : Type*) where
  qImp : ℕ → ℕ → ℕ → K
  kImp : ℕ → ℕ → ℕ → K
  hq : ℕ → ℕ → ℕ → K
  hk : ℕ → ℕ → ℕ → K

/-- The quantized tensors of a calibration sample, with their scales. -/
structure QkvSample (K : Type*) where
  q : Tensor K × Tensor K
  k : Tensor K × Tensor K
  v : Tensor K × Tensor K

structure Qkv (K : Type*) where
  q : Tensor K
  k : Tensor K
  v : Tensor K

/-- `x[idx]` for a list of row numbers. -/
def selectRows (x : Tensor K) (idx : List ℕ) : Option (Tensor K) :=
  if h : x.shape ≠ [] ∧ ∀ i ∈ idx, i < x.rows then
    some {
      shape := idx.length :: x.shape.tail
      data := idx.flatMap fun i => (x.slice i (i + 1)).data
      length_data := by
        have hrow : ∀ i ∈ idx, (x.slice i (i + 1)).data.length = x.rowSize := by
          intro i hi
          have hlt := h.2 i hi
          rw [Tensor.length_data, Tensor.slice_shape, List.prod_cons, min_eq_left hlt,
            min_eq_left hlt.le, Nat.add_sub_cancel_left, one_mul, Tensor.rowSize]
        rw [List.length_flatMap, List.map_congr_left hrow]
        simp [Tensor.rowSize] }
  else none

structure Heads where
  qHeads : ℕ
  kvHeads : ℕ
  headDim : ℕ

/-- `q_num_heads // kv_num_heads`. -/
def Heads.group (hs : Heads) : ℕ := hs.qHeads / hs.kvHeads

variable (hs : Heads) (sqrt : ℕ → K) (softmax : List K → List K)

def attentionRow (seq : ℕ) (q k : ℕ → ℕ → K) (i j : ℕ) : K :=
  let scale := 1 / sqrt hs.headDim
  (softmax ((List.range seq).map fun t =>
    (∑ c ∈ Finset.range hs.headDim, q i c * k t c) * scale)).getD j 0

def headStep (seq : ℕ) (s : Qkv K) (acc : Curvature K) (gu : ℕ × ℕ) : Curvature K :=
  let g := gu.1
  let h := g * hs.group + gu.2
  let d : K := hs.headDim
  let q := headEntry s.q hs.qHeads hs.headDim h
  let k := headEntry s.k hs.kvHeads hs.headDim g
  let v := headEntry s.v hs.kvHeads hs.headDim g
  let P := attentionRow hs sqrt softmax seq q k
  let A := curvatureTerm seq v k P
  let B := curvatureTerm seq v q P
  let vBar i c := ∑ t ∈ Finset.range seq, P i t * v t c
  let vDiffNorm i t := ∑ c ∈ Finset.range hs.headDim, (v t c - vBar i c) ^ 2
  let weight i t := P i t ^ 2 * vDiffNorm i t
  { qImp := fun h' i c => acc.qImp h' i c +
      if h' = h then (∑ r ∈ Finset.range hs.headDim, A i c r ^ 2) / d else 0
    hq := fun h' r r' => acc.hq h' r r' +
      if h' = h then (∑ i ∈ Finset.range seq, ∑ c ∈ Finset.range hs.headDim,
        A i c r * A i c r') / d else 0
    hk := fun g' r r' => acc.hk g' r r' +
      if g' = g then (∑ i ∈ Finset.range seq, ∑ c ∈ Finset.range hs.headDim,
        B i c r * B i c r') / d else 0
    kImp := fun g' t c => acc.kImp g' t c +
      if g' = g then (∑ i ∈ Finset.range seq, weight i t * q i c ^ 2) / d else 0 }

def sampleHeads (seq : ℕ) (acc : Curvature K) (s : Qkv K) : Curvature K :=
  ((List.range hs.kvHeads).flatMap fun g => (List.range hs.group).map fun u => (g, u)).foldl
    (headStep hs sqrt softmax seq s) acc

/-- Dequantize a sample and keep `max_seq` tokens of a longer one, drawn at random. -/
def loadSample (maxSeq : ℕ) (draw : List ℕ) (sample : QkvSample K) : Option (Qkv K) :=
  (dequantNvfp4 sample.q.1 sample.q.2).bind fun q =>
  (dequantNvfp4 sample.k.1 sample.k.2).bind fun k =>
  (dequantNvfp4 sample.v.1 sample.v.2).bind fun v =>
  if maxSeq < q.rows then
    let idx := draw.take maxSeq
    (selectRows q idx).bind fun q => (selectRows k idx).bind fun k =>
    (selectRows v idx).map fun v => ⟨q, k, v⟩
  else some ⟨q, k, v⟩

/-- The totals so far with the common number of tokens, and the number of samples in them. -/
abbrev CurvatureState (K : Type*) := Option (ℕ × Curvature K) × ℕ

def sampleStep (maxSeq : ℕ) (st : CurvatureState K) (sample : QkvSample K × List ℕ) :
    Option (CurvatureState K) :=
  (loadSample maxSeq sample.2 sample.1).bind fun s =>
  let seq := s.q.rows
  let start := st.1.getD (seq, ⟨fun _ _ _ => 0, fun _ _ _ => 0, fun _ _ _ => 0, fun _ _ _ => 0⟩)
  if seq ≠ start.1 then some st
  else if s.q.data.length ≠ seq * (hs.qHeads * hs.headDim) ∨
      s.k.data.length ≠ seq * (hs.kvHeads * hs.headDim) ∨
      s.v.data.length ≠ seq * (hs.kvHeads * hs.headDim) then none
  else some (some (seq, sampleHeads hs sqrt softmax seq start.2 s), st.2 + 1)

/-- `_compute_qk_jacobian_importance`; `draws` are the random orders of the tokens, one for each
sample. The call raises (`none`), finds no sample (`some none`) or returns the means. -/
def computeQkJacobianImportance (maxSeq : ℕ) (calib : List (QkvSample K)) (draws : ℕ → List ℕ) :
    Option (Option (ℕ × Curvature K)) :=
  if hs.kvHeads = 0 ∨ hs.headDim = 0 then none
  else
    ((calib.mapIdx fun t sample => (sample, draws t)).foldlM
      (sampleStep hs sqrt softmax maxSeq) (none, 0)).map fun st =>
      st.1.bind fun (calibSeq, cur) =>
        let n : K := st.2
        if st.2 = 0 then none
        else some (calibSeq,
          { qImp := fun h i c => cur.qImp h i c / n
            kImp := fun g t c => cur.kImp g t c / n
            hq := fun h r r' => cur.hq h r r' / n
            hk := fun g r r' => cur.hk g r r' / n })

end Curvature

section Documented

variable {K : Type*} [Field K] {seq headDim : ℕ} {v k P : ℕ → ℕ → K}

def matrixOf (m n : ℕ) (f : ℕ → ℕ → K) : Matrix (Fin m) (Fin n) K := Matrix.of fun i j => f i j

/-- `V^T (diag(p_i) - p_i p_i^T) K`, as documented. -/
def documentedJacobian (seq headDim : ℕ) (v k P : ℕ → ℕ → K) (i : ℕ) :
    Matrix (Fin headDim) (Fin headDim) K :=
  let p : Fin seq → K := fun t => P i t
  (matrixOf seq headDim v).transpose * (Matrix.diagonal p - Matrix.vecMulVec p p) *
    matrixOf seq headDim k

theorem documentedJacobian_apply (i : ℕ) (c r : Fin headDim) :
    documentedJacobian seq headDim v k P i c r =
      ∑ t ∈ Finset.range seq, v t c * P i t * k t r -
        (∑ t ∈ Finset.range seq, v t c * P i t) * ∑ t ∈ Finset.range seq, P i t * k t r := by
  simp only [documentedJacobian, Matrix.mul_sub, Matrix.sub_mul, Matrix.sub_apply]
  congr 1
  · rw [Finset.sum_range, Matrix.mul_apply]
    simp [Matrix.mul_diagonal, matrixOf]
  · rw [Finset.sum_range, Finset.sum_range, Finset.sum_mul_sum, Finset.sum_comm]
    simp only [Matrix.mul_apply, Matrix.transpose_apply, matrixOf, Matrix.of_apply,
      Matrix.vecMulVec_apply, Finset.sum_mul]
    apply Finset.sum_congr rfl
    intro t _
    apply Finset.sum_congr rfl
    intro u _
    ring

/-- The matrices computed for the queries are the documented ones exactly when, for every query,
the column of the weights averages the values as its row does, or its row averages the keys to
zero. -/
theorem curvatureTerm_documented_iff (seq headDim : ℕ) (v k P : ℕ → ℕ → K) :
    (∀ i < seq, matrixOf headDim headDim (curvatureTerm seq v k P i) =
      documentedJacobian seq headDim v k P i) ↔
    ∀ i < seq,
      (∀ c < headDim, ∑ t ∈ Finset.range seq, v t c * P t i =
        ∑ t ∈ Finset.range seq, v t c * P i t) ∨
      ∀ r < headDim, ∑ t ∈ Finset.range seq, P i t * k t r = 0 := by
  have hentry : ∀ (i : ℕ) (c r : Fin headDim),
      matrixOf headDim headDim (curvatureTerm seq v k P i) c r =
        documentedJacobian seq headDim v k P i c r ↔
      (∑ t ∈ Finset.range seq, v t c * P t i = ∑ t ∈ Finset.range seq, v t c * P i t) ∨
        ∑ t ∈ Finset.range seq, P i t * k t r = 0 := by
    intro i c r
    simp only [documentedJacobian_apply, matrixOf, Matrix.of_apply, curvatureTerm]
    rw [sub_right_inj, mul_eq_mul_right_iff]
  refine forall₂_congr fun i _ => ?_
  rw [← Matrix.ext_iff]
  simp only [hentry]
  constructor
  · intro h
    by_cases hc : ∀ c < headDim, ∑ t ∈ Finset.range seq, v t c * P t i =
        ∑ t ∈ Finset.range seq, v t c * P i t
    · exact Or.inl hc
    · push Not at hc
      obtain ⟨c, hlt, hne⟩ := hc
      exact Or.inr fun r hr => (h ⟨c, hlt⟩ ⟨r, hr⟩).resolve_left hne
  · rintro (h | h) c r
    · exact Or.inl (h c c.isLt)
    · exact Or.inr (h r r.isLt)

/-- Two tokens and one channel: the second query's weights differ from their column. -/
def tiltedWeights : ℕ → ℕ → ℚ := fun i t =>
  if i = 0 then 1 / 2 else if t = 0 then 3 / 4 else 1 / 4

def firstToken : ℕ → ℕ → ℚ := fun t _ => if t = 0 then 1 else 0

theorem curvatureTerm_not_documented :
    (∀ i < 2, (∀ t, 0 ≤ tiltedWeights i t) ∧ ∑ t ∈ Finset.range 2, tiltedWeights i t = 1) ∧
      matrixOf 1 1 (curvatureTerm 2 firstToken firstToken tiltedWeights 1) ≠
        documentedJacobian 2 1 firstToken firstToken tiltedWeights 1 := by
  constructor
  · intro i hi
    constructor
    · intro t
      unfold tiltedWeights
      split_ifs <;> norm_num
    · interval_cases i <;> norm_num [tiltedWeights, Finset.sum_range_succ]
  · intro h
    have h00 := congrFun (congrFun h 0) 0
    rw [documentedJacobian_apply] at h00
    norm_num [matrixOf, curvatureTerm, firstToken, tiltedWeights, Finset.sum_range_succ] at h00

end Documented

section Totals

variable {K : Type*} [Field K] (hs : Heads) (sqrt : ℕ → K) (softmax : List K → List K)

/-- The matrices `A` of a query head on a sample. -/
def headJacobian (seq : ℕ) (s : Qkv K) (h : ℕ) : ℕ → ℕ → ℕ → K :=
  let q := headEntry s.q hs.qHeads hs.headDim h
  let k := headEntry s.k hs.kvHeads hs.headDim (h / hs.group)
  let v := headEntry s.v hs.kvHeads hs.headDim (h / hs.group)
  curvatureTerm seq v k (attentionRow hs sqrt softmax seq q k)

theorem sampleHeads_eq (seq : ℕ) (acc : Curvature K) (s : Qkv K) :
    sampleHeads hs sqrt softmax seq acc s =
      (List.range (hs.kvHeads * hs.group)).foldl
        (fun acc h => headStep hs sqrt softmax seq s acc (h / hs.group, h % hs.group)) acc := by
  rw [sampleHeads, Lists.flatMap_range_range (fun g u => (g, u)), List.foldl_map]

theorem headStep_qImp_hq (seq : ℕ) (s : Qkv K) (acc : Curvature K) (h : ℕ) :
    let next := headStep hs sqrt softmax seq s acc (h / hs.group, h % hs.group)
    let A := headJacobian hs sqrt softmax seq s h
    (∀ h' i c, next.qImp h' i c = acc.qImp h' i c +
      if h' = h then (∑ r ∈ Finset.range hs.headDim, A i c r ^ 2) / hs.headDim else 0) ∧
    ∀ h' r r', next.hq h' r r' = acc.hq h' r r' +
      if h' = h then (∑ i ∈ Finset.range seq, ∑ c ∈ Finset.range hs.headDim,
        A i c r * A i c r') / hs.headDim else 0 := by
  have hh : h / hs.group * hs.group + h % hs.group = h := by
    rw [Nat.mul_comm]
    exact Nat.div_add_mod h hs.group
  simp only [headStep, headJacobian, hh]
  exact ⟨fun _ _ _ => trivial, fun _ _ _ => trivial⟩

theorem sampleHeads_qImp_hq (seq : ℕ) (s : Qkv K) (acc : Curvature K) (h : ℕ) :
    let next := sampleHeads hs sqrt softmax seq acc s
    let A := headJacobian hs sqrt softmax seq s h
    (∀ i c, next.qImp h i c = acc.qImp h i c + if h < hs.kvHeads * hs.group then
      (∑ r ∈ Finset.range hs.headDim, A i c r ^ 2) / hs.headDim else 0) ∧
    ∀ r r', next.hq h r r' = acc.hq h r r' + if h < hs.kvHeads * hs.group then
      (∑ i ∈ Finset.range seq, ∑ c ∈ Finset.range hs.headDim, A i c r * A i c r') / hs.headDim
        else 0 := by
  dsimp only
  rw [sampleHeads_eq]
  generalize hs.kvHeads * hs.group = n
  induction n with
  | zero => simp
  | succ n ih =>
    rw [List.range_succ, List.foldl_append, List.foldl_cons, List.foldl_nil]
    obtain ⟨hq, hh⟩ := headStep_qImp_hq hs sqrt softmax seq s
      ((List.range n).foldl (fun acc h =>
        headStep hs sqrt softmax seq s acc (h / hs.group, h % hs.group)) acc) n
    -- the last head of the loop is `h`, or `h` was visited before, or not at all
    have hcase : ∀ x : K, (if h < n then x else 0) + (if h = n then x else 0) =
        if h < n + 1 then x else 0 := by
      intro x
      by_cases h₁ : h < n
      · simp [h₁, h₁.ne, Nat.lt_succ_of_lt h₁]
      · by_cases h₂ : h = n
        · simp [h₂]
        · have h₃ : ¬ h < n + 1 := by omega
          simp [h₁, h₂, h₃]
    constructor
    · intro i c
      rw [hq, ih.1, add_assoc, ← hcase]
      by_cases h₂ : h = n
      · rw [h₂]
      · simp [h₂]
    · intro r r'
      rw [hh, ih.2, add_assoc, ← hcase]
      by_cases h₂ : h = n
      · rw [h₂]
      · simp [h₂]

def loadSamples (maxSeq : ℕ) (calib : List (QkvSample K)) (draws : ℕ → List ℕ) :
    Option (List (Qkv K)) :=
  (calib.mapIdx fun t sample => (sample, draws t)).mapM fun s => loadSample maxSeq s.2 s.1

def usedSamples (loaded : List (Qkv K)) : List (Qkv K) :=
  loaded.filter fun s => decide (some s.q.rows = loaded.head?.map fun t => t.q.rows)

/-- With totals at hand, the loop goes through the samples of the same number of tokens. -/
theorem foldlM_sampleStep {maxSeq seq n : ℕ} {cur : Curvature K}
    {l : List (QkvSample K × List ℕ)} {st : CurvatureState K}
    (h : l.foldlM (sampleStep hs sqrt softmax maxSeq) (some (seq, cur), n) = some st) :
    ∃ loaded, l.mapM (fun s => loadSample maxSeq s.2 s.1) = some loaded ∧
      st = (some (seq, (loaded.filter fun s => decide (s.q.rows = seq)).foldl
        (sampleHeads hs sqrt softmax seq) cur),
        n + (loaded.filter fun s => decide (s.q.rows = seq)).length) := by
  induction l generalizing cur n with
  | nil =>
    obtain rfl : (some (seq, cur), n) = st := by simpa using h
    exact ⟨[], rfl, rfl⟩
  | cons a l ih =>
    rw [List.foldlM_cons] at h
    obtain ⟨st₁, hstep, h⟩ := Option.bind_eq_some_iff.mp h
    obtain ⟨s, hs', hstep⟩ := Option.bind_eq_some_iff.mp hstep
    simp only [Option.getD_some] at hstep
    split_ifs at hstep with hseq hshape
    · obtain rfl := Option.some.inj hstep
      obtain ⟨loaded, hl, rfl⟩ := ih h
      exact ⟨s :: loaded, by simp [List.mapM_cons, hs', hl], by simp [hseq]⟩
    · obtain rfl := Option.some.inj hstep
      rw [ne_eq, not_not] at hseq
      rw [hseq] at h
      obtain ⟨loaded, hl, rfl⟩ := ih h
      refine ⟨s :: loaded, by simp [List.mapM_cons, hs', hl], ?_⟩
      simp only [hseq, decide_true, List.filter_cons_of_pos, List.foldl_cons, List.length_cons]
      rw [Nat.add_assoc, Nat.add_comm 1]

def zeroCurvature : Curvature K := ⟨fun _ _ _ => 0, fun _ _ _ => 0, fun _ _ _ => 0, fun _ _ _ => 0⟩

theorem computeQkJacobianImportance_eq {maxSeq seq : ℕ} {calib : List (QkvSample K)}
    {draws : ℕ → List ℕ} {cur : Curvature K}
    (h : computeQkJacobianImportance hs sqrt softmax maxSeq calib draws = some (some (seq, cur))) :
    ∃ loaded, loadSamples maxSeq calib draws = some loaded ∧ usedSamples loaded ≠ [] ∧
      let total := (usedSamples loaded).foldl (sampleHeads hs sqrt softmax seq) zeroCurvature
      (∀ h i c, cur.qImp h i c = total.qImp h i c / (usedSamples loaded).length) ∧
      ∀ h r r', cur.hq h r r' = total.hq h r r' / (usedSamples loaded).length := by
  unfold computeQkJacobianImportance at h
  split_ifs at h
  obtain ⟨st, hst, h⟩ := Option.map_eq_some_iff.mp h
  obtain ⟨⟨seq', total⟩, htot, h⟩ := Option.bind_eq_some_iff.mp h
  dsimp only at h
  split_ifs at h with hn
  obtain ⟨rfl, rfl⟩ : seq' = seq ∧ _ = cur := by simpa using h
  unfold loadSamples
  cases hl : calib.mapIdx fun t sample => (sample, draws t) with
  | nil =>
    rw [hl] at hst
    obtain rfl : (none, 0) = st := by simpa using hst
    simp at htot
  | cons a l =>
    rw [hl, List.foldlM_cons] at hst
    obtain ⟨st₁, hstep, hst⟩ := Option.bind_eq_some_iff.mp hst
    obtain ⟨s, hs', hstep⟩ := Option.bind_eq_some_iff.mp hstep
    simp only [Option.getD_none, ne_eq, not_true_eq_false, if_false] at hstep
    split_ifs at hstep with hshape
    obtain rfl := Option.some.inj hstep
    obtain ⟨loaded, hload, rfl⟩ := foldlM_sampleStep hs sqrt softmax hst
    simp only [Option.some.injEq, Prod.mk.injEq] at htot
    obtain ⟨hseq, htot⟩ := htot
    have hused : usedSamples (s :: loaded) =
        s :: loaded.filter fun t => decide (t.q.rows = s.q.rows) := by
      simp [usedSamples]
    refine ⟨s :: loaded, by simp [List.mapM_cons, hs', hload], by simp [hused], ?_, ?_⟩
    · intro h i c
      rw [← htot, hused, ← hseq, List.foldl_cons, List.length_cons, Nat.zero_add, Nat.add_comm]
      rfl
    · intro h r r'
      rw [← htot, hused, ← hseq, List.foldl_cons, List.length_cons, Nat.zero_add, Nat.add_comm]
      rfl

theorem foldl_sampleHeads (seq : ℕ) (l : List (Qkv K)) (acc : Curvature K) (h : ℕ) :
    let total := l.foldl (sampleHeads hs sqrt softmax seq) acc
    (∀ i c, total.qImp h i c = acc.qImp h i c + if h < hs.kvHeads * hs.group then
      (l.map fun s => ∑ r ∈ Finset.range hs.headDim,
        headJacobian hs sqrt softmax seq s h i c r ^ 2).sum / hs.headDim else 0) ∧
    ∀ r r', total.hq h r r' = acc.hq h r r' + if h < hs.kvHeads * hs.group then
      (l.map fun s => ∑ i ∈ Finset.range seq, ∑ c ∈ Finset.range hs.headDim,
        headJacobian hs sqrt softmax seq s h i c r *
          headJacobian hs sqrt softmax seq s h i c r').sum / hs.headDim else 0 := by
  induction l generalizing acc with
  | nil => simp
  | cons s l ih =>
    obtain ⟨hq, hh⟩ := sampleHeads_qImp_hq hs sqrt softmax seq s acc h
    obtain ⟨ihq, ihh⟩ := ih (sampleHeads hs sqrt softmax seq acc s)
    constructor
    · intro i c
      rw [List.foldl_cons, ihq, hq, add_assoc, List.map_cons, List.sum_cons]
      split_ifs <;> ring
    · intro r r'
      rw [List.foldl_cons, ihh, hh, add_assoc, List.map_cons, List.sum_cons]
      split_ifs <;> ring

/-- How much the token `t` of the values and the token `u` of the keys count in the matrix of a
query. -/
def pairWeight (P : ℕ → ℕ → K) (i t u : ℕ) : K := (if t = u then P i t else 0) - P t i * P i u

def tokenGram (headDim : ℕ) (x : ℕ → ℕ → K) (t u : ℕ) : K :=
  ∑ c ∈ Finset.range headDim, x t c * x u c

/-- The part of channel `r` in the products of the rows. -/
def channelGram (x : ℕ → ℕ → K) (r t u : ℕ) : K := x t r * x u r

/-- The weighted product of products of values and products of keys, over all queries. -/
def pairedGrams (seq : ℕ) (P F G : ℕ → ℕ → K) : K :=
  ∑ i ∈ Finset.range seq, ∑ a ∈ Finset.range seq ×ˢ Finset.range seq,
    ∑ b ∈ Finset.range seq ×ˢ Finset.range seq,
      pairWeight P i a.1 a.2 * pairWeight P i b.1 b.2 * (F a.1 b.1 * G a.2 b.2)

/-- Channel `r` of a head's values against all channels of its keys. -/
def valueChannel (seq : ℕ) (s : Qkv K) (h r : ℕ) : K :=
  let q := headEntry s.q hs.qHeads hs.headDim h
  let k := headEntry s.k hs.kvHeads hs.headDim (h / hs.group)
  let v := headEntry s.v hs.kvHeads hs.headDim (h / hs.group)
  pairedGrams seq (attentionRow hs sqrt softmax seq q k) (channelGram v r) (tokenGram hs.headDim k)

/-- All channels of a head's values against channel `r` of its keys. -/
def keyChannel (seq : ℕ) (s : Qkv K) (h r : ℕ) : K :=
  let q := headEntry s.q hs.qHeads hs.headDim h
  let k := headEntry s.k hs.kvHeads hs.headDim (h / hs.group)
  let v := headEntry s.v hs.kvHeads hs.headDim (h / hs.group)
  pairedGrams seq (attentionRow hs sqrt softmax seq q k) (tokenGram hs.headDim v) (channelGram k r)

theorem curvatureTerm_eq (seq : ℕ) (v x P : ℕ → ℕ → K) (i c r : ℕ) :
    curvatureTerm seq v x P i c r = ∑ a ∈ Finset.range seq ×ˢ Finset.range seq,
      pairWeight P i a.1 a.2 * (v a.1 c * x a.2 r) := by
  have hdiagonal : ∑ t ∈ Finset.range seq, ∑ u ∈ Finset.range seq,
      (if t = u then P i t else 0) * (v t c * x u r) =
        ∑ t ∈ Finset.range seq, v t c * P i t * x t r := by
    refine Finset.sum_congr rfl fun t ht => ?_
    rw [Finset.sum_eq_single t]
    · rw [if_pos rfl]
      ring
    · rintro u - hne
      rw [if_neg hne.symm, zero_mul]
    · intro hnot
      exact absurd ht hnot
  have houter : ∑ t ∈ Finset.range seq, ∑ u ∈ Finset.range seq,
      P t i * P i u * (v t c * x u r) =
        (∑ t ∈ Finset.range seq, v t c * P t i) * ∑ t ∈ Finset.range seq, P i t * x t r := by
    rw [Finset.sum_mul_sum]
    refine Finset.sum_congr rfl fun t _ => Finset.sum_congr rfl fun u _ => ?_
    ring
  simp only [Finset.sum_product, pairWeight, sub_mul, Finset.sum_sub_distrib, hdiagonal, houter]
  rfl

theorem sum_sq_eq {α : Type*} (S : Finset α) (w a : α → K) (b : α → ℕ → K) (n : ℕ) :
    ∑ c ∈ Finset.range n, (∑ x ∈ S, w x * (a x * b x c)) ^ 2 =
      ∑ x ∈ S, ∑ y ∈ S, w x * w y * (a x * a y * ∑ c ∈ Finset.range n, b x c * b y c) := by
  calc ∑ c ∈ Finset.range n, (∑ x ∈ S, w x * (a x * b x c)) ^ 2
      = ∑ c ∈ Finset.range n, ∑ x ∈ S, ∑ y ∈ S, w x * w y * (a x * a y * (b x c * b y c)) := by
        refine Finset.sum_congr rfl fun c _ => ?_
        rw [sq, Finset.sum_mul_sum]
        refine Finset.sum_congr rfl fun x _ => Finset.sum_congr rfl fun y _ => ?_
        ring
    _ = ∑ x ∈ S, ∑ y ∈ S, w x * w y * (a x * a y * ∑ c ∈ Finset.range n, b x c * b y c) := by
        rw [Finset.sum_comm]
        refine Finset.sum_congr rfl fun x _ => ?_
        rw [Finset.sum_comm]
        refine Finset.sum_congr rfl fun y _ => ?_
        rw [Finset.mul_sum, Finset.mul_sum]

theorem sum_sq_row (seq : ℕ) (s : Qkv K) (h r : ℕ) :
    ∑ i ∈ Finset.range seq, ∑ c ∈ Finset.range hs.headDim,
      headJacobian hs sqrt softmax seq s h i r c ^ 2 = valueChannel hs sqrt softmax seq s h r := by
  refine Finset.sum_congr rfl fun i _ => ?_
  simp only [headJacobian, curvatureTerm_eq]
  rw [sum_sq_eq]
  rfl

theorem sum_sq_column (seq : ℕ) (s : Qkv K) (h r : ℕ) :
    ∑ i ∈ Finset.range seq, ∑ c ∈ Finset.range hs.headDim,
      headJacobian hs sqrt softmax seq s h i c r * headJacobian hs sqrt softmax seq s h i c r =
        keyChannel hs sqrt softmax seq s h r := by
  refine Finset.sum_congr rfl fun i _ => ?_
  have hswap : ∀ c, headJacobian hs sqrt softmax seq s h i c r *
      headJacobian hs sqrt softmax seq s h i c r =
        (∑ a ∈ Finset.range seq ×ˢ Finset.range seq, pairWeight (attentionRow hs sqrt softmax seq
          (headEntry s.q hs.qHeads hs.headDim h) (headEntry s.k hs.kvHeads hs.headDim
            (h / hs.group))) i a.1 a.2 * (headEntry s.k hs.kvHeads hs.headDim (h / hs.group) a.2 r *
              headEntry s.v hs.kvHeads hs.headDim (h / hs.group) a.1 c)) ^ 2 := by
    intro c
    rw [headJacobian, curvatureTerm_eq, sq]
    simp only [mul_comm (headEntry s.v _ _ _ _ _)]
  simp only [hswap]
  rw [sum_sq_eq]
  refine Finset.sum_congr rfl fun a _ => Finset.sum_congr rfl fun b _ => ?_
  rw [tokenGram, channelGram]
  ring

theorem sum_range_sum_map {α : Type*} (l : List α) (f : α → ℕ → K) (n : ℕ) :
    ∑ i ∈ Finset.range n, (l.map fun a => f a i).sum =
      (l.map fun a => ∑ i ∈ Finset.range n, f a i).sum := by
  induction l with
  | nil => simp
  | cons a l ih => simp [Finset.sum_add_distrib, ih]

variable [CharZero K]

/-- The importances of a head and channel add up to the diagonal entry of the Gram matrix exactly
when, over the used samples, the channel weighs in the head's values as it weighs in its keys. -/
theorem sum_qImp_eq_hq_iff {maxSeq seq : ℕ} {calib : List (QkvSample K)} {draws : ℕ → List ℕ}
    {cur : Curvature K}
    (h : computeQkJacobianImportance hs sqrt softmax maxSeq calib draws = some (some (seq, cur))) :
    ∃ loaded, loadSamples maxSeq calib draws = some loaded ∧
      ∀ t < hs.qHeads, ∀ r < hs.headDim,
        (∑ i ∈ Finset.range seq, cur.qImp t i r = cur.hq t r r ↔
          (t < hs.kvHeads * hs.group →
            ((usedSamples loaded).map fun s => valueChannel hs sqrt softmax seq s t r).sum =
              ((usedSamples loaded).map fun s => keyChannel hs sqrt softmax seq s t r).sum)) := by
  obtain ⟨loaded, hload, hne, hq, hh⟩ := computeQkJacobianImportance_eq hs sqrt softmax h
  refine ⟨loaded, hload, fun t _ r hr => ?_⟩
  obtain ⟨hq', hh'⟩ := foldl_sampleHeads hs sqrt softmax seq (usedSamples loaded) zeroCurvature t
  have hn : ((usedSamples loaded).length : K) ≠ 0 :=
    Nat.cast_ne_zero.mpr (mt List.length_eq_zero_iff.mp hne)
  have hd : (hs.headDim : K) ≠ 0 := Nat.cast_ne_zero.mpr (Nat.ne_of_gt (Nat.zero_lt_of_lt hr))
  have hzero : (zeroCurvature : Curvature K).qImp = fun _ _ _ => 0 := rfl
  have hzero' : (zeroCurvature : Curvature K).hq = fun _ _ _ => 0 := rfl
  simp only [hq, hh, hq', hh', hzero, hzero', zero_add, ← Finset.sum_div]
  rw [div_left_inj' hn]
  by_cases ht : t < hs.kvHeads * hs.group
  · simp only [ht, if_true, true_imp_iff, ← Finset.sum_div]
    rw [div_left_inj' hd, sum_range_sum_map]
    simp only [sum_sq_row, sum_sq_column]
  · simp [ht]

end Totals

section Crossed

/-- Two tokens of sixteen channels, plus and minus one in channel `c`. -/
def plusMinus (c : ℕ) : Tensor ℚ where
  shape := [2, 16]
  data := (List.range 16).map (fun t => if t = c then 1 else 0) ++
    (List.range 16).map (fun t => if t = c then -1 else 0)
  length_data := rfl

/-- The values lie along the first channel and the keys along the second; the queries are zero. -/
def crossedSample : QkvSample ℚ where
  q := (⟨[2, 16], List.replicate 32 0, rfl⟩, ⟨[2, 1], [1, 1], rfl⟩)
  k := (plusMinus 1, ⟨[2, 1], [1, 1], rfl⟩)
  v := (plusMinus 0, ⟨[2, 1], [1, 1], rfl⟩)

def uniformSoftmax (row : List ℚ) : List ℚ := row.map fun _ => 1 / row.length

/-- The call on the one sample, with one head; the root of sixteen is four. -/
def crossedImportance : Option (Option (ℕ × Curvature ℚ)) :=
  computeQkJacobianImportance ⟨1, 1, 16⟩ (fun _ => 4) uniformSoftmax 256 [crossedSample] fun _ => []

/-- The sum of the importances of a channel, and the diagonal entry. -/
def totalsAt (h r : ℕ) : Option (Option (ℕ × Curvature ℚ)) → Option (ℚ × ℚ)
  | some (some (seq, cur)) => some (∑ i ∈ Finset.range seq, cur.qImp h i r, cur.hq h r r)
  | _ => none

theorem totalsAt_crossed : totalsAt 0 0 crossedImportance = some (1 / 8, 0) := by decide +kernel

theorem exists_crossedImportance : ∃ seq cur, crossedImportance = some (some (seq, cur)) ∧
    ∑ i ∈ Finset.range seq, cur.qImp 0 i 0 = 1 / 8 ∧ cur.hq 0 0 0 = 0 := by
  have h := totalsAt_crossed
  unfold totalsAt at h
  split at h
  · case h_1 seq cur hc =>
    obtain ⟨h₁, h₂⟩ := Prod.mk.inj (Option.some.inj h)
    exact ⟨seq, cur, hc, h₁, h₂⟩
  · cases h

theorem sum_qImp_ne_hq : ∃ seq cur, crossedImportance = some (some (seq, cur)) ∧
    ∑ i ∈ Finset.range seq, cur.qImp 0 i 0 ≠ cur.hq 0 0 0 := by
  obtain ⟨seq, cur, hc, h₁, h₂⟩ := exists_crossedImportance
  refine ⟨seq, cur, hc, ?_⟩
  rw [h₁, h₂]
  norm_num

theorem valueChannel_ne_keyChannel_crossed : ∃ seq loaded,
    loadSamples 256 [crossedSample] (fun _ => []) = some loaded ∧
      ((usedSamples loaded).map fun s =>
          valueChannel ⟨1, 1, 16⟩ (fun _ => 4) uniformSoftmax seq s 0 0).sum ≠
        ((usedSamples loaded).map fun s =>
          keyChannel ⟨1, 1, 16⟩ (fun _ => 4) uniformSoftmax seq s 0 0).sum := by
  obtain ⟨seq, cur, hc, h₁, h₂⟩ := exists_crossedImportance
  obtain ⟨loaded, hl, hiff⟩ := sum_qImp_eq_hq_iff ⟨1, 1, 16⟩ (fun _ => 4) uniformSoftmax hc
  refine ⟨seq, loaded, hl, fun heq => ?_⟩
  have hsum := (hiff 0 (by norm_num) 0 (by norm_num)).mpr fun _ => heq
  rw [h₁, h₂] at hsum
  norm_num at hsum

end Crossed

end K8sLearn.Hif4
