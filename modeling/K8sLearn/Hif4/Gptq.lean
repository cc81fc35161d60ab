import K8sLearn.Hif4.BlockSearch
import K8sLearn.Hif4.Rotation
import K8sLearn.Lib.Lists

/-! # Residual compensation

`_apply_block_gptq` and `_apply_activation_gptq` keep the scales of given parameters and
quantize the 64 channels of a block one after the other, each time moving the error to the
channels that follow, as the Gram matrix of the block weighs them. A block takes the new
signs and mantissas when they lose clearly less. Rows do not interact before the losses are
compared, so the loop is written for one row of one block.
-/

namespace K8sLearn.Hif4

def channels (f : Block ℚ) : List ℚ :=
  (List.finRange 8).flatMap fun i => (List.finRange 2).flatMap fun j =>
    (List.finRange 4).map (f i j)

def totalScale (e : Encoding) : Block ℚ := fun i j _ =>
  e.scaleFactor * e.scaleLv2 i * e.scaleLv3 i j

/-- The loop over the channels of one row of a block, from channel `j` on. -/
def gptqColumns (damped : ℕ → ℕ → ℚ) : ℕ → List ℚ → List ℚ → List ℚ
  | j, ts :: total, col :: cols =>
    let q := quantStep ts col * ts
    let err := q - col
    let hDiag := max (damped j j) (1 / 10 ^ 8)
    q :: gptqColumns damped (j + 1) total
      (cols.mapIdx fun i w => w - err * (damped j (j + 1 + i) / hDiag))
  | _, _, _ => []

/-- The Gram matrix with a hundredth of the mean of its diagonal added to the diagonal. -/
def dampGram (gram : ℕ → ℕ → ℚ) (u v : ℕ) : ℚ :=
  gram u v + 1 / 100 * ((∑ t ∈ Finset.range 64, gram t t) / 64) * if u = v then 1 else 0

/-- `(gram * (E.t() @ E)).sum()` for the errors `E` of a block, row by row. -/
def gramLoss (gram : ℕ → ℕ → ℚ) (errors : List (List ℚ)) : ℚ :=
  ∑ u ∈ Finset.range 64, ∑ v ∈ Finset.range 64,
    gram u v * (errors.map fun e => e.getD u 0 * e.getD v 0).sum

/-- The signs and mantissas of `q` at the scales of `e`. -/
def requantize (e : Encoding) (q : List ℚ) : Encoding :=
  let qScaled : Block ℚ := fun i j k =>
    quantStep (totalScale e i j k) (q.getD (8 * i + 4 * j + k) 0)
  { e with
    sign := fun i j k => SignType.sign (qScaled i j k)
    mant := fun i j k => |qScaled i j k| }

section Blocks

variable (params : Tensor Encoding) (w : Tensor ℚ) (rows numBlocks : ℕ) (gram : ℕ → ℕ → ℕ → ℚ)

def encodingAt (r b : ℕ) : Option Encoding := params.data[r * numBlocks + b]?

def blockRow (r b : ℕ) : List ℚ :=
  (List.range 64).map fun c => w.data.getD ((r * numBlocks + b) * 64 + c) 0

def gptqRow (e : Encoding) (r b : ℕ) : List ℚ :=
  gptqColumns (dampGram (gram b)) 0 (channels (totalScale e)) (blockRow w numBlocks r b)

/-- Whether the compensated block loses less than nine tenths of what the given one loses. -/
def useGptq (b : ℕ) : Bool :=
  let es := (List.range rows).filterMap fun r => (encodingAt params numBlocks r b).map (r, ·)
  let stdLoss := gramLoss (gram b) (es.map fun (r, e) =>
    (channels e.value).zipWith (· - ·) (blockRow w numBlocks r b))
  let gptqLoss := gramLoss (gram b) (es.map fun (r, e) =>
    (gptqRow w numBlocks gram e r b).zipWith (· - ·) (blockRow w numBlocks r b))
  decide (gptqLoss < stdLoss * (90 / 100))

/-- The second half of both functions, where the Gram matrices are known. -/
def gptq : Tensor Encoding where
  shape := params.shape
  data := params.data.mapIdx fun t e =>
    if useGptq params w rows numBlocks gram (t % numBlocks) then
      requantize e (gptqRow w numBlocks gram e (t / numBlocks) (t % numBlocks))
    else e
  length_data := by simp [params.length_data]

end Blocks

/-- `act * (1.0 / D) if D is not None else act`. -/
def smoothIfGiven (D : Option (Tensor ℚ)) (act : Tensor ℚ) : Option (Tensor ℚ) :=
  match D with
  | some D => smoothActivation act D
  | none => some act

/-- `_apply_hadamard(act_s, H) if H is not None else act_s`. -/
def rotateIfGiven (H : Option (List (List ℚ))) (act : Tensor ℚ) : Option (Tensor ℚ) :=
  match H with
  | some H => applyHadamard act H
  | none => some act

def rotateActivation (D : Option (Tensor ℚ)) (H : Option (List (List ℚ))) (act : Tensor ℚ) :
    Option (Tensor ℚ) :=
  (smoothIfGiven D act).bind (rotateIfGiven H)

/-- The columns of an activation that belong to a block: all 64, or one, which is broadcast. -/
def blockWidth (act : Tensor ℚ) (b : ℕ) : ℕ := min 64 (act.shape.getLastD 0 - 64 * b)

/-- The sum of `block.t() @ block` over the activations, divided by the number of tokens. -/
def calibGram (acts : List (Tensor ℚ)) (tokens b u v : ℕ) : ℚ :=
  (acts.map fun act =>
    let c := act.shape.getLastD 0
    let width := blockWidth act b
    ∑ t ∈ Finset.range act.rows, act.data.getD (t * c + 64 * b + u % width) 0 *
      act.data.getD (t * c + 64 * b + v % width) 0).sum / (max tokens 1 : ℕ)

def applyBlockGptq (weightParams : Tensor Encoding) (wRot : Tensor ℚ)
    (calibActs : List (Tensor ℚ)) (D : Option (Tensor ℚ)) (H : Option (List (List ℚ))) :
    Option (Tensor Encoding) :=
  match wRot.shape with
  | [outFeatures, K] =>
    let numBlocks := K / 64
    if numBlocks = 0 ∨ outFeatures = 0 then some weightParams
    else
      (calibActs.mapM (rotateActivation D H)).bind fun acts =>
      if (∀ act ∈ acts, act.shape.length = 2 ∧
          ∀ b < numBlocks, blockWidth act b = 64 ∨ blockWidth act b = 1) ∧
          K % 64 = 0 ∧ weightParams.shape = [outFeatures, numBlocks] then
        some (gptq weightParams wRot outFeatures numBlocks
          (calibGram acts (calibActs.map Tensor.rows).sum))
      else none
  | _ => none

def gramOf (g : Tensor ℚ) (numBlocks b u v : ℕ) : ℚ :=
  g.data.getD (((if g.shape = [numBlocks, 64, 64] then b else 0) * 64 + u) * 64 + v) 0

def applyActivationGptq (stdParams : Tensor Encoding) (actFp : Tensor ℚ)
    (gramW : Option (Tensor ℚ)) : Option (Tensor Encoding) :=
  match actFp.shape with
  | [seq, K] =>
    let numBlocks := K / 64
    match gramW with
    | none => some stdParams
    | some g =>
      if numBlocks = 0 ∨ seq = 0 then some stdParams
      else if (g.shape = [numBlocks, 64, 64] ∨ g.shape = [1, 64, 64] ∨ g.shape = [64, 64]) ∧
          K % 64 = 0 ∧ stdParams.shape = [seq, numBlocks] then
        some (gptq stdParams actFp seq numBlocks (gramOf g numBlocks))
      else none
  | _ => none

theorem requantize_legal {e : Encoding} (h : e.Legal) (q : List ℚ) : (requantize e q).Legal where
  scaleFactor_mem := h.scaleFactor_mem
  scaleLv2_mem := h.scaleLv2_mem
  scaleLv3_mem := h.scaleLv3_mem
  sign_mem i j k := by
    simp only [requantize]
    cases SignType.sign (quantStep (totalScale e i j k) (q.getD (8 * i + 4 * j + k) 0)) <;> simp
  mant_mem i j k := by
    obtain ⟨m, hl, hu, hm⟩ :=
      quantStep_eq_div_four (totalScale e i j k) (q.getD (8 * i + 4 * j + k) 0)
    refine ⟨m.natAbs, by omega, ?_⟩
    simp only [requantize, hm]
    rw [abs_div, Nat.cast_natAbs, Int.cast_abs]
    norm_num

theorem legal_of_mem_gptq {params : Tensor Encoding} {w : Tensor ℚ} {rows numBlocks : ℕ}
    {gram : ℕ → ℕ → ℕ → ℚ} (h : ∀ e ∈ params.data, e.Legal) :
    ∀ e ∈ (gptq params w rows numBlocks gram).data, e.Legal := by
  intro e he
  obtain ⟨t, ht, rfl⟩ := List.mem_mapIdx.mp he
  split_ifs
  · exact requantize_legal (h _ (List.getElem_mem ht)) _
  · exact h _ (List.getElem_mem ht)

theorem applyBlockGptq_legal {weightParams p : Tensor Encoding} {wRot : Tensor ℚ}
    {calibActs : List (Tensor ℚ)} {D : Option (Tensor ℚ)} {H : Option (List (List ℚ))}
    (h : applyBlockGptq weightParams wRot calibActs D H = some p)
    (hlegal : ∀ e ∈ weightParams.data, e.Legal) :
    p.shape = weightParams.shape ∧ ∀ e ∈ p.data, e.Legal := by
  unfold applyBlockGptq at h
  split at h
  · dsimp only at h
    split_ifs at h
    · obtain rfl := Option.some.inj h
      exact ⟨rfl, hlegal⟩
    · obtain ⟨acts, -, h⟩ := Option.bind_eq_some_iff.mp h
      split_ifs at h
      obtain rfl := Option.some.inj h
      exact ⟨rfl, legal_of_mem_gptq hlegal⟩
  · cases h

theorem applyActivationGptq_legal {stdParams p : Tensor Encoding} {actFp : Tensor ℚ}
    {gramW : Option (Tensor ℚ)} (h : applyActivationGptq stdParams actFp gramW = some p)
    (hlegal : ∀ e ∈ stdParams.data, e.Legal) :
    p.shape = stdParams.shape ∧ ∀ e ∈ p.data, e.Legal := by
  unfold applyActivationGptq at h
  split at h
  · cases gramW with
    | none =>
      obtain rfl := Option.some.inj h
      exact ⟨rfl, hlegal⟩
    | some g =>
      dsimp only at h
      split_ifs at h
      · obtain rfl := Option.some.inj h
        exact ⟨rfl, hlegal⟩
      · obtain rfl := Option.some.inj h
        exact ⟨rfl, legal_of_mem_gptq hlegal⟩
  · cases h

section Total

variable {D : Option (Tensor ℚ)} {H : Option (List (List ℚ))} {K : ℕ}

/-- The smoothing and the rotation that fit `K` channels. -/
structure RotationFits (D : Option (Tensor ℚ)) (H : Option (List (List ℚ))) (K : ℕ) : Prop where
  smooth : ∀ D', D = some D' → D'.shape = [K]
  rotate : ∀ H', H = some H' → 0 < H'.length ∧ H'.length ∣ K

theorem RotationFits.exists_rotateActivation (h : RotationFits D H K) {act : Tensor ℚ} {m : ℕ}
    (hact : act.shape = [m, K]) :
    ∃ r, rotateActivation D H act = some r ∧ r.shape = [m, K] := by
  have hact' : act.shape = [m] ++ [K] := hact
  obtain ⟨a, ha, has⟩ : ∃ a, smoothIfGiven D act = some a ∧ a.shape = [m] ++ [K] := by
    cases D with
    | none => exact ⟨act, rfl, hact'⟩
    | some D' =>
      obtain ⟨r, hr, hrs, -⟩ := Tensor.broadcastWith_channels
        (f := fun a d : ℚ => a * (1 / d)) hact' (h.smooth D' rfl)
      exact ⟨r, hr, hrs.trans hact'⟩
  rw [rotateActivation, ha, Option.bind_some]
  cases H with
  | none => exact ⟨a, rfl, has⟩
  | some H' =>
    obtain ⟨h0, hdvd⟩ := h.rotate H' rfl
    obtain ⟨r, hr, hrs, -⟩ := exists_applyHadamard has h0 hdvd
    exact ⟨r, hr, hrs.trans has⟩

theorem exists_applyBlockGptq (h : RotationFits D H K) (hK : K % 64 = 0)
    {weightParams : Tensor Encoding} {wRot : Tensor ℚ} {out : ℕ} (hw : wRot.shape = [out, K])
    (hp : weightParams.shape = [out, K / 64]) {calibActs : List (Tensor ℚ)}
    (hacts : ∀ act ∈ calibActs, ∃ m, act.shape = [m, K]) :
    ∃ p, applyBlockGptq weightParams wRot calibActs D H = some p := by
  obtain ⟨acts, hr⟩ := Lists.exists_mapM (f := rotateActivation D H) (l := calibActs) (by
    intro act hact
    obtain ⟨m, hm⟩ := hacts act hact
    obtain ⟨r, hr, -⟩ := h.exists_rotateActivation hm
    exact ⟨r, hr⟩)
  have hshape : ∀ act ∈ acts, ∃ m, act.shape = [m, K] := by
    intro r hrmem
    obtain ⟨act, hact, hrot⟩ := (Lists.exists_mem_of_forall₂ (Lists.forall₂_of_mapM hr)).1 r hrmem
    obtain ⟨m, hm⟩ := hacts act hact
    obtain ⟨r', hr', hs⟩ := h.exists_rotateActivation hm
    obtain rfl := Option.some.inj (hrot.symm.trans hr')
    exact ⟨m, hs⟩
  have hcond : (∀ act ∈ acts, act.shape.length = 2 ∧
      ∀ b < K / 64, blockWidth act b = 64 ∨ blockWidth act b = 1) ∧
      K % 64 = 0 ∧ weightParams.shape = [out, K / 64] := by
    refine ⟨fun act hact => ?_, hK, hp⟩
    obtain ⟨m, hm⟩ := hshape act hact
    refine ⟨by simp [hm], fun b hb => Or.inl ?_⟩
    have hlast : act.shape.getLastD 0 = K := by simp [hm]
    rw [blockWidth, hlast]
    omega
  unfold applyBlockGptq
  split
  · case h_1 out' K' hshape' =>
    obtain ⟨rfl, rfl⟩ : out = out' ∧ K = K' := by simpa [hw] using hshape'
    dsimp only
    split_ifs
    · exact ⟨_, rfl⟩
    · rw [hr, Option.bind_some, if_pos hcond]
      exact ⟨_, rfl⟩
  · case h_2 hne => exact absurd hw (hne _ _)

theorem exists_applyActivationGptq (hK : K % 64 = 0) {stdParams : Tensor Encoding}
    {actFp : Tensor ℚ} {seq : ℕ} (ha : actFp.shape = [seq, K])
    (hp : stdParams.shape = [seq, K / 64]) {gramW : Option (Tensor ℚ)}
    (hg : ∀ g, gramW = some g → g.shape = [K / 64, 64, 64]) :
    ∃ p, applyActivationGptq stdParams actFp gramW = some p := by
  unfold applyActivationGptq
  split
  · case h_1 seq' K' hshape' =>
    obtain ⟨rfl, rfl⟩ : seq = seq' ∧ K = K' := by simpa [ha] using hshape'
    cases gramW with
    | none => exact ⟨_, rfl⟩
    | some g =>
      dsimp only
      split_ifs with h0 hcond
      · exact ⟨_, rfl⟩
      · exact ⟨_, rfl⟩
      · exact absurd ⟨Or.inl (hg g rfl), hK, hp⟩ hcond
  · case h_2 hne => exact absurd ha (hne _ _)

end Total

end K8sLearn.Hif4
