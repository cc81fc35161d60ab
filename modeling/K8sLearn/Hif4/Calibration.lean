import K8sLearn.Hif4.Gptq
import K8sLearn.Hif4.Hadamard
import K8sLearn.Hif4.Nvfp4
import K8sLearn.Hif4.RoundTrip
import K8sLearn.Lib.Checked

/-! # The linear layer

The calibration chooses between no smoothing and one power of the ratio of the maxima,
scales and rotates the weight, quantizes it and leaves a state. The online call undoes the
scale on its activation and applies the same rotation, so what the two quantizers are run
on has the product of the original layer.
-/

namespace K8sLearn.Hif4

def adaptiveNCandidates (shape : List ℕ) : ℕ :=
  if 8000000 < shape.prod then 5 else if 2000000 < shape.prod then 7 else 9

/-- `x.abs().amax(dim=0)`, which raises where there is no row. -/
def amaxRows (x : Tensor ℚ) : Option (Tensor ℚ) :=
  if x.rows = 0 then none
  else some {
    shape := x.shape.tail
    data := (List.range x.rowSize).map fun c =>
      absMax ((List.range x.rows).map fun r => x.data.getD (r * x.rowSize + c) 0)
    length_data := by simp [Tensor.rowSize] }

/-- `(x ** 2).sum(dim=0)`. -/
def sumSqRows (x : Tensor ℚ) : Tensor ℚ where
  shape := x.shape.tail
  data := (List.range x.rowSize).map fun c =>
    ∑ r ∈ Finset.range x.rows, x.data.getD (r * x.rowSize + c) 0 ^ 2
  length_data := by simp [Tensor.rowSize]

def full (shape : List ℕ) (v : ℚ) : Tensor ℚ := ⟨shape, List.replicate shape.prod v, by simp⟩

/-- `t.clamp(min=low)`. -/
def clampMin (low : ℚ) (t : Tensor ℚ) : Tensor ℚ := t.map fun v => max v low

/-- What the calibration leaves for the online calls; an entry may be `None`. -/
structure ActivationState where
  hadamard : Option (List (List ℚ))
  importance : Option (Tensor ℚ)
  smoothScale : Option (Tensor ℚ)

structure Scan where
  proxy : ℚ
  alpha : Option ℚ
  D : Tensor ℚ
  wImp : Tensor ℚ

section Calibrate

variable (pow : ℚ → ℚ → ℚ) (H : List (List ℚ)) (weightFp : Tensor ℚ) (calibActs : List (Tensor ℚ))

/-- `max_act`, the largest absolute value of each channel. -/
def maxAct (K : ℕ) : Option (Tensor ℚ) :=
  calibActs.foldlM (fun m act => (amaxRows act).bind (Tensor.zipBroadcast max m)) (full [K] 0)

def smoothScaleFor (K : ℕ) (maxAct maxW : Tensor ℚ) : Option ℚ → Option (Tensor ℚ)
  | none => some (full [K] 1)
  | some alpha =>
    (Tensor.zipBroadcast (fun a w => pow a alpha / pow w (1 - alpha))
      (clampMin (1 / 10 ^ 8) maxAct) maxW).map
    (Tensor.map fun d => min (max d (1 / 10 ^ 4)) (10 ^ 4))

/-- `w_imp`, the mean square of each channel of the smoothed and rotated activations. -/
def weightImportance (K : ℕ) (D : Tensor ℚ) : Option (Tensor ℚ) :=
  (calibActs.foldlM (fun sum act => (rotateActivation (some D) (some H) act).bind fun actRot =>
    Tensor.broadcastWith (· + ·) sum (sumSqRows actRot)) (full [K] 0)).map fun sum =>
  clampMin (1 / 10 ^ 8) (sum.map (· / (max (calibActs.map Tensor.rows).sum 1 : ℕ)))

/-- The weighted error of the quantized rows of the weight, per row. -/
def scanProxy (wHat wRot wImp : Tensor ℚ) (nScan : ℕ) : Option ℚ :=
  if nScan = 0 then none
  else
    (Tensor.broadcastWith (fun a b => (a - b) ^ 2) wHat wRot).bind fun err =>
    (Tensor.broadcastWith (· * ·) err wImp).map fun weighted => weighted.data.sum / nScan

def scanPass (K : ℕ) (maxAct maxW : Tensor ℚ) (alpha : Option ℚ) : Option Scan :=
  let nScan := min 256 weightFp.rows
  (smoothScaleFor pow K maxAct maxW alpha).bind fun D =>
  ((smoothWeight (weightFp.slice 0 nScan) D).bind fun w => applyHadamard w H).bind fun wRot =>
  (weightImportance H calibActs K D).bind fun wImp =>
  (quantizeHif4 wRot 3 (some wImp) none).bind fun wp =>
  (hif4Dequant wp wRot.shape).bind fun wHat =>
  (scanProxy wHat wRot wImp nScan).map fun proxy => ⟨proxy, alpha, D, wImp⟩

/-- `best_proxy` after the pass: the earlier one, unless the new one is smaller. -/
def keepBest (best : Option Scan) (scan : Scan) : Scan :=
  match best with
  | none => scan
  | some b => if scan.proxy < b.proxy then scan else b

def scanAlphas (K : ℕ) (maxAct maxW : Tensor ℚ) : Option (Option Scan) :=
  [none, some (1 / 2)].foldlM (fun best alpha =>
    (scanPass pow H weightFp calibActs K maxAct maxW alpha).map fun scan =>
      some (keepBest best scan)) none

def finishWeight (wRot : Tensor ℚ) (imp smoothScale : Option (Tensor ℚ)) :
    Option (Tensor Encoding × ActivationState) :=
  (quantizeHif4 wRot (adaptiveNCandidates weightFp.shape) imp none).bind fun params =>
  (hif4Dequant params wRot.shape).map fun wHat =>
    (params, ⟨some H, some (clampMin (1 / 10 ^ 8) (sumSqRows wHat)), smoothScale⟩)

def calibrateWeight : Option (Tensor Encoding × ActivationState) :=
  let K := weightFp.shape.getLastD 0
  if calibActs.isEmpty then
    (applyHadamard weightFp H).bind fun wRot => finishWeight H weightFp wRot none none
  else
    (maxAct calibActs K).bind fun maxAct =>
    (amaxRows weightFp).bind fun maxW =>
    (scanAlphas pow H weightFp calibActs K maxAct (clampMin (1 / 10 ^ 8) maxW)).bind fun best =>
    best.bind fun best =>
    ((smoothWeight weightFp best.D).bind fun w => applyHadamard w H).bind fun wRot =>
    finishWeight H weightFp wRot (some best.wImp) (best.alpha.map fun _ => best.D)

end Calibrate

abbrev Nvfp4 := Tensor ℚ × Tensor ℚ

def hif4CalibrationAndQuantizeWeight (pow : ℚ → ℚ → ℚ) (draw : ℕ → ℕ → Bool)
    (weightQuant weightScale : Tensor ℚ) (calibActivationList : List Nvfp4) :
    Option (Tensor Encoding × ActivationState) :=
  (dequantNvfp4 weightQuant weightScale).bind fun weightFp =>
  (calibActivationList.mapM fun pair => dequantNvfp4 pair.1 pair.2).bind fun calibActs =>
  calibrateWeight pow (hadamard draw 42) weightFp calibActs

def activationImportance (actFp : Tensor ℚ) (imp : Option (Tensor ℚ)) :
    Option (Option (Tensor ℚ)) :=
  match imp with
  | none => some none
  | some imp =>
    if imp.shape = [] then none
    else some (if imp.shape.getLastD 0 ≠ actFp.shape.getLastD 0 then none else some imp)

def hif4DynamicQuantizeActivation (activationQuant activationScale : Tensor ℚ)
    (activationState : Option ActivationState) : Option (Tensor Encoding) :=
  (dequantNvfp4 activationQuant activationScale).bind fun actFp =>
  match activationState with
  | none => quantizeHif4 actFp (adaptiveNCandidates actFp.shape) none none
  | some state =>
    (rotateActivation state.smoothScale state.hadamard actFp).bind fun actFp =>
    (activationImportance actFp state.importance).bind fun imp =>
    quantizeHif4 actFp (adaptiveNCandidates actFp.shape) imp none

section Shapes

variable {x D : Tensor ℚ} {H : List (List ℚ)} {m K : ℕ}

theorem exists_amaxRows (hx : x.shape = [m, K]) (hm : 0 < m) :
    ∃ a, amaxRows x = some a ∧ a.shape = [K] := by
  have hrows : x.rows ≠ 0 := by simp [Tensor.rows, hx, hm.ne']
  refine ⟨_, if_neg hrows, ?_⟩
  simp [hx]

theorem exists_zipBroadcast {f : ℚ → ℚ → ℚ} {a b : Tensor ℚ} (h : a.shape = b.shape) :
    ∃ r, Tensor.zipBroadcast f a b = some r ∧ r.shape = a.shape := by
  have he : Tensor.Expandable b.shape.reverse a.shape.reverse := by
    rw [h]
    exact Tensor.expandable_self _
  obtain ⟨r, hr, hrs, -⟩ := Tensor.broadcastWith_getD (f := f) he
  refine ⟨r, ?_, hrs⟩
  rw [Tensor.zipBroadcast, ← h, Tensor.broadcastShape_self, Option.bind_some,
    List.reverse_reverse, Tensor.expand_self, Option.bind_some, hr]

theorem exists_smooth_rotate (hH : H.length = 64) (hx : x.shape = [m, K]) (hD : D.shape = [K])
    (hK : 64 ∣ K) :
    ∃ y, ((smoothWeight x D).bind fun w => applyHadamard w H) = some y ∧ y.shape = [m, K] := by
  have hx' : x.shape = [m] ++ [K] := hx
  obtain ⟨y, hy, hyt⟩ := exists_turned (f := fun a d : ℚ => a * d) (g := id) (fun _ _ => rfl) hx' hD
    (by omega) (hH.symm ▸ hK)
  exact ⟨y, hy, hyt.shape_eq.trans hx⟩

theorem exists_rotateActivation (hH : H.length = 64) (hx : x.shape = [m, K]) (hD : D.shape = [K])
    (hK : 64 ∣ K) :
    ∃ y, rotateActivation (some D) (some H) x = some y ∧ y.shape = [m, K] := by
  have hx' : x.shape = [m] ++ [K] := hx
  obtain ⟨y, hy, hyt⟩ := exists_turned (f := fun a d : ℚ => a * (1 / d)) (g := fun d => 1 / d)
    (fun _ _ => rfl) hx' hD (by omega) (hH.symm ▸ hK)
  exact ⟨y, hy, hyt.shape_eq.trans hx⟩

theorem broadcastWith_ones {f : ℚ → ℚ → ℚ} (hf : ∀ a, f a 1 = a) (hx : x.shape = [m, K]) :
    Tensor.broadcastWith f x (full [K] 1) = some x := by
  have hx' : x.shape = [m] ++ [K] := hx
  obtain ⟨y, hy, hys, hyd⟩ := Tensor.broadcastWith_channels (f := f) (b := full [K] 1) hx' rfl
  rw [hy]
  refine congrArg some (Tensor.ext hys (List.ext_getElem ?_ ?_))
  · rw [y.length_data, hys, x.length_data]
  · intro i hi hi'
    have hone : (full [K] 1).data.getD (i % K) 1 = 1 := by
      by_cases h : i % K < K
      · simp [full, h]
      · rw [List.getD_eq_default _ _ (by simpa [full] using not_lt.mp h)]
    have h := hyd i 0 1 0 hi'
    rw [hone, hf, List.getD_eq_getElem _ _ hi, List.getD_eq_getElem _ _ hi'] at h
    exact h

theorem exists_quantizeHif4_matrix {n : ℕ} (hn : 2 ≤ n) (hx : x.shape = [m, K]) (hm : 0 < m)
    (hK : 64 ∣ K) {imp : Option (Tensor ℚ)} (himp : ∀ t ∈ imp, t.shape = [K]) :
    ∃ p, quantizeHif4 x n imp none = some p := by
  refine exists_quantizeHif4 hn ?_ ?_ none (by simp)
  · exact ⟨by simp [hx], by simpa [hx] using Nat.mod_eq_zero_of_dvd hK, by simp [hx, hm.ne']⟩
  · cases imp with
    | none => trivial
    | some t => exact ⟨by simp [hx], .inr (by rw [himp t rfl, hx]; rfl)⟩

end Shapes

section Scans

variable {pow : ℚ → ℚ → ℚ} {H : List (List ℚ)} {weightFp : Tensor ℚ} {calibActs : List (Tensor ℚ)}
  {out K : ℕ}

/-- The activations of a calibration: matrices with rows and the channels of the weight. -/
def CalibActs (K : ℕ) (calibActs : List (Tensor ℚ)) : Prop :=
  ∀ act ∈ calibActs, ∃ m, 0 < m ∧ act.shape = [m, K]

theorem exists_maxAct (hacts : CalibActs K calibActs) :
    ∃ a, maxAct calibActs K = some a ∧ a.shape = [K] := by
  refine Checked.exists_foldlM (I := fun a : Tensor ℚ => a.shape = [K]) ?_ rfl
  intro act hact a ha
  obtain ⟨m, hm, hs⟩ := hacts act hact
  obtain ⟨b, hb, hbs⟩ := exists_amaxRows hs hm
  obtain ⟨r, hr, hrs⟩ := exists_zipBroadcast (f := max) (ha.trans hbs.symm)
  exact ⟨r, by rw [hb, Option.bind_some, hr], hrs.trans ha⟩

structure IsScale (K : ℕ) (alpha : Option ℚ) (D : Tensor ℚ) : Prop where
  shape_eq : D.shape = [K]
  pos : ∀ d ∈ D.data, 0 < d
  eq_ones : alpha = none → D = full [K] 1

theorem isScale_ones (K : ℕ) (alpha : Option ℚ) : IsScale K alpha (full [K] 1) where
  shape_eq := rfl
  pos := by simp [full]
  eq_ones _ := rfl

variable (pow) in
theorem exists_smoothScaleFor {a w : Tensor ℚ} (ha : a.shape = [K]) (hw : w.shape = [K])
    (alpha : Option ℚ) : ∃ D, smoothScaleFor pow K a w alpha = some D ∧ IsScale K alpha D := by
  cases alpha with
  | none => exact ⟨_, rfl, isScale_ones K none⟩
  | some alpha =>
    obtain ⟨r, hr, hrs⟩ := exists_zipBroadcast (a := clampMin (1 / 10 ^ 8) a) (b := w)
      (f := fun a w => pow a alpha / pow w (1 - alpha)) (ha.trans hw.symm)
    refine ⟨r.map fun d => min (max d (1 / 10 ^ 4)) (10 ^ 4),
      by rw [smoothScaleFor, hr, Option.map_some], hrs.trans ha, ?_, nofun⟩
    intro d hd
    obtain ⟨v, -, rfl⟩ := List.mem_map.mp hd
    exact lt_min (lt_max_of_lt_right (by positivity)) (by positivity)

theorem exists_weightImportance (hH : H.length = 64) (hK : 64 ∣ K) (hacts : CalibActs K calibActs)
    {D : Tensor ℚ} (hD : D.shape = [K]) :
    ∃ imp, weightImportance H calibActs K D = some imp ∧ imp.shape = [K] := by
  have hsum : ∃ s, calibActs.foldlM (fun sum act =>
      (rotateActivation (some D) (some H) act).bind fun actRot =>
        Tensor.broadcastWith (· + ·) sum (sumSqRows actRot)) (full [K] 0) = some s ∧
      s.shape = [K] := by
    refine Checked.exists_foldlM (I := fun s : Tensor ℚ => s.shape = [K]) ?_ rfl
    intro act hact s hs
    obtain ⟨m, -, hsh⟩ := hacts act hact
    obtain ⟨y, hy, hys⟩ := exists_rotateActivation hH hsh hD hK
    have hs' : s.shape = [] ++ [K] := hs
    obtain ⟨r, hr, hrs, -⟩ := Tensor.broadcastWith_channels (f := (· + ·))
      (b := sumSqRows y) hs' (by simp [sumSqRows, hys])
    exact ⟨r, by rw [hy, Option.bind_some, hr], hrs.trans hs⟩
  obtain ⟨s, hs, hss⟩ := hsum
  exact ⟨clampMin (1 / 10 ^ 8) (s.map (· / (max (calibActs.map Tensor.rows).sum 1 : ℕ))),
    by rw [weightImportance, hs, Option.map_some], hss⟩

variable (pow) in
theorem exists_scanPass (hH : H.length = 64) (hK : 64 ∣ K) (hw : weightFp.shape = [out, K])
    (hout : 0 < out) (hacts : CalibActs K calibActs) {a w : Tensor ℚ} (ha : a.shape = [K])
    (hmw : w.shape = [K]) (alpha : Option ℚ) :
    ∃ scan, scanPass pow H weightFp calibActs K a w alpha = some scan ∧ scan.alpha = alpha ∧
      IsScale K alpha scan.D ∧ scan.wImp.shape = [K] := by
  obtain ⟨D, hD, hscale⟩ := exists_smoothScaleFor pow ha hmw alpha
  have hslice : (weightFp.slice 0 (min 256 weightFp.rows)).shape = [min 256 out, K] := by
    simp [Tensor.slice, hw, Tensor.rows]
  have hscan : 0 < min 256 out := by omega
  obtain ⟨wRot, hwRot, hws⟩ := exists_smooth_rotate hH hslice hscale.shape_eq hK
  obtain ⟨wImp, hwImp, his⟩ := exists_weightImportance hH hK hacts hscale.shape_eq
  obtain ⟨wp, hwp⟩ := exists_quantizeHif4_matrix (show 2 ≤ 3 by norm_num) hws hscan hK
    (show ∀ t ∈ some wImp, t.shape = [K] by simpa using his)
  obtain ⟨-, wHat, hwHat⟩ := exists_hif4Dequant (by norm_num) hwp
  have hhs := (hif4Dequant_eq_some hwHat).1
  obtain ⟨err, herr, hes⟩ : ∃ err, Tensor.broadcastWith (fun a b => (a - b) ^ 2) wHat wRot =
      some err ∧ err.shape = wHat.shape := by
    have he : Tensor.Expandable wRot.shape.reverse wHat.shape.reverse := by
      rw [hhs]
      exact Tensor.expandable_self _
    obtain ⟨err, herr, hes, -⟩ :=
      Tensor.broadcastWith_getD (f := fun a b : ℚ => (a - b) ^ 2) he
    exact ⟨err, herr, hes⟩
  have hes' : err.shape = [min 256 out] ++ [K] := hes.trans (hhs.trans hws)
  obtain ⟨weighted, hweighted, -⟩ := Tensor.broadcastWith_channels (f := (· * ·)) hes' his
  obtain ⟨proxy, hproxy⟩ : ∃ proxy,
      scanProxy wHat wRot wImp (min 256 weightFp.rows) = some proxy := by
    have hne : min 256 weightFp.rows ≠ 0 := by
      simp only [Tensor.rows, hw, List.headD_cons]
      omega
    exact ⟨_, by rw [scanProxy, if_neg hne, herr, Option.bind_some, hweighted, Option.map_some]⟩
  refine ⟨⟨proxy, alpha, D, wImp⟩, ?_, rfl, hscale, his⟩
  simp only [scanPass, hD, Option.bind_some, hwRot, hwImp, hwp, hwHat, hproxy, Option.map_some]

variable (pow) in
/-- Of the two scans the first is kept, unless the second has the smaller error. -/
theorem exists_scanAlphas (hH : H.length = 64) (hK : 64 ∣ K) (hw : weightFp.shape = [out, K])
    (hout : 0 < out) (hacts : CalibActs K calibActs) {a w : Tensor ℚ} (ha : a.shape = [K])
    (hmw : w.shape = [K]) :
    ∃ plain smooth, scanPass pow H weightFp calibActs K a w none = some plain ∧
      scanPass pow H weightFp calibActs K a w (some (1 / 2)) = some smooth ∧
      scanAlphas pow H weightFp calibActs K a w = some (some (keepBest (some plain) smooth)) ∧
      IsScale K (keepBest (some plain) smooth).alpha (keepBest (some plain) smooth).D ∧
      (keepBest (some plain) smooth).wImp.shape = [K] := by
  obtain ⟨plain, hplain, hpa, hps, hpi⟩ := exists_scanPass pow hH hK hw hout hacts ha hmw none
  obtain ⟨smooth, hsmooth, hsa, hss, hsi⟩ :=
    exists_scanPass pow hH hK hw hout hacts ha hmw (some (1 / 2))
  refine ⟨plain, smooth, hplain, hsmooth, ?_, ?_, ?_⟩
  · simp only [scanAlphas, List.foldlM_cons, List.foldlM_nil, hplain, hsmooth, Option.map_some,
      Option.bind_eq_bind, Option.bind_some, Option.pure_def]
    rfl
  · rw [← hpa] at hps
    rw [← hsa] at hss
    unfold keepBest
    dsimp only
    split_ifs
    exacts [hss, hps]
  · unfold keepBest
    dsimp only
    split_ifs
    exacts [hsi, hpi]

end Scans

section Layer

variable {pow : ℚ → ℚ → ℚ} {H : List (List ℚ)} {weightFp : Tensor ℚ} {calibActs : List (Tensor ℚ)}
  {params : Tensor Encoding} {state : ActivationState} {out K : ℕ}

/-- What a calibration did: with this scale the rotated weight was quantized, and the state
holds the rotation, the scale and a weight for each channel. -/
structure Prepared (H : List (List ℚ)) (weightFp : Tensor ℚ) (K : ℕ) (params : Tensor Encoding)
    (state : ActivationState) (D wRot : Tensor ℚ) : Prop where
  hadamard : state.hadamard = some H
  importance : ∃ imp, state.importance = some imp ∧ imp.shape = [K]
  shape_scale : D.shape = [K]
  scale_pos : ∀ d ∈ D.data, 0 < d
  smoothScale : state.smoothScale = some D ∨ state.smoothScale = none ∧ D = full [K] 1
  wRot_eq : ((smoothWeight weightFp D).bind fun w => applyHadamard w H) = some wRot
  shape_wRot : wRot.shape = weightFp.shape
  quantized : ∃ imp, quantizeHif4 wRot (adaptiveNCandidates weightFp.shape) imp none = some params

theorem two_le_adaptiveNCandidates (shape : List ℕ) : 2 ≤ adaptiveNCandidates shape := by
  unfold adaptiveNCandidates
  split_ifs <;> norm_num

variable (H weightFp) in
theorem exists_finishWeight {wRot : Tensor ℚ} (hs : wRot.shape = [out, K]) (hout : 0 < out)
    (hK : 64 ∣ K) {imp : Option (Tensor ℚ)} (himp : ∀ t ∈ imp, t.shape = [K])
    (D : Option (Tensor ℚ)) :
    ∃ params wDiag, finishWeight H weightFp wRot imp D = some (params, ⟨some H, some wDiag, D⟩) ∧
      wDiag.shape = [K] ∧
      quantizeHif4 wRot (adaptiveNCandidates weightFp.shape) imp none = some params := by
  obtain ⟨params, hparams⟩ := exists_quantizeHif4_matrix
    (two_le_adaptiveNCandidates weightFp.shape) hs hout hK himp
  obtain ⟨-, wHat, hwHat⟩ := exists_hif4Dequant (two_le_adaptiveNCandidates _) hparams
  refine ⟨params, clampMin (1 / 10 ^ 8) (sumSqRows wHat), ?_, ?_, hparams⟩
  · rw [finishWeight, hparams, Option.bind_some, hwHat, Option.map_some]
  · simp [clampMin, sumSqRows, (hif4Dequant_eq_some hwHat).1, hs]

variable (pow) in
theorem exists_calibrateWeight (hH : H.length = 64) (hK : 64 ∣ K) (hw : weightFp.shape = [out, K])
    (hout : 0 < out) (hacts : CalibActs K calibActs) :
    ∃ params state D wRot, calibrateWeight pow H weightFp calibActs = some (params, state) ∧
      Prepared H weightFp K params state D wRot := by
  have hlast : weightFp.shape.getLastD 0 = K := by simp [hw]
  by_cases hempty : calibActs.isEmpty
  · obtain ⟨wRot, hwRot, hws⟩ := exists_smooth_rotate hH hw (isScale_ones K none).shape_eq hK
    have hones : smoothWeight weightFp (full [K] 1) = some weightFp :=
      broadcastWith_ones (fun a => mul_one a) hw
    obtain ⟨params, wDiag, hfinish, hds, hq⟩ := exists_finishWeight H weightFp hws hout hK
      (show ∀ t ∈ (none : Option (Tensor ℚ)), t.shape = [K] by simp) none
    refine ⟨params, ⟨some H, some wDiag, none⟩, full [K] 1, wRot, ?_, rfl, ⟨wDiag, rfl, hds⟩, rfl,
      (isScale_ones K none).pos, .inr ⟨rfl, rfl⟩, hwRot, hws.trans hw.symm, none, hq⟩
    rw [hones, Option.bind_some] at hwRot
    simp only [calibrateWeight, hempty, if_true, hwRot, Option.bind_some, hfinish]
  · obtain ⟨a, ha, has⟩ := exists_maxAct hacts
    obtain ⟨w, hmw, hws⟩ := exists_amaxRows hw hout
    obtain ⟨plain, smooth, -, -, hscans, hscale, his⟩ := exists_scanAlphas pow hH hK hw
      hout hacts has (w := clampMin (1 / 10 ^ 8) w) hws
    generalize keepBest (some plain) smooth = best at hscans hscale his
    obtain ⟨wRot, hwRot, hwrs⟩ := exists_smooth_rotate hH hw hscale.shape_eq hK
    obtain ⟨params, wDiag, hfinish, hds, hq⟩ := exists_finishWeight H weightFp hwrs hout hK
      (show ∀ t ∈ some best.wImp, t.shape = [K] by simpa using his)
      (best.alpha.map fun _ => best.D)
    refine ⟨params, ⟨some H, some wDiag, best.alpha.map fun _ => best.D⟩, best.D, wRot, ?_, rfl,
      ⟨wDiag, rfl, hds⟩, hscale.shape_eq, hscale.pos, ?_, hwRot, hwrs.trans hw.symm, _, hq⟩
    · simp only [calibrateWeight, hempty, Bool.false_eq_true, if_false, hlast, ha, hmw,
        Option.bind_some, hscans, hwRot, hfinish]
    · cases halpha : best.alpha with
      | none => exact .inr ⟨rfl, hscale.eq_ones halpha⟩
      | some alpha => exact .inl rfl

section Online

variable {D wRot actFp : Tensor ℚ} {m : ℕ} (h : Prepared H weightFp K params state D wRot)

include h

theorem Prepared.rotateActivation_eq (ha : actFp.shape = [m, K]) :
    rotateActivation state.smoothScale state.hadamard actFp =
      (smoothActivation actFp D).bind fun x => applyHadamard x H := by
  rw [h.hadamard]
  rcases h.smoothScale with hs | ⟨hs, rfl⟩
  · rw [hs]
    rfl
  · rw [hs, smoothActivation, broadcastWith_ones (fun a => by rw [div_one, mul_one]) ha]
    rfl

theorem Prepared.exists_activation (hH : H.length = 64) (hK : 64 ∣ K) (hm : 0 < m)
    (ha : actFp.shape = [m, K]) {actQuant actScale : Tensor ℚ}
    (hq : dequantNvfp4 actQuant actScale = some actFp) :
    ∃ actRot p imp, hif4DynamicQuantizeActivation actQuant actScale (some state) = some p ∧
      ((smoothActivation actFp D).bind fun x => applyHadamard x H) = some actRot ∧
      actRot.shape = actFp.shape ∧
      quantizeHif4 actRot (adaptiveNCandidates actFp.shape) imp none = some p := by
  obtain ⟨actRot, hrot, hs⟩ := exists_rotateActivation hH ha h.shape_scale hK
  have hrot' : ((smoothActivation actFp D).bind fun x => applyHadamard x H) = some actRot := hrot
  obtain ⟨imp, himp, his⟩ := h.importance
  obtain ⟨p, hp⟩ := exists_quantizeHif4_matrix (two_le_adaptiveNCandidates actFp.shape) hs hm hK
    (show ∀ t ∈ some imp, t.shape = [K] by simpa using his)
  refine ⟨actRot, p, some imp, ?_, hrot', hs.trans ha.symm, hp⟩
  have hdrop : activationImportance actRot (some imp) = some (some imp) := by
    simp [activationImportance, his, hs]
  simp only [hif4DynamicQuantizeActivation, hq, Option.bind_some, h.rotateActivation_eq ha, hrot',
    himp, hdrop]
  rw [hs, ← ha]
  exact hp

end Online

end Layer

def IsMatrix (m K : ℕ) (pair : Nvfp4) : Prop :=
  0 < m ∧ pair.1.shape = [m, K] ∧ pair.2.shape = [m, K / 16]

theorem IsMatrix.exists_dequantNvfp4 {m K : ℕ} {pair : Nvfp4} (h : IsMatrix m K pair)
    (hK : 64 ∣ K) : ∃ x, dequantNvfp4 pair.1 pair.2 = some x ∧ x.shape = [m, K] := by
  obtain ⟨c, rfl⟩ := hK
  have hq : pair.1.shape = [m] ++ [16 * (4 * c)] := by
    rw [h.2.1, ← mul_assoc]
    rfl
  have hs : pair.2.shape = [m] ++ [4 * c] := by
    rw [h.2.2, show 64 * c / 16 = 4 * c by omega]
    rfl
  obtain ⟨x, hx, hxs⟩ := Hif4.exists_dequantNvfp4 pair.1 pair.2 [m] hq hs
  exact ⟨x, hx, hxs.trans h.2.1⟩

theorem exists_linearCalibration (pow : ℚ → ℚ → ℚ) (draw : ℕ → ℕ → Bool) {out K : ℕ} (hK : 64 ∣ K)
    {weight : Nvfp4} (hw : IsMatrix out K weight) {calib : List Nvfp4}
    (hcalib : ∀ pair ∈ calib, ∃ m, IsMatrix m K pair) :
    ∃ params state weightFp D wRot,
      hif4CalibrationAndQuantizeWeight pow draw weight.1 weight.2 calib = some (params, state) ∧
      dequantNvfp4 weight.1 weight.2 = some weightFp ∧ weightFp.shape = [out, K] ∧
      Prepared (hadamard draw 42) weightFp K params state D wRot := by
  obtain ⟨weightFp, hweight, hws⟩ := hw.exists_dequantNvfp4 hK
  have hread : ∀ pair ∈ calib, ∃ act, dequantNvfp4 pair.1 pair.2 = some act ∧
      ∃ m, 0 < m ∧ act.shape = [m, K] := by
    intro pair hp
    obtain ⟨m, hm⟩ := hcalib pair hp
    obtain ⟨act, hact, hs⟩ := hm.exists_dequantNvfp4 hK
    exact ⟨act, hact, m, hm.1, hs⟩
  obtain ⟨acts, hmap, hacts⟩ := Checked.exists_mapM hread
  obtain ⟨params, state, D, wRot, hcal, hprep⟩ :=
    exists_calibrateWeight pow (hadamard_orthonormal draw 42).length_eq hK hws hw.1 hacts
  refine ⟨params, state, weightFp, D, wRot, ?_, hweight, hws, hprep⟩
  simp only [hif4CalibrationAndQuantizeWeight, hweight, hmap, Option.bind_some, hcal]

/-- On matrices with whole blocks the calibration and every online call return, and the two
matrices that they quantize have the product of the layer. -/
theorem linear_product_kept (pow : ℚ → ℚ → ℚ) (draw : ℕ → ℕ → Bool) {out K : ℕ} (hK : 64 ∣ K)
    {weight : Nvfp4} (hw : IsMatrix out K weight) {calib : List Nvfp4}
    (hcalib : ∀ pair ∈ calib, ∃ m, IsMatrix m K pair) :
    ∃ params state weightFp wRot,
      hif4CalibrationAndQuantizeWeight pow draw weight.1 weight.2 calib = some (params, state) ∧
      dequantNvfp4 weight.1 weight.2 = some weightFp ∧
      (∃ imp, quantizeHif4 wRot (adaptiveNCandidates weightFp.shape) imp none = some params) ∧
      ∀ m (act : Nvfp4), IsMatrix m K act → ∃ actFp actRot p y,
        dequantNvfp4 act.1 act.2 = some actFp ∧
        hif4DynamicQuantizeActivation act.1 act.2 (some state) = some p ∧
        (∃ imp, quantizeHif4 actRot (adaptiveNCandidates actFp.shape) imp none = some p) ∧
        matmulTranspose actFp weightFp = some y ∧ matmulTranspose actRot wRot = some y := by
  obtain ⟨params, state, weightFp, D, wRot, hcal, hweight, hws, hprep⟩ :=
    exists_linearCalibration pow draw hK hw hcalib
  refine ⟨params, state, weightFp, wRot, hcal, hweight, hprep.quantized, ?_⟩
  intro m act hact
  have horth := hadamard_orthonormal draw 42
  obtain ⟨actFp, hfp, has⟩ := hact.exists_dequantNvfp4 hK
  obtain ⟨actRot, p, imp, hcall, hrot, -, hp⟩ :=
    hprep.exists_activation horth.length_eq hK hact.1 has hfp
  have has' : actFp.shape = [m] ++ [K] := has
  obtain ⟨y, hy, hprod⟩ := horth.matmul_smooth (by norm_num) has' hws hprep.shape_scale
    (fun d hd => (hprep.scale_pos d hd).ne') hK
  rw [hrot, Option.bind_some, hprep.wRot_eq, Option.bind_some] at hprod
  exact ⟨actFp, actRot, p, y, hfp, hcall, ⟨imp, hp⟩, hy, hprod⟩

/-- A weight and a calibration of one row of ones. -/
theorem linear_product_kept_ones :
    ∃ params state weightFp wRot,
      hif4CalibrationAndQuantizeWeight (fun x _ => x) (fun _ _ => true) (full [1, 64] 1)
        (full [1, 4] 1) [(full [1, 64] 1, full [1, 4] 1)] = some (params, state) ∧
      dequantNvfp4 (full [1, 64] 1) (full [1, 4] 1) = some weightFp ∧
      (∃ imp, quantizeHif4 wRot (adaptiveNCandidates weightFp.shape) imp none = some params) ∧
      ∀ m (act : Nvfp4), IsMatrix m 64 act → ∃ actFp actRot p y,
        dequantNvfp4 act.1 act.2 = some actFp ∧
        hif4DynamicQuantizeActivation act.1 act.2 (some state) = some p ∧
        (∃ imp, quantizeHif4 actRot (adaptiveNCandidates actFp.shape) imp none = some p) ∧
        matmulTranspose actFp weightFp = some y ∧ matmulTranspose actRot wRot = some y := by
  have hone : IsMatrix 1 64 (full [1, 64] 1, full [1, 4] 1) := ⟨one_pos, rfl, rfl⟩
  refine linear_product_kept (fun x _ => x) (fun _ _ => true) dvd_rfl hone ?_
  rintro pair hp
  obtain rfl := List.mem_singleton.mp hp
  exact ⟨1, hone⟩

end K8sLearn.Hif4
