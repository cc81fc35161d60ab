import K8sLearn.Hif4.Attention
import K8sLearn.SelfCheck.Legal
import K8sLearn.SelfCheck.Run

/-! # The shipped solution under the self-check

The six functions read tensors, return the five tensors of an encoding and pass their
states on as dictionaries, of which every online call gets a copy. A state is read back as
it was left, so on every dataset of finite matrices with whole blocks all groups go through
both gates. The functions are modelled on floating point tensors that take no gradient; a
tensor that takes one passes it on to the importance, which the contract then refuses.
-/

namespace K8sLearn.SelfCheck

open Hif4

section Values

def floatDtypes : List Dtype := [.float16, .bfloat16, .float32, .float64]

/-- A tensor whose results are plain tensors of 32-bit floats: a dense one of floats on the
CPU that takes no gradient. -/
def plainTensor (t : TorchTensor) : Bool :=
  floatDtypes.contains t.dtype && t.onCpu && t.strided && !t.requiresGrad

/-- The numbers of a plain tensor that has only finite ones. -/
def readTensor (t : TorchTensor) : Option (Tensor ℚ) :=
  if plainTensor t then
    match t.content, t.length_data with
    | .dense data, h =>
      if data.all PyFloat.isFinite then
        some ⟨t.shape, data.map PyFloat.toRat, by rw [List.length_map, h data rfl]⟩
      else none
    | _, _ => none
  else none

def readPair (p : Pair) : Option Nvfp4 :=
  (readTensor p.quant).bind fun quant => (readTensor p.scale).map fun scale => (quant, scale)

/-- A tensor of 32-bit floats on the CPU, as it is computed from plain tensors. -/
def floatTensor (t : Tensor ℚ) : TorchTensor where
  shape := t.shape
  dtype := .float32
  onCpu := true
  strided := true
  requiresGrad := false
  content := .dense (t.data.map .finite)
  length_data := by
    rintro data h
    obtain rfl := Content.dense.inj h
    rw [List.length_map, t.length_data]

def squareTensor (H : List (List ℚ)) : Tensor ℚ := tabulate H.length H.length (Hif4.entry H)

def readRows (t : Tensor ℚ) : Option (List (List ℚ)) :=
  match t.shape with
  | [m, n] =>
    some ((List.range m).map fun i => (List.range n).map fun j => t.data.getD (i * n + j) 0)
  | _ => none

def tensorValue : Option (Tensor ℚ) → Value
  | none => .none
  | some t => .object (.tensor none (floatTensor t))

/-- `state.get(name)`: nothing, or a tensor. -/
def getTensor (items : List (Value × Value)) (name : String) : Option (Option (Tensor ℚ)) :=
  match PyValue.lookup name.toList items with
  | none | some .none => some none
  | some (.object (.tensor _ t)) => (readTensor t).map some
  | some _ => none

def getHadamard (items : List (Value × Value)) : Option (Option (List (List ℚ))) :=
  (getTensor items "hadamard").bind fun
    | none => some none
    | some t => (readRows t).map some

def getCalibSeq (items : List (Value × Value)) : Option ℕ :=
  match PyValue.lookup "calib_seq".toList items with
  | some (.int (.ofNat n)) => some n
  | _ => none

def activationStateItems (s : ActivationState) : List (Value × Value) :=
  [(.str "hadamard".toList, tensorValue (s.hadamard.map squareTensor)),
    (.str "importance".toList, tensorValue s.importance),
    (.str "smooth_scale".toList, tensorValue s.smoothScale)]

/-- `activation_state` as an online call reads it. -/
def readActivationState : Value → Option (Option ActivationState)
  | .dict _ items =>
    (getTensor items "smooth_scale").bind fun smoothScale =>
    (getHadamard items).bind fun hadamard =>
    (getTensor items "importance").map fun importance => some ⟨hadamard, importance, smoothScale⟩
  | _ => some none

/-- `q_state` and `k_state` as they are returned. -/
def rotationItems (H : Option (List (List ℚ))) : List (Value × Value) :=
  [(.str "hadamard".toList, tensorValue (H.map squareTensor))]

def readRotation : Value → Option (Option (List (List ℚ)))
  | .dict _ items => getHadamard items
  | _ => some none

def vStateItems (s : VState) : List (Value × Value) :=
  [(.str "rho".toList, tensorValue s.rho), (.str "rho_mean".toList, tensorValue s.rhoMean),
    (.str "calib_seq".toList, match s.calibSeq with | none => .none | some n => .int n)]

def readVState : Value → Option (Option VState)
  | .dict _ items =>
    (getTensor items "rho").bind fun rho =>
    (getTensor items "rho_mean").map fun rhoMean => some ⟨rho, rhoMean, getCalibSeq items⟩
  | _ => some none

end Values

section Solution

variable (pow : ℚ → ℚ → ℚ) (softmax : List ℚ → List ℚ) (sqrt : ℕ → ℚ) (draw : ℕ → ℕ → Bool)
  (raised : PyError) (otherLinear : LinearSolution) (otherAttention : Solution)

def orRaise {α : Type} : Option α → Except PyError α
  | some a => .ok a
  | none => .error raised

-- Calls on tensors that are not read are left open: `otherLinear` and `otherAttention`.

def linearSolution : LinearSolution where
  calibrate weightQuant weightScale calib :=
    match readPair ⟨weightQuant, weightScale⟩, calib.mapM readPair with
    | some weight, some acts => orRaise raised <|
      (hif4CalibrationAndQuantizeWeight pow draw weight.1 weight.2 acts).map fun result =>
        .dict none [(.str "weight_params".toList, emitted result.1),
          (.str "activation_state".toList, .dict none (activationStateItems result.2))]
    | _, _ => otherLinear.calibrate weightQuant weightScale calib
  quantize i quant scale state :=
    match readPair ⟨quant, scale⟩, readActivationState state with
    | some act, some s => orRaise raised <|
      (hif4DynamicQuantizeActivation act.1 act.2 s).map emitted
    | _, _ => otherLinear.quantize i quant scale state

def readSample (sample : Sample) : Option (QkvSample ℚ) :=
  (readPair (sample .q)).bind fun q => (readPair (sample .k)).bind fun k =>
  (readPair (sample .v)).map fun v => ⟨q, k, v⟩

def quantizeRole (role : Role) (x : Nvfp4) (heads headDim : ℕ) (state : Value) :
    Option (Option (Tensor Encoding)) :=
  match role with
  | .q => (readRotation state).map (hif4DynamicQuantizeQ x.1 x.2)
  | .k => (readRotation state).map (hif4DynamicQuantizeK x.1 x.2)
  | .v => (readVState state).map (hif4DynamicQuantizeV x.1 x.2 heads headDim)

def attentionSolution : Solution where
  calibrate calib qHeads kvHeads headDim :=
    match calib.mapM readSample with
    | some samples => orRaise raised <|
      (hif4CalibrationAttention softmax sqrt draw samples qHeads kvHeads headDim).map fun states =>
        .dict none [(.str "q_state".toList, .dict none (rotationItems states.hadamard)),
          (.str "k_state".toList, .dict none (rotationItems states.hadamard)),
          (.str "v_state".toList, .dict none (vStateItems states.v))]
    | none => otherAttention.calibrate calib qHeads kvHeads headDim
  quantize role j quant scale heads headDim state :=
    match (readPair ⟨quant, scale⟩).bind (quantizeRole role · heads headDim state) with
    | some result => orRaise raised (result.map emitted)
    | none => otherAttention.quantize role j quant scale heads headDim state

def shippedSolution : Submission where
  defined name := apiNames.contains name
  linear _ := linearSolution pow draw raised otherLinear
  attention _ := attentionSolution softmax sqrt draw raised otherAttention

end Solution

section RoundTrip

variable {t : Tensor ℚ} {H : List (List ℚ)}

theorem readTensor_floatTensor (t : Tensor ℚ) : readTensor (floatTensor t) = some t := by
  have hall : (t.data.map PyFloat.finite).all PyFloat.isFinite = true := by
    simp [PyFloat.isFinite]
  have hplain : plainTensor (floatTensor t) = true := rfl
  have hdata : (t.data.map PyFloat.finite).map PyFloat.toRat = t.data := by
    rw [List.map_map]
    exact List.map_id _
  rw [readTensor, if_pos hplain]
  simp only [floatTensor, if_pos hall]
  exact congrArg some (Tensor.ext rfl hdata)

theorem readRows_squareTensor (h : ∀ r ∈ H, r.length = H.length) :
    readRows (squareTensor H) = some H := by
  have hdata : ∀ i < H.length, ∀ j < H.length,
      (squareTensor H).data.getD (i * H.length + j) 0 = Hif4.entry H i j :=
    fun i hi j hj => Lists.getD_flatMap_range hi hj (Hif4.entry H) 0
  have hshape : (squareTensor H).shape = [H.length, H.length] := rfl
  rw [readRows, hshape]
  refine congrArg some (List.ext_getElem (by simp) ?_)
  intro i hi hi'
  rw [List.getElem_map, List.getElem_range]
  refine List.ext_getElem ?_ ?_
  · rw [List.length_map, List.length_range, h _ (List.getElem_mem hi')]
  · intro j hj hj'
    rw [List.length_map, List.length_range] at hj
    rw [List.getElem_map, List.getElem_range, hdata i hi' j hj, Hif4.entry,
      List.getD_eq_getElem _ _ hi', List.getD_eq_getElem _ _ hj']

theorem getTensor_of_lookup {items : List (Value × Value)} {name : String}
    {o : Option (Tensor ℚ)} (h : PyValue.lookup name.toList items = some (tensorValue o)) :
    getTensor items name = some o := by
  cases o with
  | none => simp only [getTensor, h, tensorValue]
  | some t => simp only [getTensor, h, tensorValue, readTensor_floatTensor, Option.map_some]

theorem getHadamard_of_lookup {items : List (Value × Value)} {o : Option (List (List ℚ))}
    (ho : ∀ H ∈ o, ∀ r ∈ H, r.length = H.length)
    (h : PyValue.lookup "hadamard".toList items = some (tensorValue (o.map squareTensor))) :
    getHadamard items = some o := by
  rw [getHadamard, getTensor_of_lookup h]
  cases o with
  | none => rfl
  | some H =>
    simp only [Option.map_some, Option.bind_some, readRows_squareTensor (ho H rfl)]

theorem readActivationState_items {s : ActivationState}
    (h : ∀ H ∈ s.hadamard, ∀ r ∈ H, r.length = H.length) :
    readActivationState (.dict none (activationStateItems s)) = some (some s) := by
  have hs : getTensor (activationStateItems s) "smooth_scale" = some s.smoothScale :=
    getTensor_of_lookup rfl
  have hi : getTensor (activationStateItems s) "importance" = some s.importance :=
    getTensor_of_lookup rfl
  have hH : getHadamard (activationStateItems s) = some s.hadamard := getHadamard_of_lookup h rfl
  simp only [readActivationState, hs, hi, hH, Option.bind_some, Option.map_some]

theorem readRotation_items {o : Option (List (List ℚ))}
    (h : ∀ H ∈ o, ∀ r ∈ H, r.length = H.length) :
    readRotation (.dict none (rotationItems o)) = some o := getHadamard_of_lookup h rfl

theorem readVState_items (s : VState) :
    readVState (.dict none (vStateItems s)) = some (some s) := by
  have hr : getTensor (vStateItems s) "rho" = some s.rho := getTensor_of_lookup rfl
  have hm : getTensor (vStateItems s) "rho_mean" = some s.rhoMean := getTensor_of_lookup rfl
  have hc : getCalibSeq (vStateItems s) = s.calibSeq := by
    obtain ⟨rho, rhoMean, calibSeq⟩ := s
    cases calibSeq <;> rfl
  simp only [readVState, hr, hm, hc, Option.bind_some, Option.map_some]

end RoundTrip

section Contract

structure AllowedLeaf (v : Value) : Prop where
  nodes : v.nodes = 1
  depth : v.nestingDepth = 0
  allowed : Allowed v

variable {items : List (Value × Value)}

theorem nodesOfItems_leaves (h : ∀ item ∈ items, AllowedLeaf item.2) :
    PyValue.nodesOfItems items = items.length := by
  induction items with
  | nil => rfl
  | cons item items ih =>
    rw [PyValue.nodesOfItems, (h item List.mem_cons_self).nodes,
      ih fun item hi => h item (List.mem_cons_of_mem _ hi), List.length_cons, Nat.add_comm]

theorem depthOfItems_leaves (h : ∀ item ∈ items, AllowedLeaf item.2) :
    PyValue.depthOfItems items ≤ 1 := by
  induction items with
  | nil => exact Nat.zero_le 1
  | cons item items ih =>
    rw [PyValue.depthOfItems, (h item List.mem_cons_self).depth]
    exact max_le le_rfl (ih fun item hi => h item (List.mem_cons_of_mem _ hi))

theorem frozenState_leaves (hlen : items.length < frozenStateMaxNodes)
    (hkeys : ∀ item ∈ items, AllowedKey item.1) (h : ∀ item ∈ items, AllowedLeaf item.2) :
    FrozenState (.dict none items) where
  depth_le := by
    have hd := depthOfItems_leaves h
    rw [PyValue.nestingDepth]
    exact hd.trans (by decide)
  nodes_le := by
    rw [PyValue.nodes, nodesOfItems_leaves h]
    omega
  allowed := .dict hkeys fun item hi => (h item hi).allowed

theorem allowedKey (name : String) (h : utf8Length name.toList ≤ frozenStateMaxStringBytes) :
    AllowedKey (.str name.toList) := ⟨_, rfl, h⟩

theorem allowedTensor_floatTensor (t : Tensor ℚ) : AllowedTensor (floatTensor t) where
  onCpu := rfl
  strided := rfl
  dtype_mem := by simp [floatTensor, allowedTensorDtypes]
  not_requiresGrad := rfl
  finite _ := by
    refine ⟨_, rfl, ?_⟩
    rintro x hx
    obtain ⟨q, -, rfl⟩ := List.mem_map.mp hx
    rfl

theorem allowedLeaf_tensorValue (o : Option (Tensor ℚ)) : AllowedLeaf (tensorValue o) := by
  cases o with
  | none => exact ⟨rfl, rfl, .none⟩
  | some t => exact ⟨rfl, rfl, .tensor (allowedTensor_floatTensor t)⟩

theorem frozenState_activationState (s : ActivationState) :
    FrozenState (.dict none (activationStateItems s)) := by
  apply frozenState_leaves
  · exact (by decide : 3 < frozenStateMaxNodes)
  · simp only [activationStateItems, List.forall_mem_cons, List.not_mem_nil, false_implies,
      implies_true, and_true]
    exact ⟨allowedKey _ (by decide), allowedKey _ (by decide), allowedKey _ (by decide)⟩
  · simp only [activationStateItems, List.forall_mem_cons, List.not_mem_nil, false_implies,
      implies_true, and_true]
    exact ⟨allowedLeaf_tensorValue _, allowedLeaf_tensorValue _, allowedLeaf_tensorValue _⟩

theorem frozenState_rotation (H : Option (List (List ℚ))) :
    FrozenState (.dict none (rotationItems H)) := by
  apply frozenState_leaves
  · exact (by decide : 1 < frozenStateMaxNodes)
  · simp only [rotationItems, List.forall_mem_singleton]
    exact allowedKey _ (by decide)
  · simp only [rotationItems, List.forall_mem_singleton]
    exact allowedLeaf_tensorValue _

theorem frozenState_vState (s : VState) : FrozenState (.dict none (vStateItems s)) := by
  have hseq : AllowedLeaf (match s.calibSeq with | none => .none | some n => .int n) := by
    cases s.calibSeq with
    | none => exact ⟨rfl, rfl, .none⟩
    | some n => exact ⟨rfl, rfl, .int n⟩
  apply frozenState_leaves
  · exact (by decide : 3 < frozenStateMaxNodes)
  · simp only [vStateItems, List.forall_mem_cons, List.not_mem_nil, false_implies,
      implies_true, and_true]
    exact ⟨allowedKey _ (by decide), allowedKey _ (by decide), allowedKey _ (by decide)⟩
  · simp only [vStateItems, List.forall_mem_cons, List.not_mem_nil, false_implies,
      implies_true, and_true]
    exact ⟨allowedLeaf_tensorValue _, allowedLeaf_tensorValue _, hseq⟩

variable {rt : Runtime}

theorem validateLinearCalibrationResult_of {params state : Value} {shape : List ℕ}
    (hp : ∀ tag, validateHif4Params rt params shape tag = .ok []) (hs : FrozenState state)
    (tag : String) :
    validateLinearCalibrationResult rt (.dict none [(.str "weight_params".toList, params),
      (.str "activation_state".toList, state)]) shape tag = .ok [] := by
  have hstate : activationStateErrors [(.str "weight_params".toList, params),
      (.str "activation_state".toList, state)] tag = [] :=
    (validateFrozenState_eq_nil_iff state _).mpr hs
  have hparams : weightParamsErrors rt [(.str "weight_params".toList, params),
      (.str "activation_state".toList, state)] shape tag = .ok [] := hp _
  have hunknown : unsupportedErrors rt [(.str "weight_params".toList, params),
      (.str "activation_state".toList, state)] tag = .ok [] := rfl
  simp only [validateLinearCalibrationResult, hunknown, hparams, hstate]
  rfl

def stateItems (states : Role → Value) : List (Value × Value) :=
  [(.str "q_state".toList, states .q), (.str "k_state".toList, states .k),
    (.str "v_state".toList, states .v)]

theorem stateOf_stateItems (states : Role → Value) (role : Role) :
    stateOf (stateItems states) role = some (states role) := by
  cases role <;> rfl

theorem validateAttentionCalibrationResult_of {states : Role → Value}
    (hs : ∀ role, FrozenState (states role)) (tag : String) :
    validateAttentionCalibrationResult rt (.dict none (stateItems states)) tag = .ok [] := by
  have hstate : ∀ role, stateErrors (stateItems states) tag role = [] := by
    intro role
    simp only [stateErrors, stateOf_stateItems]
    exact (validateFrozenState_eq_nil_iff _ _).mpr (hs role)
  have hnil : Role.all.flatMap (stateErrors (stateItems states) tag) = [] :=
    List.flatMap_eq_nil_iff.mpr fun role _ => hstate role
  have hunknown : unknownKeys (stateItems states) = [] := rfl
  simp only [validateAttentionCalibrationResult, hunknown, hnil]
  rfl

end Contract

section Datasets

/-- A pair of plain finite matrices with a row and whole blocks. -/
structure FiniteMatrix (p : Nvfp4Pair) : Prop where
  quant : ∃ q, readTensor p.quant = some q
  scale : ∃ s, readTensor p.scale = some s
  rows : ∃ m, 0 < m ∧ p.quant.shape = [m, p.channels]
  dvd : 64 ∣ p.channels

structure FiniteDatasets (data : List LinearGroup × List AttentionGroup) : Prop where
  linear : ∀ group ∈ data.1, FiniteMatrix group.weight ∧ (∀ p ∈ group.calib, FiniteMatrix p.1) ∧
    ∀ p ∈ group.test, FiniteMatrix p.1
  attention : ∀ group ∈ data.2, (∀ role, 64 ∣ group.heads.hidden role) ∧
    ∀ sample ∈ group.calib ++ group.test, ∀ role, FiniteMatrix (sample.pair role)

theorem shape_readTensor {t : TorchTensor} {x : Tensor ℚ} (h : readTensor t = some x) :
    x.shape = t.shape := by
  unfold readTensor at h
  split_ifs at h
  split at h
  · split_ifs at h
    obtain rfl := Option.some.inj h
    rfl
  · cases h

theorem FiniteMatrix.exists_readPair {p : Nvfp4Pair} (h : FiniteMatrix p) :
    ∃ pair m, readPair p.toPair = some pair ∧ p.quant.shape = [m, p.channels] ∧
      IsMatrix m p.channels pair := by
  obtain ⟨q, hq⟩ := h.quant
  obtain ⟨s, hs⟩ := h.scale
  obtain ⟨m, hm, hshape⟩ := h.rows
  refine ⟨(q, s), m, by rw [readPair, hq, Option.bind_some, hs, Option.map_some], hshape, hm,
    (shape_readTensor hq).trans hshape, ?_⟩
  have hscale := p.scale_shape
  rw [hshape] at hscale
  rw [shape_readTensor hs, hscale]
  rfl

variable {rt : Runtime} (hfl : rt.fl = .finite) (pow : ℚ → ℚ → ℚ) (softmax : List ℚ → List ℚ)
  (sqrt : ℕ → ℚ) (draw : ℕ → ℕ → Bool) (raised : PyError) (otherLinear : LinearSolution)
  (otherAttention : Solution)

include hfl in
theorem linear_passes {group : LinearGroup} (hw : FiniteMatrix group.weight)
    (hcalib : ∀ p ∈ group.calib, FiniteMatrix p.1) (htest : ∀ p ∈ group.test, FiniteMatrix p.1)
    (i : ℕ) :
    ∃ state, LinearCalibrated rt (linearSolution pow draw raised otherLinear) group i state ∧
      ∀ test ∈ group.test.zipIdx,
        Accepted rt (linearSolution pow draw raised otherLinear) group i state test := by
  obtain ⟨weight, out, hweight, hwshape, hwm⟩ := hw.exists_readPair
  have hread : ∀ p ∈ group.calib.map fun p => p.1.toPair, ∃ pair, readPair p = some pair ∧
      ∃ m, IsMatrix m group.weight.channels pair := by
    rw [List.forall_mem_map]
    intro p hp
    obtain ⟨pair, m, hpair, -, hm⟩ := (hcalib p hp).exists_readPair
    exact ⟨pair, hpair, m, p.2 ▸ hm⟩
  obtain ⟨acts, hacts, hmats⟩ := Checked.exists_mapM hread
  obtain ⟨params, state, weightFp, D, wRot, hcal, -, hwfp, hprep⟩ :=
    exists_linearCalibration pow draw hw.dvd hwm hmats
  have hfrozen := frozenState_activationState state
  refine ⟨.dict none (activationStateItems state),
    ⟨none, [(.str "weight_params".toList, emitted params),
      (.str "activation_state".toList, .dict none (activationStateItems state))], ?_, ?_, rfl⟩, ?_⟩
  · simp only [linearSolution, hweight, hacts, hcal, Option.map_some, orRaise]
  · apply validateLinearCalibrationResult_of _ hfrozen
    obtain ⟨imp, hquant⟩ := hprep.quantized
    have hshape : group.weight.quant.shape = wRot.shape :=
      hwshape.trans (hprep.shape_wRot.trans hwfp).symm
    rw [hshape]
    exact (quantizeHif4_legalParams (two_le_adaptiveNCandidates _) hquant).validate hfl
  · rintro ⟨p, j⟩ hp
    have hfm := htest p (List.fst_mem_of_mem_zipIdx hp)
    obtain ⟨act, m, hact, hashape, ham⟩ := hfm.exists_readPair
    rw [p.2] at ham hashape
    have horth := hadamard_orthonormal draw 42
    obtain ⟨actFp, hfp, has⟩ := ham.exists_dequantNvfp4 hw.dvd
    obtain ⟨actRot, enc, imp, hcall, -, hrs, hquant⟩ :=
      hprep.exists_activation horth.length_eq hw.dvd ham.1 has hfp
    have hback : readActivationState (.dict none (activationStateItems state)) =
        some (some state) := by
      apply readActivationState_items
      rw [hprep.hadamard]
      rintro H hH r hr
      obtain rfl := Option.some.inj hH
      rw [horth.length_row r hr, horth.length_eq]
    have hout : linearOutput rt (linearSolution pow draw raised otherLinear) group
        (.dict none (activationStateItems state)) (p, j) = .ok (emitted enc) := by
      refine Checked.bind_eq_ok.mpr ⟨_, cloneFrozenState_eq rt hfrozen.allowed, ?_⟩
      simp only [linearSolution, hact, hback, hcall, Option.map_some, orRaise]
    refine ⟨emitted enc, hout, ?_⟩
    have hshape : p.1.quant.shape = actRot.shape := hashape.trans (hrs.trans has).symm
    dsimp only
    rw [hshape]
    exact (quantizeHif4_legalParams (two_le_adaptiveNCandidates _) hquant).validate hfl _

theorem exists_readPair_sample {heads : Heads} {sample : AttentionSample heads}
    (h : ∀ role, FiniteMatrix (sample.pair role)) (role : Role) :
    ∃ pair, readPair (sample.pair role).toPair = some pair ∧
      IsMatrix sample.seq (heads.hidden role) pair := by
  obtain ⟨pair, m, hpair, hshape, hm⟩ := (h role).exists_readPair
  have heq := hshape.symm.trans (sample.shape_eq role)
  simp only [List.cons.injEq, and_true] at heq
  exact ⟨pair, hpair, heq.1 ▸ heq.2 ▸ hm⟩

theorem exists_readSample {heads : Heads} {sample : AttentionSample heads}
    (h : ∀ role, FiniteMatrix (sample.pair role)) :
    ∃ qkv, readSample (fun role => (sample.pair role).toPair) = some qkv ∧
      IsSampleOf heads.qNumHeads heads.kvNumHeads heads.headDim sample.seq qkv := by
  obtain ⟨q, hq, hqm⟩ := exists_readPair_sample h .q
  obtain ⟨k, hk, hkm⟩ := exists_readPair_sample h .k
  obtain ⟨v, hv, hvm⟩ := exists_readPair_sample h .v
  exact ⟨⟨q, k, v⟩, by simp only [readSample, hq, hk, hv, Option.bind_some, Option.map_some],
    hqm, hkm, hvm⟩

def stateValues (states : AttentionStates) : Role → Value
  | .q | .k => .dict none (rotationItems states.hadamard)
  | .v => .dict none (vStateItems states.v)

theorem frozenState_stateValues (states : AttentionStates) (role : Role) :
    FrozenState (stateValues states role) := by
  cases role with
  | q | k => exact frozenState_rotation _
  | v => exact frozenState_vState _

theorem output_eq {group : Group} {states : AttentionStates} {j : ℕ} {sample : Sample} {role : Role}
    {value : Value} (h : (attentionSolution softmax sqrt draw raised otherAttention).quantize role j
      (sample role).quant (sample role).scale
      (if role = .q then group.qNumHeads else group.kvNumHeads) group.headDim
      (stateValues states role) = .ok value) :
    output rt (attentionSolution softmax sqrt draw raised otherAttention) group (stateValues states)
      j sample role = .ok value := by
  have hallowed := (frozenState_stateValues states role).allowed
  exact Checked.bind_eq_ok.mpr ⟨_, cloneFrozenState_eq rt hallowed, h⟩

structure IsCalibrated (heads : Heads) (states : AttentionStates) : Prop where
  hadamard : states.hadamard =
    if heads.headDim % 64 = 0 then some (Hif4.hadamard draw 123) else none
  v : ∃ rho mean calibSeq, states.v = ⟨some rho, some mean, some calibSeq⟩ ∧
    rho.shape = [heads.kvNumHeads, calibSeq] ∧ mean.shape = [heads.kvNumHeads * heads.headDim]

theorem IsCalibrated.readRotation {heads : Heads} {states : AttentionStates}
    (h : IsCalibrated draw heads states) :
    readRotation (.dict none (rotationItems states.hadamard)) = some states.hadamard := by
  have horth := hadamard_orthonormal draw 123
  apply readRotation_items
  rw [h.hadamard]
  rintro H hH r hr
  split_ifs at hH
  · obtain rfl := Option.some.inj hH
    rw [horth.length_row r hr, horth.length_eq]
  · cases hH

theorem IsCalibrated.exists_quantize {heads : Heads} {states : AttentionStates}
    (h : IsCalibrated draw heads states) (h64 : ∀ role, 64 ∣ heads.hidden role)
    {sample : AttentionSample heads} (hs : ∀ role, FiniteMatrix (sample.pair role)) (j : ℕ)
    (role : Role) :
    ∃ enc x imp, (attentionSolution softmax sqrt draw raised otherAttention).quantize role j
        (sample.pair role).quant (sample.pair role).scale
        (if role = .q then heads.qNumHeads else heads.kvNumHeads) heads.headDim
        (stateValues states role) = .ok (emitted enc) ∧
      x.shape = (sample.pair role).quant.shape ∧ quantizeHif4 x 13 imp none = some enc := by
  obtain ⟨q, hq, hqm⟩ := exists_readPair_sample hs .q
  obtain ⟨k, hk, hkm⟩ := exists_readPair_sample hs .k
  obtain ⟨v, hv, hvm⟩ := exists_readPair_sample hs .v
  obtain ⟨qFp, hqd, hqs⟩ := hqm.exists_dequantNvfp4 (h64 .q)
  obtain ⟨kFp, hkd, hks⟩ := hkm.exists_dequantNvfp4 (h64 .k)
  obtain ⟨qRot, kRot, -, hqr, hkr, hqrs, hkrs, -⟩ := exists_rotated_logits sqrt
    (hadamard_orthonormal draw 123) heads.kvNumHeads_pos heads.dvd hqs hks
  rw [← h.hadamard] at hqr hkr
  have hback := h.readRotation
  cases role with
  | q =>
    obtain ⟨enc, hcall, hquant⟩ := exists_quantizeQ (h64 .q) hqm hqd hqr (hqrs.trans hqs)
    refine ⟨enc, qRot, none, ?_, (hqrs.trans hqs).trans (sample.shape_eq .q).symm, hquant⟩
    simp only [attentionSolution, stateValues, hq, quantizeRole, hback, Option.bind_some, hcall,
      Option.map_some, orRaise]
  | k =>
    obtain ⟨enc, hcall, hquant⟩ := exists_quantizeQ (h64 .k) hkm hkd hkr (hkrs.trans hks)
    refine ⟨enc, kRot, none, ?_, (hkrs.trans hks).trans (sample.shape_eq .k).symm, hquant⟩
    simp only [attentionSolution, stateValues, hk, quantizeRole, hback, Option.bind_some,
      hif4DynamicQuantizeK_eq, hcall, Option.map_some, orRaise]
  | v =>
    obtain ⟨rho, mean, calibSeq, hstate, hrho, hmean⟩ := h.v
    obtain ⟨enc, x, imp, hcall, hx, hquant⟩ := exists_quantizeV hrho hmean (h64 .v) hvm
    rw [← hstate] at hcall
    refine ⟨enc, x, imp, ?_, (hx.trans hvm.2.1).trans (sample.shape_eq .v).symm, hquant⟩
    have hne : ¬ Role.v = Role.q := nofun
    simp only [attentionSolution, stateValues, hv, quantizeRole, readVState_items,
      Option.bind_some, if_neg hne, hcall, Option.map_some, orRaise]

theorem exists_calibrate {group : AttentionGroup} (h64 : ∀ role, 64 ∣ group.heads.hidden role)
    (hs : ∀ sample ∈ group.calib, ∀ role, FiniteMatrix (sample.pair role)) :
    ∃ states, IsCalibrated draw group.heads states ∧
      (attentionSolution softmax sqrt draw raised otherAttention).calibrate group.toGroup.calib
        group.heads.qNumHeads group.heads.kvNumHeads group.heads.headDim =
          .ok (.dict none (stateItems (stateValues states))) := by
  have hread : ∀ sample ∈ group.toGroup.calib, ∃ qkv, readSample sample = some qkv ∧ ∃ seq,
      IsSampleOf group.heads.qNumHeads group.heads.kvNumHeads group.heads.headDim seq qkv := by
    rw [AttentionGroup.toGroup, List.forall_mem_map]
    intro sample hm
    obtain ⟨qkv, hqkv, his⟩ := exists_readSample (hs sample hm)
    exact ⟨qkv, hqkv, sample.seq, his⟩
  obtain ⟨samples, hsamples, hmats⟩ := Checked.exists_mapM hread
  have hq64 : 64 ∣ group.heads.qNumHeads * group.heads.headDim := h64 .q
  have hk64 : 64 ∣ group.heads.kvNumHeads * group.heads.headDim := h64 .k
  obtain ⟨rho, mean, calibSeq, hcal, -, hrho, hmean⟩ := exists_attentionCalibration softmax sqrt
    draw group.heads.kvNumHeads_pos group.heads.headDim_pos hq64 hk64 hmats
  refine ⟨⟨if group.heads.headDim % 64 = 0 then some (hadamard draw 123) else none,
    ⟨some rho, some mean, some calibSeq⟩⟩, ⟨rfl, rho, mean, calibSeq, rfl, hrho, hmean⟩, ?_⟩
  simp only [attentionSolution, hsamples, hcal, Option.map_some, orRaise]
  rfl

include hfl in
theorem attention_passes {group : AttentionGroup} (h64 : ∀ role, 64 ∣ group.heads.hidden role)
    (hs : ∀ sample ∈ group.calib ++ group.test, ∀ role, FiniteMatrix (sample.pair role)) (i : ℕ) :
    ∃ states, Calibrated rt (attentionSolution softmax sqrt draw raised otherAttention)
        group.toGroup i states ∧
      ∀ test ∈ group.toGroup.test.zipIdx, ∀ role, ∃ value,
        output rt (attentionSolution softmax sqrt draw raised otherAttention) group.toGroup states
          test.2 test.1 role = .ok value ∧ Valid rt i test role value := by
  obtain ⟨states, hstates, hcal⟩ := exists_calibrate softmax sqrt draw raised otherAttention h64
    fun sample hm => hs sample (List.mem_append_left _ hm)
  refine ⟨stateValues states, ⟨none, stateItems (stateValues states), hcal,
    validateAttentionCalibrationResult_of (frozenState_stateValues states) _, ?_⟩, ?_⟩
  · funext role
    rw [stateOf_stateItems, Option.getD_some]
  · rintro ⟨sample, j⟩ hm role
    obtain ⟨sample, hsm, rfl⟩ := List.mem_map.mp (List.fst_mem_of_mem_zipIdx hm)
    obtain ⟨enc, x, imp, hcall, hx, hquant⟩ := hstates.exists_quantize softmax sqrt draw raised
      otherAttention h64 (hs sample (List.mem_append_right _ hsm)) j role
    refine ⟨emitted enc, output_eq softmax sqrt draw raised otherAttention hcall, ?_⟩
    rw [Valid]
    dsimp only
    rw [← hx]
    exact (quantizeHif4_legalParams (by norm_num) hquant).validate hfl _

include hfl in
/-- On datasets of finite matrices with whole blocks the self-check of the shipped solution
succeeds, and its outputs for Q and K, which the gate does not look at, are valid too. -/
theorem shippedSolution_passes {rawLinear rawAttention : Value}
    {data : List LinearGroup × List AttentionGroup}
    (hl : IsDataset IsLinearGroup rawLinear data.1)
    (ha : IsDataset IsAttentionGroup rawAttention data.2) (hdata : FiniteDatasets data) :
    (∃ lines, selfCheck rt ⟨some (.ok (shippedSolution pow softmax sqrt draw raised
      otherLinear otherAttention)),
      some (.ok rawLinear), some (.ok rawAttention)⟩ = .ok ⟨true, lines⟩) ∧
    ∀ group ∈ data.2.zipIdx, ∃ states,
      Calibrated rt (attentionSolution softmax sqrt draw raised otherAttention) group.1.toGroup
        group.2 states ∧
      ∀ test ∈ group.1.toGroup.test.zipIdx, ∀ role, ∃ value,
        output rt (attentionSolution softmax sqrt draw raised otherAttention) group.1.toGroup states
          test.2 test.1 role = .ok value ∧ Valid rt group.2 test role value := by
  have hattention := fun (group : AttentionGroup × ℕ) (hg : group ∈ data.2.zipIdx) =>
    have h := hdata.attention group.1 (List.fst_mem_of_mem_zipIdx hg)
    attention_passes hfl softmax sqrt draw raised otherAttention h.1 h.2 group.2
  refine ⟨?_, hattention⟩
  simp only [selfCheck]
  refine checkSubmission_success_iff.mpr
    ⟨?_, rawLinear, rawAttention, data, rfl, rfl, hl, ha, ?_, ?_⟩
  · exact fun name hn => List.contains_iff_mem.mpr hn
  · intro group hg
    obtain ⟨hw, hcalib, htest⟩ := hdata.linear group.1 (List.fst_mem_of_mem_zipIdx hg)
    exact linear_passes hfl pow draw raised otherLinear hw hcalib htest group.2
  · intro group hg
    obtain ⟨states, hcal, hall⟩ := hattention group hg
    refine ⟨states, hcal, ?_, ?_⟩
    · rintro test ht role
      obtain ⟨value, hv, -⟩ := hall test ht role
      exact ⟨value, hv⟩
    · rintro test ht value hv
      obtain ⟨value', hv', hvalid⟩ := hall test ht .v
      obtain rfl : value = value' := Except.ok.inj (hv.symm.trans hv')
      exact hvalid

def zeroPair : Nvfp4Pair where
  quant := constant [1, 64] 0
  scale := constant [1, 4] 1
  shape_ne_nil := by simp [constant]
  mod_eq_zero := rfl
  scale_shape := rfl

def rawZeroHeads : Value :=
  let pair : Value := .list [.object (.tensor none (constant [1, 64] 0)),
    .object (.tensor none (constant [1, 4] 1))]
  let sample : Value :=
    .dict none [(.str "q".toList, pair), (.str "k".toList, pair), (.str "v".toList, pair)]
  .dict none [(.str "q_num_heads".toList, .int 1), (.str "kv_num_heads".toList, .int 1),
    (.str "head_dim".toList, .int 64), (.str "calib".toList, .list [sample]),
    (.str "test".toList, .list [sample])]

def zeroHeads : Heads := ⟨1, 1, 64, one_pos, one_pos, by norm_num, dvd_rfl⟩

def zeroSample : AttentionSample zeroHeads where
  pair _ := zeroPair
  seq := 1
  shape_eq role := by cases role <;> rfl

theorem finiteMatrix_zeroPair : FiniteMatrix zeroPair where
  quant := ⟨_, rfl⟩
  scale := ⟨_, rfl⟩
  rows := ⟨1, one_pos, rfl⟩
  dvd := dvd_rfl

/-- The powers that the smoothing of zeros takes: the root of the least maximum. -/
def zerosPow (x _ : ℚ) : ℚ := if x = 1 / 10 ^ 8 then 1 / 10 ^ 4 else x

/-- The solution on two datasets of zeros, whose logits are equal. -/
theorem shippedSolution_passes_zeros :
    ∃ lines, selfCheck exactRuntime ⟨some (.ok (shippedSolution zerosPow evenSoftmax
      (fun n => n.sqrt) (fun _ _ => true) (.exception "RuntimeError" "")
      ⟨fun _ _ _ => .ok .none, fun _ _ _ _ => .ok .none⟩
      ⟨fun _ _ _ _ => .ok .none, fun _ _ _ _ _ _ _ => .ok .none⟩)),
      some (.ok (.list [rawZeros])), some (.ok (.list [rawZeroHeads]))⟩ = .ok ⟨true, lines⟩ := by
  have hlinear : IsDataset IsLinearGroup (.list [rawZeros])
      [⟨zeroPair, [⟨zeroPair, rfl⟩], [⟨zeroPair, rfl⟩]⟩] := by
    refine ⟨_, rfl, by simp, .cons ⟨⟨_, rfl, .inl rfl⟩, ?_, ?_⟩ .nil⟩
    · exact ⟨_, rfl, by simp, .cons (.inl rfl) .nil⟩
    · exact ⟨_, rfl, by simp, .cons (.inl rfl) .nil⟩
  have hattention : IsDataset IsAttentionGroup (.list [rawZeroHeads])
      [⟨zeroHeads, [zeroSample], [zeroSample]⟩] := by
    refine ⟨_, rfl, by simp, .cons ⟨rfl, rfl, rfl, ?_, ?_⟩ .nil⟩
    · refine ⟨_, rfl, by simp, .cons ?_ .nil⟩
      rintro (_ | _ | _) <;> exact ⟨_, rfl, .inl rfl⟩
    · refine ⟨_, rfl, by simp, .cons ?_ .nil⟩
      rintro (_ | _ | _) <;> exact ⟨_, rfl, .inl rfl⟩
  have hfinite : FiniteDatasets ([⟨zeroPair, [⟨zeroPair, rfl⟩], [⟨zeroPair, rfl⟩]⟩],
      [⟨zeroHeads, [zeroSample], [zeroSample]⟩]) := by
    constructor
    · simp only [List.forall_mem_singleton]
      exact ⟨finiteMatrix_zeroPair, finiteMatrix_zeroPair, finiteMatrix_zeroPair⟩
    · simp only [List.forall_mem_singleton]
      refine ⟨fun role => by cases role <;> exact dvd_rfl, ?_⟩
      rintro sample hs role
      obtain rfl : sample = zeroSample := by simpa using hs
      exact finiteMatrix_zeroPair
  exact (shippedSolution_passes rfl zerosPow evenSoftmax (fun n => n.sqrt) (fun _ _ => true)
    (.exception "RuntimeError" "") _ _ hlinear hattention hfinite).1

end Datasets

end K8sLearn.SelfCheck
