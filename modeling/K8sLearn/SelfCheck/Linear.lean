import K8sLearn.SelfCheck.Contract
import K8sLearn.SelfCheck.Datasets

/-! # The linear gate

`check_linear_group` calibrates once and then calls the activation quantizer on every test
case. Here the validator stands in the loop, so each case is counted by what its own call
returned, and a report without a failure says that every output is valid.
-/

namespace K8sLearn.SelfCheck

/-- A solution for linear layers: its calibration, and what its quantizer answers when it
is called on the test case at an index. -/
structure LinearSolution where
  calibrate : TorchTensor → TorchTensor → List Pair → Except PyError Value
  quantize : ℕ → TorchTensor → TorchTensor → Value → Except PyError Value

structure GateReport where
  summary : CheckSummary
  lines : List String

def GateReport.record (r : GateReport) (ok : Bool) (line : String) : GateReport :=
  ⟨r.summary.add ok, r.lines ++ [line]⟩

def unsupportedKeys (items : List (Value × Value)) : List Value :=
  (items.map Prod.fst).filter fun
    | .str key => !(["weight_params".toList, "activation_state".toList].contains key)
    | _ => true

section Check

variable (rt : Runtime) (sol : LinearSolution) (group : LinearGroup) (groupIdx : ℕ)

/-- The error about keys without a meaning. -/
def unsupportedErrors (items : List (Value × Value)) (tag : String) :
    Except PyError (List String) :=
  match unsupportedKeys items with
  | [] => .ok []
  | keys => (rt.reprSorted keys).map fun text => [s!"{tag}: unsupported keys {text}"]

def weightParamsErrors (items : List (Value × Value)) (weightShape : List ℕ) (tag : String) :
    Except PyError (List String) :=
  match PyValue.lookup "weight_params".toList items with
  | none => .ok [s!"{tag}: missing 'weight_params'"]
  | some params => validateHif4Params rt params weightShape s!"{tag}.weight_params"

def activationStateErrors (items : List (Value × Value)) (tag : String) : List String :=
  match PyValue.lookup "activation_state".toList items with
  | none => [s!"{tag}: missing 'activation_state'"]
  | some state => validateFrozenState state s!"{tag}.activation_state"

def validateLinearCalibrationResult (result : Value) (weightShape : List ℕ) (tag : String) :
    Except PyError (List String) :=
  match result with
  | .dict _ items => do
    let unknown ← unsupportedErrors rt items tag
    let params ← weightParamsErrors rt items weightShape tag
    return unknown ++ params ++ activationStateErrors items tag
  | v => .ok [s!"{tag}: expected dict, got {typeName v}"]

/-- What the call on a test case returns or raises, its state's copy included. -/
def linearOutput (state : Value) (test : group.weight.Activation × ℕ) : Except PyError Value := do
  let freshState ← cloneFrozenState rt state
  sol.quantize test.2 test.1.1.quant test.1.1.scale freshState

def activationTag (testIdx : ℕ) : String :=
  s!"[Linear][Group {groupIdx}][Test {testIdx}] activation"

/-- One pass of the loop: whether the case passed, and the line that says so. -/
def checkActivation (state : Value) (test : group.weight.Activation × ℕ) :
    Except PyError (Bool × String) :=
  let tag := activationTag groupIdx test.2
  match linearOutput rt sol group state test with
  | .error .keyboardInterrupt => .error .keyboardInterrupt
  | .error e => .ok (false, s!"{tag}: FAILED ({safeExceptionText e})")
  | .ok result => do
    let errors ← validateHif4Params rt result test.1.1.quant.shape tag
    if errors = [] then return (true, s!"{tag}: PASSED")
    else return (false, s!"{tag}: FAILED\n         {formatErrors errors}")

def checkActivations (state : Value) :
    List (group.weight.Activation × ℕ) → GateReport → Except PyError GateReport
  | [], r => .ok r
  | test :: tests, r => do
    let outcome ← checkActivation rt sol group groupIdx state test
    checkActivations state tests (r.record outcome.1 outcome.2)

def linearCalibrationTag : String := s!"[Linear][Group {groupIdx}] calibration"

def linearCalibrationFailed (text : String) : GateReport :=
  ⟨⟨0, 1⟩, [linearCalibrationTag groupIdx ++ ": FAILED" ++ text]⟩

def linearCalibrationPassed : GateReport :=
  ⟨⟨1, 0⟩, [linearCalibrationTag groupIdx ++ ": PASSED"]⟩

def checkLinearGroup : Except PyError GateReport :=
  match sol.calibrate group.weight.quant group.weight.scale
      (group.calib.map fun p => p.1.toPair) with
  | .error .keyboardInterrupt => .error .keyboardInterrupt
  | .error e => .ok (linearCalibrationFailed groupIdx s!" ({safeExceptionText e})")
  | .ok result =>
    match validateLinearCalibrationResult rt result group.weight.quant.shape
        (linearCalibrationTag groupIdx), result with
    | .error e, _ => .error e
    | .ok (error :: errors), _ =>
      .ok (linearCalibrationFailed groupIdx s!"\n         {formatErrors (error :: errors)}")
    | .ok [], .dict _ items =>
      -- a missing state would have been an error above
      checkActivations rt sol group groupIdx
        ((PyValue.lookup "activation_state".toList items).getD .none) group.test.zipIdx
        (linearCalibrationPassed groupIdx)
    | .ok [], v => .error (.exception "TypeError" s!"'{typeName v}' object is not subscriptable")

def LinearCalibrated (state : Value) : Prop :=
  ∃ sub items, sol.calibrate group.weight.quant group.weight.scale
      (group.calib.map fun p => p.1.toPair) = .ok (.dict sub items) ∧
    validateLinearCalibrationResult rt (.dict sub items) group.weight.quant.shape
      (linearCalibrationTag groupIdx) = .ok [] ∧
    PyValue.lookup "activation_state".toList items = some state

/-- The call on the test case returns, and what it returns passes the validator. -/
def Accepted (state : Value) (test : group.weight.Activation × ℕ) : Prop :=
  ∃ value, linearOutput rt sol group state test = .ok value ∧
    validateHif4Params rt value test.1.1.quant.shape (activationTag groupIdx test.2) = .ok []

instance (state : Value) (test : group.weight.Activation × ℕ) :
    Decidable (Accepted rt sol group groupIdx state test) :=
  match h : linearOutput rt sol group state test with
  | .error e => .isFalse fun ⟨value, hv, _⟩ => by simp [h] at hv
  | .ok value => decidable_of_iff (validateHif4Params rt value test.1.1.quant.shape
      (activationTag groupIdx test.2) = .ok []) (by simp [Accepted, h])

end Check

section Exact

variable {rt : Runtime} {sol : LinearSolution} {group : LinearGroup} {groupIdx : ℕ} {state : Value}
  {test : group.weight.Activation × ℕ} {tests : List (group.weight.Activation × ℕ)}
  {r r' : GateReport}

theorem fst_iff_accepted {outcome : Bool × String}
    (h : checkActivation rt sol group groupIdx state test = .ok outcome) :
    outcome.1 = decide (Accepted rt sol group groupIdx state test) := by
  cases hout : linearOutput rt sol group state test with
  | error e =>
    have hfalse : ¬ Accepted rt sol group groupIdx state test := by
      rintro ⟨value, hv, -⟩
      rw [hout] at hv
      cases hv
    rw [decide_eq_false hfalse]
    simp only [checkActivation, hout] at h
    cases e <;> cases h <;> rfl
  | ok value =>
    simp only [checkActivation, hout] at h
    obtain ⟨errors, herrors, h⟩ := Checked.bind_eq_ok.mp h
    by_cases hnil : errors = []
    · subst hnil
      rw [if_pos rfl] at h
      obtain rfl := Except.ok.inj h
      exact (decide_eq_true ⟨value, hout, herrors⟩).symm
    · rw [if_neg hnil] at h
      obtain rfl := Except.ok.inj h
      refine (decide_eq_false ?_).symm
      rintro ⟨value', hv, hvalid⟩
      rw [hout] at hv
      obtain rfl := Except.ok.inj hv
      rw [herrors] at hvalid
      exact hnil (Except.ok.inj hvalid)

theorem Accepted.checkActivation (h : Accepted rt sol group groupIdx state test) :
    checkActivation rt sol group groupIdx state test =
      .ok (true, s!"{activationTag groupIdx test.2}: PASSED") := by
  obtain ⟨value, hout, hvalid⟩ := h
  simp only [SelfCheck.checkActivation, hout, hvalid]
  rfl

/-- What a run of the loop adds to the report: one count and one line for each case. -/
structure Counted (rt : Runtime) (sol : LinearSolution) (group : LinearGroup) (groupIdx : ℕ)
    (state : Value) (tests : List (group.weight.Activation × ℕ)) (r r' : GateReport) : Prop where
  passed : r'.summary.passed = r.summary.passed +
    tests.countP fun test => Accepted rt sol group groupIdx state test
  failed : r'.summary.failed = r.summary.failed +
    tests.countP fun test => ¬ Accepted rt sol group groupIdx state test
  lines : ∃ added, r'.lines = r.lines ++ added ∧ List.Forall₂ (fun test line => ∃ ok,
    checkActivation rt sol group groupIdx state test = .ok (ok, line)) tests added

theorem checkActivations_counted
    (h : checkActivations rt sol group groupIdx state tests r = .ok r') :
    Counted rt sol group groupIdx state tests r r' := by
  induction tests generalizing r with
  | nil =>
    obtain rfl := Except.ok.inj h
    exact ⟨rfl, rfl, [], (List.append_nil _).symm, .nil⟩
  | cons test tests ih =>
    obtain ⟨⟨ok, line⟩, hpass, h⟩ := Checked.bind_eq_ok.mp h
    obtain ⟨hp, hf, added, hl, hall⟩ := ih h
    have hok := fst_iff_accepted hpass
    simp only [GateReport.record, CheckSummary.add] at hp hf hl hok
    refine ⟨?_, ?_, line :: added, by rw [hl, List.append_assoc]; rfl, .cons ⟨ok, hpass⟩ hall⟩
    · rw [hp, List.countP_cons, hok]
      by_cases ha : Accepted rt sol group groupIdx state test
      · simp [ha]
        omega
      · simp [ha]
    · rw [hf, List.countP_cons, hok]
      by_cases ha : Accepted rt sol group groupIdx state test
      · simp [ha]
      · simp [ha]
        omega

theorem exists_checkActivations
    (h : ∀ test ∈ tests, Accepted rt sol group groupIdx state test) :
    ∃ r', checkActivations rt sol group groupIdx state tests r = .ok r' := by
  induction tests generalizing r with
  | nil => exact ⟨r, rfl⟩
  | cons test tests ih =>
    obtain ⟨r', hr'⟩ := ih (r := r.record true _) fun test' ht =>
      h test' (List.mem_cons_of_mem _ ht)
    refine ⟨r', Checked.bind_eq_ok.mpr ⟨_, (h test List.mem_cons_self).checkActivation, hr'⟩⟩

theorem checkLinearGroup_of_calibrated (h : LinearCalibrated rt sol group groupIdx state) :
    checkLinearGroup rt sol group groupIdx = checkActivations rt sol group groupIdx state
      group.test.zipIdx (linearCalibrationPassed groupIdx) := by
  obtain ⟨sub, items, hc, hv, hstate⟩ := h
  simp only [checkLinearGroup, hc, hv, hstate, Option.getD_some]

theorem validateLinearCalibrationResult_eq_nil {sub : Option String} {items : List (Value × Value)}
    {shape : List ℕ} {tag : String}
    (h : validateLinearCalibrationResult rt (.dict sub items) shape tag = .ok []) :
    ∃ params state, PyValue.lookup "weight_params".toList items = some params ∧
      PyValue.lookup "activation_state".toList items = some state ∧
      validateHif4Params rt params shape s!"{tag}.weight_params" = .ok [] ∧ FrozenState state := by
  obtain ⟨unknown, -, h⟩ := Checked.bind_eq_ok.mp h
  obtain ⟨errors, hparams, h⟩ := Checked.bind_eq_ok.mp h
  obtain ⟨hnil, hstate⟩ := List.append_eq_nil_iff.mp (Except.ok.inj h)
  obtain rfl := (List.append_eq_nil_iff.mp hnil).2
  unfold weightParamsErrors at hparams
  unfold activationStateErrors at hstate
  split at hparams
  · cases hparams
  · case h_2 params hp =>
    split at hstate
    · cases hstate
    · case h_2 state hs =>
      exact ⟨params, state, hp, hs, hparams, (validateFrozenState_eq_nil_iff state _).mp hstate⟩

theorem checkLinearGroup_of_not_calibrated
    (hn : ¬ ∃ state, LinearCalibrated rt sol group groupIdx state)
    (h : checkLinearGroup rt sol group groupIdx = .ok r) : r.summary = ⟨0, 1⟩ := by
  cases hc : sol.calibrate group.weight.quant group.weight.scale
      (group.calib.map fun p => p.1.toPair) with
  | error e =>
    simp only [checkLinearGroup, hc] at h
    cases e <;> cases h <;> rfl
  | ok result =>
    cases hv : validateLinearCalibrationResult rt result group.weight.quant.shape
        (linearCalibrationTag groupIdx) with
    | error e =>
      simp only [checkLinearGroup, hc, hv] at h
      cases h
    | ok errors =>
      cases errors with
      | cons error errors =>
        simp only [checkLinearGroup, hc, hv] at h
        cases h
        rfl
      | nil =>
        cases result with
        | dict sub items =>
          obtain ⟨-, state, -, hs, -, -⟩ := validateLinearCalibrationResult_eq_nil hv
          exact absurd ⟨state, sub, items, hc, hv, hs⟩ hn
        | _ => cases hv

variable (rt sol group groupIdx)

theorem checkLinearGroup_passes_iff :
    (∃ report, checkLinearGroup rt sol group groupIdx = .ok report ∧ report.summary.failed = 0) ↔
      ∃ state, LinearCalibrated rt sol group groupIdx state ∧
        ∀ test ∈ group.test.zipIdx, Accepted rt sol group groupIdx state test := by
  constructor
  · rintro ⟨report, h, hf⟩
    by_cases hc : ∃ state, LinearCalibrated rt sol group groupIdx state
    · obtain ⟨state, hc⟩ := hc
      refine ⟨state, hc, fun test ht => ?_⟩
      rw [checkLinearGroup_of_calibrated hc] at h
      have hfailed := (checkActivations_counted h).failed
      have hzero : group.test.zipIdx.countP (fun test =>
          ¬ Accepted rt sol group groupIdx state test) = 0 := by omega
      simpa using List.countP_eq_zero.mp hzero test ht
    · have hone := checkLinearGroup_of_not_calibrated hc h
      rw [hone] at hf
      cases hf
  · rintro ⟨state, hc, hall⟩
    obtain ⟨report, h⟩ := exists_checkActivations (r := linearCalibrationPassed groupIdx) hall
    refine ⟨report, (checkLinearGroup_of_calibrated hc).trans h, ?_⟩
    have hzero : group.test.zipIdx.countP (fun test =>
        ¬ Accepted rt sol group groupIdx state test) = 0 :=
      List.countP_eq_zero.mpr fun test ht => by simpa using hall test ht
    rw [(checkActivations_counted h).failed, hzero]
    rfl

/-- The linear gate reports no failure exactly where the calibration passes and every test
case returns a valid output, and its counts are the numbers of valid and of other cases. -/
theorem checkLinearGroup_exact :
    ((∃ report, checkLinearGroup rt sol group groupIdx = .ok report ∧ report.summary.failed = 0) ↔
      ∃ state, LinearCalibrated rt sol group groupIdx state ∧
        ∀ test ∈ group.test.zipIdx, Accepted rt sol group groupIdx state test) ∧
    (∀ report state, checkLinearGroup rt sol group groupIdx = .ok report →
      LinearCalibrated rt sol group groupIdx state →
      Counted rt sol group groupIdx state group.test.zipIdx (linearCalibrationPassed groupIdx)
        report) ∧
    ∀ report, checkLinearGroup rt sol group groupIdx = .ok report →
      (¬ ∃ state, LinearCalibrated rt sol group groupIdx state) → report.summary = ⟨0, 1⟩ := by
  refine ⟨checkLinearGroup_passes_iff rt sol group groupIdx, ?_, ?_⟩
  · intro report state h hc
    rw [checkLinearGroup_of_calibrated hc] at h
    exact checkActivations_counted h
  · exact fun report h hn => checkLinearGroup_of_not_calibrated hn h

end Exact

end K8sLearn.SelfCheck
