import K8sLearn.SelfCheck.Attention

/-! # What the attention gate lets through

A group without a reported failure has a valid calibration, no raising call, and valid
outputs for V. That is all: the outputs for Q and K are overwritten before the validator
runs. So the gate is sound only for groups that it reports anyway or that have no tests.
-/

namespace K8sLearn.SelfCheck

open K8sLearn.Flow

variable (rt : Runtime) (sol : Solution) (group : Group) (groupIdx : ℕ)

def Calibrated (states : Role → Value) : Prop :=
  ∃ sub items, sol.calibrate group.calib group.qNumHeads group.kvNumHeads group.headDim =
      .ok (.dict sub items) ∧
    validateAttentionCalibrationResult rt (.dict sub items) (calibrationTag groupIdx) = .ok [] ∧
    states = fun role => (stateOf items role).getD .none

def Valid (test : Sample × ℕ) (role : Role) (value : Value) : Prop :=
  validateHif4Params rt value (test.1 role).quant.shape (roleTag groupIdx test.2 role) = .ok []

/-- What the gate really looks at: calibration, exceptions, and the outputs for V. -/
structure Unflagged (states : Role → Value) : Prop where
  calibrated : Calibrated rt sol group groupIdx states
  returns : ∀ test ∈ group.test.zipIdx, ∀ role,
    ∃ value, output rt sol group states test.2 test.1 role = .ok value
  valid : ∀ test ∈ group.test.zipIdx, ∀ value,
    output rt sol group states test.2 test.1 .v = .ok value → Valid rt groupIdx test .v value

variable {rt sol group groupIdx} {states : Role → Value} {test : Sample × ℕ} {s : Vars}

def Vars.failed (s : Vars) : ℕ := s.report.summary.failed

theorem rolePass_of_ok {role : Role} {value : Value}
    (h : output rt sol group states test.2 test.1 role = .ok value) :
    rolePass rt sol group groupIdx states test.2 test.1 role s =
      .next { s with
        role := some role, quant := some (test.1 role).quant, result := some value } := by
  simp [rolePass, h]

theorem rolePass_of_error {role : Role} {e : PyError}
    (h : output rt sol group states test.2 test.1 role = .error e) :
    (rolePass rt sol group groupIdx states test.2 test.1 role s).Sat
      (fun s' => s.failed < s'.failed) (fun _ => False) (fun _ => True) := by
  cases e <;> simp [rolePass, h, Sat, Vars.failed, Report.record, CheckSummary.add]

theorem rolePass_le (role : Role) :
    (rolePass rt sol group groupIdx states test.2 test.1 role s).Sat
      (fun s' => s.failed ≤ s'.failed) (fun _ => False) (fun _ => True) := by
  cases h : output rt sol group states test.2 test.1 role with
  | ok value =>
    rw [rolePass_of_ok h]
    exact le_rfl
  | error e => exact (rolePass_of_error h).mono fun s' hs' => hs'.le

section Validate

variable {role : Role} {quant : TorchTensor} {value : Value} (hr : s.role = some role)
  (hq : s.quant = some quant) (hv : s.result = some value)

include hr hq hv

theorem validateStage_of_ok {errors : List String}
    (h : validateHif4Params rt value quant.shape (roleTag groupIdx test.2 role) = .ok errors) :
    ∃ s', validateStage rt groupIdx test.2 s = .next s' ∧
      s'.failed = s.failed + (if errors = [] then 0 else 1) ∧
      s'.report.validated =
        s.report.validated ++ [⟨test.2, role, value, quant.shape, errors⟩] := by
  simp only [validateStage, hr, hq, hv, h]
  refine ⟨_, rfl, ?_, rfl⟩
  by_cases he : errors = [] <;> simp [Vars.failed, Report.record, CheckSummary.add, he]

theorem validateStage_of_error {e : PyError}
    (h : validateHif4Params rt value quant.shape (roleTag groupIdx test.2 role) = .error e) :
    validateStage rt groupIdx test.2 s = .raised e s := by
  simp [validateStage, hr, hq, hv, h]

end Validate

theorem validateStage_le :
    (validateStage rt groupIdx test.2 s).Sat
      (fun s' => s.failed ≤ s'.failed) (fun _ => False) (fun _ => True) := by
  cases hv : s.result with
  | none => simp [validateStage, hv, Sat]
  | some value =>
    cases hr : s.role with
    | none => simp [validateStage, hv, hr, Sat]
    | some role =>
      cases hq : s.quant with
      | none => simp [validateStage, hv, hr, hq, Sat]
      | some quant =>
        cases h : validateHif4Params rt value quant.shape (roleTag groupIdx test.2 role) with
        | error e =>
          rw [validateStage_of_error hr hq hv h]
          trivial
        | ok errors =>
          obtain ⟨s', hs', hf, -⟩ := validateStage_of_ok hr hq hv h
          rw [hs']
          exact le_of_le_of_eq (Nat.le_add_right _ _) hf.symm

theorem testPass_le :
    (testPass rt sol group groupIdx states test s).Sat
      (fun s' => s.failed ≤ s'.failed) (fun _ => False) (fun _ => True) := by
  have hl : (forEach (rolePass rt sol group groupIdx states test.2 test.1) Role.all s).Sat
      (fun s' => s.failed ≤ s'.failed) (fun _ => False) (fun _ => True) :=
    forEach_le (fun role _ s => rolePass_le role) le_rfl
  apply hl.bind
  intro s' hs'
  exact validateStage_le.mono fun s'' hs'' => hs'.trans hs''

theorem testPass_of_error {role : Role} {e : PyError}
    (h : output rt sol group states test.2 test.1 role = .error e) :
    (testPass rt sol group groupIdx states test s).Sat
      (fun s' => s.failed < s'.failed) (fun _ => False) (fun _ => True) := by
  have hl : (forEach (rolePass rt sol group groupIdx states test.2 test.1) Role.all s).Sat
      (fun s' => s.failed < s'.failed) (fun _ => False) (fun _ => True) := by
    have hmem : role ∈ Role.all := by cases role <;> decide
    exact forEach_lt (fun role _ s => rolePass_le role) hmem fun s => rolePass_of_error h
  apply hl.bind
  intro s' hs'
  exact validateStage_le.mono fun s'' hs'' => Nat.lt_of_lt_of_le hs' hs''

section Returns

variable (h : ∀ role, ∃ value, output rt sol group states test.2 test.1 role = .ok value)
  {value : Value} (hv : output rt sol group states test.2 test.1 .v = .ok value)

include h hv

theorem testPass_of_returns :
    testPass rt sol group groupIdx states test s = validateStage rt groupIdx test.2
      { s with role := some .v, quant := some (test.1 .v).quant, result := some value } := by
  obtain ⟨a, hq⟩ := h .q
  obtain ⟨b, hk⟩ := h .k
  simp [testPass, Role.all, forEach, rolePass_of_ok hq, rolePass_of_ok hk, rolePass_of_ok hv,
    Flow.bind]

theorem testPass_of_valid (hvalid : Valid rt groupIdx test .v value) :
    (testPass rt sol group groupIdx states test s).Sat
      (fun s' => s'.failed = s.failed ∧ s'.report.validated =
        s.report.validated ++ [⟨test.2, .v, value, (test.1 .v).quant.shape, []⟩])
      (fun _ => False) (fun _ => False) := by
  rw [testPass_of_returns h hv]
  obtain ⟨s', hs', hf, hl⟩ := validateStage_of_ok (s := { s with
    role := some .v, quant := some (test.1 .v).quant, result := some value }) rfl rfl rfl hvalid
  rw [hs']
  exact ⟨hf, hl⟩

theorem testPass_of_invalid (hvalid : ¬ Valid rt groupIdx test .v value) :
    (testPass rt sol group groupIdx states test s).Sat
      (fun s' => s.failed < s'.failed) (fun _ => False) (fun _ => True) := by
  rw [testPass_of_returns h hv]
  cases hp : validateHif4Params rt value (test.1 .v).quant.shape (roleTag groupIdx test.2 .v) with
  | error e =>
    rw [validateStage_of_error rfl rfl rfl hp]
    trivial
  | ok errors =>
    have he : errors ≠ [] := by
      rintro rfl
      exact hvalid hp
    obtain ⟨s', hs', hf, -⟩ := validateStage_of_ok (s := { s with
      role := some .v, quant := some (test.1 .v).quant, result := some value }) rfl rfl rfl hp
    rw [hs']
    simp only [Sat, hf, he, if_false]
    exact Nat.lt_succ_self _

end Returns

/-- The validations of a group without a failure: V's own output on each test case. -/
def OwnV (rt : Runtime) (sol : Solution) (group : Group) (states : Role → Value)
    (c : Validation) : Prop :=
  c.role = .v ∧ c.errors = [] ∧ ∃ test ∈ group.test.zipIdx, c.test = test.2 ∧
    c.shape = (test.1 .v).quant.shape ∧ output rt sol group states test.2 test.1 .v = .ok c.value

theorem checkTests_of_unflagged (h : Unflagged rt sol group groupIdx states) {r : Report}
    (hf : r.summary.failed = 0) (hv : r.validated = []) :
    (checkTests rt sol group groupIdx states r).Sat
      (fun s => s.failed = 0 ∧ ∀ c ∈ s.report.validated, OwnV rt sol group states c)
      (fun _ => False) (fun _ => False) := by
  apply forEach_invariant
  · rintro test ht s ⟨hs, hc⟩
    obtain ⟨value, hvalue⟩ := h.returns test ht .v
    apply (testPass_of_valid (h.returns test ht) hvalue (h.valid test ht value hvalue)).mono
    rintro s' ⟨hs', hl⟩
    constructor
    · exact hs'.trans hs
    · intro c hm
      rw [hl] at hm
      rcases List.mem_append.mp hm with hm | hm
      · exact hc c hm
      · obtain rfl := List.mem_singleton.mp hm
        exact ⟨rfl, rfl, test, ht, rfl, rfl, hvalue⟩
  · exact ⟨hf, by simp [hv]⟩

theorem not_lt_of_checkTests {report report' : Report}
    (h : finish (checkTests rt sol group groupIdx states report) = .ok report')
    (hf : report'.summary.failed = 0) (ht : test ∈ group.test.zipIdx) :
    ¬ ∀ s, (testPass rt sol group groupIdx states test s).Sat
      (fun s' => s.failed < s'.failed) (fun _ => False) (fun _ => True) := by
  intro hlt
  have hs : (checkTests rt sol group groupIdx states report).Sat
      (fun s' => report.summary.failed < s'.failed) (fun _ => False) (fun _ => True) :=
    forEach_lt (fun test _ s => testPass_le) ht hlt
  cases hr : checkTests rt sol group groupIdx states report with
  | next s =>
    rw [hr] at h hs
    cases h
    exact absurd hs (by simp [Sat, Vars.failed, hf])
  | brk s =>
    rw [hr] at hs
    exact hs
  | raised e s =>
    rw [hr] at h
    cases h

/-- Tests that end without a failure have only calls that return and valid outputs for V. -/
theorem unflagged_of_checkTests (hc : Calibrated rt sol group groupIdx states)
    {report report' : Report}
    (h : finish (checkTests rt sol group groupIdx states report) = .ok report')
    (hf : report'.summary.failed = 0) : Unflagged rt sol group groupIdx states := by
  have hreturns : ∀ test ∈ group.test.zipIdx, ∀ role,
      ∃ value, output rt sol group states test.2 test.1 role = .ok value := by
    intro test ht role
    cases ho : output rt sol group states test.2 test.1 role with
    | ok value => exact ⟨value, rfl⟩
    | error e => exact absurd (fun s => testPass_of_error ho) (not_lt_of_checkTests h hf ht)
  constructor
  · exact hc
  · exact hreturns
  · intro test ht value hv
    by_contra hvalid
    apply not_lt_of_checkTests h hf ht
    exact fun s => testPass_of_invalid (hreturns test ht) hv hvalid

theorem checkAttentionGroup_of_calibrated (h : Calibrated rt sol group groupIdx states) :
    checkAttentionGroup rt sol group groupIdx =
      finish (checkTests rt sol group groupIdx states (calibrationPassed groupIdx)) := by
  obtain ⟨sub, items, hc, hv, rfl⟩ := h
  simp only [checkAttentionGroup, hc, hv]

theorem calibrated_of_checkAttentionGroup {report : Report}
    (h : checkAttentionGroup rt sol group groupIdx = .ok report)
    (hf : report.summary.failed = 0) : ∃ states, Calibrated rt sol group groupIdx states := by
  cases hc : sol.calibrate group.calib group.qNumHeads group.kvNumHeads group.headDim with
  | error e =>
    simp only [checkAttentionGroup, hc] at h
    cases e <;> cases h <;> cases hf
  | ok result =>
    cases hv : validateAttentionCalibrationResult rt result (calibrationTag groupIdx) with
    | error e =>
      simp only [checkAttentionGroup, hc, hv] at h
      cases h
    | ok errors =>
      cases errors with
      | cons error errors =>
        simp only [checkAttentionGroup, hc, hv] at h
        cases h
        cases hf
      | nil =>
        cases result with
        | dict sub items => exact ⟨_, sub, items, hc, hv, rfl⟩
        | _ => cases hv

theorem checkAttentionGroup_of_unflagged (h : Unflagged rt sol group groupIdx states) :
    ∃ report, checkAttentionGroup rt sol group groupIdx = .ok report ∧
      report.summary.failed = 0 ∧ ∀ c ∈ report.validated, OwnV rt sol group states c := by
  have hs := checkTests_of_unflagged h (r := calibrationPassed groupIdx) rfl rfl
  rw [checkAttentionGroup_of_calibrated h.calibrated]
  cases hr : checkTests rt sol group groupIdx states (calibrationPassed groupIdx) with
  | next s =>
    rw [hr] at hs
    exact ⟨s.report, rfl, hs⟩
  | brk s =>
    rw [hr] at hs
    exact hs.elim
  | raised e s =>
    rw [hr] at hs
    exact hs.elim

variable (rt sol group groupIdx)

theorem checkAttentionGroup_accepts_iff :
    (∃ report, checkAttentionGroup rt sol group groupIdx = .ok report ∧
      report.summary.failed = 0) ↔ ∃ states, Unflagged rt sol group groupIdx states := by
  constructor
  · rintro ⟨report, h, hf⟩
    obtain ⟨states, hc⟩ := calibrated_of_checkAttentionGroup h hf
    rw [checkAttentionGroup_of_calibrated hc] at h
    exact ⟨states, unflagged_of_checkTests hc h hf⟩
  · rintro ⟨states, h⟩
    obtain ⟨report, hr, hf, -⟩ := checkAttentionGroup_of_unflagged h
    exact ⟨report, hr, hf⟩

/-- The gate is sound: without a reported failure every output of every test case was
produced and validated as its own role's, and nothing else was validated in its place. -/
def Sound : Prop :=
  ∀ report, checkAttentionGroup rt sol group groupIdx = .ok report →
    report.summary.failed = 0 → ∃ states, Calibrated rt sol group groupIdx states ∧
      (∀ test ∈ group.test.zipIdx, ∀ role, ∃ value,
        output rt sol group states test.2 test.1 role = .ok value ∧
        Valid rt groupIdx test role value ∧
        ⟨test.2, role, value, (test.1 role).quant.shape, []⟩ ∈ report.validated) ∧
      ∀ c ∈ report.validated, ∃ test ∈ group.test.zipIdx, c.test = test.2 ∧
        c.shape = (test.1 c.role).quant.shape ∧
        output rt sol group states test.2 test.1 c.role = .ok c.value

/-- The part of soundness that is about the outputs and not about the validator's calls. -/
def SoundOutputs : Prop :=
  ∀ report, checkAttentionGroup rt sol group groupIdx = .ok report →
    report.summary.failed = 0 → ∃ states, Calibrated rt sol group groupIdx states ∧
      ∀ test ∈ group.test.zipIdx, ∀ role, ∃ value,
        output rt sol group states test.2 test.1 role = .ok value ∧
        Valid rt groupIdx test role value

variable {rt sol group groupIdx}

theorem Calibrated.eq {states' : Role → Value} (h : Calibrated rt sol group groupIdx states)
    (h' : Calibrated rt sol group groupIdx states') : states = states' := by
  obtain ⟨sub, items, hc, -, rfl⟩ := h
  obtain ⟨sub', items', hc', -, rfl⟩ := h'
  rw [hc] at hc'
  cases hc'
  rfl

theorem not_sound_of_unflagged (h : Unflagged rt sol group groupIdx states)
    (ht : group.test ≠ []) : ¬ Sound rt sol group groupIdx := by
  intro hs
  obtain ⟨report, hr, hf, hv⟩ := checkAttentionGroup_of_unflagged h
  obtain ⟨states', -, hall, -⟩ := hs report hr hf
  obtain ⟨sample, rest, hrest⟩ := List.exists_cons_of_ne_nil ht
  obtain ⟨value, -, -, hm⟩ := hall (sample, 0) (by simp [hrest]) .q
  have hq := (hv _ hm).1
  cases hq

theorem sound_of_test_nil (ht : group.test = []) : Sound rt sol group groupIdx := by
  intro report hr hf
  obtain ⟨states, h⟩ := (checkAttentionGroup_accepts_iff rt sol group groupIdx).mp ⟨report, hr, hf⟩
  obtain ⟨report', hr', -, hv⟩ := checkAttentionGroup_of_unflagged h
  obtain rfl : report = report' := Except.ok.inj (hr.symm.trans hr')
  refine ⟨states, h.calibrated, by simp [ht], ?_⟩
  intro c hc
  obtain ⟨-, -, test, hm, -⟩ := hv c hc
  simp [ht] at hm

variable (rt sol group groupIdx)

theorem sound_iff : Sound rt sol group groupIdx ↔
    group.test = [] ∨ ¬ ∃ states, Unflagged rt sol group groupIdx states := by
  constructor
  · intro hs
    by_contra hc
    obtain ⟨ht, h⟩ := not_or.mp hc
    obtain ⟨states, h⟩ := not_not.mp h
    exact not_sound_of_unflagged h ht hs
  · rintro (ht | hn) report hr hf
    · exact sound_of_test_nil ht report hr hf
    · exact absurd ((checkAttentionGroup_accepts_iff rt sol group groupIdx).mp ⟨report, hr, hf⟩) hn

theorem soundOutputs_iff : SoundOutputs rt sol group groupIdx ↔
    ∀ states, Unflagged rt sol group groupIdx states → ∀ test ∈ group.test.zipIdx,
      ∀ role value, output rt sol group states test.2 test.1 role = .ok value →
        Valid rt groupIdx test role value := by
  constructor
  · intro hs states h test ht role value hv
    obtain ⟨report, hr, hf, -⟩ := checkAttentionGroup_of_unflagged h
    obtain ⟨states', hc, hall⟩ := hs report hr hf
    obtain rfl := hc.eq h.calibrated
    obtain ⟨value', hv', hvalid⟩ := hall test ht role
    obtain rfl : value = value' := Except.ok.inj (hv.symm.trans hv')
    exact hvalid
  · intro hall report hr hf
    obtain ⟨states, h⟩ :=
      (checkAttentionGroup_accepts_iff rt sol group groupIdx).mp ⟨report, hr, hf⟩
    use states, h.calibrated
    intro test ht role
    obtain ⟨value, hv⟩ := h.returns test ht role
    exact ⟨value, hv, hall states h test ht role value hv⟩

/-- The gate is sound exactly for the groups without a test case and those it reports
anyway. As to the outputs alone, exactly when those for Q and K are valid wherever the
calibration, the calls and the outputs for V are in order. -/
theorem checkAttentionGroup_sound_iff :
    (Sound rt sol group groupIdx ↔
      group.test = [] ∨ ¬ ∃ states, Unflagged rt sol group groupIdx states) ∧
    (SoundOutputs rt sol group groupIdx ↔
      ∀ states, Unflagged rt sol group groupIdx states → ∀ test ∈ group.test.zipIdx,
        ∀ role value, output rt sol group states test.2 test.1 role = .ok value →
          Valid rt groupIdx test role value) :=
  ⟨sound_iff rt sol group groupIdx, soundOutputs_iff rt sol group groupIdx⟩

section Broken

/-- Exact products; nothing is printed or copied from another device. -/
def exactRuntime : Runtime where
  fl := .finite
  reprFloat q := toString q
  reprSorted _ := .ok "[]"
  cloneTensor := .ok

def constant (shape : List ℕ) (x : ℚ) : TorchTensor where
  shape := shape
  dtype := .float32
  onCpu := true
  strided := true
  requiresGrad := false
  content := .dense (List.replicate shape.prod (.finite x))
  length_data := by
    rintro data ⟨⟩
    exact List.length_replicate

def zeroParams : Value := .dict none
  [(.str "scale_factor".toList, .object (.tensor none (constant [1, 1, 1, 1, 1] 1))),
    (.str "scale_lv2".toList, .object (.tensor none (constant [1, 1, 8, 1, 1] 1))),
    (.str "scale_lv3".toList, .object (.tensor none (constant [1, 1, 8, 2, 1] 1))),
    (.str "sign".toList, .object (.tensor none (constant [1, 1, 8, 2, 4] 0))),
    (.str "mant".toList, .object (.tensor none (constant [1, 1, 8, 2, 4] 0)))]

/-- One head of dimension 64 and one case of a row of zeros. -/
def zeroGroup : Group where
  qNumHeads := 1
  kvNumHeads := 1
  headDim := 64
  calib := [fun _ => ⟨constant [1, 64] 0, constant [1, 4] 1⟩]
  test := [fun _ => ⟨constant [1, 64] 0, constant [1, 4] 1⟩]

def brokenQ : Solution where
  calibrate _ _ _ _ := .ok (.dict none [(.str "q_state".toList, .none),
    (.str "k_state".toList, .none), (.str "v_state".toList, .none)])
  quantize role _ _ _ _ _ _ := match role with
    | .q => .ok .none
    | .k | .v => .ok zeroParams

theorem zeroParams_valid :
    validateHif4Params exactRuntime zeroParams [1, 64] (roleTag 0 0 .v) = .ok [] := by
  decide +kernel

theorem none_invalid :
    validateHif4Params exactRuntime .none [1, 64] (roleTag 0 0 .q) ≠ .ok [] := by
  decide +kernel

theorem brokenQ_unflagged : Unflagged exactRuntime brokenQ zeroGroup 0 fun _ => .none where
  calibrated := by
    refine ⟨none, _, rfl, by decide +kernel, ?_⟩
    funext role
    cases role <;> rfl
  returns := by
    rintro test - (_ | _ | _) <;> exact ⟨_, rfl⟩
  valid := by
    rintro test ht value ⟨⟩
    obtain rfl : test = (fun _ => ⟨constant [1, 64] 0, constant [1, 4] 1⟩, 0) := by
      simpa [zeroGroup] using ht
    exact zeroParams_valid

/-- The gate accepts a solution whose quantizer for Q returns no parameters at all. -/
theorem checkAttentionGroup_accepts_brokenQ :
    (∃ report, checkAttentionGroup exactRuntime brokenQ zeroGroup 0 = .ok report ∧
      report.summary.failed = 0) ∧ ¬ Sound exactRuntime brokenQ zeroGroup 0 ∧
      ¬ SoundOutputs exactRuntime brokenQ zeroGroup 0 := by
  have hu := brokenQ_unflagged
  obtain ⟨report, hr, hf, -⟩ := checkAttentionGroup_of_unflagged hu
  refine ⟨⟨report, hr, hf⟩, not_sound_of_unflagged hu (by simp [zeroGroup]), ?_⟩
  intro hs
  have hq := (soundOutputs_iff exactRuntime brokenQ zeroGroup 0).mp hs _ hu
    (fun _ => ⟨constant [1, 64] 0, constant [1, 4] 1⟩, 0) (by simp [zeroGroup]) .q .none rfl
  exact none_invalid hq

end Broken

end K8sLearn.SelfCheck
