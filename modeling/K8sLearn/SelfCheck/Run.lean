import K8sLearn.SelfCheck.Linear

/-! # The self-check

`self_check` imports a solution, looks for its six functions, loads and normalises the two
datasets, and runs the two gates over all groups. It succeeds when no check failed and
there was one.
-/

namespace K8sLearn.SelfCheck

def apiNames : List String :=
  ["hif4_calibration_and_quantize_weight", "hif4_dynamic_quantize_activation",
    "hif4_calibration_attention", "hif4_dynamic_quantize_q", "hif4_dynamic_quantize_k",
    "hif4_dynamic_quantize_v"]

/-- An imported solution: the callables it has, and what they do on the group at an index. -/
structure Submission where
  defined : String → Bool
  linear : ℕ → LinearSolution
  attention : ℕ → Solution

/-- What the check finds on disk. A file that is there is loaded, which may raise. -/
structure Files where
  solution : Option (Except PyError Submission)
  linear : Option (Except PyError Value)
  attn : Option (Except PyError Value)

/-- What `self_check` returns, and what it has printed. -/
structure Verdict where
  success : Bool
  lines : List String

def AttentionGroup.toGroup (g : AttentionGroup) : Group where
  qNumHeads := g.heads.qNumHeads
  kvNumHeads := g.heads.kvNumHeads
  headDim := g.heads.headDim
  calib := g.calib.map fun s role => (s.pair role).toPair
  test := g.test.map fun s role => (s.pair role).toPair

def GateReport.merge (r other : GateReport) : GateReport :=
  ⟨⟨r.summary.passed + other.summary.passed, r.summary.failed + other.summary.failed⟩,
    r.lines ++ other.lines⟩

def GateReport.total (r : GateReport) : ℕ := r.summary.passed + r.summary.failed

def loadDatasets (linear attn : Except PyError Value) :
    Except PyError (List LinearGroup × List AttentionGroup) := do
  let rawLinear ← linear
  let linearData ← (normalizeLinearDataset rawLinear).mapError Rejection.toPyError
  let rawAttention ← attn
  let attentionData ← (normalizeAttentionDataset rawAttention).mapError Rejection.toPyError
  return (linearData, attentionData)

def mergeGroups {α : Type} (check : α → ℕ → Except PyError GateReport) :
    List (α × ℕ) → GateReport → Except PyError GateReport
  | [], r => .ok r
  | group :: groups, r => do
    let report ← check group.1 group.2
    mergeGroups check groups (r.merge report)

/-- A printed heading, after an empty line. -/
def banner (width : ℕ) (title : String) : String :=
  let bar := String.ofList (List.replicate width '=')
  s!"\n{bar} {title} {bar}"

section Run

variable (rt : Runtime) (sub : Submission)

def linearReport (group : LinearGroup) (groupIdx : ℕ) : Except PyError GateReport :=
  checkLinearGroup rt (sub.linear groupIdx) group groupIdx

def attentionReport (group : AttentionGroup) (groupIdx : ℕ) : Except PyError GateReport :=
  (checkAttentionGroup rt (sub.attention groupIdx) group.toGroup groupIdx).map fun r =>
    ⟨r.summary, r.lines⟩

def checkDatasets (data : List LinearGroup × List AttentionGroup) : Except PyError GateReport := do
  let linear ← mergeGroups (linearReport rt sub) data.1.zipIdx ⟨⟨0, 0⟩, [banner 24 "Linear"]⟩
  mergeGroups (attentionReport rt sub) data.2.zipIdx
    { linear with lines := linear.lines ++ [banner 22 "Attention"] }

def summarise (r : GateReport) : Verdict :=
  let success := decide (0 < r.total ∧ r.summary.failed = 0)
  ⟨success, r.lines ++ [banner 24 "Summary", s!"Passed checks: {r.summary.passed}/{r.total}",
    s!"Failed checks: {r.summary.failed}/{r.total}",
    if success then "ALL OUTPUT-FORMAT CHECKS PASSED" else "SOME OUTPUT-FORMAT  CHECKS FAILED"]⟩

/-- The part of `self_check` that follows the import. -/
def checkSubmission (linear attn : Option (Except PyError Value)) : Except PyError Verdict :=
  match apiNames.filter fun name => !sub.defined name with
  | [] =>
    match linear, attn with
    | some linear, some attn =>
      match loadDatasets linear attn with
      | .error .keyboardInterrupt => .error .keyboardInterrupt
      | .error e => .ok ⟨false, ["Interface check: PASSED (6/6 functions found)",
          "Error: failed to load or validate the local mini-sample dataset" ++
            s!"({safeExceptionText e})"]⟩
      | .ok data => do
        let report ← checkDatasets rt sub data
        let verdict := summarise report
        return { verdict with
          lines := "Interface check: PASSED (6/6 functions found)" :: verdict.lines }
    | _, _ => .ok ⟨false, ["Interface check: PASSED (6/6 functions found)",
        "Error: --datasets_dir must contain linear.pt and attn.pt"]⟩
  | missing =>
    .ok ⟨false, missing.map fun name => s!"Error: solution.{name} is missing or not callable"⟩

end Run

def selfCheck (rt : Runtime) (files : Files) : Except PyError Verdict :=
  match files.solution with
  | none => .ok ⟨false, ["Error: solution.py was not found in solution_dir"]⟩
  | some (.error .keyboardInterrupt) => .error .keyboardInterrupt
  -- the handler prints `exc`, which it does not bind
  | some (.error _) => .error (.exception "NameError" "name 'exc' is not defined")
  | some (.ok sub) => checkSubmission rt sub files.linear files.attn

section Verdict

variable {rt : Runtime} {sub : Submission}

theorem mergeGroups_passes_iff {α : Type} {check : α → ℕ → Except PyError GateReport}
    {groups : List (α × ℕ)} {r : GateReport} :
    (∃ r', mergeGroups check groups r = .ok r' ∧ r'.summary.failed = 0) ↔
      r.summary.failed = 0 ∧ ∀ group ∈ groups, ∃ report,
        check group.1 group.2 = .ok report ∧ report.summary.failed = 0 := by
  induction groups generalizing r with
  | nil => simp [mergeGroups]
  | cons group groups ih =>
    rw [List.forall_mem_cons]
    constructor
    · rintro ⟨r', h, hf⟩
      obtain ⟨report, hreport, h⟩ := Checked.bind_eq_ok.mp h
      obtain ⟨hmerged, hall⟩ := ih.mp ⟨r', h, hf⟩
      obtain ⟨hr, hzero⟩ := Nat.add_eq_zero_iff.mp hmerged
      exact ⟨hr, ⟨report, hreport, hzero⟩, hall⟩
    · rintro ⟨hr, ⟨report, hreport, hzero⟩, hall⟩
      have hmerged : (r.merge report).summary.failed = 0 := Nat.add_eq_zero_iff.mpr ⟨hr, hzero⟩
      obtain ⟨r', h, hf⟩ := ih.mpr ⟨hmerged, hall⟩
      exact ⟨r', Checked.bind_eq_ok.mpr ⟨report, hreport, h⟩, hf⟩

theorem total_le_mergeGroups {α : Type} {check : α → ℕ → Except PyError GateReport}
    {groups : List (α × ℕ)} {r r' : GateReport} (h : mergeGroups check groups r = .ok r') :
    r.total ≤ r'.total ∧ ∀ group ∈ groups, ∃ report, check group.1 group.2 = .ok report ∧
      report.total ≤ r'.total := by
  induction groups generalizing r with
  | nil =>
    obtain rfl := Except.ok.inj h
    exact ⟨le_rfl, by simp⟩
  | cons group groups ih =>
    obtain ⟨report, hreport, h⟩ := Checked.bind_eq_ok.mp h
    obtain ⟨hle, hall⟩ := ih h
    simp only [GateReport.total, GateReport.merge] at hle ⊢
    refine ⟨by omega, ?_⟩
    rw [List.forall_mem_cons]
    exact ⟨⟨report, hreport, by omega⟩, hall⟩

theorem total_pos_of_checkLinearGroup {sol : LinearSolution} {group : LinearGroup} {i : ℕ}
    {report : GateReport} (h : checkLinearGroup rt sol group i = .ok report) :
    0 < report.total := by
  by_cases hc : ∃ state, LinearCalibrated rt sol group i state
  · obtain ⟨state, hc⟩ := hc
    rw [checkLinearGroup_of_calibrated hc] at h
    have hp := (checkActivations_counted h).passed
    simp only [linearCalibrationPassed] at hp
    rw [GateReport.total]
    omega
  · rw [GateReport.total, checkLinearGroup_of_not_calibrated hc h]
    decide

structure AllPass (rt : Runtime) (sub : Submission)
    (data : List LinearGroup × List AttentionGroup) : Prop where
  linear : ∀ group ∈ data.1.zipIdx, ∃ state,
    LinearCalibrated rt (sub.linear group.2) group.1 group.2 state ∧
      ∀ test ∈ group.1.test.zipIdx,
        Accepted rt (sub.linear group.2) group.1 group.2 state test
  attention : ∀ group ∈ data.2.zipIdx, ∃ states,
    Unflagged rt (sub.attention group.2) group.1.toGroup group.2 states

theorem attentionReport_passes_iff {group : AttentionGroup} {i : ℕ} :
    (∃ report, attentionReport rt sub group i = .ok report ∧ report.summary.failed = 0) ↔
      ∃ states, Unflagged rt (sub.attention i) group.toGroup i states := by
  rw [← checkAttentionGroup_accepts_iff, attentionReport]
  cases checkAttentionGroup rt (sub.attention i) group.toGroup i with
  | error e => simp [Except.map]
  | ok report => simp [Except.map]

theorem checkDatasets_passes_iff {data : List LinearGroup × List AttentionGroup} :
    (∃ r, checkDatasets rt sub data = .ok r ∧ r.summary.failed = 0) ↔ AllPass rt sub data := by
  constructor
  · rintro ⟨r, h, hf⟩
    obtain ⟨linear, hlinear, h⟩ := Checked.bind_eq_ok.mp h
    obtain ⟨hzero, hattention⟩ := mergeGroups_passes_iff.mp ⟨r, h, hf⟩
    obtain ⟨-, hall⟩ := mergeGroups_passes_iff.mp ⟨linear, hlinear, hzero⟩
    constructor
    · exact fun group hg => (checkLinearGroup_passes_iff rt _ _ _).mp (hall group hg)
    · exact fun group hg => attentionReport_passes_iff.mp (hattention group hg)
  · rintro ⟨hlinear, hattention⟩
    have hlinear' : ∀ group ∈ data.1.zipIdx, ∃ report,
        linearReport rt sub group.1 group.2 = .ok report ∧ report.summary.failed = 0 :=
      fun group hg => (checkLinearGroup_passes_iff rt _ _ _).mpr (hlinear group hg)
    have hattention' : ∀ group ∈ data.2.zipIdx, ∃ report,
        attentionReport rt sub group.1 group.2 = .ok report ∧ report.summary.failed = 0 :=
      fun group hg => attentionReport_passes_iff.mpr (hattention group hg)
    obtain ⟨linear, h, hzero⟩ := (mergeGroups_passes_iff
      (r := ⟨⟨0, 0⟩, [banner 24 "Linear"]⟩)).mpr ⟨rfl, hlinear'⟩
    obtain ⟨r, hr, hf⟩ := (mergeGroups_passes_iff
      (r := { linear with lines := linear.lines ++ [banner 22 "Attention"] })).mpr
        ⟨hzero, hattention'⟩
    exact ⟨r, Checked.bind_eq_ok.mpr ⟨linear, h, hr⟩, hf⟩

theorem total_pos_of_checkDatasets {data : List LinearGroup × List AttentionGroup}
    (hne : data.1 ≠ []) {r : GateReport} (h : checkDatasets rt sub data = .ok r) :
    0 < r.total := by
  obtain ⟨linear, hlinear, h⟩ := Checked.bind_eq_ok.mp h
  obtain ⟨group, groups, hcons⟩ := List.exists_cons_of_ne_nil hne
  have hmem : (group, 0) ∈ data.1.zipIdx := by simp [hcons]
  obtain ⟨report, hreport, hle⟩ := (total_le_mergeGroups hlinear).2 _ hmem
  have hpos := total_pos_of_checkLinearGroup hreport
  have hrest : linear.total ≤ r.total := (total_le_mergeGroups h).1
  omega

theorem mapError_eq_ok_iff {α ε ε' : Type} {f : ε → ε'} {x : Except ε α} {a : α} :
    x.mapError f = .ok a ↔ x = .ok a := by
  cases x <;> simp [Except.mapError]

theorem loadDatasets_eq_ok_iff {linear attn : Except PyError Value}
    {data : List LinearGroup × List AttentionGroup} :
    loadDatasets linear attn = .ok data ↔
      (∃ raw, linear = .ok raw ∧ IsDataset IsLinearGroup raw data.1) ∧
        ∃ raw, attn = .ok raw ∧ IsDataset IsAttentionGroup raw data.2 := by
  constructor
  · intro h
    obtain ⟨rawLinear, hl, h⟩ := Checked.bind_eq_ok.mp h
    obtain ⟨linearData, hln, h⟩ := Checked.bind_eq_ok.mp h
    obtain ⟨rawAttention, ha, h⟩ := Checked.bind_eq_ok.mp h
    obtain ⟨attentionData, han, h⟩ := Checked.bind_eq_ok.mp h
    obtain rfl := Except.ok.inj h
    exact ⟨⟨rawLinear, hl, normalizeLinearDataset_eq_ok_iff.mp (mapError_eq_ok_iff.mp hln)⟩,
      rawAttention, ha, normalizeAttentionDataset_eq_ok_iff.mp (mapError_eq_ok_iff.mp han)⟩
  · rintro ⟨⟨rawLinear, hl, hln⟩, rawAttention, ha, han⟩
    refine Checked.bind_eq_ok.mpr ⟨rawLinear, hl, ?_⟩
    refine Checked.bind_eq_ok.mpr ⟨data.1, mapError_eq_ok_iff.mpr
      (normalizeLinearDataset_eq_ok_iff.mpr hln), ?_⟩
    refine Checked.bind_eq_ok.mpr ⟨rawAttention, ha, ?_⟩
    exact Checked.bind_eq_ok.mpr ⟨data.2, mapError_eq_ok_iff.mpr
      (normalizeAttentionDataset_eq_ok_iff.mpr han), rfl⟩

theorem checkSubmission_success_iff {linear attn : Option (Except PyError Value)} :
    (∃ lines, checkSubmission rt sub linear attn = .ok ⟨true, lines⟩) ↔
      (∀ name ∈ apiNames, sub.defined name = true) ∧ ∃ rawLinear rawAttention data,
        linear = some (.ok rawLinear) ∧ attn = some (.ok rawAttention) ∧
        IsDataset IsLinearGroup rawLinear data.1 ∧
        IsDataset IsAttentionGroup rawAttention data.2 ∧ AllPass rt sub data := by
  have hall : (∀ name ∈ apiNames, sub.defined name = true) ↔
      (apiNames.filter fun name => !sub.defined name) = [] := by simp [List.filter_eq_nil_iff]
  rw [hall]
  constructor
  · rintro ⟨lines, h⟩
    unfold checkSubmission at h
    split at h
    · case h_1 hnil =>
      refine ⟨hnil, ?_⟩
      split at h
      · case h_1 linear attn =>
        split at h
        · cases h
        · simp at h
        · case h_3 data hload =>
          obtain ⟨report, hreport, h⟩ := Checked.bind_eq_ok.mp h
          have hsuccess : decide (0 < report.total ∧ report.summary.failed = 0) = true :=
            congrArg Verdict.success (Except.ok.inj h)
          obtain ⟨⟨rawLinear, rfl, hl⟩, rawAttention, rfl, ha⟩ := loadDatasets_eq_ok_iff.mp hload
          exact ⟨rawLinear, rawAttention, data, rfl, rfl, hl, ha,
            checkDatasets_passes_iff.mp ⟨report, hreport, (of_decide_eq_true hsuccess).2⟩⟩
      · simp at h
    · simp at h
  · rintro ⟨hnil, rawLinear, rawAttention, data, rfl, rfl, hl, ha, hpass⟩
    obtain ⟨report, hreport, hf⟩ := checkDatasets_passes_iff.mpr hpass
    have hload : loadDatasets (.ok rawLinear) (.ok rawAttention) = .ok data :=
      loadDatasets_eq_ok_iff.mpr ⟨⟨rawLinear, rfl, hl⟩, rawAttention, rfl, ha⟩
    have hne : data.1 ≠ [] := by
      obtain ⟨raws, -, hraws, hgroups⟩ := hl
      rintro hdata
      rw [hdata, List.forall₂_nil_right_iff] at hgroups
      exact hraws hgroups
    have hsuccess : decide (0 < report.total ∧ report.summary.failed = 0) = true :=
      decide_eq_true ⟨total_pos_of_checkDatasets hne hreport, hf⟩
    simp only [checkSubmission, hnil, hload]
    refine ⟨"Interface check: PASSED (6/6 functions found)" :: (summarise report).lines,
      Checked.bind_eq_ok.mpr ⟨report, hreport, ?_⟩⟩
    have hverdict : (summarise report).success = true := hsuccess
    rw [hverdict]
    rfl

/-- The self-check succeeds exactly for an importable solution with the six functions on two
datasets whose groups all go through their gates. -/
theorem selfCheck_success_iff (rt : Runtime) (files : Files) :
    (∃ lines, selfCheck rt files = .ok ⟨true, lines⟩) ↔
      ∃ sub rawLinear rawAttention data, files.solution = some (.ok sub) ∧
        (∀ name ∈ apiNames, sub.defined name = true) ∧ files.linear = some (.ok rawLinear) ∧
        files.attn = some (.ok rawAttention) ∧ IsDataset IsLinearGroup rawLinear data.1 ∧
        IsDataset IsAttentionGroup rawAttention data.2 ∧ AllPass rt sub data := by
  constructor
  · rintro ⟨lines, h⟩
    unfold selfCheck at h
    split at h
    · simp at h
    · cases h
    · cases h
    · case h_4 sub hsub =>
      obtain ⟨hdefined, rawLinear, rawAttention, data, hrest⟩ :=
        checkSubmission_success_iff.mp ⟨lines, h⟩
      exact ⟨sub, rawLinear, rawAttention, data, hsub, hdefined, hrest⟩
  · rintro ⟨sub, rawLinear, rawAttention, data, hsub, hdefined, hrest⟩
    obtain ⟨lines, h⟩ :=
      checkSubmission_success_iff.mpr ⟨hdefined, rawLinear, rawAttention, data, hrest⟩
    exact ⟨lines, by simp only [selfCheck, hsub, h]⟩

end Verdict

end K8sLearn.SelfCheck
