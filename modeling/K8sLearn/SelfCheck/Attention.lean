import K8sLearn.Lib.Loop
import K8sLearn.SelfCheck.State

/-! # The attention gate

`check_attention_group` calibrates once and then calls the three dynamic quantizers on
every test case. The validator stands after the loop over the roles, not in it, and reads
the variables that loop leaves behind. Besides the printed lines a report lists what was
validated.
-/

namespace K8sLearn.SelfCheck

inductive Role where
  | q | k | v
  deriving DecidableEq

namespace Role

def all : List Role := [q, k, v]

def name : Role → String
  | q => "q"
  | k => "k"
  | v => "v"

/-- `role.upper()`. -/
def upper : Role → String
  | q => "Q"
  | k => "K"
  | v => "V"

end Role

structure Pair where
  quant : TorchTensor
  scale : TorchTensor

abbrev Sample := Role → Pair

structure Group where
  qNumHeads : ℕ
  kvNumHeads : ℕ
  headDim : ℕ
  calib : List Sample
  test : List Sample

/-- A solution: its calibration, and what its quantizer for a role answers when it is
called on the test case at an index. -/
structure Solution where
  calibrate : List Sample → ℕ → ℕ → ℕ → Except PyError Value
  quantize : Role → ℕ → TorchTensor → TorchTensor → ℕ → ℕ → Value → Except PyError Value

structure CheckSummary where
  passed : ℕ
  failed : ℕ
  deriving DecidableEq

def CheckSummary.add (s : CheckSummary) (ok : Bool) : CheckSummary :=
  if ok then { s with passed := s.passed + 1 } else { s with failed := s.failed + 1 }

structure Validation where
  test : ℕ
  role : Role
  value : Value
  shape : List ℕ
  errors : List String

/-- The summary, the printed lines, and the validator's calls. -/
structure Report where
  summary : CheckSummary
  lines : List String
  validated : List Validation

def safeExceptionText (e : PyError) : String :=
  let text cls message :=
    let stripped := String.ofList (Str.strip (String.toList message))
    if stripped = "" then cls else cls ++ ": " ++ stripped
  match e with
  | .exception cls message | .exit cls message => text cls message
  | .keyboardInterrupt => "KeyboardInterrupt"

def formatErrors (errors : List String) : String := "\n   ".intercalate errors

section Calibration

variable (rt : Runtime)

/-- `result[f"{role}_state"]`, if it is there. -/
def stateOf (items : List (Value × Value)) (role : Role) : Option Value :=
  PyValue.lookup (role.name ++ "_state").toList items

def stateErrors (items : List (Value × Value)) (tag : String) (role : Role) : List String :=
  match stateOf items role with
  | none => [s!"{tag}: missing '{role.name}_state'"]
  | some state => validateFrozenState state s!"{tag}.{role.name}_state"

/-- The keys of a calibration result beside the three states. -/
def unknownKeys (items : List (Value × Value)) : List Value :=
  (items.map Prod.fst).filter fun
    | .str key => !(Role.all.map fun role => (role.name ++ "_state").toList).contains key
    | _ => true

def validateAttentionCalibrationResult (result : Value) (tag : String) :
    Except PyError (List String) :=
  match result with
  | .dict _ items => do
    let unknown ← match unknownKeys items with
      | [] => .ok []
      | keys => (fun text => [s!"{tag}: unsupported keys {text}"]) <$> rt.reprSorted keys
    return unknown ++ Role.all.flatMap (stateErrors items tag)
  | v => .ok [s!"{tag}: expected dict, got {typeName v}"]

end Calibration

/-- The variables of `check_attention_group` its loops change; `none` is unbound. -/
structure Vars where
  report : Report
  role : Option Role
  quant : Option TorchTensor
  result : Option Value

section Check

variable (rt : Runtime) (sol : Solution) (group : Group) (groupIdx : ℕ)

/-- What the call for a role on a test case returns or raises, its state's copy included. -/
def output (states : Role → Value) (testIdx : ℕ) (sample : Sample) (role : Role) :
    Except PyError Value := do
  let freshState ← cloneFrozenState rt (states role)
  sol.quantize role testIdx (sample role).quant (sample role).scale
    (if role = .q then group.qNumHeads else group.kvNumHeads) group.headDim freshState

def roleTag (testIdx : ℕ) (role : Role) : String :=
  s!"[Attention][Group {groupIdx}][Test {testIdx}] {role.upper}"

def Report.record (r : Report) (ok : Bool) (line : String) : Report :=
  { r with summary := r.summary.add ok, lines := r.lines ++ [line] }

def rolePass (states : Role → Value) (testIdx : ℕ) (sample : Sample) (role : Role) (s : Vars) :
    Flow PyError Vars :=
  let s := { s with role := some role, quant := some (sample role).quant }
  match output rt sol group states testIdx sample role with
  | .ok result => .next { s with result := some result }
  | .error .keyboardInterrupt => .raised .keyboardInterrupt s
  | .error e =>
    let tag := roleTag groupIdx testIdx role
    .next { s with report := s.report.record false s!"{tag}: FAILED ({safeExceptionText e})" }

def validateStage (testIdx : ℕ) (s : Vars) : Flow PyError Vars :=
  match s.result, s.role, s.quant with
  | some result, some role, some quant =>
    let tag := roleTag groupIdx testIdx role
    match validateHif4Params rt result quant.shape tag with
    | .error e => .raised e s
    | .ok errors =>
      let line := if errors = [] then s!"{tag}: PASSED"
        else s!"{tag}: FAILED\n       {formatErrors errors}"
      let report := s.report.record (errors = []) line
      let call : Validation := ⟨testIdx, role, result, quant.shape, errors⟩
      .next { s with report := { report with validated := report.validated ++ [call] } }
  | _, _, _ => .raised (.exception "UnboundLocalError"
      "cannot access local variable 'result' where it is not associated with a value") s

def testPass (states : Role → Value) (test : Sample × ℕ) (s : Vars) : Flow PyError Vars :=
  (Flow.forEach (rolePass rt sol group groupIdx states test.2 test.1) Role.all s).bind
    (validateStage rt groupIdx test.2)

def checkTests (states : Role → Value) (report : Report) : Flow PyError Vars :=
  Flow.forEach (testPass rt sol group groupIdx states) group.test.zipIdx ⟨report, none, none, none⟩

def finish : Flow PyError Vars → Except PyError Report
  | .next s | .brk s => .ok s.report
  | .raised e _ => .error e

def calibrationTag : String := s!"[Attention][Group {groupIdx}] calibration"

def calibrationFailed (text : String) : Report :=
  ⟨⟨0, 1⟩, [calibrationTag groupIdx ++ ": FAILED" ++ text], []⟩

def calibrationPassed : Report := ⟨⟨1, 0⟩, [calibrationTag groupIdx ++ ": PASSED"], []⟩

def checkAttentionGroup : Except PyError Report :=
  match sol.calibrate group.calib group.qNumHeads group.kvNumHeads group.headDim with
  | .error .keyboardInterrupt => .error .keyboardInterrupt
  | .error e => .ok (calibrationFailed groupIdx s!" ({safeExceptionText e})")
  | .ok result =>
    match validateAttentionCalibrationResult rt result (calibrationTag groupIdx), result with
    | .error e, _ => .error e
    | .ok (error :: errors), _ =>
      .ok (calibrationFailed groupIdx s!"\n         {formatErrors (error :: errors)}")
    | .ok [], .dict _ items =>
      -- a missing state would have been an error above
      finish <| checkTests rt sol group groupIdx (fun role => (stateOf items role).getD .none)
        (calibrationPassed groupIdx)
    | .ok [], v => .error (.exception "TypeError" s!"'{typeName v}' object is not subscriptable")

end Check

end K8sLearn.SelfCheck
