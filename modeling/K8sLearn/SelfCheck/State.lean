import K8sLearn.SelfCheck.Params

/-! # Calibration states

`validate_frozen_state` walks a nested value with one node counter for the whole walk and
reports every node that breaks the contract. `clone_frozen_state` is the copy handed to
each online call.
-/

namespace K8sLearn.SelfCheck

def frozenStateMaxDepth : ℕ := 8
def frozenStateMaxNodes : ℕ := 4096
def frozenStateMaxStringBytes : ℕ := 4096

def allowedTensorDtypes : List Dtype :=
  [.bool, .int8, .int16, .int32, .int64, .float16, .bfloat16, .float32]

/-- `len(s.encode("utf-8"))`. -/
def utf8Length (s : Str) : ℕ := (s.map Char.utf8Size).sum

/-- The node counter and the errors so far. -/
structure Walk where
  nodeCount : ℕ
  errors : List String

def Walk.report (w : Walk) (error : String) : Walk := { w with errors := w.errors ++ [error] }

def Walk.reportIf (w : Walk) (c : Bool) (error : String) : Walk := if c then w.report error else w

def visitTensor (t : TorchTensor) (path : String) (w : Walk) : Walk :=
  let w := w.reportIf (!t.onCpu) s!"{path}: tensor must be on CPU"
  let w := w.reportIf (!t.strided) s!"{path}: tensor must use dense strided layout"
  let w := w.reportIf (t.dtype ∉ allowedTensorDtypes)
    s!"{path}: tensor dtype {t.dtype.name} is not allowed"
  let w := w.reportIf t.requiresGrad s!"{path}: tensor requires_grad must be False"
  let w := w.reportIf t.dtype.isComplex s!"{path}: complex tensor is not allowed"
  if t.dtype.isFloatingPoint then
    match t.content with
    | .dense data =>
      w.reportIf (!data.all PyFloat.isFinite) s!"{path}: tensor contains non-finite values"
    | _ => w.report s!"{path}: tensor finiteness check failed"
  else w

mutual

def visit (tag : String) (depth : ℕ) : Value → String → Walk → Walk
  | v, path, w =>
    let w : Walk := { w with nodeCount := w.nodeCount + 1 }
    if frozenStateMaxNodes < w.nodeCount then
      w.report s!"{tag}: state contains more than {frozenStateMaxNodes} nodes"
    else if frozenStateMaxDepth < depth then
      w.report s!"{path}: nesting depth exceeds {frozenStateMaxDepth}"
    else
      match v with
      | .object (.tensor none t) => visitTensor t path w
      | .none | .bool _ | .int _ => w
      | .float x => w.reportIf (!x.isFinite) s!"{path}: float must be finite"
      | .str s => w.reportIf (frozenStateMaxStringBytes < utf8Length s)
          s!"{path}: string exceeds {frozenStateMaxStringBytes} UTF-8 bytes"
      | .list vs | .tuple vs => visitElements tag (depth + 1) vs path 0 w
      | .dict none items => visitItems tag (depth + 1) items path w
      | v => w.report s!"{path}: unsupported state type {typeName v}"

/-- The loop of `visit` over a list, from index `i` on. -/
def visitElements (tag : String) (depth : ℕ) : List Value → String → ℕ → Walk → Walk
  | [], _, _, w => w
  | v :: vs, path, i, w =>
    visitElements tag depth vs path (i + 1) (visit tag depth v s!"{path}[{i}]" w)

/-- The loop of `visit` over the items of a dictionary. -/
def visitItems (tag : String) (depth : ℕ) : List (Value × Value) → String → Walk → Walk
  | [], _, w => w
  | (.str key, v) :: items, path, w =>
    let w := w.reportIf (frozenStateMaxStringBytes < utf8Length key)
      s!"{path}: dict key exceeds {frozenStateMaxStringBytes} UTF-8 bytes"
    visitItems tag depth items path (visit tag depth v s!"{path}.{String.ofList key}" w)
  | (key, _) :: items, path, w =>
    visitItems tag depth items path
      (w.report s!"{path}: dict keys must be str, got {typeName key}")

end

def validateFrozenState (v : Value) (tag : String) : List String :=
  (visit tag 0 v tag ⟨0, []⟩).errors

mutual

def cloneFrozenState (rt : Runtime) : Value → Except PyError Value
  | .object (.tensor none t) => do
    if t.onCpu && t.strided then return .object (.tensor none { t with requiresGrad := false })
    else return .object (.tensor none (← rt.cloneTensor t))
  | .none => .ok .none
  | .bool b => .ok (.bool b)
  | .int n => .ok (.int n)
  | .float x => .ok (.float x)
  | .str s => .ok (.str s)
  | .list vs => return .list (← cloneElements rt vs)
  | .tuple vs => return .tuple (← cloneElements rt vs)
  | .dict none items => return .dict none (← cloneItems rt items)
  | v => .error (.exception "TypeError" s!"unsupported state type {typeName v}")

def cloneElements (rt : Runtime) : List Value → Except PyError (List Value)
  | [] => .ok []
  | v :: vs => return (← cloneFrozenState rt v) :: (← cloneElements rt vs)

def cloneItems (rt : Runtime) : List (Value × Value) → Except PyError (List (Value × Value))
  | [] => .ok []
  | (key, v) :: items => return (key, ← cloneFrozenState rt v) :: (← cloneItems rt items)

end

end K8sLearn.SelfCheck
