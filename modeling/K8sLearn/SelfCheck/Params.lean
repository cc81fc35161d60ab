import K8sLearn.Lib.PyValue
import K8sLearn.Lib.Rounding
import K8sLearn.Lib.Tensor
import Mathlib.Data.Int.Log
import Mathlib.Data.Rat.Floor

/-! # Validation of HiF4 parameters

`validate_hif4_params` checks a returned dictionary against the shape of the tensor it
encodes: five tensors of fixed shapes, finite, with a finite product, scales on the E6M2
grid and factors, signs and mantissas from their sets. The rounding of products and the
printing of floats belong to the runtime.
-/

namespace K8sLearn.SelfCheck

open Rounding

inductive Dtype where
  | bool | int8 | int16 | int32 | int64 | float16 | bfloat16 | float32 | float64
  | complex64 | complex128
  | other (name : String) (floating complex : Bool)
  deriving DecidableEq

namespace Dtype

def isFloatingPoint : Dtype → Bool
  | float16 | bfloat16 | float32 | float64 => true
  | other _ floating _ => floating
  | _ => false

def isComplex : Dtype → Bool
  | complex64 | complex128 => true
  | other _ _ complex => complex
  | _ => false

/-- `str(dtype)`. -/
def name : Dtype → String
  | bool => "torch.bool"
  | int8 => "torch.int8"
  | int16 => "torch.int16"
  | int32 => "torch.int32"
  | int64 => "torch.int64"
  | float16 => "torch.float16"
  | bfloat16 => "torch.bfloat16"
  | float32 => "torch.float32"
  | float64 => "torch.float64"
  | complex64 => "torch.complex64"
  | complex128 => "torch.complex128"
  | other name _ _ => "torch." ++ name

end Dtype

/-- What a tensor gives when it is read as 64-bit floats on the CPU. -/
inductive Content where
  | dense (data : List PyFloat)
  /-- The conversion succeeds, but the element-wise operations raise. -/
  | sparse (e : PyError)
  /-- The conversion raises an `Exception`. -/
  | unreadable (cls message : String)

structure TorchTensor where
  shape : List ℕ
  dtype : Dtype
  onCpu : Bool
  strided : Bool
  requiresGrad : Bool
  content : Content
  length_data : ∀ data, content = .dense data → data.length = shape.prod

/-- The objects beside the built-in values; a tensor may be of a named subclass. -/
inductive Foreign where
  | tensor (sub : Option String) (t : TorchTensor)
  | other (cls : String)

abbrev Value := PyValue Foreign

/-- `type(v).__name__`. -/
def typeName : Value → String := PyValue.typeName fun
  | .tensor sub _ => sub.getD "Tensor"
  | .other cls => cls

/-- What the checks leave to Python and its array library. -/
structure Runtime where
  /-- The rounding of an exact result to a 64-bit float. -/
  fl : ℚ → PyFloat
  /-- `repr` of a float. -/
  reprFloat : ℚ → String
  /-- `repr(sorted(keys))`, where comparing the keys may raise. -/
  reprSorted : List Value → Except PyError String
  /-- A CPU copy of a tensor that is elsewhere or not strided. -/
  cloneTensor : TorchTensor → Except PyError TorchTensor

def reprShape : List ℕ → String
  | [n] => "(" ++ toString n ++ ",)"
  | l => "(" ++ ", ".intercalate (l.map toString) ++ ")"

/-- The five parameter names, in the order they are checked. -/
inductive Param where
  | scaleFactor | scaleLv2 | scaleLv3 | sign | mant
  deriving DecidableEq

namespace Param

def key : Param → String
  | scaleFactor => "scale_factor"
  | scaleLv2 => "scale_lv2"
  | scaleLv3 => "scale_lv3"
  | sign => "sign"
  | mant => "mant"

def axes : Param → List ℕ
  | scaleFactor => [1, 1, 1]
  | scaleLv2 => [8, 1, 1]
  | scaleLv3 => [8, 2, 1]
  | sign | mant => [8, 2, 4]

end Param

def expectedHif4ParamShapes (shape : List ℕ) : Except String (Param → List ℕ) :=
  match shape.getLast? with
  | none => .error "original_shape must have at least one dimension"
  | some channels =>
    if channels % 64 ≠ 0 then
      .error s!"last dimension {channels} is not divisible by HiF4 block size 64"
    else .ok fun p => shape.dropLast ++ [channels / 64] ++ p.axes

/-- A parameter that passed the first loop: its tensor as floats, or what reading it raises. -/
abbrev Converted := Except PyError (Tensor PyFloat)

/-- One pass of the first loop: the converted tensor, or the error it reports. -/
def checkTensor (items : List (Value × Value)) (expected : List ℕ) (tag : String) (p : Param) :
    Except String Converted :=
  match PyValue.lookup p.key.toList items with
  | none => .error s!"{tag} missing parameter: '{p.key}'"
  | some (.object (.tensor _ t)) =>
    if t.shape ≠ expected then
      .error s!"{tag}.{p.key}: shape {reprShape t.shape} != expected {reprShape expected}"
    else if t.dtype.isComplex then .error s!"{tag}.{p.key}: complex tensor is not allowed"
    else
      match h : t.content with
      | .dense data => .ok (.ok ⟨t.shape, data, t.length_data data h⟩)
      | .sparse e => .ok (.error e)
      | .unreadable cls message =>
        .error s!"{tag}.{p.key}: failed to convert tensor for validation: {cls}: {message}"
  | some v => .error s!"{tag}.{p.key}: expected torch.Tensor, got {typeName v}"

structure ParamTensors (α : Type*) where
  scaleFactor : α
  scaleLv2 : α
  scaleLv3 : α
  sign : α
  mant : α

def errorOf {α : Type*} : Except String α → Option String
  | .ok _ => none
  | .error e => some e

/-- The first loop: five converted tensors, or everything it reports. -/
def checkTensors (items : List (Value × Value)) (expected : Param → List ℕ) (tag : String) :
    Except (List String) (ParamTensors Converted) :=
  let check p := checkTensor items (expected p) tag p
  match check .scaleFactor, check .scaleLv2, check .scaleLv3, check .sign, check .mant with
  | .ok a, .ok b, .ok c, .ok d, .ok e => .ok ⟨a, b, c, d, e⟩
  | a, b, c, d, e => .error ([a, b, c, d, e].filterMap errorOf)

/-- What the second loop says about one tensor. -/
def finiteErrors (tag : String) (p : Param) (t : Tensor PyFloat) : List String :=
  let count := t.data.countP fun x => !x.isFinite
  if count ≠ 0 then [s!"{tag}.{p.key}: contains {count} non-finite values"] else []

def dequant (fl : ℚ → PyFloat) (ts : ParamTensors (Tensor PyFloat)) (shape : List ℕ) :
    Option (Tensor PyFloat) := do
  let mul := Tensor.broadcastWith (PyFloat.mul fl)
  let product ← mul (← mul (← mul (← mul ts.sign ts.mant) ts.scaleLv2) ts.scaleLv3) ts.scaleFactor
  product.reshape shape

/-- `torch.round` on one element. -/
def roundFloat : PyFloat → PyFloat
  | .finite q => .finite (roundHalfEven q)
  | x => x

/-- The E6M2 value next to a scale, as the validator computes it. -/
def sfE6m2 (fl : ℚ → PyFloat) (q : ℚ) : PyFloat :=
  let sfExp := Int.log 2 (max q (2 ^ (-126 : ℤ)))
  PyFloat.mul fl (roundFloat (PyFloat.mul fl (.finite q) (.finite (2 ^ (2 - sfExp)))))
    (.finite (2 ^ (sfExp - 2)))

/-- `repr(values.unique().tolist()[:5])`. -/
def reprExamples (rt : Runtime) (values : List ℚ) : String :=
  "[" ++ ", ".intercalate (((values.dedup.mergeSort (· ≤ ·)).take 5).map rt.reprFloat) ++ "]"

/-- The message `text` with examples, if some value is not `ok`. -/
def setErrors (rt : Runtime) (ok : ℚ → Bool) (text : String) (values : List ℚ) : List String :=
  let bad := values.filter fun q => !ok q
  if bad ≠ [] then [s!"{text}; examples={reprExamples rt bad}"] else []

/-- The message for a number of values, if it is not zero. -/
def countErrors (count : ℕ) (before after : String) : List String :=
  if count ≠ 0 then [s!"{before}{count}{after}"] else []

/-- The range and grid checks on finite tensors. -/
def valueErrors (rt : Runtime) (ts : ParamTensors (List ℚ)) (tag : String) : List String :=
  countErrors (ts.scaleFactor.countP fun q => q < 2 ^ (-48 : ℤ)) s!"{tag}.scale_factor: "
    " values below 2^-48" ++
  countErrors (ts.scaleFactor.countP fun q => 49152 < q) s!"{tag}.scale_factor: "
    " values above 49152" ++
  countErrors (ts.scaleFactor.countP fun q => !PyFloat.eq (.finite q) (sfE6m2 rt.fl q))
    s!"{tag}.scale_factor: " " values are not exact E6M2 values" ++
  setErrors rt (fun q => q = 1 || q = 2)
    s!"{tag}.scale_lv2: values must be exactly \x7b1.0, 2.0\x7d" ts.scaleLv2 ++
  setErrors rt (fun q => q = 1 || q = 2)
    s!"{tag}.scale_lv3: values must be exactly \x7b1.0, 2.0\x7d" ts.scaleLv3 ++
  setErrors rt (fun q => q = -1 || q = 0 || q = 1)
    s!"{tag}.sign: values must be exactly \x7b-1.0, 0.0, 1.0\x7d" ts.sign ++
  (if ts.mant.any (· < 0) then [s!"{tag}.mant: negative values are not allowed"] else []) ++
  (if ts.mant.any (7 / 4 < ·) then [s!"{tag}.mant: values above 1.75 are not allowed"] else []) ++
  setErrors rt
    (fun q => let scaled := PyFloat.mul rt.fl (.finite q) (.finite 4)
      PyFloat.eq scaled (roundFloat scaled))
    s!"{tag}.mant: values must be exact multiples of 0.25 in [0, 1.75]" ts.mant

def validateHif4Params (rt : Runtime) (params : Value) (originalShape : List ℕ) (tag : String) :
    Except PyError (List String) :=
  match expectedHif4ParamShapes originalShape, params with
  | .error text, _ => .ok [s!"{tag}: {text}"]
  | .ok expected, .dict _ items =>
    match checkTensors items expected tag with
    | .error errors => .ok errors
    | .ok c => do
      let ts : ParamTensors (Tensor PyFloat) :=
        ⟨← c.scaleFactor, ← c.scaleLv2, ← c.scaleLv3, ← c.sign, ← c.mant⟩
      let errors := finiteErrors tag .scaleFactor ts.scaleFactor ++
        finiteErrors tag .scaleLv2 ts.scaleLv2 ++ finiteErrors tag .scaleLv3 ts.scaleLv3 ++
        finiteErrors tag .sign ts.sign ++ finiteErrors tag .mant ts.mant
      if errors ≠ [] then return errors
      match dequant rt.fl ts originalShape with
      | none => return [s!"{tag}: HiF4 parameter broadcasting/reshape failed: RuntimeError"]
      | some product =>
        let count := product.data.countP fun x => !x.isFinite
        if count ≠ 0 then
          return [s!"{tag}: dequantized tensor contains {count} non-finite values"]
        let expectedNumel := originalShape.prod
        let numel := product.data.length
        let numelErrors := if numel ≠ expectedNumel then
          [s!"{tag}: dequantized numel {numel} != expected {expectedNumel}"] else []
        let values (t : Tensor PyFloat) := t.data.map PyFloat.toRat
        return numelErrors ++ valueErrors rt ⟨values ts.scaleFactor, values ts.scaleLv2,
          values ts.scaleLv3, values ts.sign, values ts.mant⟩ tag
  | .ok _, v => .ok [s!"{tag}: expected dict, got {typeName v}"]

end K8sLearn.SelfCheck
