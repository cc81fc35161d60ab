import Mathlib.Algebra.Order.Ring.Rat
import Mathlib.Data.Sign.Basic
import K8sLearn.Lib.Text

/-! # Python values

The built-in values a program can meet, over a type of foreign objects, and the
exceptions it can raise. A dictionary keeps its items in insertion order.
-/

namespace K8sLearn

inductive PyFloat where
  | finite (q : ℚ)
  | posInf
  | negInf
  | nan
  deriving DecidableEq

namespace PyFloat

def isFinite : PyFloat → Bool
  | finite _ => true
  | _ => false

def toRat : PyFloat → ℚ
  | finite q => q
  | _ => 0

def infinity (sign : SignType) : PyFloat :=
  match sign with
  | .pos => posInf
  | .neg => negInf
  | .zero => nan

def signOf : PyFloat → SignType
  | finite q => SignType.sign q
  | posInf => 1
  | negInf => -1
  | nan => 0

/-- `x == y`: `nan` equals nothing. -/
def eq (x y : PyFloat) : Bool := x = y && x ≠ nan

/-- The product, where `fl` rounds an exact result. -/
def mul (fl : ℚ → PyFloat) : PyFloat → PyFloat → PyFloat
  | finite a, finite b => fl (a * b)
  | nan, _ | _, nan => nan
  | x, y => infinity (signOf x * signOf y)

end PyFloat

/-- What a call can raise: a subclass of `Exception`, or one of the classes beside it. -/
inductive PyError where
  | exception (cls message : String)
  | keyboardInterrupt
  | exit (cls message : String)
  deriving DecidableEq

inductive PyValue (τ : Type) where
  | none
  | bool (b : Bool)
  | int (n : ℤ)
  | float (x : PyFloat)
  | str (s : Str)
  | list (vs : List (PyValue τ))
  | tuple (vs : List (PyValue τ))
  /-- A `dict`, or a value of the named subclass of it. -/
  | dict (sub : Option String) (items : List (PyValue τ × PyValue τ))
  | object (x : τ)

namespace PyValue

variable {τ : Type}

/-- `type(v).__name__`, given the class names of foreign objects. -/
def typeName (cls : τ → String) : PyValue τ → String
  | none => "NoneType"
  | bool _ => "bool"
  | int _ => "int"
  | float _ => "float"
  | str _ => "str"
  | list _ => "list"
  | tuple _ => "tuple"
  | dict sub _ => sub.getD "dict"
  | object x => cls x

/-- `d[key]` for a string key of a dictionary with these items. -/
def lookup (key : Str) : List (PyValue τ × PyValue τ) → Option (PyValue τ)
  | [] => Option.none
  | (str k, v) :: items => if k = key then some v else lookup key items
  | _ :: items => lookup key items

/-- `bool(v)`, where every foreign object counts as true. -/
def truthy : PyValue τ → Bool
  | none => false
  | bool b => b
  | int n => n ≠ 0
  | float x => x ≠ .finite 0
  | str s => !s.isEmpty
  | list vs | tuple vs => !vs.isEmpty
  | dict _ items => !items.isEmpty
  | object _ => true

mutual

def nodes : PyValue τ → ℕ
  | list vs | tuple vs => 1 + nodesOfElements vs
  | dict _ items => 1 + nodesOfItems items
  | _ => 1

def nodesOfElements : List (PyValue τ) → ℕ
  | [] => 0
  | v :: vs => nodes v + nodesOfElements vs

def nodesOfItems : List (PyValue τ × PyValue τ) → ℕ
  | [] => 0
  | (_, v) :: items => nodes v + nodesOfItems items

end

mutual

/-- How many containers are around the innermost value. -/
def nestingDepth : PyValue τ → ℕ
  | list vs | tuple vs => depthOfElements vs
  | dict _ items => depthOfItems items
  | _ => 0

def depthOfElements : List (PyValue τ) → ℕ
  | [] => 0
  | v :: vs => max (nestingDepth v + 1) (depthOfElements vs)

def depthOfItems : List (PyValue τ × PyValue τ) → ℕ
  | [] => 0
  | (_, v) :: items => max (nestingDepth v + 1) (depthOfItems items)

end

theorem induction {P : PyValue τ → Prop} (none : P none) (bool : ∀ b, P (bool b))
    (int : ∀ n, P (int n)) (float : ∀ x, P (float x)) (str : ∀ s, P (str s))
    (list : ∀ vs, (∀ v ∈ vs, P v) → P (list vs)) (tuple : ∀ vs, (∀ v ∈ vs, P v) → P (tuple vs))
    (dict : ∀ sub items, (∀ item ∈ items, P item.2) → P (dict sub items))
    (object : ∀ x, P (object x)) (v : PyValue τ) : P v := by
  refine @PyValue.rec τ P (fun vs => ∀ v ∈ vs, P v) (fun items => ∀ item ∈ items, P item.2)
    (fun item => P item.2) none bool int float str list tuple dict object ?_ ?_ ?_ ?_ ?_ v
  · simp
  · intro v vs hv hvs
    simpa using ⟨hv, hvs⟩
  · simp
  · intro item items hi his
    simpa using ⟨hi, fun a b => his (a, b)⟩
  · exact fun _ _ _ hv => hv

end PyValue

end K8sLearn
