import Mathlib.Data.List.Induction
import Mathlib.Data.List.Infix

/-! # Circuit breakers

A breaker counts the failures in a row and opens when there are too many; a success sets the count
back. So it is open exactly if so many failures have come in a row.
-/

namespace K8sLearn.Breaker

/-- The failures in a row, and whether the breaker is open. -/
structure Count where
  failures : ℕ
  isOpen : Bool

def record (limit : ℕ) (b : Count) (success : Bool) : Count :=
  if success then ⟨0, b.isOpen⟩
  else ⟨b.failures + 1, b.isOpen || limit ≤ b.failures + 1⟩

def after (limit : ℕ) (outcomes : List Bool) : Count :=
  outcomes.foldl (record limit) ⟨0, false⟩

variable {limit : ℕ} {outcomes : List Bool}

theorem after_concat (success : Bool) :
    after limit (outcomes ++ [success]) = record limit (after limit outcomes) success := by
  rw [after, List.foldl_append]
  rfl

theorem le_failures_iff {n : ℕ} :
    n ≤ (after limit outcomes).failures ↔ List.replicate n false <:+ outcomes := by
  induction outcomes using List.reverseRecOn generalizing n with
  | nil => simp [after]
  | append_singleton outcomes success ih =>
    rw [after_concat]
    cases n with
    | zero => simp
    | succ n =>
      rw [List.replicate_succ', List.suffix_concat_iff]
      cases success with
      | false =>
        rw [record, if_neg Bool.false_ne_true, Nat.add_le_add_iff_right, ih]
        simp
      | true => simp [record]

theorem isOpen_iff (hlimit : 0 < limit) :
    (after limit outcomes).isOpen = true ↔ List.replicate limit false <:+: outcomes := by
  induction outcomes using List.reverseRecOn with
  | nil =>
    rw [List.infix_nil, List.replicate_eq_nil_iff]
    simp [after, hlimit.ne']
  | append_singleton outcomes success ih =>
    have hsuffix : limit ≤ (after limit (outcomes ++ [success])).failures ↔
        List.replicate limit false <:+ outcomes ++ [success] := le_failures_iff
    rw [List.infix_concat_iff, ← ih, ← hsuffix, after_concat]
    cases success with
    | false => simp [record, or_comm]
    | true => simp [record, hlimit.ne']

end K8sLearn.Breaker
