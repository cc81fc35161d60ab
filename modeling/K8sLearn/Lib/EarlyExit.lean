import Mathlib.Data.List.Range
import Mathlib.Order.Nat

/-! # Leaving a loop early

A loop that tests its state after every round and leaves where the test succeeds. It returns what
the loop without the test has after the first round that passes it, or after the last one.
-/

namespace K8sLearn

section FirstStep

def firstStep (p : ℕ → Bool) (maxLen : ℕ) : ℕ := ((List.range' 1 maxLen).find? p).getD maxLen

variable {p q : ℕ → Bool} {n j : ℕ}

theorem firstStep_le (p : ℕ → Bool) (n : ℕ) : firstStep p n ≤ n := by
  unfold firstStep
  cases h : (List.range' 1 n).find? p with
  | none => exact le_rfl
  | some k =>
    have hk := (List.mem_range'_1.mp (List.mem_of_find?_eq_some h)).2
    rw [Option.getD_some]
    omega

theorem firstStep_holds (h : firstStep p n < n) : 1 ≤ firstStep p n ∧ p (firstStep p n) = true := by
  unfold firstStep at h ⊢
  cases hfind : (List.range' 1 n).find? p with
  | none => simp [hfind] at h
  | some k =>
    exact ⟨(List.mem_range'_1.mp (List.mem_of_find?_eq_some hfind)).1, List.find?_some hfind⟩

theorem le_of_firstStep (hj : 1 ≤ j) (hp : p j = true) (hjn : j ≤ n) : firstStep p n ≤ j := by
  unfold firstStep
  cases hfind : (List.range' 1 n).find? p with
  | none =>
    have hnot := List.find?_eq_none.mp hfind j (List.mem_range'_1.mpr ⟨hj, by omega⟩)
    exact absurd hp hnot
  | some k =>
    by_contra hlt
    have hnot := (List.find?_range'_eq_some.mp hfind).2.2 j hj (not_le.mp hlt)
    rw [hp] at hnot
    exact absurd hnot (by decide)

theorem firstStep_succ (p : ℕ → Bool) (n : ℕ) :
    firstStep p (n + 1) = if p 1 = true then 1 else firstStep (fun k => p (k + 1)) n + 1 := by
  have htail : List.range' 2 n = (List.range' 1 n).map fun k => k + 1 := by
    rw [List.range'_succ_left]
  rw [firstStep, List.range'_succ, List.find?_cons, htail, List.find?_map, firstStep]
  cases p 1 with
  | true => rfl
  | false =>
    have hcomp : (p ∘ fun k => k + 1) = fun k => p (k + 1) := rfl
    rw [if_neg Bool.false_ne_true, hcomp]
    cases (List.range' 1 n).find? fun k => p (k + 1) <;> rfl

theorem firstStep_mono (h : ∀ k, 1 ≤ k → q k = true → p k = true) :
    firstStep p n ≤ firstStep q n := by
  rcases (firstStep_le q n).lt_or_eq with hlt | heq
  · obtain ⟨hpos, hq⟩ := firstStep_holds hlt
    exact le_of_firstStep hpos (h _ hpos hq) hlt.le
  · rw [heq]
    exact firstStep_le p n

end FirstStep

section Until

variable {σ : Type*} (f : σ → Option σ) (stop : σ → Bool)

def runFor : ℕ → σ → Option σ
  | 0, s => some s
  | n + 1, s => (f s).bind (runFor n)

/-- The rounds up to the first after which the test succeeds. -/
def runUntil : ℕ → σ → Option σ
  | 0, s => some s
  | n + 1, s => (f s).bind fun s' => if stop s' then some s' else runUntil n s'

theorem runUntil_eq (n : ℕ) (s : σ) :
    runUntil f stop n s = runFor f (firstStep (fun k => (runFor f k s).any stop) n) s := by
  induction n generalizing s with
  | zero => rfl
  | succ n ih =>
    rw [runUntil, firstStep_succ]
    cases hs : f s with
    | none =>
      have hfail : ∀ k, runFor f (k + 1) s = none := fun k => by rw [runFor, hs, Option.bind_none]
      rw [Option.bind_none]
      split_ifs
      · exact (hfail 0).symm
      · exact (hfail _).symm
    | some s' =>
      have hround : ∀ k, runFor f (k + 1) s = runFor f k s' := fun k => by
        rw [runFor, hs, Option.bind_some]
      have hone : (runFor f 1 s).any stop = stop s' := by rw [hround 0, runFor, Option.any_some]
      rw [Option.bind_some, hone]
      simp only [hround]
      split_ifs
      · exact (hround 0).symm
      · rw [hround]
        exact ih s'

end Until

end K8sLearn
