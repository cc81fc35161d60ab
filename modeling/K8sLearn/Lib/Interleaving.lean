import Mathlib.Algebra.BigOperators.Fin
import Mathlib.Data.List.Induction

/-! # Interleaved steps

Tasks share a state and take steps in the order of a schedule. A measure that every step decreases
bounds all runs, and where no reachable state is stuck before the end, every run can be completed.
What the tasks have added to a counter is a sum of their parts, of which a step changes one.
-/

namespace K8sLearn.Interleaving

section Run

variable {σ ι : Type*}

/-- The state after the steps of a schedule; none if one of them cannot be taken. -/
def run (advance : σ → ι → Option σ) (s : σ) (schedule : List ι) : Option σ :=
  schedule.foldlM advance s

variable {advance : σ → ι → Option σ} {Inv Done : σ → Prop} {left : σ → ℕ} {s s' : σ}
  {schedule : List ι}

theorem run_cons (i : ι) :
    run advance s (i :: schedule) = (advance s i).bind fun s => run advance s schedule :=
  List.foldlM_cons

theorem run_concat (i : ι) : run advance s (schedule ++ [i]) =
    (run advance s schedule).bind fun s => advance s i := by
  rw [run, run, List.foldlM_append]
  refine congrArg (Option.bind _) (funext fun s => ?_)
  rw [List.foldlM_cons]
  exact bind_pure _

/-- What holds of the steps taken and the state, whatever the next step is. -/
theorem history_run {Inv : List ι → σ → Prop} (hinit : Inv [] s)
    (hstep : ∀ {past s i s'}, Inv past s → advance s i = some s' → Inv (past ++ [i]) s')
    (h : run advance s schedule = some s') : Inv schedule s' := by
  induction schedule using List.reverseRecOn generalizing s' with
  | nil =>
    obtain rfl : s = s' := Option.some.inj h
    exact hinit
  | append_singleton past i ih =>
    rw [run_concat] at h
    obtain ⟨s₁, h₁, h⟩ := Option.bind_eq_some_iff.mp h
    exact hstep (ih h₁) h

variable (hstep : ∀ {s i s'}, Inv s → advance s i = some s' → Inv s' ∧ left s' < left s)

include hstep

theorem invariant_run (hs : Inv s) (h : run advance s schedule = some s') :
    Inv s' ∧ schedule.length + left s' ≤ left s := by
  induction schedule generalizing s with
  | nil =>
    obtain rfl : s = s' := Option.some.inj h
    exact ⟨hs, by simp⟩
  | cons i schedule ih =>
    rw [run_cons] at h
    obtain ⟨s₁, h₁, h⟩ := Option.bind_eq_some_iff.mp h
    obtain ⟨hs₁, hlt⟩ := hstep hs h₁
    obtain ⟨hs', hle⟩ := ih hs₁ h
    refine ⟨hs', ?_⟩
    rw [List.length_cons]
    omega

theorem exists_run (hprogress : ∀ {s}, Inv s → ¬ Done s → ∃ i s', advance s i = some s')
    (hs : Inv s) : ∃ schedule s', run advance s schedule = some s' ∧ Done s' := by
  generalize hm : left s = m
  induction m using Nat.strong_induction_on generalizing s with
  | _ m ih =>
    by_cases hdone : Done s
    · exact ⟨[], s, rfl, hdone⟩
    · obtain ⟨i, s₁, h₁⟩ := hprogress hs hdone
      obtain ⟨hs₁, hlt⟩ := hstep hs h₁
      obtain ⟨schedule, s', hrun, hdone'⟩ := ih (left s₁) (hm ▸ hlt) hs₁ rfl
      refine ⟨i :: schedule, s', ?_, hdone'⟩
      rw [run_cons, h₁]
      exact hrun

end Run

theorem sum_update_add {α ι : Type*} [Fintype ι] [DecidableEq ι] (f : ι → α → ℕ) (p : ι → α)
    (i : ι) (a : α) :
    ∑ j, f j (Function.update p i a j) + f i (p i) = ∑ j, f j (p j) + f i a := by
  have hrest : ∑ j ∈ Finset.univ.erase i, f j (Function.update p i a j) =
      ∑ j ∈ Finset.univ.erase i, f j (p j) :=
    Finset.sum_congr rfl fun j hj => by rw [Function.update_of_ne (Finset.ne_of_mem_erase hj)]
  rw [← Finset.add_sum_erase _ _ (Finset.mem_univ i), Function.update_self, hrest,
    ← Finset.add_sum_erase _ (fun j => f j (p j)) (Finset.mem_univ i)]
  omega

end K8sLearn.Interleaving
