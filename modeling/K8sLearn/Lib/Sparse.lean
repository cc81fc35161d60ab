import Mathlib.Algebra.Order.BigOperators.Ring.Finset
import K8sLearn.Lib.Collect

/-! # Sparse vectors

A vector that is zero almost everywhere, as a dictionary of its entries. With distinct keys
the products over the entries are sums over any finite set that has the keys, so the inner
product is symmetric and bounded by the norms.
-/

namespace K8sLearn.Sparse

variable {κ K : Type*} [DecidableEq κ] [CommRing K]

/-- `d.get(k, 0)`. -/
def get (d : List (κ × K)) (k : κ) : K := (d.lookup k).getD 0

/-- `sum(v * r.get(k, 0) for k, v in l.items())`. -/
def dot (l r : List (κ × K)) : K := (l.map fun e => e.2 * get r e.1).sum

/-- `sum(v * v for v in d.values())`. -/
def sqNorm (d : List (κ × K)) : K := (d.map fun e => e.2 * e.2).sum

variable {d l r : List (κ × K)} {k : κ}

theorem get_cons (e : κ × K) (d : List (κ × K)) (k : κ) :
    get (e :: d) k = if k = e.1 then e.2 else get d k := by
  rw [get, List.lookup_cons]
  by_cases hk : k = e.1
  · simp [hk]
  · rw [beq_eq_false_iff_ne.mpr hk, if_neg hk]
    rfl

theorem get_of_not_mem (hk : k ∉ d.map Prod.fst) : get d k = 0 := by
  induction d with
  | nil => rfl
  | cons e d ih =>
    rw [List.map_cons, List.mem_cons, not_or] at hk
    rw [get_cons, if_neg hk.1, ih hk.2]

theorem get_of_mem (hd : (d.map Prod.fst).Nodup) {e : κ × K} (he : e ∈ d) : get d e.1 = e.2 := by
  have h := lookup_of_nodup Prod.fst Prod.snd hd he
  rw [List.map_id' d] at h
  rw [get, h, Option.getD_some]

theorem sum_entries (hd : (d.map Prod.fst).Nodup) (f : κ → K) {S : Finset κ}
    (hS : ∀ e ∈ d, e.1 ∈ S) : (d.map fun e => e.2 * f e.1).sum = ∑ k ∈ S, get d k * f k := by
  induction d with
  | nil => simp [get]
  | cons e d ih =>
    obtain ⟨he, hd⟩ := List.nodup_cons.mp hd
    have hsplit : ∀ k, get (e :: d) k * f k = (if k = e.1 then e.2 * f k else 0) + get d k * f k := by
      intro k
      rw [get_cons]
      split_ifs with hk
      · rw [hk, get_of_not_mem he, zero_mul, add_zero]
      · rw [zero_add]
    simp only [hsplit]
    rw [Finset.sum_add_distrib, Finset.sum_ite_eq' S e.1, if_pos (hS e List.mem_cons_self),
      List.map_cons, List.sum_cons, ih hd fun e' he' => hS e' (List.mem_cons_of_mem _ he')]

theorem dot_eq_sum (hl : (l.map Prod.fst).Nodup) {S : Finset κ} (hS : ∀ e ∈ l, e.1 ∈ S) :
    dot l r = ∑ k ∈ S, get l k * get r k :=
  sum_entries hl (get r) hS

omit [CommRing K] in
theorem exists_keys (l r : List (κ × K)) :
    ∃ S : Finset κ, (∀ e ∈ l, e.1 ∈ S) ∧ ∀ e ∈ r, e.1 ∈ S := by
  refine ⟨(l ++ r).map Prod.fst |>.toFinset, fun e he => ?_, fun e he => ?_⟩ <;>
    rw [List.mem_toFinset]
  · exact List.mem_map_of_mem (List.mem_append_left _ he)
  · exact List.mem_map_of_mem (List.mem_append_right _ he)

theorem dot_comm (hl : (l.map Prod.fst).Nodup) (hr : (r.map Prod.fst).Nodup) :
    dot l r = dot r l := by
  obtain ⟨S, hSl, hSr⟩ := exists_keys l r
  rw [dot_eq_sum hl hSl, dot_eq_sum hr hSr]
  exact Finset.sum_congr rfl fun k _ => mul_comm _ _

theorem dot_self (hd : (d.map Prod.fst).Nodup) : dot d d = sqNorm d := by
  rw [dot, sqNorm]
  congr 1
  apply List.map_congr_left
  intro e he
  rw [get_of_mem hd he]

@[simp] theorem dot_nil_left (r : List (κ × K)) : dot [] r = 0 := rfl

@[simp] theorem dot_nil_right (l : List (κ × K)) : dot l [] = 0 := by
  simp [dot, get]

section Order

variable [LinearOrder K] [IsStrictOrderedRing K]

omit [DecidableEq κ] in
theorem sqNorm_nonneg (d : List (κ × K)) : 0 ≤ sqNorm d := by
  apply List.sum_nonneg
  intro x hx
  obtain ⟨e, -, rfl⟩ := List.mem_map.mp hx
  exact mul_self_nonneg e.2

theorem dot_sq_le (hl : (l.map Prod.fst).Nodup) (hr : (r.map Prod.fst).Nodup) :
    dot l r ^ 2 ≤ sqNorm l * sqNorm r := by
  obtain ⟨S, hSl, hSr⟩ := exists_keys l r
  rw [← dot_self hl, ← dot_self hr, dot_eq_sum hl hSl, dot_eq_sum hl hSl, dot_eq_sum hr hSr]
  simpa only [pow_two] using Finset.sum_mul_sq_le_sq_mul_sq S (get l) (get r)

theorem dot_le_one (hl : (l.map Prod.fst).Nodup) (hr : (r.map Prod.fst).Nodup)
    (hl1 : sqNorm l = 1) (hr1 : sqNorm r = 1) : dot l r ≤ 1 := by
  have h := dot_sq_le hl hr
  rw [hl1, hr1, mul_one] at h
  exact le_of_abs_le ((sq_le_one_iff_abs_le_one _).mp h)

end Order

section Scale

variable {ι F : Type*} [Field F] (v : List (ι × F)) (n : F)

def scaleDiv : List (ι × F) := v.map fun e => (e.1, e.2 / n)

theorem keys_scaleDiv : (scaleDiv v n).map Prod.fst = v.map Prod.fst := by
  simp [scaleDiv]

theorem sqNorm_scaleDiv : sqNorm (scaleDiv v n) = sqNorm v / (n * n) := by
  rw [sqNorm, sqNorm, div_eq_mul_inv, ← List.sum_map_mul_right, scaleDiv, List.map_map]
  congr 1
  apply List.map_congr_left
  intro e _
  rw [Function.comp_apply, div_mul_div_comm, div_eq_mul_inv]

end Scale

end K8sLearn.Sparse
