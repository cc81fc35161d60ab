import Mathlib.Algebra.BigOperators.Group.List.Basic
import K8sLearn.Lib.Collect

/-! # Sums in a dictionary

A loop that adds amounts under keys, `d[k] = d.get(k, 0) + a`. A key holds the sum of its
amounts, so the order of the additions shows in the order of the keys only.
-/

namespace K8sLearn.Tally

variable {κ M : Type*} [DecidableEq κ] [AddCommMonoid M]

/-- `d[k] = d.get(k, 0) + a`. -/
def add (d : List (κ × M)) (e : κ × M) : List (κ × M) := upsert (· + ·) e.1 e.2 d

/-- `d.get(k, 0)`. -/
def total (d : List (κ × M)) (k : κ) : M := (d.lookup k).getD 0

def amount (es : List (κ × M)) (k : κ) : M := (es.map fun e => if e.1 = k then e.2 else 0).sum

variable {d es : List (κ × M)} {k : κ}

theorem total_cons (e : κ × M) (d : List (κ × M)) (k : κ) :
    total (e :: d) k = if e.1 = k then e.2 else total d k := by
  unfold total
  split_ifs with h
  · subst h
    rw [List.lookup_cons_self]
    rfl
  · rw [List.lookup_cons, beq_eq_false_iff_ne.mpr (Ne.symm h)]

theorem total_add (d : List (κ × M)) (e : κ × M) (k : κ) :
    total (add d e) k = total d k + if e.1 = k then e.2 else 0 := by
  induction d with
  | nil => exact (total_cons e [] k).trans (zero_add _).symm
  | cons e' d ih =>
    rw [add, upsert]
    by_cases he : e'.1 = e.1
    · rw [if_pos he, total_cons, total_cons, he]
      split_ifs <;> simp
    · rw [if_neg he, total_cons, total_cons, ← add, ih]
      by_cases hk : e'.1 = k
      · rw [if_pos hk, if_pos hk, if_neg fun h => he (hk.trans h.symm), add_zero]
      · rw [if_neg hk, if_neg hk]

theorem amount_cons (e : κ × M) (es : List (κ × M)) (k : κ) :
    amount (e :: es) k = (if e.1 = k then e.2 else 0) + amount es k := by
  rw [amount, List.map_cons, List.sum_cons]
  rfl

theorem total_foldl_add (d es : List (κ × M)) (k : κ) :
    total (es.foldl add d) k = total d k + amount es k := by
  induction es generalizing d with
  | nil => simp [amount]
  | cons e es ih => rw [List.foldl_cons, ih, total_add, amount_cons, add_assoc]

theorem mem_keys_foldl_add : k ∈ (es.foldl add d).map Prod.fst ↔
    k ∈ d.map Prod.fst ∨ k ∈ es.map Prod.fst :=
  mem_keys_foldl_upsert

theorem nodup_keys_foldl_add (h : (d.map Prod.fst).Nodup) :
    ((es.foldl add d).map Prod.fst).Nodup := by
  induction es generalizing d with
  | nil => exact h
  | cons e es ih => exact ih (nodup_keys_upsert h)

theorem mem_iff_total (h : (d.map Prod.fst).Nodup) {v : M} :
    (k, v) ∈ d ↔ k ∈ d.map Prod.fst ∧ v = total d k := by
  have hlookup : ∀ e ∈ d, total d e.1 = e.2 := by
    intro e he
    have hfound := lookup_of_nodup Prod.fst Prod.snd h he
    rw [List.map_id'] at hfound
    rw [total, hfound]
    rfl
  constructor
  · intro hmem
    exact ⟨List.mem_map_of_mem hmem, (hlookup _ hmem).symm⟩
  · rintro ⟨hk, rfl⟩
    obtain ⟨e, he, rfl⟩ := List.mem_map.mp hk
    rwa [hlookup e he]

theorem mem_foldl_add {v : M} :
    (k, v) ∈ es.foldl add [] ↔ k ∈ es.map Prod.fst ∧ v = amount es k := by
  have hkeys : ((es.foldl add ([] : List (κ × M))).map Prod.fst).Nodup :=
    nodup_keys_foldl_add List.nodup_nil
  rw [mem_iff_total hkeys, mem_keys_foldl_add, total_foldl_add]
  simp [total]

theorem amount_flatMap {γ : Type*} (l : List γ) (f : γ → List (κ × M)) (k : κ) :
    amount (l.flatMap f) k = (l.map fun c => amount (f c) k).sum := by
  induction l with
  | nil => rfl
  | cons c l ih =>
    rw [List.flatMap_cons, amount, List.map_append, List.sum_append, ← amount, ← amount, ih,
      List.map_cons, List.sum_cons]

end K8sLearn.Tally
