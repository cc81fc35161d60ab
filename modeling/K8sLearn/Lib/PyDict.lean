import Mathlib.Data.List.Nodup
import K8sLearn.Lib.PyValue

/-! # Dictionaries of Python values

Assignment, `update` and `setdefault` under string keys, on the items in insertion order. An
assignment keeps the place of its key; what is not assigned to is not changed; assigning what is
there changes nothing.
-/

namespace K8sLearn.PyValue

variable {τ : Type}

abbrev Items (τ : Type) := List (PyValue τ × PyValue τ)

/-- `d[key] = v`. -/
def setItem (key : Str) (v : PyValue τ) : Items τ → Items τ
  | [] => [(str key, v)]
  | (str k, w) :: items => if k = key then (str k, v) :: items else (str k, w) :: setItem key v items
  | item :: items => item :: setItem key v items

/-- `d.update({..})`. -/
def update (items : Items τ) (new : List (Str × PyValue τ)) : Items τ :=
  new.foldl (fun d e => setItem e.1 e.2 d) items

/-- `d.setdefault(key, v)`. -/
def setDefault (items : Items τ) (e : Str × PyValue τ) : Items τ :=
  if (lookup e.1 items).isSome then items else setItem e.1 e.2 items

def asDict : PyValue τ → Option (Items τ)
  | dict _ items => some items
  | _ => Option.none

def iterate : PyValue τ → Option (List (PyValue τ))
  | list vs | tuple vs => some vs
  | str s => some (s.map fun c => str [c])
  | dict _ items => some (items.map Prod.fst)
  | _ => Option.none

section SetItem

variable {key k : Str} {v w : PyValue τ} {items : Items τ} {new : List (Str × PyValue τ)}
  {e : Str × PyValue τ}

theorem lookup_setItem_self : lookup key (setItem key v items) = some v := by
  induction items using setItem.induct key with
  | case1 => simp [setItem, lookup]
  | case2 w items => simp [setItem, lookup]
  | case3 k w items hk ih => rw [setItem, if_neg hk, lookup, if_neg hk, ih]
  | case4 item items hitem ih =>
    rw [setItem, lookup, ih]
    all_goals exact hitem

theorem lookup_setItem_of_ne (hk : k ≠ key) : lookup k (setItem key v items) = lookup k items := by
  induction items using setItem.induct key with
  | case1 => simp [setItem, lookup, Ne.symm hk]
  | case2 w items => simp [setItem, lookup, Ne.symm hk]
  | case3 k' w items hk' ih =>
    rw [setItem, if_neg hk', lookup, lookup, ih]
  | case4 item items hitem ih =>
    rw [setItem, lookup, lookup, ih]
    all_goals exact hitem

theorem setItem_of_lookup (h : lookup key items = some v) : setItem key v items = items := by
  induction items using setItem.induct key with
  | case1 => cases h
  | case2 w items =>
    rw [lookup, if_pos rfl] at h
    obtain rfl := Option.some.inj h
    rw [setItem, if_pos rfl]
  | case3 k' w items hk' ih =>
    rw [lookup, if_neg hk'] at h
    rw [setItem, if_neg hk', ih h]
  | case4 item items hitem ih =>
    rw [lookup] at h
    · rw [setItem, ih h]
      exact hitem
    · exact hitem

theorem lookup_update_of_not_mem (hk : k ∉ new.map Prod.fst) :
    lookup k (update items new) = lookup k items := by
  induction new generalizing items with
  | nil => rfl
  | cons e new ih =>
    simp only [List.map_cons, List.mem_cons, not_or] at hk
    exact (ih hk.2).trans (lookup_setItem_of_ne hk.1)

theorem lookup_update_of_mem (hnew : (new.map Prod.fst).Nodup) (he : e ∈ new) :
    lookup e.1 (update items new) = some e.2 := by
  induction new generalizing items with
  | nil => cases he
  | cons e' new ih =>
    obtain ⟨hnot, hnew⟩ := List.nodup_cons.mp hnew
    rcases List.mem_cons.mp he with rfl | he
    · exact (lookup_update_of_not_mem hnot).trans lookup_setItem_self
    · exact ih hnew he

theorem update_of_lookup (h : ∀ e ∈ new, lookup e.1 items = some e.2) :
    update items new = items := by
  induction new with
  | nil => rfl
  | cons e new ih =>
    have hstep : update items (e :: new) = update (setItem e.1 e.2 items) new := rfl
    rw [hstep, setItem_of_lookup (h e List.mem_cons_self)]
    exact ih fun e' he' => h e' (List.mem_cons_of_mem _ he')

end SetItem

section SetDefault

variable {k : Str} {v : PyValue τ} {items : Items τ} {defaults : List (Str × PyValue τ)}
  {e : Str × PyValue τ}

theorem lookup_setDefault_of_some (h : lookup k items = some v) :
    lookup k (setDefault items e) = some v := by
  unfold setDefault
  split_ifs with hsome
  · exact h
  · have hk : k ≠ e.1 := by
      rintro rfl
      exact hsome (h ▸ rfl)
    exact (lookup_setItem_of_ne hk).trans h

theorem isSome_lookup_setDefault : (lookup e.1 (setDefault items e)).isSome := by
  unfold setDefault
  split_ifs with hsome
  · exact hsome
  · rw [lookup_setItem_self]
    rfl

theorem lookup_foldl_setDefault (h : lookup k items = some v) :
    lookup k (defaults.foldl setDefault items) = some v := by
  induction defaults generalizing items with
  | nil => exact h
  | cons e defaults ih => exact ih (lookup_setDefault_of_some h)

theorem isSome_lookup_foldl_setDefault (he : e ∈ defaults) :
    (lookup e.1 (defaults.foldl setDefault items)).isSome := by
  induction defaults generalizing items with
  | nil => cases he
  | cons e' defaults ih =>
    rcases List.mem_cons.mp he with rfl | he
    · have hsome : (lookup e.1 (setDefault items e)).isSome := isSome_lookup_setDefault
      obtain ⟨v, hv⟩ := Option.isSome_iff_exists.mp hsome
      rw [List.foldl_cons]
      exact Option.isSome_iff_exists.mpr ⟨v, lookup_foldl_setDefault hv⟩
    · exact ih he

theorem foldl_setDefault_of_isSome (h : ∀ e ∈ defaults, (lookup e.1 items).isSome) :
    defaults.foldl setDefault items = items := by
  induction defaults with
  | nil => rfl
  | cons e defaults ih =>
    rw [List.foldl_cons, setDefault, if_pos (h e List.mem_cons_self)]
    exact ih fun e' he' => h e' (List.mem_cons_of_mem _ he')

theorem foldl_setDefault_idem (defaults : List (Str × PyValue τ)) (items : Items τ) :
    defaults.foldl setDefault (defaults.foldl setDefault items) =
      defaults.foldl setDefault items :=
  foldl_setDefault_of_isSome fun _ he => isSome_lookup_foldl_setDefault he

end SetDefault

end K8sLearn.PyValue
