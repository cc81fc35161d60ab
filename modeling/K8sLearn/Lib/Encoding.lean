import Mathlib.Data.List.Perm.Basic
import K8sLearn.Lib.PyDict

/-! # Texts without an encoding

A Python string may hold lone surrogates, for which UTF-8 has no bytes: JSON can escape them, and
so are bytes of an argument that are no UTF-8 read. `Char` leaves the surrogates out, so the last
2048 characters of the private use planes stand for them here. A file or a database takes a text
as a whole, and one lone surrogate is enough for an error.
-/

namespace K8sLearn

namespace Str

def isLoneSurrogate (c : Char) : Bool := 0x10F800 ≤ c.val

/-- `s.encode("utf-8")` does not raise. -/
def encodable (s : Str) : Bool := s.all fun c => !isLoneSurrogate c

def encodeError : PyError :=
  .exception "UnicodeEncodeError" "'utf-8' codec can't encode character: surrogates not allowed"

variable {s s' : Str}

theorem encodable_append : encodable (s ++ s') = (encodable s && encodable s') := List.all_append

theorem encodable_of_subset (h : s' ⊆ s) (hs : encodable s = true) : encodable s' = true :=
  List.all_eq_true.mpr fun c hc => List.all_eq_true.mp hs c (h hc)

theorem encodable_take (n : ℕ) (hs : encodable s = true) : encodable (s.take n) = true :=
  encodable_of_subset (List.take_subset n s) hs

theorem encodable_strip (hs : encodable s = true) : encodable (strip s) = true :=
  encodable_of_subset (fun _ => mem_of_mem_strip) hs

theorem encodable_collapseSpaces (hs : encodable s = true) :
    encodable (collapseSpaces s) = true := by
  have hfrom : ∀ inRun, encodable (collapseFrom inRun s) = true := by
    induction s with
    | nil => exact fun _ => rfl
    | cons c s ih =>
      obtain ⟨hc, hs⟩ : (!isLoneSurrogate c) = true ∧ encodable s = true :=
        Bool.and_eq_true_iff.mp hs
      intro inRun
      rw [collapseFrom]
      split_ifs
      · exact ih hs true
      · exact Bool.and_eq_true_iff.mpr ⟨rfl, ih hs true⟩
      · exact Bool.and_eq_true_iff.mpr ⟨hc, ih hs false⟩
  exact hfrom false

theorem encodable_join {sep : Str} {parts : List Str} (hsep : encodable sep = true)
    (hparts : ∀ s ∈ parts, encodable s = true) : encodable (join sep parts) = true := by
  refine List.all_eq_true.mpr fun c hc => ?_
  rcases mem_join hc with hc | ⟨s, hs, hc⟩
  · exact List.all_eq_true.mp hsep c hc
  · exact List.all_eq_true.mp (hparts s hs) c hc

end Str

namespace PyValue

variable {τ : Type}

mutual

def encodable : PyValue τ → Bool
  | str s => Str.encodable s
  | list vs | tuple vs => encodableElements vs
  | dict _ items => encodableItems items
  | _ => true

def encodableElements : List (PyValue τ) → Bool
  | [] => true
  | v :: vs => encodable v && encodableElements vs

def encodableItems : Items τ → Bool
  | [] => true
  | (k, v) :: items => encodable k && encodable v && encodableItems items

end

theorem encodableElements_eq_all (vs : List (PyValue τ)) :
    encodableElements vs = vs.all encodable := by
  induction vs with
  | nil => rfl
  | cons v vs ih => rw [encodableElements, ih, List.all_cons]

theorem encodable_list (vs : List (PyValue τ)) : encodable (list vs) = vs.all encodable := by
  rw [encodable, encodableElements_eq_all]

section Items

variable {key k : Str} {v : PyValue τ} {items : Items τ} {e : Str × PyValue τ}
  {new : List (Str × PyValue τ)}

def dropKey (key : Str) : Items τ → Items τ
  | [] => []
  | (str k, w) :: items => if k = key then items else (str k, w) :: dropKey key items
  | item :: items => item :: dropKey key items

def dropKeys (keys : List Str) (items : Items τ) : Items τ := keys.foldr dropKey items

theorem encodableItems_setItem : encodableItems (setItem key v items) =
    (Str.encodable key && encodable v && encodableItems (dropKey key items)) := by
  induction items using setItem.induct key with
  | case1 => rfl
  | case2 w items => rw [setItem, if_pos rfl, dropKey, if_pos rfl, encodableItems, encodable]
  | case3 k w items hk ih =>
    rw [setItem, if_neg hk, dropKey, if_neg hk, encodableItems, encodableItems, ih]
    exact Bool.and_left_comm _ _ _
  | case4 item items hitem ih =>
    rw [setItem, dropKey, encodableItems, encodableItems, ih]
    · exact Bool.and_left_comm _ _ _
    all_goals exact hitem

theorem encodableItems_eq (hkey : Str.encodable key = true) : encodableItems items =
    ((lookup key items).all encodable && encodableItems (dropKey key items)) := by
  induction items using setItem.induct key with
  | case1 => rfl
  | case2 w items =>
    rw [lookup, if_pos rfl, dropKey, if_pos rfl, encodableItems, encodable, hkey]
    rfl
  | case3 k w items hk ih =>
    rw [lookup, if_neg hk, dropKey, if_neg hk, encodableItems, encodableItems, ih]
    exact Bool.and_left_comm _ _ _
  | case4 item items hitem ih =>
    rw [lookup, dropKey, encodableItems, encodableItems, ih]
    · exact Bool.and_left_comm _ _ _
    all_goals exact hitem

theorem dropKey_of_lookup_eq_none (h : lookup key items = Option.none) :
    dropKey key items = items := by
  induction items using setItem.induct key with
  | case1 => rfl
  | case2 w items =>
    rw [lookup, if_pos rfl] at h
    cases h
  | case3 k w items hk ih =>
    rw [lookup, if_neg hk] at h
    rw [dropKey, if_neg hk, ih h]
  | case4 item items hitem ih =>
    rw [lookup] at h
    · rw [dropKey, ih h]
      exact hitem
    · exact hitem

theorem lookup_dropKey_of_ne (hk : k ≠ key) : lookup k (dropKey key items) = lookup k items := by
  induction items using setItem.induct key with
  | case1 => rfl
  | case2 w items => rw [dropKey, if_pos rfl, lookup, if_neg hk.symm]
  | case3 k' w items hk' ih => rw [dropKey, if_neg hk', lookup, lookup, ih]
  | case4 item items hitem ih =>
    rw [dropKey, lookup, lookup, ih]
    all_goals exact hitem

theorem lookup_dropKeys {keys : List Str} (hk : k ∉ keys) :
    lookup k (dropKeys keys items) = lookup k items := by
  induction keys with
  | nil => rfl
  | cons key keys ih =>
    obtain ⟨hne, hk⟩ := not_or.mp (mt List.mem_cons.mpr hk)
    exact (lookup_dropKey_of_ne hne).trans (ih hk)

theorem dropKey_setItem_of_ne (hk : k ≠ key) :
    dropKey k (setItem key v items) = setItem key v (dropKey k items) := by
  induction items using setItem.induct key with
  | case1 => exact if_neg hk.symm
  | case2 w items =>
    rw [setItem, if_pos rfl, dropKey, if_neg hk.symm, dropKey, if_neg hk.symm, setItem, if_pos rfl]
  | case3 k' w items hk' ih =>
    rw [setItem, if_neg hk', dropKey, dropKey]
    by_cases heq : k' = k
    · rw [if_pos heq, if_pos heq]
    · rw [if_neg heq, if_neg heq, setItem, if_neg hk', ih]
  | case4 item items hitem ih =>
    rw [setItem, dropKey, dropKey, setItem, ih]
    all_goals exact hitem

theorem dropKey_comm (k key : Str) (items : Items τ) :
    dropKey k (dropKey key items) = dropKey key (dropKey k items) := by
  rcases eq_or_ne k key with rfl | hk
  · rfl
  induction items using setItem.induct key with
  | case1 => rfl
  | case2 w items => rw [dropKey, if_pos rfl, dropKey, if_neg hk.symm, dropKey, if_pos rfl]
  | case3 k' w items hk' ih =>
    rw [dropKey, if_neg hk', dropKey, dropKey]
    by_cases heq : k' = k
    · rw [if_pos heq, if_pos heq]
    · rw [if_neg heq, if_neg heq, dropKey, if_neg hk', ih]
  | case4 item items hitem ih =>
    rw [dropKey, dropKey, dropKey, dropKey, ih]
    all_goals exact hitem

theorem dropKeys_perm {keys keys' : List Str} (h : keys.Perm keys') (items : Items τ) :
    dropKeys keys items = dropKeys keys' items :=
  h.foldr_eq' (fun k _ key _ items => dropKey_comm key k items) items

theorem dropKeys_setItem {keys : List Str} (hk : key ∉ keys) :
    dropKeys keys (setItem key v items) = setItem key v (dropKeys keys items) := by
  induction keys with
  | nil => rfl
  | cons k keys ih =>
    obtain ⟨hne, hk⟩ := not_or.mp (mt List.mem_cons.mpr hk)
    exact (congrArg (dropKey k) (ih hk)).trans (dropKey_setItem_of_ne (Ne.symm hne))

theorem encodableItems_update (hnew : (new.map Prod.fst).Nodup) :
    encodableItems (update items new) = ((new.all fun e => Str.encodable e.1 && encodable e.2) &&
      encodableItems (dropKeys (new.map Prod.fst) items)) := by
  induction new generalizing items with
  | nil => rfl
  | cons e new ih =>
    obtain ⟨hnot, hnew⟩ := List.nodup_cons.mp hnew
    have hstep : update items (e :: new) = update (setItem e.1 e.2 items) new := rfl
    rw [hstep, ih hnew, dropKeys_setItem hnot, encodableItems_setItem, List.all_cons]
    exact Bool.and_left_comm _ _ _ |>.trans (Bool.and_assoc _ _ _).symm

theorem encodableItems_setDefault (he : (Str.encodable e.1 && encodable e.2) = true) :
    encodableItems (setDefault items e) = encodableItems items := by
  unfold setDefault
  split_ifs with hsome
  · rfl
  · have hnone : lookup e.1 items = Option.none := Option.not_isSome_iff_eq_none.mp hsome
    rw [encodableItems_setItem, he, dropKey_of_lookup_eq_none hnone, Bool.true_and]

theorem encodableItems_foldl_setDefault {defaults : List (Str × PyValue τ)}
    (h : ∀ e ∈ defaults, (Str.encodable e.1 && encodable e.2) = true) :
    encodableItems (defaults.foldl setDefault items) = encodableItems items := by
  induction defaults generalizing items with
  | nil => rfl
  | cons e defaults ih =>
    obtain ⟨he, hdefaults⟩ := List.forall_mem_cons.mp h
    rw [List.foldl_cons, ih hdefaults, encodableItems_setDefault he]

end Items

end PyValue

end K8sLearn
