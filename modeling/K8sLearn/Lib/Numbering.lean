import Mathlib.Data.List.Nodup
import K8sLearn.Lib.Collect

/-! # Numbering a list

A dictionary from distinct members to their positions and the dictionary back. A new
member gets the next number in both, so a loop that numbers what it has not seen keeps
the two inverse to each other and never renumbers a member.
-/

namespace K8sLearn.Numbering

variable {α : Type*}

def ids (l : List α) : List (α × ℕ) := l.zipIdx

def members (l : List α) : List (ℕ × α) := l.zipIdx.map Prod.swap

@[simp]
theorem length_ids (l : List α) : (ids l).length = l.length := List.length_zipIdx

theorem keys_ids (l : List α) : (ids l).map Prod.fst = l := List.zipIdx_map_fst 0 l

theorem ids_concat (l : List α) (a : α) : ids (l ++ [a]) = ids l ++ [(a, l.length)] := by
  simp [ids, List.zipIdx_append]

theorem members_concat (l : List α) (a : α) :
    members (l ++ [a]) = members l ++ [(l.length, a)] := by
  simp [members, List.zipIdx_append]

theorem mem_keys_members {l : List α} {i : ℕ} :
    i ∈ (members l).map Prod.fst ↔ i < l.length := by
  have hkeys : (members l).map Prod.fst = List.range' 0 l.length := by
    rw [members, List.map_map, ← List.zipIdx_map_snd 0 l]
    rfl
  rw [hkeys, List.mem_range'_1]
  omega

theorem upsert_ids [DecidableEq α] {l : List α} {a : α} (h : a ∉ l) (merge : ℕ → ℕ → ℕ) :
    upsert merge a l.length (ids l) = ids (l ++ [a]) := by
  rw [ids_concat, upsert_of_not_mem (by rwa [keys_ids])]

theorem upsert_members (l : List α) (a : α) (merge : α → α → α) :
    upsert merge l.length a (members l) = members (l ++ [a]) := by
  rw [members_concat, upsert_of_not_mem fun h => absurd (mem_keys_members.mp h) (Nat.lt_irrefl _)]

theorem getElem?_concat_iff {l : List α} {a b : α} {i : ℕ} :
    (l ++ [b])[i]? = some a ↔ l[i]? = some a ∨ i = l.length ∧ a = b := by
  rw [List.getElem?_append]
  split_ifs with hlt
  · constructor
    · exact Or.inl
    · rintro (h | ⟨rfl, -⟩)
      · exact h
      · exact absurd hlt (Nat.lt_irrefl _)
  · have hnone : l[i]? = none := List.getElem?_eq_none (Nat.le_of_not_lt hlt)
    rw [hnone, List.getElem?_singleton]
    split_ifs with hi
    · have : i = l.length := by omega
      simp [this, eq_comm]
    · have : i ≠ l.length := by omega
      simp [this]

theorem lookup_members (l : List α) (i : ℕ) : (members l).lookup i = l[i]? := by
  induction l using List.reverseRecOn with
  | nil => rfl
  | append_singleton l b ih =>
    ext a
    rw [← upsert_members l b fun _ a => a, lookup_upsert, getElem?_concat_iff, ih]
    split_ifs with h
    · subst h
      simp [eq_comm]
    · simp [h]

variable [BEq α] [LawfulBEq α]

theorem lookup_ids_iff [DecidableEq α] {l : List α} (hl : l.Nodup) {a : α} {i : ℕ} :
    (ids l).lookup a = some i ↔ (members l).lookup i = some a := by
  rw [lookup_members]
  induction l using List.reverseRecOn with
  | nil => simp [ids]
  | append_singleton l b ih =>
    obtain ⟨hl, -, hdisj⟩ := List.nodup_append'.mp hl
    have hb : b ∉ l := fun h => hdisj h List.mem_cons_self
    rw [← upsert_ids hb fun _ a => a, lookup_upsert]
    rw [getElem?_concat_iff]
    split_ifs with h
    · subst h
      constructor
      · rintro ⟨⟩
        exact Or.inr ⟨rfl, rfl⟩
      · rintro (hi | ⟨rfl, -⟩)
        · exact absurd (List.mem_of_getElem? hi) hb
        · rfl
    · rw [ih hl]
      simp [h]

theorem isSome_lookup_ids [DecidableEq α] {l : List α} (hl : l.Nodup) {a : α} :
    ((ids l).lookup a).isSome ↔ a ∈ l := by
  rw [Option.isSome_iff_exists]
  constructor
  · rintro ⟨i, hi⟩
    rw [lookup_ids_iff hl, lookup_members] at hi
    exact List.mem_of_getElem? hi
  · intro ha
    obtain ⟨i, hi⟩ := List.getElem?_of_mem ha
    exact ⟨i, (lookup_ids_iff hl).mpr ((lookup_members l i).trans hi)⟩

end K8sLearn.Numbering
