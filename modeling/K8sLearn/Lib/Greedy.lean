import Mathlib.Data.List.Induction
import Mathlib.Data.List.Nodup
import Mathlib.Order.Lattice

/-! # Greedy matching

Every item on the left, one after the other, takes the position on the right that is still free
and has the best score, if that is above zero. A position is taken at most once, and what is left
free is no better for any item than what it has.
-/

namespace K8sLearn.Greedy

variable {α ζ β : Type*} [LinearOrder β] [Zero β]

def scoreOf (best : Option (ℕ × β)) : β := best.elim 0 Prod.snd

/-- The first free position of the best score above zero. -/
def bestFree (score : ζ → β) (used : List ℕ) (zs : List ζ) : Option (ℕ × β) :=
  zs.zipIdx.foldl (fun best p =>
    if p.2 ∈ used then best
    else if scoreOf best < score p.1 then some (p.2, score p.1) else best) none

/-- The matching: the positions on the left and on the right, and the score. -/
def pairs (score : α → ζ → β) (zs : List ζ) (es : List α) : List (ℕ × ℕ × β) :=
  es.zipIdx.foldl (fun taken p =>
    match bestFree (score p.1) (taken.map fun q => q.2.1) zs with
    | none => taken
    | some (j, s) => taken ++ [(p.2, j, s)]) []

section Best

variable {score : ζ → β} {used : List ℕ} {zs : List ζ} {z : ζ} {j : ℕ} {s : β}

theorem bestFree_concat (score : ζ → β) (used : List ℕ) (zs : List ζ) (z : ζ) :
    bestFree score used (zs ++ [z]) =
      if zs.length ∈ used then bestFree score used zs
      else if scoreOf (bestFree score used zs) < score z then some (zs.length, score z)
      else bestFree score used zs := by
  rw [bestFree, List.zipIdx_append, List.foldl_append, Nat.zero_add]
  rfl

theorem of_bestFree_eq_some (h : bestFree score used zs = some (j, s)) :
    j ∉ used ∧ 0 < s ∧ ∃ z, zs[j]? = some z ∧ score z = s := by
  induction zs using List.reverseRecOn generalizing j s with
  | nil => cases h
  | append_singleton zs z ih =>
    have hold : bestFree score used zs = some (j, s) →
        j ∉ used ∧ 0 < s ∧ ∃ z', (zs ++ [z])[j]? = some z' ∧ score z' = s := by
      intro h
      obtain ⟨hj, hs, z', hz', hscore⟩ := ih h
      refine ⟨hj, hs, z', ?_, hscore⟩
      rw [List.getElem?_append_left (List.getElem?_eq_some_iff.mp hz').1, hz']
    rw [bestFree_concat] at h
    split_ifs at h with hused hlt
    · exact hold h
    · obtain ⟨rfl, rfl⟩ := Prod.ext_iff.mp (Option.some.inj h)
      refine ⟨hused, lt_of_le_of_lt ?_ hlt, z, by simp, rfl⟩
      cases hbest : bestFree score used zs with
      | none => exact le_rfl
      | some b => exact (ih hbest).2.1.le
    · exact hold h

theorem le_scoreOf_bestFree (hz : zs[j]? = some z) (hj : j ∉ used) :
    score z ≤ scoreOf (bestFree score used zs) := by
  induction zs using List.reverseRecOn generalizing j z with
  | nil => cases hz
  | append_singleton zs z' ih =>
    rw [bestFree_concat]
    rcases lt_or_ge j zs.length with hlt | hge
    · rw [List.getElem?_append_left hlt] at hz
      have hle := ih hz hj
      split_ifs with hused hlt'
      · exact hle
      · exact hle.trans hlt'.le
      · exact hle
    · have hlast : j < (zs ++ [z']).length := (List.getElem?_eq_some_iff.mp hz).1
      obtain rfl : j = zs.length := by
        rw [List.length_append, List.length_singleton] at hlast
        omega
      obtain rfl : z' = z := by simpa using hz
      rw [if_neg hj]
      split_ifs with hlt'
      · exact le_rfl
      · exact not_lt.mp hlt'

end Best

section Pairs

variable {score : α → ζ → β} {zs : List ζ} {es : List α} {e : α} {z : ζ} {i j : ℕ} {s : β}

theorem pairs_concat_of_none
    (h : bestFree (score e) ((pairs score zs es).map fun q => q.2.1) zs = none) :
    pairs score zs (es ++ [e]) = pairs score zs es := by
  simp only [pairs] at h
  simp [pairs, List.zipIdx_append, h]

theorem pairs_concat_of_some
    (h : bestFree (score e) ((pairs score zs es).map fun q => q.2.1) zs = some (j, s)) :
    pairs score zs (es ++ [e]) = pairs score zs es ++ [(es.length, j, s)] := by
  simp only [pairs] at h
  simp [pairs, List.zipIdx_append, h]

theorem of_mem_pairs (h : (i, j, s) ∈ pairs score zs es) :
    0 < s ∧ ∃ e z, es[i]? = some e ∧ zs[j]? = some z ∧ score e z = s := by
  induction es using List.reverseRecOn with
  | nil => cases h
  | append_singleton es e ih =>
    have hold : (i, j, s) ∈ pairs score zs es →
        0 < s ∧ ∃ e' z, (es ++ [e])[i]? = some e' ∧ zs[j]? = some z ∧ score e' z = s := by
      intro h
      obtain ⟨hs, e', z, he', hz, hscore⟩ := ih h
      refine ⟨hs, e', z, ?_, hz, hscore⟩
      rw [List.getElem?_append_left (List.getElem?_eq_some_iff.mp he').1, he']
    cases hbest : bestFree (score e) ((pairs score zs es).map fun q => q.2.1) zs with
    | none =>
      rw [pairs_concat_of_none hbest] at h
      exact hold h
    | some b =>
      obtain ⟨j', s'⟩ := b
      rw [pairs_concat_of_some hbest] at h
      rcases List.mem_append.mp h with h | h
      · exact hold h
      · obtain ⟨rfl, rfl, rfl⟩ : i = es.length ∧ j = j' ∧ s = s' := by simpa using h
        obtain ⟨-, hs, z, hz, hscore⟩ := of_bestFree_eq_some hbest
        exact ⟨hs, e, z, by simp, hz, hscore⟩

theorem nodup_left (score : α → ζ → β) (zs : List ζ) (es : List α) :
    ((pairs score zs es).map Prod.fst).Nodup := by
  induction es using List.reverseRecOn with
  | nil => exact List.nodup_nil
  | append_singleton es e ih =>
    cases hbest : bestFree (score e) ((pairs score zs es).map fun q => q.2.1) zs with
    | none => rwa [pairs_concat_of_none hbest]
    | some b =>
      rw [pairs_concat_of_some hbest, List.map_append, List.map_singleton]
      refine List.nodup_append'.mpr ⟨ih, List.nodup_singleton _, ?_⟩
      rw [List.disjoint_singleton]
      intro hmem
      obtain ⟨⟨i, j, s⟩, hp, hi⟩ := List.mem_map.mp hmem
      obtain ⟨-, e', z, he', -⟩ := of_mem_pairs hp
      have hlt : i < es.length := (List.getElem?_eq_some_iff.mp he').1
      exact absurd hi (ne_of_lt hlt)

theorem nodup_right (score : α → ζ → β) (zs : List ζ) (es : List α) :
    ((pairs score zs es).map fun q => q.2.1).Nodup := by
  induction es using List.reverseRecOn with
  | nil => exact List.nodup_nil
  | append_singleton es e ih =>
    cases hbest : bestFree (score e) ((pairs score zs es).map fun q => q.2.1) zs with
    | none => rwa [pairs_concat_of_none hbest]
    | some b =>
      rw [pairs_concat_of_some hbest, List.map_append, List.map_singleton]
      refine List.nodup_append'.mpr ⟨ih, List.nodup_singleton _, ?_⟩
      rw [List.disjoint_singleton]
      exact (of_bestFree_eq_some hbest).1

theorem le_of_free (he : es[i]? = some e) (hz : zs[j]? = some z)
    (hj : j ∉ (pairs score zs es).map fun q => q.2.1) :
    score e z ≤ 0 ∨ ∃ j' s, (i, j', s) ∈ pairs score zs es ∧ score e z ≤ s := by
  induction es using List.reverseRecOn with
  | nil => cases he
  | append_singleton es e' ih =>
    rcases lt_or_ge i es.length with hlt | hge
    · rw [List.getElem?_append_left hlt] at he
      cases hbest : bestFree (score e') ((pairs score zs es).map fun q => q.2.1) zs with
      | none =>
        rw [pairs_concat_of_none hbest] at hj ⊢
        exact ih he hj
      | some b =>
        rw [pairs_concat_of_some hbest] at hj ⊢
        rw [List.map_append, List.mem_append, not_or] at hj
        rcases ih he hj.1 with h | ⟨j', s, hp, hs⟩
        · exact Or.inl h
        · exact Or.inr ⟨j', s, List.mem_append_left _ hp, hs⟩
    · have hlast : i < (es ++ [e']).length := (List.getElem?_eq_some_iff.mp he).1
      obtain rfl : i = es.length := by
        rw [List.length_append, List.length_singleton] at hlast
        omega
      obtain rfl : e' = e := by simpa using he
      cases hbest : bestFree (score e') ((pairs score zs es).map fun q => q.2.1) zs with
      | none =>
        rw [pairs_concat_of_none hbest] at hj
        have hle : score e' z ≤ _ := le_scoreOf_bestFree hz hj
        rw [hbest] at hle
        exact Or.inl hle
      | some b =>
        rw [pairs_concat_of_some hbest] at hj ⊢
        rw [List.map_append, List.mem_append, not_or] at hj
        have hle : score e' z ≤ _ := le_scoreOf_bestFree hz hj.1
        rw [hbest] at hle
        exact Or.inr ⟨b.1, b.2, by simp, hle⟩

end Pairs

end K8sLearn.Greedy
