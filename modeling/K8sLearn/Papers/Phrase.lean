import K8sLearn.Papers.Score
import K8sLearn.Papers.Dedupe

/-! # Phrases in titles

`ordered_title_match` takes for each token of the query its first occurrence after the one
before it, and compares their number with the span they take up. Where the query is a run of
the title all of them are found, but the span may begin before the run.
-/

namespace K8sLearn.Papers

section Positions

variable {T qs a b : List Str} {q : Str} {c p : ℕ}

theorem matchPositions_cons_of_not_mem (hq : q ∉ T.drop c) :
    matchPositions T (q :: qs) c = matchPositions T qs c := by
  have hnone : (T.drop c).findIdx? (· = q) = none := by
    rw [List.findIdx?_eq_none_iff]
    intro t ht
    exact decide_eq_false (ne_of_mem_of_not_mem ht hq)
  rw [matchPositions, hnone]

theorem matchPositions_cons_of_drop_eq (hT : T.drop c = a ++ q :: b) (hq : q ∉ a) :
    matchPositions T (q :: qs) c =
      (c + a.length) :: matchPositions T qs (c + a.length + 1) := by
  have hsome : (T.drop c).findIdx? (· = q) = some a.length := by
    have hnone : a.findIdx? (· = q) = none := by
      rw [List.findIdx?_eq_none_iff]
      exact fun t ht => decide_eq_false (ne_of_mem_of_not_mem ht hq)
    rw [hT, List.findIdx?_append, hnone]
    simp [List.findIdx?_cons]
  rw [matchPositions, hsome]

theorem matchPositions_eq (hT : T = a ++ q :: b) (hq : q ∉ a) :
    matchPositions T (q :: qs) 0 = a.length :: matchPositions T qs (a.length + 1) := by
  rw [matchPositions_cons_of_drop_eq (c := 0) hT hq, Nat.zero_add]

theorem length_matchPositions_le (T : List Str) (qs : List Str) (c : ℕ) :
    (matchPositions T qs c).length ≤ qs.length := by
  induction qs generalizing c with
  | nil => exact le_rfl
  | cons q qs ih =>
    by_cases hq : q ∈ T.drop c
    · obtain ⟨a, b, hT, hqa⟩ := List.eq_append_cons_of_mem hq
      rw [matchPositions_cons_of_drop_eq hT hqa]
      exact Nat.succ_le_succ (ih _)
    · rw [matchPositions_cons_of_not_mem hq]
      exact (ih c).trans (Nat.le_succ _)

theorem le_of_drop_eq (hT : T.drop c = a ++ q :: b) (hq : q ∉ a) (hcp : c ≤ p)
    (hp : q :: qs <+: T.drop p) : c + a.length ≤ p := by
  by_contra hlt
  have hdrop : T.drop p = a.drop (p - c) ++ q :: b := by
    rw [← List.drop_append_of_le_length (by omega), ← hT, List.drop_drop, Nat.add_sub_cancel' hcp]
  rw [hdrop, List.drop_eq_getElem_cons (by omega : p - c < a.length), List.cons_append,
    List.cons_prefix_cons] at hp
  rw [hp.1] at hq
  exact hq (List.getElem_mem _)

/-- Where the tokens are a run from some place on, a search that starts before it finds all. -/
theorem length_matchPositions (hcp : c ≤ p) (hp : qs <+: T.drop p) :
    (matchPositions T qs c).length = qs.length := by
  induction qs generalizing c p with
  | nil => rfl
  | cons q qs ih =>
    have hmem : q ∈ T.drop c := by
      have hsub : T.drop p ⊆ T.drop c := (List.drop_suffix_drop_left T hcp).subset
      exact hsub (hp.subset List.mem_cons_self)
    obtain ⟨a, b, hT, hq⟩ := List.eq_append_cons_of_mem hmem
    have hle := le_of_drop_eq hT hq hcp hp
    have hp' : qs <+: T.drop (p + 1) := by
      obtain ⟨t, ht⟩ := hp
      rw [← List.tail_drop, ← ht]
      exact ⟨t, rfl⟩
    rw [matchPositions_cons_of_drop_eq hT hq, List.length_cons, List.length_cons,
      ih (Nat.succ_le_succ hle) hp']

/-- The last of the tokens is found no earlier than their number allows, and then only if they
are a run. -/
theorem getLastD_matchPositions (hlen : (matchPositions T qs (p + 1)).length = qs.length) :
    p + qs.length ≤ (matchPositions T qs (p + 1)).getLastD p ∧
      ((matchPositions T qs (p + 1)).getLastD p = p + qs.length ↔ qs <+: T.drop (p + 1)) := by
  induction qs generalizing p with
  | nil => simp [matchPositions]
  | cons q qs ih =>
    by_cases hq : q ∈ T.drop (p + 1)
    · obtain ⟨a, b, hT, hqa⟩ := List.eq_append_cons_of_mem hq
      rw [matchPositions_cons_of_drop_eq hT hqa] at hlen ⊢
      obtain ⟨hle, hiff⟩ := ih (Nat.succ.inj hlen)
      rw [List.getLastD_cons, List.length_cons]
      refine ⟨by omega, ?_⟩
      have hb : T.drop (p + 1 + a.length + 1) = b := by
        rw [Nat.add_assoc, ← List.drop_drop, hT]
        simp [List.drop_append]
      rw [hb] at hiff
      cases a with
      | nil =>
        rw [hT, List.nil_append, List.cons_prefix_cons]
        simp only [List.length_nil, Nat.add_zero] at hiff ⊢
        rw [← hiff]
        rw [true_and]
        omega
      | cons t a =>
        rw [hT, List.cons_append, List.cons_prefix_cons]
        simp only [List.length_cons, List.mem_cons, not_or] at hle hqa ⊢
        constructor
        · intro h
          omega
        · exact fun h => absurd h.1 hqa.1
    · rw [matchPositions_cons_of_not_mem hq] at hlen
      have := length_matchPositions_le T qs (p + 1)
      rw [hlen, List.length_cons] at this
      omega

theorem append_cons_inj_of_not_mem {a a' b b' : List Str} (ha : q ∉ a) (ha' : q ∉ a')
    (h : a ++ q :: b = a' ++ q :: b') : a = a' ∧ b = b' := by
  rcases List.append_eq_append_iff.mp h with ⟨t, rfl, ht⟩ | ⟨t, rfl, ht⟩ <;> cases t with
  | nil => simpa [eq_comm] using ht
  | cons s t =>
    obtain ⟨rfl, -⟩ := List.cons.inj ht
    simp at ha ha'

end Positions

section Phrase

variable {u : Unicode} {query title : Str} {q : Str} {qs a b : List Str}

theorem orderedTitleMatch_eq (hquery : orderedTokens u query = q :: qs) (hqs : qs ≠ [])
    (htitle : orderedTokens u title = a ++ q :: b) (hq : q ∉ a)
    (hlen : (matchPositions (orderedTokens u title) qs (a.length + 1)).length = qs.length) :
    orderedTitleMatch u query title = min 1 (((qs.length + 1 : ℕ) : ℚ) /
      (((matchPositions (orderedTokens u title) qs (a.length + 1)).getLastD a.length -
        a.length + 1 : ℕ) : ℚ)) := by
  have hne : ¬(q :: qs = [] ∨ orderedTokens u title = []) := by
    rw [htitle]
    simp
  simp only [orderedTitleMatch, hquery, if_neg hne, matchPositions_eq htitle hq]
  cases hP : matchPositions (orderedTokens u title) qs (a.length + 1) with
  | nil =>
    rw [hP] at hlen
    exact absurd (List.length_eq_zero_iff.mp hlen.symm) hqs
  | cons second rest =>
    rw [hP, List.length_cons] at hlen
    simp only [List.length_cons, List.getLastD_cons, hlen]
    rw [Nat.max_eq_right (Nat.le_add_left 1 _)]

/-- The tokens are a run at the first occurrence of the first one when the others come after it. -/
theorem exists_run_iff {title a b qs : List Str} {q : Str} (htitle : title = a ++ q :: b)
    (hq : q ∉ a) : (∃ a b, title = a ++ q :: qs ++ b ∧ ∀ t ∈ (q :: qs).head?, t ∉ a) ↔ qs <+: b := by
  constructor
  · rintro ⟨a', b', h, ha'⟩
    rw [htitle, List.append_assoc, List.cons_append] at h
    obtain ⟨-, rfl⟩ := append_cons_inj_of_not_mem hq (ha' q rfl) h
    exact List.prefix_append _ _
  · rintro ⟨t, rfl⟩
    exact ⟨a, t, by rw [htitle]; simp, by simpa using hq⟩

/-- A title that has the query as a phrase gets the full score if the phrase begins where its
first token first occurs, and a lower one otherwise. -/
theorem orderedTitleMatch_eq_one_iff (u : Unicode) {query title : Str}
    (h2 : 2 ≤ (orderedTokens u query).length)
    (hrun : orderedTokens u query <:+: orderedTokens u title) :
    (0 < orderedTitleMatch u query title ∧ orderedTitleMatch u query title ≤ 1) ∧
      (orderedTitleMatch u query title = 1 ↔
        ∃ a b, orderedTokens u title = a ++ orderedTokens u query ++ b ∧
          ∀ t ∈ (orderedTokens u query).head?, t ∉ a) := by
  cases hquery : orderedTokens u query with
  | nil =>
    rw [hquery] at h2
    exact absurd h2 (by simp)
  | cons q qs =>
    rw [hquery] at h2 hrun
    have hqs : qs ≠ [] := by
      rintro rfl
      exact absurd h2 (by simp)
    obtain ⟨a, b, htitle, hq⟩ := List.eq_append_cons_of_mem (hrun.subset List.mem_cons_self)
    obtain ⟨a', b', hab⟩ := hrun
    have hlen : (matchPositions (orderedTokens u title) qs (a.length + 1)).length = qs.length := by
      have hall : (matchPositions (orderedTokens u title) (q :: qs) 0).length = (q :: qs).length :=
        length_matchPositions (p := a'.length) (Nat.zero_le _)
          ⟨b', by rw [← hab, List.append_assoc, List.drop_left]⟩
      rw [matchPositions_eq htitle hq] at hall
      exact Nat.succ.inj hall
    obtain ⟨hle, hiff⟩ := getLastD_matchPositions hlen
    have hb : (orderedTokens u title).drop (a.length + 1) = b := by
      rw [htitle, ← List.drop_drop, List.drop_left]
      rfl
    rw [orderedTitleMatch_eq hquery hqs htitle hq hlen]
    rw [hb] at hiff
    set last := (matchPositions (orderedTokens u title) qs (a.length + 1)).getLastD a.length
    have hspan : (0 : ℚ) < (last - a.length + 1 : ℕ) := by positivity
    refine ⟨⟨lt_min zero_lt_one (by positivity), min_le_left _ _⟩, ?_⟩
    rw [min_eq_left_iff, one_le_div hspan, Nat.cast_le]
    rw [exists_run_iff htitle hq, ← hiff]
    omega

theorem orderedTitleMatch_eq_one_iff_fragment :
    2 ≤ (orderedTokens asciiTables "all you".toList).length ∧
      orderedTitleMatch asciiTables "all you".toList "is all you need".toList = 1 := by
  have h2 : 2 ≤ (orderedTokens asciiTables "all you".toList).length := by decide +kernel
  have hrun : orderedTokens asciiTables "all you".toList <:+:
      orderedTokens asciiTables "is all you need".toList := by decide +kernel
  refine ⟨h2, (orderedTitleMatch_eq_one_iff asciiTables h2 hrun).2.mpr
    ⟨["is".toList], ["need".toList], by decide +kernel, by decide +kernel⟩⟩

/-- `all in all you need` has `all you need`, but the search begins at the first `all`. -/
theorem orderedTitleMatch_phrase_ne_one :
    2 ≤ (orderedTokens asciiTables "all you need".toList).length ∧
      orderedTokens asciiTables "all you need".toList <:+:
        orderedTokens asciiTables "all in all you need".toList ∧
      orderedTitleMatch asciiTables "all you need".toList "all in all you need".toList = 3 / 5 ∧
      orderedTitleMatch asciiTables "all you need".toList "all in all you need".toList ≠ 1 := by
  decide +kernel

end Phrase

end K8sLearn.Papers
