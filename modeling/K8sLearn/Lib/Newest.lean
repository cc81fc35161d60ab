import Mathlib.Data.Finset.Card
import Mathlib.Data.Finset.Sort

/-! # The largest members of a finite set

The `k` largest members of a finite set, described without an order of traversal: those
with fewer than `k` members above them. Cutting to the largest and adding members can be
interleaved in any way.
-/

namespace K8sLearn

variable {α : Type*} [LinearOrder α]

def above (s : Finset α) (a : α) : Finset α := s.filter (a < ·)

/-- The `k` largest members. -/
def newest (k : ℕ) (s : Finset α) : Finset α := s.filter fun a => (above s a).card < k

theorem mem_above {s : Finset α} {a b : α} : b ∈ above s a ↔ b ∈ s ∧ a < b := by
  simp [above]

theorem mem_newest {k : ℕ} {s : Finset α} {a : α} :
    a ∈ newest k s ↔ a ∈ s ∧ (above s a).card < k := by
  simp [newest]

theorem newest_subset (k : ℕ) (s : Finset α) : newest k s ⊆ s := Finset.filter_subset _ _

/-- A member of a smaller set stays among the largest there. -/
theorem mem_newest_of_subset {k : ℕ} {s t : Finset α} (h : s ⊆ t) {a : α} (ha : a ∈ newest k t)
    (has : a ∈ s) : a ∈ newest k s := by
  refine mem_newest.mpr ⟨has, lt_of_le_of_lt (Finset.card_le_card ?_) (mem_newest.mp ha).2⟩
  exact Finset.filter_subset_filter _ h

theorem mem_newest_of_lt {k : ℕ} {s : Finset α} {a b : α} (ha : a ∈ newest k s) (hb : b ∈ s)
    (h : a < b) : b ∈ newest k s := by
  refine mem_newest.mpr ⟨hb, lt_of_le_of_lt (Finset.card_le_card ?_) (mem_newest.mp ha).2⟩
  intro c hc
  obtain ⟨hcs, hbc⟩ := mem_above.mp hc
  exact mem_above.mpr ⟨hcs, h.trans hbc⟩

theorem mem_take_iff_mem_newest [DecidableEq α] {l : List α} (h : l.Pairwise (· > ·)) (k : ℕ)
    (a : α) : a ∈ l.take k ↔ a ∈ newest k l.toFinset := by
  induction l generalizing k with
  | nil => simp [mem_newest]
  | cons b l ih =>
    obtain ⟨hb, hl⟩ := List.pairwise_cons.mp h
    cases k with
    | zero => simp [mem_newest]
    | succ k =>
      rw [List.take_succ_cons, List.mem_cons, ih hl k, mem_newest, mem_newest, List.toFinset_cons,
        Finset.mem_insert, above, above, Finset.filter_insert]
      by_cases hab : a = b
      · subst hab
        have hempty : (l.toFinset.filter (a < ·)) = ∅ :=
          Finset.filter_eq_empty_iff.mpr fun c hc => (hb c (by simpa using hc)).le.not_gt
        simp [hempty]
      · constructor
        · rintro (rfl | ⟨hmem, hcard⟩)
          · exact absurd rfl hab
          · have hlt : a < b := hb a (by simpa using hmem)
            refine ⟨Or.inr hmem, ?_⟩
            rw [if_pos hlt]
            exact lt_of_le_of_lt (Finset.card_insert_le _ _) (by omega)
        · rintro ⟨hmem, hcard⟩
          have hmem' := hmem.resolve_left hab
          have hlt : a < b := hb a (by simpa using hmem')
          have hnot : b ∉ l.toFinset.filter (a < ·) := by
            intro hbl
            have hbl' : b ∈ l := by simpa using (Finset.mem_filter.mp hbl).1
            exact lt_irrefl b (hb b hbl')
          rw [if_pos hlt, Finset.card_insert_of_notMem hnot] at hcard
          exact Or.inr ⟨hmem', by omega⟩

/-- A member to be added is among the largest if few enough are above it already. -/
theorem mem_newest_union_singleton [DecidableEq α] {k : ℕ} {s : Finset α} {a : α} :
    a ∈ newest k (s ∪ {a}) ↔ (above s a).card < k := by
  have habove : above (s ∪ {a}) a = above s a := by
    ext b
    simp only [mem_above, Finset.mem_union, Finset.mem_singleton]
    constructor
    · rintro ⟨hb | rfl, hab⟩
      · exact ⟨hb, hab⟩
      · exact absurd hab (lt_irrefl _)
    · rintro ⟨hb, hab⟩
      exact ⟨Or.inl hb, hab⟩
  rw [mem_newest, habove]
  simp

theorem card_newest (k : ℕ) (s : Finset α) : (newest k s).card = min k s.card := by
  have hsort : (s.sort (· ≥ ·)).Pairwise (· > ·) :=
    ((Finset.pairwise_sort s (· ≥ ·)).and (Finset.sort_nodup s (· ≥ ·))).imp
      fun h => lt_of_le_of_ne h.1 h.2.symm
  have hset : newest k s = ((s.sort (· ≥ ·)).take k).toFinset := by
    ext a
    rw [List.mem_toFinset, mem_take_iff_mem_newest hsort, Finset.sort_toFinset]
  have hnodup : ((s.sort (· ≥ ·)).take k).Nodup :=
    (Finset.sort_nodup s (· ≥ ·)).sublist (List.take_sublist _ _)
  rw [hset, List.toFinset_card_of_nodup hnodup, List.length_take, Finset.length_sort]

theorem newest_newest_union [DecidableEq α] (k : ℕ) (s t : Finset α) :
    newest k (newest k s ∪ t) = newest k (s ∪ t) := by
  have hsub : newest k s ∪ t ⊆ s ∪ t := Finset.union_subset_union_left (newest_subset k s)
  ext a
  constructor
  · intro ha
    refine mem_newest.mpr ⟨hsub (newest_subset _ _ ha), ?_⟩
    by_cases hall : ∀ b ∈ s, a < b → b ∈ newest k s
    · -- nothing above `a` was cut away
      refine lt_of_le_of_lt (Finset.card_le_card ?_) (mem_newest.mp ha).2
      intro b hb
      obtain ⟨hbu, hab⟩ := mem_above.mp hb
      refine mem_above.mpr ⟨?_, hab⟩
      rcases Finset.mem_union.mp hbu with hbs | hbt
      · exact Finset.mem_union_left _ (hall b hbs hab)
      · exact Finset.mem_union_right _ hbt
    · -- a member above `a` was cut away, so `k` members above it remain
      exfalso
      simp only [not_forall] at hall
      obtain ⟨b, hbs, hab, hbn⟩ := hall
      have hbcard : k ≤ (above s b).card :=
        not_lt.mp fun hlt => hbn (mem_newest.mpr ⟨hbs, hlt⟩)
      have hk : k ≤ (newest k s).card := by
        rw [card_newest]
        exact le_min le_rfl (hbcard.trans (Finset.card_le_card (Finset.filter_subset _ _)))
      have habove : newest k s ⊆ above (newest k s ∪ t) a := by
        intro c hc
        refine mem_above.mpr ⟨Finset.mem_union_left _ hc, hab.trans ?_⟩
        rcases lt_trichotomy b c with hbc | rfl | hcb
        · exact hbc
        · exact absurd hc hbn
        · exact absurd (mem_newest_of_lt hc hbs hcb) hbn
      have := (hk.trans (Finset.card_le_card habove)).trans_lt (mem_newest.mp ha).2
      exact lt_irrefl k this
  · intro ha
    apply mem_newest_of_subset hsub ha
    rcases Finset.mem_union.mp (newest_subset _ _ ha) with has | hat
    · exact Finset.mem_union_left _ (mem_newest_of_subset Finset.subset_union_left ha has)
    · exact Finset.mem_union_right _ hat

end K8sLearn
