import Mathlib.Data.Finset.Card
import Mathlib.Data.Finset.Max
import Mathlib.Data.List.Sort
import Mathlib.Order.Lattice
import K8sLearn.Lib.Collect

/-! # The best items by score

Items are filed by key with the best score of each, ranked, and cut at a number of places. An
item is covered when its key is still there with no lower score, or when all places are taken
by items that score no lower. Being covered survives any number of further rounds, so the
rounds together leave what a single cut of all their items would.
-/

namespace K8sLearn.TopK

variable {α κ β : Type*} [DecidableEq κ] [LinearOrder β]

def best (key : α → κ) (score : α → β) (l : List α) : List α :=
  (collect (fun a => some (key a)) (fun v a => if score v < score a then a else v) l).map Prod.snd

def ranked (key : α → κ) (score : α → β) (l : List α) : List α :=
  (best key score l).insertionSort fun a b => score b ≤ score a

def topK (key : α → κ) (score : α → β) (k : ℕ) (l : List α) : List α := (ranked key score l).take k

omit [DecidableEq κ] in
theorem length_le_of_keys {key : α → κ} {l m : List α} (hm : (m.map key).Nodup)
    (h : ∀ a ∈ m, ∃ e ∈ l, key e = key a) : m.length ≤ l.length := by
  have hsub : m.map key ⊆ l.map key := by
    intro x hx
    obtain ⟨a, ha, rfl⟩ := List.mem_map.mp hx
    obtain ⟨e, he, hkey⟩ := h a ha
    exact List.mem_map.mpr ⟨e, he, hkey⟩
  simpa using (List.subperm_of_subset hm hsub).length_le

section Ranked

variable {key : α → κ} {score : α → β} {l : List α} {a : α}

omit [DecidableEq κ] in
theorem best_of_two (score : α → β) (v a : α) :
    (if score v < score a then a else v) = v ∨ (if score v < score a then a else v) = a := by
  split_ifs
  · exact Or.inr rfl
  · exact Or.inl rfl

theorem mem_ranked : a ∈ ranked key score l ↔ a ∈ best key score l :=
  (List.perm_insertionSort _ _).mem_iff

theorem mem_of_mem_ranked (h : a ∈ ranked key score l) : a ∈ l := by
  obtain ⟨e, he, rfl⟩ := List.mem_map.mp (mem_ranked.mp h)
  exact (mem_of_mem_collect (best_of_two score) he).1

theorem nodup_ranked (key : α → κ) (score : α → β) (l : List α) :
    ((ranked key score l).map key).Nodup := by
  rw [ranked, ((List.perm_insertionSort _ _).map key).nodup_iff]
  exact nodup_map_collect (best_of_two score)

theorem exists_mem_ranked (key : α → κ) (score : α → β) (h : a ∈ l) :
    ∃ e ∈ ranked key score l, key e = key a ∧ score a ≤ score e := by
  obtain ⟨v, hv, hle⟩ : ∃ v, (key a, v) ∈ collect (fun a => some (key a))
      (fun v a => if score v < score a then a else v) l ∧ score a ≤ score v := by
    refine collect_exists (R := fun a v => score a ≤ score v) (P := fun _ _ => True)
      (fun _ _ _ _ => trivial) (fun _ _ _ _ _ => trivial) (fun _ _ _ => le_rfl) ?_ ?_ a h _ rfl
    · intro _ v a _ _
      split_ifs with hlt
      · exact le_rfl
      · exact not_lt.mp hlt
    · intro _ v a b _ _ hb
      split_ifs with hlt
      · exact hb.trans hlt.le
      · exact hb
  have hmem := (mem_of_mem_collect (best_of_two score) hv).2
  exact ⟨v, mem_ranked.mpr (List.mem_map_of_mem hv), hmem, hle⟩

theorem pairwise_ranked (key : α → κ) (score : α → β) (l : List α) :
    (ranked key score l).Pairwise fun a b => score b ≤ score a := by
  have : Std.Total fun a b : α => score b ≤ score a := ⟨fun a b => le_total _ _⟩
  have : IsTrans α fun a b => score b ≤ score a := ⟨fun _ _ _ hab hbc => hbc.trans hab⟩
  exact List.pairwise_insertionSort _ _

theorem length_ranked_le (key : α → κ) (score : α → β) (l : List α) :
    (ranked key score l).length ≤ l.length :=
  length_le_of_keys (nodup_ranked key score l) fun a ha => ⟨a, mem_of_mem_ranked ha, rfl⟩

end Ranked

section Cut

variable {key : α → κ} {score : α → β} {l : List α} {k : ℕ} {s : β} {a e : α}

theorem le_of_mem_take_of_mem_drop (ha : a ∈ (ranked key score l).take k)
    (he : e ∈ (ranked key score l).drop k) : score e ≤ score a := by
  have hp := pairwise_ranked key score l
  rw [← List.take_append_drop k (ranked key score l)] at hp
  exact (List.pairwise_append.mp hp).2.2 a ha e he

theorem topK_of_mem_drop (he : e ∈ (ranked key score l).drop k) :
    (topK key score k l).length = k ∧ ∀ a ∈ topK key score k l, score e ≤ score a := by
  have hlen := List.length_pos_of_mem he
  rw [List.length_drop] at hlen
  refine ⟨?_, fun a ha => le_of_mem_take_of_mem_drop ha he⟩
  rw [topK, List.length_take]
  omega

theorem le_score_of_mem_topK {m : List α} (hm : (m.map key).Nodup) (hk : k ≤ m.length)
    (hs : ∀ a ∈ m, s ≤ score a) (hsub : m ⊆ l) : ∀ a ∈ topK key score k l, s ≤ score a := by
  intro a ha
  by_contra hlt
  set high := fun a : α => decide (s ≤ score a) with hhigh
  have hmany : k ≤ ((ranked key score l).filter high).length := by
    refine hk.trans (length_le_of_keys hm fun b hb => ?_)
    obtain ⟨e, he, hkey, hle⟩ := exists_mem_ranked key score (hsub hb)
    exact ⟨e, List.mem_filter.mpr ⟨he, decide_eq_true ((hs b hb).trans hle)⟩, hkey⟩
  have hdrop : ((ranked key score l).drop k).filter high = [] := by
    rw [List.filter_eq_nil_iff]
    intro e he hse
    exact hlt ((of_decide_eq_true hse).trans (le_of_mem_take_of_mem_drop ha he))
  have hfew : ((topK key score k l).filter high).length < (topK key score k l).length :=
    List.length_filter_lt_length_iff_exists.mpr ⟨a, ha, by simpa [hhigh] using hlt⟩
  have hsplit : (ranked key score l).filter high = (topK key score k l).filter high := by
    conv_lhs => rw [← List.take_append_drop k (ranked key score l), List.filter_append, hdrop,
      List.append_nil]
    rfl
  have hlen : (topK key score k l).length ≤ k := List.length_take_le _ _
  rw [hsplit] at hmany
  omega

end Cut

section Covered

variable (key : α → κ) (score : α → β)

/-- The key is there and scores no lower than `s`, or `k` places are taken by items that score
no lower. -/
def Covered (k : ℕ) (s : β) (x : κ) (l : List α) : Prop :=
  (∃ e ∈ l, key e = x ∧ s ≤ score e) ∨ (k ≤ l.length ∧ ∀ e ∈ l, s ≤ score e)

variable {key score} {k : ℕ} {s : β} {x : κ} {l m : List α}

omit [DecidableEq κ] in
theorem Covered.mono {k' : ℕ} (h : Covered key score k s x l) (hk : k' ≤ k) :
    Covered key score k' s x l :=
  h.imp_right fun ⟨hlen, hall⟩ => ⟨hk.trans hlen, hall⟩

theorem covered_topK (k : ℕ) {a : α} (ha : a ∈ l) :
    Covered key score k (score a) (key a) (TopK.topK key score k l) := by
  obtain ⟨e, he, hkey, hle⟩ := exists_mem_ranked key score ha
  rw [← List.take_append_drop k (ranked key score l)] at he
  rcases List.mem_append.mp he with he | he
  · exact Or.inl ⟨e, he, hkey, hle⟩
  · obtain ⟨hlen, hall⟩ := topK_of_mem_drop he
    exact Or.inr ⟨hlen.ge, fun b hb => hle.trans (hall b hb)⟩

theorem Covered.topK (h : Covered key score k s x l) (hl : (l.map key).Nodup) (m : List α) :
    Covered key score k s x (topK key score k (l ++ m)) := by
  rcases h with ⟨a, ha, rfl, hs⟩ | ⟨hk, hs⟩
  · have hcut : Covered key score k (score a) (key a) (TopK.topK key score k (l ++ m)) :=
      covered_topK k (List.mem_append_left m ha)
    rcases hcut with ⟨e, he, hkey, hle⟩ | ⟨hlen, hall⟩
    · exact Or.inl ⟨e, he, hkey, hs.trans hle⟩
    · exact Or.inr ⟨hlen, fun b hb => hs.trans (hall b hb)⟩
  · have hsub : l ⊆ l ++ m := List.subset_append_left l m
    refine Or.inr ⟨?_, le_score_of_mem_topK hl hk hs hsub⟩
    have hlen : l.length ≤ (ranked key score (l ++ m)).length := by
      refine length_le_of_keys hl fun a ha => ?_
      obtain ⟨e, he, hkey, -⟩ := exists_mem_ranked key score (hsub ha)
      exact ⟨e, he, hkey⟩
    rw [TopK.topK, List.length_take]
    omega

theorem exists_mem_topK (hk : l.length ≤ k) {a : α} (ha : a ∈ l) :
    ∃ e ∈ TopK.topK key score k l, key e = key a ∧ score a ≤ score e := by
  obtain ⟨e, he, hkey, hle⟩ := exists_mem_ranked key score ha
  refine ⟨e, ?_, hkey, hle⟩
  rwa [TopK.topK, List.take_of_length_le ((length_ranked_le key score l).trans hk)]

theorem nodup_topK (key : α → κ) (score : α → β) (k : ℕ) (l : List α) :
    ((TopK.topK key score k l).map key).Nodup :=
  (nodup_ranked key score l).sublist ((List.take_sublist _ _).map _)

theorem mem_of_mem_topK {a : α} (h : a ∈ TopK.topK key score k l) : a ∈ l :=
  mem_of_mem_ranked (List.mem_of_mem_take h)

end Covered

section Rounds

variable (key : α → κ) (score : α → β)

def IsBest (all : List α) (d : α) : Prop := ∀ a ∈ all, key a = key d → score a ≤ score d

def DistinctBest (all : List α) : Prop :=
  ∀ a ∈ all, ∀ b ∈ all, IsBest key score all a → IsBest key score all b → key a ≠ key b →
    score a ≠ score b

/-- The `k` keys of highest best score, each once with that score, in falling order. -/
structure IsTop (k : ℕ) (all l : List α) : Prop where
  descending : l.Pairwise fun a b => score b < score a
  distinct : (l.map key).Nodup
  best : ∀ d ∈ l, d ∈ all ∧ IsBest key score all d
  lower : ∀ a ∈ all, key a ∉ l.map key → ∀ d ∈ l, score a < score d
  length : l.length = min k (all.map key).toFinset.card

/-- What rounds over the items `all` have left, the last of them cut at `k` places. -/
structure Remains (k : ℕ) (all l : List α) : Prop where
  covered : ∀ a ∈ all, Covered key score k (score a) (key a) l
  subset : l ⊆ all
  distinct : (l.map key).Nodup
  sorted : l.Pairwise fun a b => score b ≤ score a
  length_le : l.length ≤ k

variable {key score} {k k' : ℕ} {all l : List α}

theorem remains_topK
    (hcovered : ∀ a ∈ all, Covered key score k (score a) (key a) (topK key score k l))
    (hl : l ⊆ all) : Remains key score k all (topK key score k l) where
  covered := hcovered
  subset _ ha := hl (mem_of_mem_topK ha)
  distinct := nodup_topK key score k l
  sorted := (pairwise_ranked key score l).sublist (List.take_sublist _ _)
  length_le := List.length_take_le _ _

/-- A round cut at no more places leaves what the rounds before it leave, over more items. -/
theorem Remains.topK (h : Remains key score k all l) (hk : k' ≤ k) (m : List α) :
    Remains key score k' (all ++ m) (topK key score k' (l ++ m)) := by
  refine remains_topK ?_ (List.append_subset.mpr ⟨fun a ha => List.mem_append_left m (h.subset ha),
    List.subset_append_right all m⟩)
  intro a ha
  rcases List.mem_append.mp ha with ha | ha
  · exact ((h.covered a ha).mono hk).topK h.distinct m
  · exact covered_topK k' (List.mem_append_right l ha)

omit [DecidableEq κ] in
theorem Remains.isBest (h : Remains key score k all l) {d : α} (hd : d ∈ l) :
    IsBest key score all d := by
  intro a ha hkey
  rcases h.covered a ha with ⟨e, he, hke, hle⟩ | ⟨-, hall⟩
  · rwa [List.inj_on_of_nodup_map h.distinct he hd (hke.trans hkey)] at hle
  · exact hall d hd

omit [DecidableEq κ] in
theorem exists_isBest (key : α → κ) (score : α → β) {a : α} (ha : a ∈ all) :
    ∃ b ∈ all, key b = key a ∧ score a ≤ score b ∧ IsBest key score all b := by
  classical
  obtain ⟨b, hb, hmax⟩ := Finset.exists_max_image ((all.filter (key · = key a)).toFinset) score
    ⟨a, by simpa using ha⟩
  have hmem : ∀ c, c ∈ (all.filter (key · = key a)).toFinset ↔ c ∈ all ∧ key c = key a := by simp
  obtain ⟨hball, hkey⟩ := (hmem b).mp hb
  exact ⟨b, hball, hkey, hmax a ((hmem a).mpr ⟨ha, rfl⟩),
    fun c hc hkc => hmax c ((hmem c).mpr ⟨hc, hkc.trans hkey⟩)⟩

/-- Rounds leave what a single cut of all their items would. -/
theorem Remains.isTop (h : Remains key score k all l) (hbest : DistinctBest key score all) :
    IsTop key score k all l where
  descending := by
    have hne : l.Pairwise fun a b => key a ≠ key b := List.pairwise_map.mp h.distinct
    refine (h.sorted.and hne).imp_of_mem fun {a b} ha hb hab => lt_of_le_of_ne hab.1 ?_
    exact (hbest a (h.subset ha) b (h.subset hb) (h.isBest ha) (h.isBest hb) hab.2).symm
  distinct := h.distinct
  best d hd := ⟨h.subset hd, h.isBest hd⟩
  lower a ha hout d hd := by
    obtain ⟨b, hb, hkey, hle, hbb⟩ := exists_isBest key score ha
    have hne : key b ≠ key d := fun hbd => hout (List.mem_map.mpr ⟨d, hd, hbd.symm.trans hkey⟩)
    have hbd : score b ≤ score d := by
      rcases h.covered b hb with ⟨e, he, hke, -⟩ | ⟨-, hall⟩
      · exact absurd (List.mem_map.mpr ⟨e, he, hke.trans hkey⟩) hout
      · exact hall d hd
    exact hle.trans_lt (lt_of_le_of_ne hbd (hbest b hb d (h.subset hd) hbb (h.isBest hd) hne))
  length := by
    have hcard : (l.map key).toFinset.card = l.length := by
      rw [List.toFinset_card_of_nodup h.distinct, List.length_map]
    have hsub : (l.map key).toFinset ⊆ (all.map key).toFinset := by
      intro x hx
      rw [List.mem_toFinset] at hx ⊢
      exact List.map_subset key h.subset hx
    have hle := Finset.card_le_card hsub
    have hk := h.length_le
    by_cases hin : ∀ a ∈ all, key a ∈ l.map key
    · have hsup : (all.map key).toFinset ⊆ (l.map key).toFinset := by
        intro x hx
        obtain ⟨a, ha, rfl⟩ := List.mem_map.mp (List.mem_toFinset.mp hx)
        exact List.mem_toFinset.mpr (hin a ha)
      have hge := Finset.card_le_card hsup
      omega
    · push Not at hin
      obtain ⟨a, ha, hout⟩ := hin
      rcases h.covered a ha with ⟨e, he, hkey, -⟩ | ⟨hlen, -⟩
      · exact absurd (List.mem_map.mpr ⟨e, he, hkey⟩) hout
      · omega

end Rounds

end K8sLearn.TopK
