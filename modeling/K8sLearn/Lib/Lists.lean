import Mathlib.Algebra.GroupWithZero.Nat
import Mathlib.Data.List.Forall2
import Mathlib.Data.List.Flatten
import Mathlib.Data.List.GetD
import Mathlib.Data.List.ReduceOption
import Mathlib.Data.List.Sort
import Mathlib.Order.Lattice
import Mathlib.Order.Monotone.Basic

/-! # Lists of results

Mapping a partial function over a list, and cutting an index range at increasing
positions.
-/

namespace K8sLearn.Lists

variable {α β : Type*}

theorem forall₂_of_mapM {f : α → Option β} {l : List α} {r : List β} (h : l.mapM f = some r) :
    List.Forall₂ (fun a b => f a = some b) l r := by
  induction l generalizing r with
  | nil =>
    obtain rfl : [] = r := by simpa using h
    exact .nil
  | cons a l ih =>
    rw [List.mapM_cons] at h
    obtain ⟨b, hb, h⟩ := Option.bind_eq_some_iff.mp h
    obtain ⟨bs, hbs, h⟩ := Option.bind_eq_some_iff.mp h
    obtain rfl : b :: bs = r := by simpa using h
    exact .cons hb (ih hbs)

theorem mapM_of_forall₂ {f : α → Option β} {l : List α} {r : List β}
    (h : List.Forall₂ (fun a b => f a = some b) l r) : l.mapM f = some r := by
  induction h with
  | nil => rfl
  | cons hab _ ih => simp [List.mapM_cons, hab, ih]

theorem mapM_eq_some_map {f : α → Option β} {k : α → β} {l : List α}
    (h : ∀ a ∈ l, f a = some (k a)) : l.mapM f = some (l.map k) :=
  mapM_of_forall₂ (List.forall₂_map_right_iff.mpr (List.forall₂_same.mpr h))

theorem map_fst_zip_sublist (l : List α) (m : List β) : ((l.zip m).map Prod.fst).Sublist l := by
  induction l generalizing m with
  | nil => exact List.Sublist.refl _
  | cons a l ih =>
    cases m with
    | nil => exact List.nil_sublist _
    | cons b m => exact (ih m).cons_cons a

theorem of_mapM_eq_some {f : α → Option β} {l : List α} {r : List β} (h : l.mapM f = some r) :
    (∀ a ∈ l, ∃ b, f a = some b) ∧ ∀ b ∈ r, ∃ a ∈ l, f a = some b := by
  induction forall₂_of_mapM h with
  | nil => simp
  | @cons a b l r hab hall ih =>
    obtain ⟨hl, hr⟩ := ih (mapM_of_forall₂ hall)
    constructor
    · rw [List.forall_mem_cons]
      exact ⟨⟨b, hab⟩, hl⟩
    · rw [List.forall_mem_cons]
      refine ⟨⟨a, List.mem_cons_self, hab⟩, fun b' hb' => ?_⟩
      obtain ⟨a', ha', h'⟩ := hr b' hb'
      exact ⟨a', List.mem_cons_of_mem _ ha', h'⟩

theorem mapM_map_eq {γ : Type*} (f : α → Option β) (g : β → γ) (l : List α) :
    (l.mapM fun a => (f a).map g) = (l.mapM f).map (List.map g) := by
  induction l with
  | nil => rfl
  | cons a l ih =>
    simp only [List.mapM_cons, ih]
    cases f a with
    | none => rfl
    | some b => cases l.mapM f <;> rfl

theorem exists_mapM {f : α → Option β} {l : List α} (h : ∀ a ∈ l, ∃ b, f a = some b) :
    ∃ r, l.mapM f = some r := by
  induction l with
  | nil => exact ⟨[], rfl⟩
  | cons a l ih =>
    obtain ⟨b, hb⟩ := h a (by simp)
    obtain ⟨bs, hbs⟩ := ih fun a' ha' => h a' (by simp [ha'])
    exact ⟨b :: bs, by simp [List.mapM_cons, hb, hbs]⟩

theorem exists_mapM_of_forall₂ {γ : Type*} {f : α → Option β} {R : β → γ → Prop} {l : List α}
    {m : List γ} (h : List.Forall₂ (fun a c => ∃ b, f a = some b ∧ R b c) l m) :
    ∃ r, l.mapM f = some r ∧ List.Forall₂ R r m := by
  induction h with
  | nil => exact ⟨[], rfl, .nil⟩
  | cons hac _ ih =>
    obtain ⟨b, hb, hR⟩ := hac
    obtain ⟨bs, hbs, hRs⟩ := ih
    exact ⟨b :: bs, by simp [List.mapM_cons, hb, hbs], .cons hR hRs⟩

section CollectM

variable {ε α β : Type} {f : α → Except ε (Option β)} {a : α} {l l' : List α}

/-- A loop that may raise and that keeps a result of some of its rounds. -/
def collectM (f : α → Except ε (Option β)) (l : List α) : Except ε (List β) :=
  (l.mapM f).map List.reduceOption

theorem collectM_cons {o : Option β} (h : f a = .ok o) :
    collectM f (a :: l) = (collectM f l).map fun r => o.toList ++ r := by
  simp only [collectM, List.mapM_cons, h]
  cases l.mapM f with
  | error e => rfl
  | ok r => cases o <;> rfl

theorem collectM_cons_of_error {e : ε} (h : f a = .error e) : collectM f (a :: l) = .error e := by
  simp only [collectM, List.mapM_cons, h]
  rfl

/-- A loop that ends raises in no round, and what it keeps is the result of one. -/
theorem of_collectM_eq_ok {r : List β} (h : collectM f l = .ok r) :
    (∀ a ∈ l, ∃ o, f a = .ok o) ∧ ∀ b ∈ r, ∃ a ∈ l, f a = .ok (some b) := by
  induction l generalizing r with
  | nil =>
    obtain rfl : [] = r := Except.ok.inj h
    simp
  | cons a l ih =>
    cases ha : f a with
    | error e =>
      rw [collectM_cons_of_error ha] at h
      cases h
    | ok o =>
      rw [collectM_cons ha] at h
      cases hl : collectM f l with
      | error e =>
        rw [hl] at h
        cases h
      | ok r' =>
        rw [hl] at h
        obtain rfl : o.toList ++ r' = r := Except.ok.inj h
        obtain ⟨hall, hkept⟩ := ih hl
        constructor
        · intro b hb
          rcases List.mem_cons.mp hb with rfl | hb
          · exact ⟨o, ha⟩
          · exact hall b hb
        · intro b hb
          rcases List.mem_append.mp hb with hb | hb
          · exact ⟨a, List.mem_cons_self, by rw [ha, Option.mem_toList.mp hb]⟩
          · obtain ⟨a', ha', hf⟩ := hkept b hb
            exact ⟨a', List.mem_cons_of_mem _ ha', hf⟩

theorem collectM_append_of_none (h : ∀ a ∈ l, f a = .ok none) :
    collectM f (l ++ l') = collectM f l' := by
  induction l with
  | nil => rfl
  | cons a l ih =>
    rw [List.cons_append, collectM_cons (h a List.mem_cons_self),
      ih fun a ha => h a (List.mem_cons_of_mem _ ha)]
    cases collectM f l' <;> rfl

theorem collectM_map {γ : Type} {e : γ → α} {r : γ → β} {l : List γ}
    (h : ∀ a ∈ l, f (e a) = .ok (some (r a))) : collectM f (l.map e) = .ok (l.map r) := by
  induction l with
  | nil => rfl
  | cons a l ih =>
    rw [List.map_cons, collectM_cons (h a List.mem_cons_self),
      ih fun a ha => h a (List.mem_cons_of_mem _ ha)]
    rfl

end CollectM

theorem getLastD_suffix_intercalate (x : List α) (l : List (List α)) :
    l.getLastD [] <:+ x.intercalate l := by
  induction l with
  | nil => exact List.suffix_rfl
  | cons a l ih =>
    cases l with
    | nil => simp
    | cons b l =>
      have hlast : (a :: b :: l).getLastD [] = (b :: l).getLastD [] := by simp
      rw [List.intercalate_cons_cons, hlast]
      exact ih.trans (List.suffix_append _ _)

/-- Cutting a range at increasing positions and joining the pieces gives the range back. -/
theorem flatMap_range_cuts {s : ℕ → ℕ} (h0 : s 0 = 0) (hs : Monotone s) (n : ℕ) :
    ((List.range n).flatMap fun t => (List.range (s (t + 1) - s t)).map (s t + ·)) =
      List.range (s n) := by
  induction n with
  | zero => simp [h0]
  | succ n ih =>
    have hn : s n + (s (n + 1) - s n) = s (n + 1) := Nat.add_sub_cancel' (hs (Nat.le_succ n))
    rw [List.range_succ, List.flatMap_append, ih, List.flatMap_singleton, ← hn, List.range_add,
      Nat.add_sub_cancel_left]

theorem sum_map_cuts {s : ℕ → ℕ} (h0 : s 0 = 0) (hs : Monotone s) (n : ℕ) :
    ((List.range n).map fun t => s (t + 1) - s t).sum = s n := by
  simpa [List.length_flatMap] using congrArg List.length (flatMap_range_cuts h0 hs n)

/-- Two nested loops run through the quotients and remainders of one. -/
theorem flatMap_range_range (f : ℕ → ℕ → α) (m n : ℕ) :
    ((List.range m).flatMap fun g => (List.range n).map (f g)) =
      (List.range (m * n)).map fun i => f (i / n) (i % n) := by
  induction m with
  | zero => simp
  | succ m ih =>
    rw [List.range_succ, List.flatMap_append, ih, List.flatMap_singleton, Nat.succ_mul,
      List.range_add, List.map_append, List.map_map]
    congr 1
    apply List.map_congr_left
    intro u hu
    have hlt := List.mem_range.mp hu
    have hdiv : (m * n + u) / n = m := by
      rw [Nat.mul_comm, Nat.mul_add_div (Nat.zero_lt_of_lt hlt), Nat.div_eq_of_lt hlt, Nat.add_zero]
    have hmod : (m * n + u) % n = u := by
      rw [Nat.mul_comm, Nat.mul_add_mod, Nat.mod_eq_of_lt hlt]
    rw [Function.comp_apply, hdiv, hmod]

theorem getD_flatMap_range {m n i j : ℕ} (hi : i < m) (hj : j < n) (f : ℕ → ℕ → α) (d : α) :
    ((List.range m).flatMap fun i => (List.range n).map (f i)).getD (i * n + j) d = f i j := by
  induction m with
  | zero => exact absurd hi (Nat.not_lt_zero i)
  | succ m ih =>
    have hlen : ((List.range m).flatMap fun i => (List.range n).map (f i)).length = m * n := by
      simp
    rw [List.range_succ, List.flatMap_append]
    rcases Nat.lt_succ_iff_lt_or_eq.mp hi with hi | rfl
    · have hlt : i * n + j < m * n := by
        calc i * n + j < (i + 1) * n := by rw [Nat.succ_mul]; omega
          _ ≤ m * n := Nat.mul_le_mul_right n hi
      rw [List.getD_append _ _ _ _ (hlen ▸ hlt), ih hi]
    · rw [List.getD_append_right _ _ _ _ (by rw [hlen]; omega), hlen, Nat.add_sub_cancel_left]
      simp [List.getD, hj]

theorem forall₂_trans {γ : Type*} {R : α → β → Prop} {S : β → γ → Prop} {T : α → γ → Prop}
    (h : ∀ a b c, R a b → S b c → T a c) {l : List α} {m : List β} {n : List γ}
    (hlm : List.Forall₂ R l m) (hmn : List.Forall₂ S m n) : List.Forall₂ T l n := by
  induction hlm generalizing n with
  | nil =>
    cases hmn
    exact .nil
  | cons hab _ ih =>
    cases hmn with
    | cons hbc hmn => exact .cons (h _ _ _ hab hbc) (ih hmn)

theorem exists_mem_of_forall₂ {P : α → β → Prop} {l : List α} {r : List β}
    (h : List.Forall₂ P l r) : (∀ b ∈ r, ∃ a ∈ l, P a b) ∧ ∀ a ∈ l, ∃ b ∈ r, P a b := by
  induction h with
  | nil => simp
  | @cons a b l r hab _ ih =>
    constructor
    · rintro b' (_ | ⟨_, hb'⟩)
      · exact ⟨a, by simp, hab⟩
      · obtain ⟨a', ha', h'⟩ := ih.1 b' hb'
        exact ⟨a', by simp [ha'], h'⟩
    · rintro a' (_ | ⟨_, ha'⟩)
      · exact ⟨b, by simp, hab⟩
      · obtain ⟨b', hb', h'⟩ := ih.2 a' ha'
        exact ⟨b', by simp [hb'], h'⟩

theorem flatMap_eq_of_forall₂ {γ : Type*} {f : α → List γ} {g : β → List γ} {l : List α}
    {r : List β} (h : List.Forall₂ (fun a b => f a = g b) l r) : l.flatMap f = r.flatMap g := by
  induction h with
  | nil => rfl
  | cons hab _ ih => rw [List.flatMap_cons, List.flatMap_cons, hab, ih]

theorem getLast?_rel {R : α → β → Prop} {l : List α} {m : List β} (h : List.Forall₂ R l m) :
    Option.Rel R l.getLast? m.getLast? := by
  induction h with
  | nil => exact .none
  | @cons a b l m hab h ih =>
    cases h with
    | nil => exact .some hab
    | cons => simpa using ih

/-- Sorting keeps two lists related that their orders cannot tell apart. -/
theorem forall₂_insertionSort {r : α → α → Prop} {s : β → β → Prop} [DecidableRel r]
    [DecidableRel s] {R : α → β → Prop} (hrs : ∀ a b a' b', R a b → R a' b' → (r a a' ↔ s b b'))
    {l : List α} {m : List β} (h : List.Forall₂ R l m) :
    List.Forall₂ R (l.insertionSort r) (m.insertionSort s) := by
  induction h with
  | nil => exact .nil
  | @cons a b l m hab _ ih =>
    rw [List.insertionSort_cons, List.insertionSort_cons]
    generalize l.insertionSort r = l' at ih
    generalize m.insertionSort s = m' at ih
    induction ih with
    | nil => exact .cons hab .nil
    | @cons a' b' l' m' hab' hl' ih =>
      simp only [List.orderedInsert_cons, hrs a b a' b' hab hab']
      split_ifs
      · exact .cons hab (.cons hab' hl')
      · exact .cons hab' ih

/-- A list sorted by a key is the part below a bound followed by the rest. -/
theorem filter_lt_append_filter_le [LinearOrder β] {f : α → β} {l : List α}
    (h : l.Pairwise fun x y => f x ≤ f y) (b : β) :
    (l.filter fun x => f x < b) ++ (l.filter fun x => b ≤ f x) = l := by
  induction l with
  | nil => rfl
  | cons x l ih =>
    obtain ⟨hx, hl⟩ := List.pairwise_cons.mp h
    rcases lt_or_ge (f x) b with hb | hb
    · simp [hb, not_le.mpr hb, ih hl]
    · have hall : ∀ y ∈ l, b ≤ f y := fun y hy => hb.trans (hx y hy)
      have h₁ : (l.filter fun y => f y < b) = [] := by
        simpa [List.filter_eq_nil_iff] using hall
      have h₂ : (l.filter fun y => b ≤ f y) = l := by
        simpa [List.filter_eq_self] using hall
      simp [hb, not_lt.mpr hb, h₁, h₂]

theorem all_zip_tail_iff [DecidableEq β] (f : α → β) (a : α) (l : List α) :
    (((a :: l).zip l).all fun p => f p.1 == f p.2) = true ↔ ∀ x ∈ l, f x = f a := by
  induction l generalizing a with
  | nil => simp
  | cons b l ih =>
    rw [List.zip_cons_cons, List.all_cons, Bool.and_eq_true, ih b, beq_iff_eq]
    constructor
    · rintro ⟨hab, hl⟩ x (_ | ⟨_, hx⟩)
      · exact hab.symm
      · exact (hl x hx).trans hab.symm
    · intro h
      have hb : f b = f a := h b (by simp)
      exact ⟨hb.symm, fun x hx => (h x (by simp [hx])).trans hb.symm⟩

theorem nodup_map_flatMap {κ γ : Type*} {l : List α} {f : α → List β} {key : β → κ} {g : α → γ}
    (origin : κ → γ) (hl : (l.map g).Nodup) (hf : ∀ a ∈ l, ((f a).map key).Nodup)
    (ho : ∀ a ∈ l, ∀ b ∈ f a, origin (key b) = g a) : ((l.flatMap f).map key).Nodup := by
  rw [List.map_flatMap, List.nodup_flatMap]
  refine ⟨hf, (List.pairwise_map.mp hl).imp_of_mem ?_⟩
  intro a a' ha ha' hne k hk hk'
  obtain ⟨b, hb, rfl⟩ := List.mem_map.mp hk
  obtain ⟨b', hb', heq⟩ := List.mem_map.mp hk'
  exact hne (by rw [← ho a ha b hb, ← ho a' ha' b' hb', heq])

theorem length_eq_iff_subset {l m : List α} (hl : l.Nodup) (hm : m.Nodup) (h : l ⊆ m) :
    l.length = m.length ↔ m ⊆ l :=
  ⟨fun hlen => ((List.subperm_of_subset hl h).perm_of_length_le hlen.ge).symm.subset,
    fun h' => le_antisymm (List.subperm_of_subset hl h).length_le
      (List.subperm_of_subset hm h').length_le⟩

theorem eq_of_filterMap_nodup {key : α → Option β} {l : List α} (h : (l.filterMap key).Nodup)
    {a a' : α} {k : β} (ha : a ∈ l) (ha' : a' ∈ l) (hk : key a = some k) (hk' : key a' = some k) :
    a = a' := by
  induction l with
  | nil => cases ha
  | cons b l ih =>
    have htail : (l.filterMap key).Nodup :=
      h.sublist ((List.sublist_cons_self b l).filterMap key)
    have hhead : ∀ c ∈ l, key b = some k → key c = some k → False := by
      intro c hc hb hck
      rw [List.filterMap_cons_some hb] at h
      exact (List.nodup_cons.mp h).1 (List.mem_filterMap.mpr ⟨c, hc, hck⟩)
    rcases List.mem_cons.mp ha with rfl | hmem
    · rcases List.mem_cons.mp ha' with rfl | hmem'
      · rfl
      · exact (hhead a' hmem' hk hk').elim
    · rcases List.mem_cons.mp ha' with rfl | hmem'
      · exact (hhead a hmem hk' hk).elim
      · exact ih htail hmem hmem'

theorem find?_reverse_of_nodup [DecidableEq β] {key : α → Option β} {l : List α}
    (h : (l.filterMap key).Nodup) {a : α} {k : β} (ha : a ∈ l) (hk : key a = some k) :
    l.reverse.find? (fun b => key b = some k) = some a := by
  cases hfind : l.reverse.find? (fun b => key b = some k) with
  | none =>
    have hnot := List.find?_eq_none.mp hfind a (List.mem_reverse.mpr ha)
    exact absurd (decide_eq_true hk) hnot
  | some b =>
    have hb := List.mem_reverse.mp (List.mem_of_find?_eq_some hfind)
    have hbk : key b = some k := by simpa using List.find?_some hfind
    rw [eq_of_filterMap_nodup h hb ha hbk hk]

section Pairs

variable {l : List α} {a b : α}

def pairs : List α → List (α × α)
  | [] => []
  | a :: l => l.map (fun b => (a, b)) ++ pairs l

theorem mem_of_mem_pairs (h : (a, b) ∈ pairs l) : a ∈ l ∧ b ∈ l := by
  induction l with
  | nil => cases h
  | cons c l ih =>
    rcases List.mem_append.mp h with h | h
    · obtain ⟨d, hd, heq⟩ := List.mem_map.mp h
      obtain ⟨rfl, rfl⟩ := Prod.mk.inj heq
      exact ⟨List.mem_cons_self, List.mem_cons_of_mem _ hd⟩
    · exact ⟨List.mem_cons_of_mem _ (ih h).1, List.mem_cons_of_mem _ (ih h).2⟩

theorem ne_of_mem_pairs (hl : l.Nodup) (h : (a, b) ∈ pairs l) : a ≠ b := by
  induction l with
  | nil => cases h
  | cons c l ih =>
    obtain ⟨hc, hl⟩ := List.nodup_cons.mp hl
    rcases List.mem_append.mp h with h | h
    · obtain ⟨d, hd, heq⟩ := List.mem_map.mp h
      obtain ⟨rfl, rfl⟩ := Prod.mk.inj heq
      rintro rfl
      exact hc hd
    · exact ih hl h

theorem mem_pairs_or (ha : a ∈ l) (hb : b ∈ l) (hne : a ≠ b) :
    (a, b) ∈ pairs l ∨ (b, a) ∈ pairs l := by
  induction l with
  | nil => cases ha
  | cons c l ih =>
    simp only [pairs, List.mem_append]
    rcases List.mem_cons.mp ha with rfl | ha'
    · have hb' := (List.mem_cons.mp hb).resolve_left hne.symm
      exact Or.inl (Or.inl (List.mem_map_of_mem hb'))
    · rcases List.mem_cons.mp hb with rfl | hb'
      · exact Or.inr (Or.inl (List.mem_map_of_mem ha'))
      · exact (ih ha' hb').imp Or.inr Or.inr

theorem length_pairs_le (l : List α) : (pairs l).length ≤ l.length * l.length := by
  induction l with
  | nil => exact Nat.le_refl 0
  | cons a l ih =>
    rw [pairs, List.length_append, List.length_map, List.length_cons, Nat.succ_mul, Nat.mul_succ]
    omega

end Pairs

end K8sLearn.Lists
