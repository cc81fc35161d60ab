import Mathlib.Data.List.Induction
import Mathlib.Data.List.Nodup

/-! # Collecting into a dictionary

A loop that files every item under its key and merges it into the entry already there.
Items without a key are passed over, and an entry keeps its place. What all items of a key
have and merging keeps, the entry has; what merging never loses, the entry keeps of every
item filed under it.
-/

namespace K8sLearn

variable {α κ : Type*} [DecidableEq κ]

/-- File an item under a key, merging it into the entry that is there. -/
def upsert (merge : α → α → α) (k : κ) (a : α) : List (κ × α) → List (κ × α)
  | [] => [(k, a)]
  | (k', v) :: d => if k' = k then (k', merge v a) :: d else (k', v) :: upsert merge k a d

def collectStep (key : α → Option κ) (merge : α → α → α) (d : List (κ × α)) (a : α) :
    List (κ × α) :=
  match key a with
  | none => d
  | some k => upsert merge k a d

def collect (key : α → Option κ) (merge : α → α → α) (l : List α) : List (κ × α) :=
  l.foldl (collectStep key merge) []

theorem lookup_of_nodup {κ γ : Type*} [BEq κ] [LawfulBEq κ] (key : γ → κ) (val : γ → α)
    {l : List γ} (hl : (l.map key).Nodup) {a : γ} (ha : a ∈ l) :
    (l.map fun g => (key g, val g)).lookup (key a) = some (val a) := by
  induction l with
  | nil => cases ha
  | cons b l ih =>
    obtain ⟨hb, hl⟩ := List.nodup_cons.mp hl
    rw [List.map_cons, List.lookup_cons]
    rcases List.mem_cons.mp ha with rfl | ha
    · simp
    · have hne : key a ≠ key b := fun h => hb (h ▸ List.mem_map_of_mem ha)
      rw [beq_eq_false_iff_ne.mpr hne]
      exact ih hl ha

section Upsert

variable {merge : α → α → α} {k : κ} {a : α} {d : List (κ × α)}

theorem mem_upsert {e : κ × α} (h : e ∈ upsert merge k a d) :
    e ∈ d ∨ e = (k, a) ∨ ∃ v, (k, v) ∈ d ∧ e = (k, merge v a) := by
  induction d with
  | nil => exact Or.inr (Or.inl (List.mem_singleton.mp h))
  | cons e' d ih =>
    obtain ⟨k', v⟩ := e'
    simp only [upsert] at h
    split_ifs at h with hk
    · subst hk
      rcases List.mem_cons.mp h with rfl | h
      · exact Or.inr (Or.inr ⟨v, List.mem_cons_self, rfl⟩)
      · exact Or.inl (List.mem_cons_of_mem _ h)
    · rcases List.mem_cons.mp h with rfl | h
      · exact Or.inl List.mem_cons_self
      · rcases ih h with h | h | ⟨v', hv', h⟩
        · exact Or.inl (List.mem_cons_of_mem _ h)
        · exact Or.inr (Or.inl h)
        · exact Or.inr (Or.inr ⟨v', List.mem_cons_of_mem _ hv', h⟩)

theorem exists_mem_upsert (merge : α → α → α) (k : κ) (a : α) (d : List (κ × α)) :
    (k, a) ∈ upsert merge k a d ∨ ∃ v, (k, v) ∈ d ∧ (k, merge v a) ∈ upsert merge k a d := by
  induction d with
  | nil => exact Or.inl List.mem_cons_self
  | cons e' d ih =>
    obtain ⟨k', v⟩ := e'
    simp only [upsert]
    split_ifs with hk
    · subst hk
      exact Or.inr ⟨v, List.mem_cons_self, List.mem_cons_self⟩
    · rcases ih with h | ⟨v', hv', h⟩
      · exact Or.inl (List.mem_cons_of_mem _ h)
      · exact Or.inr ⟨v', List.mem_cons_of_mem _ hv', List.mem_cons_of_mem _ h⟩

theorem mem_upsert_of_mem (merge : α → α → α) (k : κ) (a : α) {e : κ × α} (h : e ∈ d) :
    e ∈ upsert merge k a d ∨ e.1 = k ∧ (k, merge e.2 a) ∈ upsert merge k a d := by
  induction d with
  | nil => exact absurd h List.not_mem_nil
  | cons e' d ih =>
    obtain ⟨k', v⟩ := e'
    simp only [upsert]
    split_ifs with hk
    · subst hk
      rcases List.mem_cons.mp h with rfl | h
      · exact Or.inr ⟨rfl, List.mem_cons_self⟩
      · exact Or.inl (List.mem_cons_of_mem _ h)
    · rcases List.mem_cons.mp h with rfl | h
      · exact Or.inl List.mem_cons_self
      · rcases ih h with h | ⟨h₁, h₂⟩
        · exact Or.inl (List.mem_cons_of_mem _ h)
        · exact Or.inr ⟨h₁, List.mem_cons_of_mem _ h₂⟩

theorem mem_keys_upsert {k' : κ} :
    k' ∈ (upsert merge k a d).map Prod.fst ↔ k' = k ∨ k' ∈ d.map Prod.fst := by
  induction d with
  | nil => simp [upsert]
  | cons e d ih =>
    obtain ⟨j, v⟩ := e
    rw [upsert]
    split_ifs with hj
    · subst hj
      simp
    · rw [List.map_cons, List.mem_cons, ih, List.map_cons, List.mem_cons]
      tauto

theorem length_upsert_le (merge : α → α → α) (k : κ) (a : α) (d : List (κ × α)) :
    (upsert merge k a d).length ≤ d.length + 1 := by
  induction d with
  | nil => exact Nat.le_refl _
  | cons e d ih =>
    rw [upsert]
    split_ifs
    · exact Nat.le_succ _
    · exact Nat.succ_le_succ ih

theorem nodup_keys_upsert (h : (d.map Prod.fst).Nodup) :
    ((upsert merge k a d).map Prod.fst).Nodup := by
  induction d with
  | nil => simp [upsert]
  | cons e' d ih =>
    obtain ⟨k', v⟩ := e'
    obtain ⟨hnot, hd⟩ := List.nodup_cons.mp h
    simp only [upsert]
    split_ifs with hk
    · exact List.nodup_cons.mpr ⟨hnot, hd⟩
    · refine List.nodup_cons.mpr ⟨fun hm => ?_, ih hd⟩
      rcases mem_keys_upsert.mp hm with h' | h'
      · exact hk h'
      · exact hnot h'

theorem mem_upsert_iff (h : (d.map Prod.fst).Nodup) {e : κ × α} :
    e ∈ upsert merge k a d ↔ e.1 ≠ k ∧ e ∈ d ∨ e.1 = k ∧
      ((∃ v, (k, v) ∈ d ∧ e.2 = merge v a) ∨ k ∉ d.map Prod.fst ∧ e.2 = a) := by
  obtain ⟨j, w⟩ := e
  induction d with
  | nil => simp [upsert]
  | cons e' d ih =>
    obtain ⟨k', v'⟩ := e'
    obtain ⟨hnot, hd⟩ := List.nodup_cons.mp h
    have hother : ∀ v, (k', v) ∉ d :=
      fun v hv => hnot (List.mem_map.mpr ⟨(k', v), hv, rfl⟩)
    rw [upsert]
    split_ifs with hk
    · subst hk
      simp only [List.mem_cons, Prod.mk.injEq, List.map_cons, ne_eq]
      constructor
      · rintro (⟨rfl, rfl⟩ | hmem)
        · exact Or.inr ⟨rfl, Or.inl ⟨v', Or.inl ⟨trivial, rfl⟩, rfl⟩⟩
        · refine Or.inl ⟨?_, Or.inr hmem⟩
          rintro rfl
          exact hother w hmem
      · rintro (⟨hne, ⟨rfl, rfl⟩ | hmem⟩ | ⟨rfl, ⟨v, ⟨-, rfl⟩ | hmem, rfl⟩ | ⟨hno, -⟩⟩)
        · exact absurd rfl hne
        · exact Or.inr hmem
        · exact Or.inl ⟨rfl, rfl⟩
        · exact absurd hmem (hother v)
        · exact absurd (Or.inl trivial) hno
    · rw [List.mem_cons, ih hd]
      simp only [List.mem_cons, Prod.mk.injEq, List.map_cons, ne_eq, Ne.symm hk, false_and,
        false_or]
      constructor
      · rintro (⟨rfl, rfl⟩ | ⟨hne, hmem⟩ | h)
        · exact Or.inl ⟨hk, Or.inl ⟨rfl, rfl⟩⟩
        · exact Or.inl ⟨hne, Or.inr hmem⟩
        · exact Or.inr h
      · rintro (⟨hne, hmem | hmem⟩ | h)
        · exact Or.inl hmem
        · exact Or.inr (Or.inl ⟨hne, hmem⟩)
        · exact Or.inr (Or.inr h)

theorem upsert_of_not_mem (h : k ∉ d.map Prod.fst) : upsert merge k a d = d ++ [(k, a)] := by
  induction d with
  | nil => rfl
  | cons e d ih =>
    obtain ⟨k', v⟩ := e
    simp only [List.map_cons, List.mem_cons, not_or] at h
    rw [upsert, if_neg (Ne.symm h.1), ih h.2]
    rfl

theorem lookup_upsert [BEq κ] [LawfulBEq κ] (k k' : κ) (a : α) (d : List (κ × α)) :
    (upsert (fun _ a => a) k a d).lookup k' = if k' = k then some a else d.lookup k' := by
  have hcons : ∀ (l : List (κ × α)) (k'' : κ) (v : α),
      ((k'', v) :: l).lookup k' = if k' = k'' then some v else l.lookup k' := by
    intro l k'' v
    by_cases h : k' = k''
    · simp [h]
    · rw [List.lookup_cons, beq_eq_false_iff_ne.mpr h, if_neg h]
  induction d with
  | nil => exact hcons [] k a
  | cons e d ih =>
    obtain ⟨k'', v⟩ := e
    by_cases hk : k'' = k
    · subst hk
      rw [upsert, if_pos rfl, hcons, hcons]
      by_cases h : k' = k'' <;> simp [h]
    · rw [upsert, if_neg hk, hcons, hcons, ih]
      by_cases h : k' = k''
      · subst h
        simp [hk]
      · simp [h]

theorem foldl_upsert {γ : Type*} {key : γ → κ} {val : γ → α} {l : List γ}
    (h : (d.map Prod.fst ++ l.map key).Nodup) :
    l.foldl (fun d a => upsert merge (key a) (val a) d) d = d ++ l.map fun a => (key a, val a) := by
  induction l generalizing d with
  | nil => simp
  | cons a l ih =>
    have hnot : key a ∉ d.map Prod.fst := by
      intro hm
      have hdisj := (List.nodup_append'.mp h).2.2
      exact hdisj hm (by simp)
    rw [List.foldl_cons, upsert_of_not_mem hnot, ih (by simpa using h)]
    simp

theorem mem_keys_foldl_upsert {γ : Type*} {key : γ → κ} {val : γ → α} {l : List γ} :
    k ∈ (l.foldl (fun d a => upsert merge (key a) (val a) d) d).map Prod.fst ↔
      k ∈ d.map Prod.fst ∨ k ∈ l.map key := by
  induction l generalizing d with
  | nil => simp
  | cons a l ih =>
    rw [List.foldl_cons, ih, mem_keys_upsert, List.map_cons, List.mem_cons]
    tauto

end Upsert

section Collect

variable {key : α → Option κ} {merge : α → α → α} {P : κ → α → Prop} {l : List α}

theorem nodup_keys_collect (key : α → Option κ) (merge : α → α → α) (l : List α) :
    ((collect key merge l).map Prod.fst).Nodup := by
  unfold collect
  induction l using List.reverseRecOn with
  | nil => exact List.nodup_nil
  | append_singleton l a ih =>
    rw [List.foldl_append, List.foldl_cons, List.foldl_nil]
    cases hk : key a with
    | none => simpa only [collectStep, hk] using ih
    | some k => simpa only [collectStep, hk] using nodup_keys_upsert ih

theorem eq_of_mem_collect {k : κ} {v v' : α} (h : (k, v) ∈ collect key merge l)
    (h' : (k, v') ∈ collect key merge l) : v = v' :=
  congrArg Prod.snd (List.inj_on_of_nodup_map (nodup_keys_collect key merge l) h h' rfl)

theorem collect_forall (hin : ∀ a ∈ l, ∀ k, key a = some k → P k a)
    (hmerge : ∀ k v a, P k v → P k a → P k (merge v a)) :
    ∀ e ∈ collect key merge l, P e.1 e.2 := by
  unfold collect
  induction l using List.reverseRecOn with
  | nil => simp
  | append_singleton l a ih =>
    rw [List.foldl_append, List.foldl_cons, List.foldl_nil]
    have hl := ih fun a' ha' => hin a' (by simp [ha'])
    intro e he
    cases hk : key a with
    | none => exact hl e (by simpa only [collectStep, hk] using he)
    | some k =>
      have ha := hin a (by simp) k hk
      rcases mem_upsert (by simpa only [collectStep, hk] using he) with h | rfl | ⟨v, hv, rfl⟩
      · exact hl e h
      · exact ha
      · exact hmerge k v a (hl _ hv) ha

/-- What an entry says about an item and merging never takes back, the entry of its key says
about every item. -/
theorem collect_exists {R : α → α → Prop} (hin : ∀ a ∈ l, ∀ k, key a = some k → P k a)
    (hmerge : ∀ k v a, P k v → P k a → P k (merge v a)) (hself : ∀ k a, P k a → R a a)
    (hnew : ∀ k v a, P k v → P k a → R a (merge v a))
    (hold : ∀ k v a b, P k v → P k a → R b v → R b (merge v a)) :
    ∀ a ∈ l, ∀ k, key a = some k → ∃ v, (k, v) ∈ collect key merge l ∧ R a v := by
  have hP : ∀ m, m ⊆ l → ∀ e ∈ collect key merge m, P e.1 e.2 :=
    fun m hm => collect_forall (fun a ha => hin a (hm ha)) hmerge
  suffices h : ∀ m, m ⊆ l → ∀ a ∈ m, ∀ k, key a = some k →
      ∃ v, (k, v) ∈ collect key merge m ∧ R a v from h l (List.Subset.refl l)
  intro m
  induction m using List.reverseRecOn with
  | nil => simp
  | append_singleton m a ih =>
    intro hm b hb k hk
    have hm' : m ⊆ l := fun c hc => hm (by simp [hc])
    have hPm := hP m hm'
    rw [collect, List.foldl_append, List.foldl_cons, List.foldl_nil, ← collect]
    rcases List.mem_append.mp hb with hb | hb
    · obtain ⟨v, hv, hR⟩ := ih hm' b hb k hk
      cases hka : key a with
      | none => exact ⟨v, by simpa only [collectStep, hka] using hv, hR⟩
      | some k' =>
        simp only [collectStep, hka]
        rcases mem_upsert_of_mem merge k' a hv with h | ⟨rfl, h⟩
        · exact ⟨v, h, hR⟩
        · exact ⟨_, h, hold _ v a b (hPm _ hv) (hin a (hm (by simp)) _ hka) hR⟩
    · obtain rfl := List.mem_singleton.mp hb
      have hPb := hin b (hm (by simp)) k hk
      simp only [collectStep, hk]
      rcases exists_mem_upsert merge k b (collect key merge m) with h | ⟨v, hv, h⟩
      · exact ⟨b, h, hself k b hPb⟩
      · exact ⟨_, h, hnew k v b (hPm _ hv) hPb⟩

theorem collect_concat (key : α → Option κ) (merge : α → α → α) (l : List α) (a : α) :
    collect key merge (l ++ [a]) = collectStep key merge (collect key merge l) a :=
  List.foldl_append

theorem mem_collect_iff {k : κ} {v : α} : (k, v) ∈ collect key merge l ↔
    ∃ a rest, l.filter (fun b => key b = some k) = a :: rest ∧ rest.foldl merge a = v := by
  induction l using List.reverseRecOn generalizing v with
  | nil => simp [collect]
  | append_singleton l b ih =>
    rw [collect_concat, collectStep, List.filter_append, List.filter_singleton]
    cases hb : key b with
    | none => simp [ih]
    | some k' =>
      rw [mem_upsert_iff (nodup_keys_collect key merge l)]
      obtain rfl | hk := eq_or_ne k' k
      · have hkeys : k' ∉ (collect key merge l).map Prod.fst ↔
            l.filter (fun b => key b = some k') = [] := by
          rw [List.mem_map, ← not_iff_not, not_not, ← ne_eq, List.ne_nil_iff_exists_cons]
          constructor
          · rintro ⟨⟨_, w⟩, hw, rfl⟩
            obtain ⟨a, rest, hrest, -⟩ := ih.mp hw
            exact ⟨a, rest, hrest⟩
          · rintro ⟨a, rest, hrest⟩
            exact ⟨(k', rest.foldl merge a), ih.mpr ⟨a, rest, hrest, rfl⟩, rfl⟩
        simp only [ne_eq, not_true, false_and, false_or, true_and, hkeys, decide_true, ih]
        constructor
        · rintro (⟨_, ⟨a, rest, hrest, rfl⟩, rfl⟩ | ⟨hnil, rfl⟩)
          · exact ⟨a, rest ++ [b], by rw [hrest]; rfl, by simp⟩
          · exact ⟨v, [], by rw [hnil]; rfl, rfl⟩
        · rintro ⟨a, rest, hrest, rfl⟩
          rcases List.append_eq_cons_iff.mp hrest with ⟨hnil, h⟩ | ⟨rest', hcons, rfl⟩
          · obtain ⟨rfl, rfl⟩ := List.cons.inj h
            exact Or.inr ⟨hnil, rfl⟩
          · exact Or.inl ⟨_, ⟨a, rest', hcons, rfl⟩, by simp⟩
      · simp [hk, Ne.symm hk, ih]

end Collect

section Choose

variable {key : α → κ} {merge : α → α → α} {l : List α}

theorem mem_of_mem_collect (h : ∀ v a, merge v a = v ∨ merge v a = a) {e : κ × α}
    (he : e ∈ collect (fun a => some (key a)) merge l) : e.2 ∈ l ∧ key e.2 = e.1 := by
  apply collect_forall (P := fun k a => a ∈ l ∧ key a = k) _ _ e he
  · rintro a ha k hk
    exact ⟨ha, Option.some.inj hk⟩
  · rintro k v a hv ha
    rcases h v a with hva | hva
    · rwa [hva]
    · rwa [hva]

theorem nodup_map_collect (h : ∀ v a, merge v a = v ∨ merge v a = a) :
    (((collect (fun a => some (key a)) merge l).map Prod.snd).map key).Nodup := by
  have hkeys : ((collect (fun a => some (key a)) merge l).map Prod.snd).map key =
      (collect (fun a => some (key a)) merge l).map Prod.fst := by
    rw [List.map_map]
    exact List.map_congr_left fun e he => (mem_of_mem_collect h he).2
  rw [hkeys]
  exact nodup_keys_collect _ _ l

def firsts (key : α → κ) (l : List α) : List α :=
  (collect (fun a => some (key a)) (fun a _ => a) l).map Prod.snd

theorem mem_of_mem_firsts {a : α} (h : a ∈ firsts key l) : a ∈ l := by
  obtain ⟨e, he, rfl⟩ := List.mem_map.mp h
  exact (mem_of_mem_collect (fun _ _ => Or.inl rfl) he).1

theorem nodup_map_firsts (key : α → κ) (l : List α) : ((firsts key l).map key).Nodup :=
  nodup_map_collect fun _ _ => Or.inl rfl

theorem exists_mem_firsts (key : α → κ) {a : α} (h : a ∈ l) : ∃ b ∈ firsts key l, key b = key a := by
  obtain ⟨v, hv, -⟩ : ∃ v, (key a, v) ∈ collect (fun a => some (key a)) (fun a _ => a) l ∧ True :=
    collect_exists (R := fun _ _ => True) (P := fun _ _ => True) (fun _ _ _ _ => trivial)
      (fun _ _ _ _ _ => trivial) (fun _ _ _ => trivial) (fun _ _ _ _ _ => trivial)
      (fun _ _ _ _ _ _ _ => trivial) a h (key a) rfl
  exact ⟨v, List.mem_map_of_mem hv, (mem_of_mem_collect (fun _ _ => Or.inl rfl) hv).2⟩

end Choose

section Group

def group (key : α → Option κ) (l : List α) : List (κ × List α) :=
  l.foldl (fun d a => match key a with
    | none => d
    | some k => upsert (· ++ ·) k [a] d) []

variable {key : α → Option κ} {l : List α}

theorem group_concat (key : α → Option κ) (l : List α) (a : α) :
    group key (l ++ [a]) = match key a with
      | none => group key l
      | some k => upsert (· ++ ·) k [a] (group key l) :=
  List.foldl_append

theorem nodup_keys_group (key : α → Option κ) (l : List α) :
    ((group key l).map Prod.fst).Nodup := by
  induction l using List.reverseRecOn with
  | nil => exact List.nodup_nil
  | append_singleton l a ih =>
    rw [group_concat]
    cases key a with
    | none => exact ih
    | some k => exact nodup_keys_upsert ih

theorem mem_group_iff {e : κ × List α} :
    e ∈ group key l ↔ e.2 = l.filter (fun a => key a = some e.1) ∧ e.2 ≠ [] := by
  induction l using List.reverseRecOn generalizing e with
  | nil => simp [group]
  | append_singleton l a ih =>
    have hnew : ∀ k, (l ++ [a]).filter (fun a => key a = some k) =
        l.filter (fun a => key a = some k) ++ if key a = some k then [a] else [] := by
      intro k
      rw [List.filter_append, List.filter_singleton]
      split_ifs <;> simp_all
    rw [group_concat, hnew]
    cases hk : key a with
    | none => simp [ih]
    | some k =>
      have hkeys : k ∉ (group key l).map Prod.fst ↔ l.filter (fun a => key a = some k) = [] := by
        constructor
        · intro hnot
          by_contra hne
          exact hnot (List.mem_map.mpr ⟨(k, _), ih.mpr ⟨rfl, hne⟩, rfl⟩)
        · rintro hnil hmem
          obtain ⟨e', he', rfl⟩ := List.mem_map.mp hmem
          exact (ih.mp he').2 ((ih.mp he').1.trans hnil)
      rw [mem_upsert_iff (nodup_keys_group key l), ih]
      by_cases he : e.1 = k
      · simp only [he, if_true, ne_eq, not_true, false_and, false_or, true_and, hkeys]
        constructor
        · rintro (⟨v, hv, hev⟩ | ⟨hnil, hev⟩)
          · obtain rfl : v = l.filter (fun a => key a = some k) := (ih.mp hv).1
            rw [hev]
            simp
          · rw [hnil, hev]
            simp
        · rintro ⟨hev, -⟩
          by_cases hnil : l.filter (fun a => key a = some k) = []
          · exact Or.inr ⟨hnil, by rw [hev, hnil]; rfl⟩
          · exact Or.inl ⟨_, ih.mpr ⟨rfl, hnil⟩, hev⟩
      · have hne : ¬ k = e.1 := Ne.symm he
        simp [he, hne]

theorem pairwise_disjoint_group (key : α → Option κ) (l : List α) :
    (group key l).Pairwise fun e e' => e.2.Disjoint e'.2 := by
  refine (List.pairwise_map.mp (nodup_keys_group key l)).imp_of_mem ?_
  intro e e' he he' hne a ha ha'
  rw [(mem_group_iff.mp he).1, List.mem_filter, decide_eq_true_eq] at ha
  rw [(mem_group_iff.mp he').1, List.mem_filter, decide_eq_true_eq] at ha'
  exact hne (Option.some.inj (ha.2.symm.trans ha'.2))

end Group

end K8sLearn
