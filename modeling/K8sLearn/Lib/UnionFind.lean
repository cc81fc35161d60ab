import Mathlib.Combinatorics.SimpleGraph.Connectivity.Connected
import Mathlib.Data.List.Induction
import Mathlib.Logic.Function.Basic
import Mathlib.Logic.Relation
import Mathlib.Order.Nat
import K8sLearn.Lib.Collect

/-! # Union and find

Disjoint sets as a forest of parents, with path halving on the way up and links without ranks. Every
element climbs to a root in a bounded number of steps; halving keeps all roots and lengthens no
climb, and a link lengthens a climb by at most one. After any unions two elements have one root
exactly when the joined pairs connect them.
-/

namespace K8sLearn.UnionFind

variable {α : Type*} [DecidableEq α]

/-- The parents after an element has been moved up to its grandparent. -/
def halve (parent : α → α) (x : α) : α → α := Function.update parent x (parent (parent x))

/-- The root of an element and the parents after the way up, with the number of rounds left. -/
def find : ℕ → (α → α) → α → Option ((α → α) × α)
  | 0, parent, x => if parent x = x then some (parent, x) else none
  | fuel + 1, parent, x =>
    if parent x = x then some (parent, x) else find fuel (halve parent x) (halve parent x x)

/-- Join the sets of two elements: the first root gets the second as its parent. -/
def union (fuel : ℕ) (parent : α → α) (a b : α) : Option (α → α) :=
  (find fuel parent a).bind fun fa => (find fuel fa.1 b).map fun fb =>
    if fa.2 = fb.2 then fb.1 else Function.update fb.1 fa.2 fb.2

def unionAll (fuel : ℕ) (parent : α → α) (pairs : List (α × α)) : Option (α → α) :=
  pairs.foldlM (fun parent e => union fuel parent e.1 e.2) parent

def classes (fuel : ℕ) (parent : α → α) (l : List α) : Option (List (α × List α)) :=
  (l.foldlM (fun st a => (find fuel st.1 a).map fun r => (r.1, upsert (· ++ ·) r.2 [a] st.2))
    (parent, [])).map Prod.snd

section Climbs

/-- So many steps up lead from an element to its root. -/
inductive Climbs {α : Type*} (parent : α → α) : ℕ → α → α → Prop
  | root {r} (h : parent r = r) : Climbs parent 0 r r
  | up {n x r} (h : Climbs parent n (parent x) r) : Climbs parent (n + 1) x r

variable {parent : α → α} {m n : ℕ} {a b r s x y : α}

omit [DecidableEq α] in
theorem Climbs.parent_eq (h : Climbs parent n x r) : parent r = r := by
  induction h with
  | root h => exact h
  | up _ ih => exact ih

omit [DecidableEq α] in
theorem Climbs.eq_of_root (h : Climbs parent n x s) (hx : parent x = x) : s = x := by
  induction h with
  | root _ => rfl
  | up _ ih =>
    rw [hx] at ih
    exact ih hx

theorem Climbs.halve_parent (z : α) (h : Climbs parent n x r) :
    (∃ m ≤ n, Climbs (halve parent z) m x r) ∧ ∃ m ≤ n, Climbs (halve parent z) m (parent x) r := by
  induction h with
  | @root r hr =>
    have hroot : halve parent z r = r := by
      rw [halve, Function.update_apply]
      split_ifs with hz
      · rw [← hz, hr, hr]
      · exact hr
    rw [hr]
    exact ⟨⟨0, Nat.le_refl 0, .root hroot⟩, 0, Nat.le_refl 0, .root hroot⟩
  | @up n x r _ ih =>
    obtain ⟨⟨m, hm, hparent⟩, m', hm', hgrand⟩ := ih
    refine ⟨?_, m, Nat.le_succ_of_le hm, hparent⟩
    by_cases hx : x = z
    · have hstep : halve parent z x = parent (parent x) := by
        rw [hx, halve, Function.update_self]
      exact ⟨m' + 1, Nat.succ_le_succ hm', .up (hstep ▸ hgrand)⟩
    · have hstep : halve parent z x = parent x := Function.update_of_ne hx _ _
      exact ⟨m + 1, Nat.succ_le_succ hm, .up (hstep ▸ hparent)⟩

theorem Climbs.link (h : Climbs parent n x r) (ha : parent a = a) (hb : parent b = b)
    (hne : a ≠ b) :
    ∃ m ≤ n + 1, Climbs (Function.update parent a b) m x (if r = a then b else r) := by
  induction h with
  | @root r hr =>
    by_cases hra : r = a
    · have hroot : Function.update parent a b b = b := by
        rw [Function.update_of_ne hne.symm, hb]
      have hstep : Function.update parent a b r = b := by rw [hra, Function.update_self]
      rw [if_pos hra]
      exact ⟨1, Nat.le_refl 1, .up (by rw [hstep]; exact .root hroot)⟩
    · rw [if_neg hra]
      exact ⟨0, Nat.zero_le _, .root (by rw [Function.update_of_ne hra, hr])⟩
  | @up n x r h ih =>
    by_cases hxa : x = a
    · -- a root that climbs further stays where it is
      rw [hxa, ha] at ih
      obtain ⟨m, hm, hclimb⟩ := ih
      exact ⟨m, Nat.le_succ_of_le hm, hxa ▸ hclimb⟩
    · obtain ⟨m, hm, hclimb⟩ := ih
      refine ⟨m + 1, Nat.succ_le_succ hm, .up ?_⟩
      rwa [Function.update_of_ne hxa]

end Climbs

section Labels

def join (label : α → α) (a b x : α) : α := if label x = label a then label b else label x

def joinAll (label : α → α) (pairs : List (α × α)) : α → α :=
  pairs.foldl (fun label e => join label e.1 e.2) label

variable {label : α → α} {pairs : List (α × α)} {a b x y : α}

theorem join_eq_iff : join label a b x = join label a b y ↔
    label x = label y ∨ label x = label a ∧ label b = label y ∨
      label x = label b ∧ label a = label y := by
  unfold join
  split_ifs with hx hy hy <;> grind

theorem joinAll_eq_iff :
    joinAll id pairs x = joinAll id pairs y ↔ Relation.EqvGen (fun x y => (x, y) ∈ pairs) x y := by
  induction pairs using List.reverseRecOn generalizing x y with
  | nil =>
    constructor
    · rintro rfl
      exact .refl x
    · intro h
      induction h with
      | rel x y h => cases h
      | refl x => rfl
      | symm x y _ ih => exact ih.symm
      | trans x y z _ _ ih ih' => exact ih.trans ih'
  | append_singleton pairs e ih =>
    have hmono : ∀ {x y}, joinAll id pairs x = joinAll id pairs y →
        Relation.EqvGen (fun x y => (x, y) ∈ pairs ++ [e]) x y :=
      fun h => (ih.mp h).mono fun _ _ h => List.mem_append_left _ h
    have hlast : Relation.EqvGen (fun x y => (x, y) ∈ pairs ++ [e]) e.1 e.2 :=
      .rel _ _ (by simp)
    have hconcat : joinAll id (pairs ++ [e]) = join (joinAll id pairs) e.1 e.2 := by
      rw [joinAll, List.foldl_append]
      rfl
    rw [hconcat]
    constructor
    · intro h
      rcases join_eq_iff.mp h with h | ⟨hx, hy⟩ | ⟨hx, hy⟩
      · exact hmono h
      · exact .trans _ _ _ (hmono hx) (.trans _ _ _ hlast (hmono hy))
      · exact .trans _ _ _ (hmono hx) (.trans _ _ _ (.symm _ _ hlast) (hmono hy))
    · intro h
      induction h with
      | rel x y h =>
        rw [join_eq_iff]
        rcases List.mem_append.mp h with h | h
        · exact Or.inl (ih.mpr (.rel _ _ h))
        · obtain rfl := List.mem_singleton.mp h
          exact Or.inr (Or.inl ⟨rfl, rfl⟩)
      | refl x => rfl
      | symm x y _ ih => exact ih.symm
      | trans x y z _ _ ih ih' => exact ih.trans ih'

end Labels

section Forest

def Labelled (d : ℕ) (parent label : α → α) : Prop := ∀ x, ∃ n ≤ d, Climbs parent n x (label x)

variable {parent label : α → α} {d fuel n : ℕ} {a b r x : α}

omit [DecidableEq α] in
theorem labelled_id : Labelled 0 (id : α → α) id := fun _ => ⟨0, Nat.le_refl 0, .root rfl⟩

theorem Labelled.halve (h : Labelled d parent label) (z : α) :
    Labelled d (halve parent z) label := by
  intro x
  obtain ⟨n, hn, hclimb⟩ := h x
  obtain ⟨m, hm, hclimb'⟩ := (hclimb.halve_parent z).1
  exact ⟨m, hm.trans hn, hclimb'⟩

theorem Labelled.find_of_climbs (h : Labelled d parent label) (hx : Climbs parent n x r)
    (hn : n ≤ fuel) : ∃ parent', find fuel parent x = some (parent', r) ∧
      Labelled d parent' label := by
  induction fuel generalizing parent x n with
  | zero =>
    obtain rfl : n = 0 := Nat.le_zero.mp hn
    cases hx with
    | root hr => exact ⟨parent, if_pos hr, h⟩
  | succ fuel ih =>
    rw [find]
    by_cases hroot : parent x = x
    · rw [hx.eq_of_root hroot, if_pos hroot]
      exact ⟨parent, rfl, h⟩
    · rw [if_neg hroot]
      cases hx with
      | root hr => exact absurd hr hroot
      | @up n _ _ hx =>
        obtain ⟨m, hm, hclimb⟩ := (hx.halve_parent x).2
        refine ih (h.halve x) (n := m) ?_ (hm.trans (Nat.le_of_succ_le_succ hn))
        rwa [UnionFind.halve, Function.update_self]

theorem Labelled.find (h : Labelled d parent label) (hd : d ≤ fuel) (x : α) :
    ∃ parent', find fuel parent x = some (parent', label x) ∧ Labelled d parent' label := by
  obtain ⟨n, hn, hclimb⟩ := h x
  exact h.find_of_climbs hclimb (hn.trans hd)

theorem Labelled.union (h : Labelled d parent label) (hd : d ≤ fuel) (a b : α) :
    ∃ parent', union fuel parent a b = some parent' ∧
      Labelled (d + 1) parent' (join label a b) := by
  obtain ⟨parent₁, hfind₁, h₁⟩ := h.find hd a
  obtain ⟨parent₂, hfind₂, h₂⟩ := h₁.find hd b
  rw [UnionFind.union, hfind₁, Option.bind_some, hfind₂, Option.map_some]
  refine ⟨_, rfl, fun x => ?_⟩
  dsimp only
  obtain ⟨n, hn, hclimb⟩ := h₂ x
  by_cases heq : label a = label b
  · have hlabel : join label a b x = label x := by
      rw [join]
      split_ifs with hx
      · rw [hx, heq]
      · rfl
    rw [if_pos heq, hlabel]
    exact ⟨n, Nat.le_succ_of_le hn, hclimb⟩
  · obtain ⟨_, -, ha⟩ := h₂ a
    obtain ⟨_, -, hb⟩ := h₂ b
    obtain ⟨m, hm, hlink⟩ := hclimb.link ha.parent_eq hb.parent_eq heq
    rw [if_neg heq]
    exact ⟨m, hm.trans (Nat.succ_le_succ hn), hlink⟩

theorem Labelled.unionAll {pairs : List (α × α)} (h : Labelled d parent label)
    (hfuel : d + pairs.length ≤ fuel) :
    ∃ parent', unionAll fuel parent pairs = some parent' ∧
      Labelled (d + pairs.length) parent' (joinAll label pairs) := by
  induction pairs generalizing d parent label with
  | nil => exact ⟨parent, rfl, h⟩
  | cons e pairs ih =>
    rw [List.length_cons] at hfuel
    obtain ⟨parent₁, hunion, h₁⟩ := h.union (show d ≤ fuel by omega) e.1 e.2
    obtain ⟨parent', hall, h'⟩ := ih h₁ (by omega)
    refine ⟨parent', ?_, ?_⟩
    · rw [UnionFind.unionAll, List.foldlM_cons, hunion]
      exact hall
    · have hlen : d + 1 + pairs.length = d + (e :: pairs).length := by
        rw [List.length_cons]
        omega
      rwa [hlen] at h'

theorem Labelled.classes (h : Labelled d parent label) (hd : d ≤ fuel) (l : List α) :
    classes fuel parent l = some (group (fun a => some (label a)) l) := by
  unfold UnionFind.classes group
  suffices hrun : ∀ cl : List (α × List α), ∃ parent',
      l.foldlM (fun st a => (UnionFind.find fuel st.1 a).map fun r =>
        (r.1, upsert (· ++ ·) r.2 [a] st.2)) (parent, cl) =
      some (parent', l.foldl (fun cl a => upsert (· ++ ·) (label a) [a] cl) cl) by
    obtain ⟨parent', hrun⟩ := hrun []
    rw [hrun]
    rfl
  induction l generalizing parent with
  | nil => exact fun cl => ⟨parent, rfl⟩
  | cons a l ih =>
    intro cl
    obtain ⟨parent₁, hfind, h₁⟩ := h.find hd a
    obtain ⟨parent', hrun⟩ := ih h₁ (upsert (· ++ ·) (label a) [a] cl)
    refine ⟨parent', ?_⟩
    rw [List.foldlM_cons, hfind]
    exact hrun

end Forest

section Components

variable {G : SimpleGraph α} {label : α → α} {l : List α}

theorem mem_classes_iff (hlabel : ∀ {a b}, G.Reachable a b ↔ label a = label b)
    (hmem : ∀ {a b}, G.Reachable a b → a ≠ b → a ∈ l) (hl : l.Nodup) {c : Finset α} :
    (∃ e ∈ group (fun a => some (label a)) l, 2 ≤ e.2.length ∧ e.2.toFinset = c) ↔
      2 ≤ c.card ∧ ∃ C : G.ConnectedComponent, (c : Set α) = C.supp := by
  -- the class of an element that is in the list is its component
  have hsupp : ∀ a ∈ l, ((l.filter fun b => some (label b) = some (label a)).toFinset : Set α) =
      (G.connectedComponentMk a).supp := by
    intro a ha
    ext b
    simp only [List.coe_toFinset, List.mem_filter, Option.some.injEq, decide_eq_true_eq,
      SimpleGraph.ConnectedComponent.mem_supp_iff,
      SimpleGraph.ConnectedComponent.eq, hlabel]
    refine and_iff_right_of_imp fun hb => ?_
    by_cases hba : b = a
    · exact hba ▸ ha
    · exact hmem (hlabel.mpr hb) hba
  constructor
  · rintro ⟨⟨k, fs⟩, he, hlen, rfl⟩
    obtain ⟨hfs, hne⟩ := mem_group_iff.mp he
    dsimp only at hfs hne hlen ⊢
    obtain ⟨a, ha⟩ := List.exists_mem_of_ne_nil fs hne
    have hak : a ∈ l ∧ label a = k := by simpa [hfs] using ha
    obtain ⟨hal, rfl⟩ := hak
    refine ⟨?_, G.connectedComponentMk a, by rw [hfs, hsupp a hal]⟩
    rwa [List.toFinset_card_of_nodup (hfs ▸ hl.filter _)]
  · rintro ⟨hcard, C, hC⟩
    induction C using SimpleGraph.ConnectedComponent.ind with | h a => ?_
    have ha : a ∈ l := by
      obtain ⟨b, hb, hne⟩ := Finset.exists_mem_ne (by omega : 1 < c.card) a
      have hreach : G.Reachable b a := by
        have hb' : b ∈ (c : Set α) := hb
        rwa [hC, SimpleGraph.ConnectedComponent.mem_supp_iff,
          SimpleGraph.ConnectedComponent.eq] at hb'
      exact hmem hreach.symm hne.symm
    have hc : (l.filter fun b => some (label b) = some (label a)).toFinset = c :=
      Finset.coe_injective ((hsupp a ha).trans hC.symm)
    refine ⟨(label a, l.filter fun b => some (label b) = some (label a)),
      mem_group_iff.mpr ⟨rfl, ?_⟩, ?_, hc⟩
    · rintro hnil
      exact absurd ha (by simpa using List.filter_eq_nil_iff.mp hnil a)
    · rwa [← List.toFinset_card_of_nodup (hl.filter _), hc]

end Components

end K8sLearn.UnionFind
