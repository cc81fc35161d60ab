import Mathlib.Algebra.BigOperators.Group.List.Basic
import Mathlib.Algebra.Order.Group.Nat
import Mathlib.Data.List.GetD
import Mathlib.Data.List.OfFn
import Mathlib.Tactic.Linarith
import Mathlib.Tactic.Ring

/-! # Dense row-major tensors

A tensor is a shape with its elements in row-major order. Slicing and
concatenation act on the first axis; expansion repeats axes of length one, aligned
at the last axis. An operation that the array library refuses has no result.
-/

namespace K8sLearn

/-- A shape and the elements in row-major order. -/
@[ext] structure Tensor (α : Type*) where
  shape : List ℕ
  data : List α
  length_data : data.length = shape.prod

namespace Tensor

variable {α β : Type*}

def rows (t : Tensor α) : ℕ := t.shape.headD 0

/-- The number of elements under one index of the first axis. -/
def rowSize (t : Tensor α) : ℕ := t.shape.tail.prod

theorem length_eq_rows_mul {t : Tensor α} (h : t.shape ≠ []) :
    t.data.length = t.rows * t.rowSize := by
  rw [t.length_data]
  cases hs : t.shape with
  | nil => exact absurd hs h
  | cons m rest => simp [rows, rowSize, hs]

theorem rows_mul_rowSize_le (t : Tensor α) : t.rows * t.rowSize ≤ t.data.length := by
  by_cases h : t.shape = []
  · simp [rows, h]
  · exact (length_eq_rows_mul h).ge

theorem row_add_le {t : Tensor α} {init : List ℕ} {c r : ℕ} (ht : t.shape = init ++ [c])
    (hr : r < init.prod) : r * c + c ≤ t.data.length := by
  rw [t.length_data, ht, List.prod_append, List.prod_singleton, ← Nat.succ_mul]
  exact Nat.mul_le_mul_right c hr

/-- `t[start:stop]`, with both ends cut to the number of rows. -/
def slice (t : Tensor α) (start stop : ℕ) : Tensor α where
  shape := (min stop t.rows - min start t.rows) :: t.shape.tail
  data := (t.data.drop (min start t.rows * t.rowSize)).take
    ((min stop t.rows - min start t.rows) * t.rowSize)
  length_data := by
    have h := t.rows_mul_rowSize_le
    have hle : (min stop t.rows - min start t.rows) * t.rowSize ≤
        t.data.length - min start t.rows * t.rowSize := by
      have hr : (min stop t.rows - min start t.rows) + min start t.rows ≤ t.rows := by omega
      have := Nat.mul_le_mul_right t.rowSize hr
      rw [Nat.add_mul] at this
      omega
    simp only [List.length_take, List.length_drop, List.prod_cons]
    exact min_eq_left hle

@[simp] theorem slice_shape (t : Tensor α) (start stop : ℕ) :
    (t.slice start stop).shape = (min stop t.rows - min start t.rows) :: t.shape.tail := rfl

theorem sum_length {ts : List (Tensor α)} {rest : List ℕ}
    (h : ∀ u ∈ ts, u.shape ≠ [] ∧ u.shape.tail = rest) :
    (ts.map fun u => u.data.length).sum = (ts.map rows).sum * rest.prod := by
  induction ts with
  | nil => simp
  | cons u us ih =>
    have hu := h u (by simp)
    have hus := ih fun v hv => h v (by simp [hv])
    simp only [List.map_cons, List.sum_cons, hus, length_eq_rows_mul hu.1, rowSize, hu.2]
    ring

/-- Concatenation along the first axis of tensors that agree on the other axes. -/
def cat : List (Tensor α) → Option (Tensor α)
  | [] => none
  | t :: ts =>
    if h : ∀ u ∈ t :: ts, u.shape ≠ [] ∧ u.shape.tail = t.shape.tail then
      some {
        shape := ((t :: ts).map rows).sum :: t.shape.tail
        data := (t :: ts).flatMap data
        length_data := by
          rw [List.length_flatMap, List.prod_cons]
          exact sum_length fun u hu => ⟨(h u hu).1, (h u hu).2⟩ }
    else none

theorem data_of_cat {ts : List (Tensor α)} {t : Tensor α} (h : cat ts = some t) :
    t.data = ts.flatMap data := by
  cases ts with
  | nil => simp [cat] at h
  | cons u us =>
    simp only [cat] at h
    split at h
    · cases h; rfl
    · cases h

theorem shape_of_cat {u : Tensor α} {us : List (Tensor α)} {t : Tensor α}
    (h : cat (u :: us) = some t) :
    t.shape = ((u :: us).map rows).sum :: u.shape.tail := by
  simp only [cat] at h
  split at h
  · cases h; rfl
  · cases h

/-- Concatenation succeeds on a nonempty list whose members agree on the other axes. -/
theorem exists_cat {ts : List (Tensor α)} {rest : List ℕ} (hn : ts ≠ [])
    (h : ∀ u ∈ ts, u.shape ≠ [] ∧ u.shape.tail = rest) : ∃ t, cat ts = some t := by
  cases ts with
  | nil => exact absurd rfl hn
  | cons u us =>
    have hu := h u (by simp)
    have hc : ∀ v ∈ u :: us, v.shape ≠ [] ∧ v.shape.tail = u.shape.tail :=
      fun v hv => ⟨(h v hv).1, (h v hv).2.trans hu.2.symm⟩
    exact ⟨_, by rw [cat, dif_pos hc]⟩

def map (f : α → β) (t : Tensor α) : Tensor β := ⟨t.shape, t.data.map f, by simp [t.length_data]⟩

@[simp] theorem map_shape (f : α → β) (t : Tensor α) : (t.map f).shape = t.shape := rfl
@[simp] theorem map_data (f : α → β) (t : Tensor α) : (t.map f).data = t.data.map f := rfl
@[simp] theorem map_rows (f : α → β) (t : Tensor α) : (t.map f).rows = t.rows := rfl

theorem cat_map (f : α → β) (ts : List (Tensor α)) :
    cat (ts.map (map f)) = (cat ts).map (map f) := by
  cases ts with
  | nil => rfl
  | cons t ts =>
    have hiff : (∀ u ∈ map f t :: ts.map (map f), u.shape ≠ [] ∧ u.shape.tail = (map f t).shape.tail)
        ↔ ∀ u ∈ t :: ts, u.shape ≠ [] ∧ u.shape.tail = t.shape.tail := by simp
    by_cases h : ∀ u ∈ t :: ts, u.shape ≠ [] ∧ u.shape.tail = t.shape.tail
    · rw [List.map_cons, cat, cat, dif_pos (hiff.mpr h), dif_pos h, Option.map_some]
      refine congrArg some (Tensor.ext ?_ ?_)
      · simp [Function.comp_def]
      · simp [List.map_flatMap, List.flatMap_map]
    · rw [List.map_cons, cat, cat, dif_neg (mt hiff.mp h), dif_neg h, Option.map_none]

/-- Whether the reversed shape `src` expands to the reversed shape `tgt`. -/
def Expandable : List ℕ → List ℕ → Prop
  | [], _ => True
  | _ :: _, [] => False
  | s :: src, t :: tgt => (s = t ∨ s = 1) ∧ Expandable src tgt

instance decidableExpandable : (src tgt : List ℕ) → Decidable (Expandable src tgt)
  | [], _ => .isTrue trivial
  | _ :: _, [] => .isFalse id
  | s :: src, t :: tgt =>
    have := decidableExpandable src tgt
    inferInstanceAs (Decidable ((s = t ∨ s = 1) ∧ Expandable src tgt))

/-- The source position of a position of the expansion; shapes are reversed. -/
def expandIndex : List ℕ → List ℕ → ℕ → ℕ
  | s :: src, t :: tgt, i => (if s = 1 then 0 else i % t) + s * expandIndex src tgt (i / t)
  | _, _, _ => 0

theorem expandIndex_lt {src tgt : List ℕ} (h : Expandable src tgt) {i : ℕ}
    (hi : i < tgt.prod) : expandIndex src tgt i < src.prod := by
  induction src generalizing tgt i with
  | nil => simp [expandIndex]
  | cons s src ih =>
    cases tgt with
    | nil => exact h.elim
    | cons t tgt =>
      have ht : 0 < t := Nat.pos_of_ne_zero (by rintro rfl; simp at hi)
      have hq : i / t < tgt.prod := Nat.div_lt_of_lt_mul (by simpa using hi)
      have hr := ih h.2 hq
      rw [expandIndex, List.prod_cons]
      by_cases hs : s = 1
      · subst hs; simpa using hr
      · have hst : s = t := h.1.resolve_right hs
        have hm : i % t < t := Nat.mod_lt _ ht
        rw [if_neg hs, hst]
        calc i % t + t * expandIndex src tgt (i / t)
            < t + t * expandIndex src tgt (i / t) := by omega
          _ = t * (expandIndex src tgt (i / t) + 1) := by ring
          _ ≤ t * src.prod := Nat.mul_le_mul_left t hr

theorem expandIndex_self {s : List ℕ} {i : ℕ} (hi : i < s.prod) : expandIndex s s i = i := by
  induction s generalizing i with
  | nil =>
    have h0 : i = 0 := by simpa using hi
    simp [h0, expandIndex]
  | cons t s ih =>
    have hq : i / t < s.prod := Nat.div_lt_of_lt_mul (by simpa using hi)
    rw [expandIndex, ih hq]
    by_cases ht : t = 1
    · subst ht; simp
    · rw [if_neg ht]; exact Nat.mod_add_div i t

theorem expandable_self (s : List ℕ) : Expandable s s := by
  induction s with
  | nil => trivial
  | cons t s ih => exact ⟨Or.inl rfl, ih⟩

/-- `t.expand(*s)`: repeat the axes of length one up to the shape `s`. -/
def expand (t : Tensor α) (s : List ℕ) : Option (Tensor α) :=
  if h : Expandable t.shape.reverse s.reverse then
    some {
      shape := s
      data := List.ofFn fun i : Fin s.prod =>
        t.data.get ⟨expandIndex t.shape.reverse s.reverse i, by
          have hi := expandIndex_lt h (i := i) (by rw [List.prod_reverse]; exact i.isLt)
          rwa [List.prod_reverse, ← t.length_data] at hi⟩
      length_data := by simp }
  else none

theorem expand_shape {t u : Tensor α} {s : List ℕ} (h : t.expand s = some u) : u.shape = s := by
  unfold expand at h
  split at h
  · cases h; rfl
  · cases h

theorem mem_of_mem_expand {t u : Tensor α} {s : List ℕ} (h : t.expand s = some u) {a : α}
    (ha : a ∈ u.data) : a ∈ t.data := by
  unfold expand at h
  split at h
  · cases h
    obtain ⟨i, rfl⟩ := List.mem_ofFn.mp ha
    exact List.get_mem _ _
  · cases h

theorem Expandable.length_le {src tgt : List ℕ} (h : Expandable src tgt) :
    src.length ≤ tgt.length := by
  induction src generalizing tgt with
  | nil => simp
  | cons s src ih =>
    cases tgt with
    | nil => exact h.elim
    | cons t tgt => simpa using ih h.2

theorem length_le_of_expand {t u : Tensor α} {s : List ℕ} (h : t.expand s = some u) :
    t.shape.length ≤ s.length := by
  unfold expand at h
  split at h
  case isTrue he => simpa using he.length_le
  case isFalse => cases h

@[simp] theorem expand_self (t : Tensor α) : t.expand t.shape = some t := by
  have he : Expandable t.shape.reverse t.shape.reverse := expandable_self _
  rw [expand, dif_pos he]
  refine congrArg some (Tensor.ext rfl (List.ext_getElem (by simp [t.length_data]) ?_))
  intro i hi _
  have hi' : i < t.shape.reverse.prod := by simpa using hi
  simp [expandIndex_self hi']

theorem exists_expand_rows {t : Tensor α} {r m k : ℕ} (ht : t.shape = [r, k])
    (hr : r = 1 ∨ r = m) :
    ∃ v, t.expand [m, k] = some v ∧
      ∀ b < m * k, ∀ d, v.data.getD b d = t.data.getD (if r = 1 then b % k else b) d := by
  have he : Expandable t.shape.reverse [m, k].reverse := by
    rw [ht]
    exact ⟨Or.inl rfl, hr.symm, trivial⟩
  refine ⟨_, by rw [expand, dif_pos he], fun b hb d => ?_⟩
  have hidx : expandIndex t.shape.reverse [m, k].reverse b = if r = 1 then b % k else b := by
    have hq : b / k < m := Nat.div_lt_of_lt_mul (by rwa [Nat.mul_comm])
    simp only [ht, List.reverse_cons, List.reverse_nil, List.nil_append, List.cons_append,
      expandIndex, Nat.mod_eq_of_lt hq, mul_zero, add_zero]
    have hmod : (if k = 1 then 0 else b % k) = b % k := by
      split_ifs with hk
      · rw [hk, Nat.mod_one]
      · rfl
    rw [hmod]
    split_ifs
    · rw [mul_zero, add_zero]
    · exact Nat.mod_add_div b k
  have hlt : expandIndex t.shape.reverse [m, k].reverse b < t.data.length := by
    have hi := expandIndex_lt he (i := b) (by simpa [Nat.mul_comm] using hb)
    rwa [List.prod_reverse, ← t.length_data] at hi
  rw [← hidx, List.getD_eq_getElem _ _ hlt, List.getD_eq_getElem _ _ (by simpa using hb)]
  simp

/-- `f` on the elements of `a` and of `b` expanded to the shape of `a`. -/
def broadcastWith {γ : Type*} (f : α → β → γ) (a : Tensor α) (b : Tensor β) :
    Option (Tensor γ) :=
  match h : b.expand a.shape with
  | none => none
  | some b' => some {
      shape := a.shape
      data := a.data.zipWith f b'.data
      length_data := by simp [a.length_data, b'.length_data, expand_shape h] }

theorem mem_broadcastWith {γ : Type*} {f : α → β → γ} {a : Tensor α} {b : Tensor β} {r : Tensor γ}
    (h : broadcastWith f a b = some r) {x : γ} (hx : x ∈ r.data) :
    ∃ y ∈ a.data, ∃ z ∈ b.data, x = f y z := by
  unfold broadcastWith at h
  split at h
  · cases h
  · case h_2 b' hb' =>
    cases h
    obtain ⟨i, hi, rfl⟩ := List.getElem_of_mem hx
    rw [List.length_zipWith] at hi
    refine ⟨a.data[i], List.getElem_mem (by omega), b'.data[i],
      mem_of_mem_expand hb' (List.getElem_mem (by omega)), ?_⟩
    simp

theorem broadcastWith_getD {γ : Type*} {f : α → β → γ} {a : Tensor α} {b : Tensor β}
    (he : Expandable b.shape.reverse a.shape.reverse) :
    ∃ r, broadcastWith f a b = some r ∧ r.shape = a.shape ∧
      ∀ (i : ℕ) (x : α) (y : β) (z : γ), i < a.data.length → r.data.getD i z =
        f (a.data.getD i x) (b.data.getD (expandIndex b.shape.reverse a.shape.reverse i) y) := by
  obtain ⟨b', hb'⟩ : ∃ b', b.expand a.shape = some b' := ⟨_, by rw [expand, dif_pos he]⟩
  have hlen : b'.data.length = a.data.length := by
    rw [b'.length_data, expand_shape hb', a.length_data]
  have hget : ∀ (i : ℕ) (y : β), i < a.data.length → b'.data.getD i y =
      b.data.getD (expandIndex b.shape.reverse a.shape.reverse i) y := by
    intro i y hi
    have hidx : expandIndex b.shape.reverse a.shape.reverse i < b.data.length := by
      have := expandIndex_lt he (i := i) (by rwa [List.prod_reverse, ← a.length_data])
      rwa [List.prod_reverse, ← b.length_data] at this
    rw [expand, dif_pos he] at hb'
    obtain rfl := Option.some.inj hb'
    rw [List.getD_eq_getElem _ _ (by simpa [← a.length_data] using hi),
      List.getD_eq_getElem _ _ hidx]
    simp
  unfold broadcastWith
  split
  · case h_1 h =>
    rw [hb'] at h
    cases h
  · case h_2 b'' h =>
    obtain rfl : b' = b'' := Option.some.inj (hb'.symm.trans h)
    refine ⟨_, rfl, rfl, fun i x y z hi => ?_⟩
    rw [← hget i y hi, List.getD_eq_getElem _ _ (by simpa [hlen] using hi),
      List.getD_eq_getElem _ _ hi, List.getD_eq_getElem _ _ (hlen ▸ hi)]
    simp

theorem broadcastWith_channels {γ : Type*} {f : α → β → γ} {a : Tensor α} {b : Tensor β}
    {init : List ℕ} {c : ℕ} (ha : a.shape = init ++ [c]) (hb : b.shape = [c]) :
    ∃ r, broadcastWith f a b = some r ∧ r.shape = a.shape ∧
      ∀ (i : ℕ) (x : α) (y : β) (z : γ), i < a.data.length →
        r.data.getD i z = f (a.data.getD i x) (b.data.getD (i % c) y) := by
  have he : Expandable b.shape.reverse a.shape.reverse := by simp [ha, hb, Expandable]
  have hidx : ∀ i, expandIndex b.shape.reverse a.shape.reverse i = i % c := by
    intro i
    simp only [ha, hb, List.reverse_append, List.reverse_singleton, List.singleton_append,
      expandIndex, mul_zero, add_zero]
    split_ifs with h1
    · rw [h1, Nat.mod_one]
    · rfl
  simpa only [hidx] using broadcastWith_getD (f := f) he

/-- `t.reshape(s)`. -/
def reshape (t : Tensor α) (s : List ℕ) : Option (Tensor α) :=
  if h : t.data.length = s.prod then some ⟨s, t.data, h⟩ else none

theorem exists_reshape {t : Tensor α} {s : List ℕ} (h : t.data.length = s.prod) :
    ∃ u, t.reshape s = some u ∧ u.shape = s ∧ u.data = t.data :=
  ⟨⟨s, t.data, h⟩, by rw [reshape, dif_pos h], rfl, rfl⟩

theorem shape_reshape {t u : Tensor α} {s : List ℕ} (h : t.reshape s = some u) : u.shape = s := by
  unfold reshape at h
  split_ifs at h
  cases h
  rfl

def broadcastShape : List ℕ → List ℕ → Option (List ℕ)
  | [], t => some t
  | s, [] => some s
  | a :: s, b :: t =>
    if a = b ∨ b = 1 then (broadcastShape s t).map (a :: ·)
    else if a = 1 then (broadcastShape s t).map (b :: ·)
    else none

theorem length_broadcastShape {s t r : List ℕ} (h : broadcastShape s t = some r) :
    r.length = max s.length t.length := by
  induction s generalizing t r with
  | nil =>
    obtain rfl : t = r := by simpa [broadcastShape] using h
    simp
  | cons a s ih =>
    cases t with
    | nil =>
      obtain rfl : a :: s = r := by simpa [broadcastShape] using h
      simp
    | cons b t =>
      simp only [broadcastShape] at h
      split_ifs at h
      all_goals
        obtain ⟨u, hu, rfl⟩ := Option.map_eq_some_iff.mp h
        simp only [List.length_cons, ih hu]
        omega

/-- `f` on the elements of two tensors expanded to their common shape. -/
def zipBroadcast {γ : Type*} (f : α → β → γ) (a : Tensor α) (b : Tensor β) :
    Option (Tensor γ) :=
  (broadcastShape a.shape.reverse b.shape.reverse).bind fun s =>
    (a.expand s.reverse).bind fun a' => broadcastWith f a' b

theorem length_shape_zipBroadcast {γ : Type*} {f : α → β → γ} {a : Tensor α} {b : Tensor β}
    {c : Tensor γ} (h : zipBroadcast f a b = some c) :
    c.shape.length = max a.shape.length b.shape.length := by
  obtain ⟨s, hs, h⟩ := Option.bind_eq_some_iff.mp h
  obtain ⟨a', ha', h⟩ := Option.bind_eq_some_iff.mp h
  have hc : c.shape = a'.shape := by
    unfold broadcastWith at h
    split at h
    · cases h
    · cases h
      rfl
  rw [hc, expand_shape ha', List.length_reverse, length_broadcastShape hs]
  simp

theorem broadcastShape_self (s : List ℕ) : broadcastShape s s = some s := by
  induction s with
  | nil => rfl
  | cons a s ih => simp [broadcastShape, ih]

theorem zipBroadcast_last {γ : Type*} {f : α → β → γ} {a : Tensor α} {b : Tensor β}
    {init : List ℕ} {c : ℕ} (ha : a.shape = init ++ [c]) (hb : b.shape = init ++ [1]) :
    ∃ r, zipBroadcast f a b = some r ∧ r.shape = a.shape ∧
      ∀ (i : ℕ) (x : α) (y : β) (z : γ), i < a.data.length →
        r.data.getD i z = f (a.data.getD i x) (b.data.getD (i / c) y) := by
  have hs : broadcastShape a.shape.reverse b.shape.reverse = some a.shape.reverse := by
    simp [ha, hb, broadcastShape, broadcastShape_self]
  have he : Expandable b.shape.reverse a.shape.reverse := by
    simp [ha, hb, Expandable, expandable_self]
  obtain ⟨r, hr, hrs, hget⟩ := broadcastWith_getD (f := f) he
  refine ⟨r, ?_, hrs, fun i x y z hi => ?_⟩
  · rw [zipBroadcast, hs, Option.bind_some, List.reverse_reverse, expand_self, Option.bind_some, hr]
  · have hq : i / c < init.reverse.prod := by
      rw [a.length_data, ha, List.prod_append, List.prod_singleton] at hi
      rw [List.prod_reverse]
      exact Nat.div_lt_of_lt_mul (by rwa [Nat.mul_comm])
    rw [hget i x y z hi]
    simp [ha, hb, expandIndex, expandIndex_self hq]

/-- `t.repeat_interleave(k, dim=-1)`. -/
def repeatInterleave (k : ℕ) (t : Tensor α) : Option (Tensor α) :=
  if h : t.shape = [] then none
  else
    some {
      shape := t.shape.dropLast ++ [t.shape.getLast h * k]
      data := t.data.flatMap (List.replicate k)
      length_data := by
        have hs := congrArg List.prod (List.dropLast_append_getLast h)
        rw [List.prod_append, List.prod_singleton] at hs
        simp [← mul_assoc, hs, t.length_data] }

theorem getD_flatMap_replicate {k : ℕ} (hk : 0 < k) (l : List α) (i : ℕ) (d : α) :
    (l.flatMap (List.replicate k)).getD i d = l.getD (i / k) d := by
  induction l generalizing i with
  | nil => simp
  | cons a l ih =>
    rw [List.flatMap_cons]
    by_cases hi : i < k
    · rw [List.getD_append _ _ _ _ (by simpa using hi), Nat.div_eq_of_lt hi]
      simp [List.getD, hi]
    · rw [List.getD_append_right _ _ _ _ (by simpa using hi), List.length_replicate, ih]
      have hq : i / k = (i - k) / k + 1 := by
        rw [Nat.div_eq_sub_div hk (not_lt.mp hi)]
      rw [hq, List.getD_cons_succ]

end Tensor

end K8sLearn
