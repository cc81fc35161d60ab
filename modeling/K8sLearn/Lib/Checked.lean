import Mathlib.Data.List.Forall2
import Mathlib.Order.Nat

/-! # Checks in order

Checks that raise stop at the first one that fails. A list of them succeeds where every
member does, and otherwise raises what its first failing member raises.
-/

namespace K8sLearn.Checked

variable {α β ε : Type}

theorem bind_eq_ok {x : Except ε α} {f : α → Except ε β} {b : β} :
    x.bind f = .ok b ↔ ∃ a, x = .ok a ∧ f a = .ok b := by
  constructor
  · intro h
    cases x with
    | error e => cases h
    | ok a => exact ⟨a, rfl, h⟩
  · rintro ⟨a, rfl, h⟩
    exact h

theorem bind_eq_error {x : Except ε α} {f : α → Except ε β} {e : ε} :
    x.bind f = .error e ↔ x = .error e ∨ ∃ a, x = .ok a ∧ f a = .error e := by
  constructor
  · intro h
    cases x with
    | error e' => exact .inl (congrArg Except.error (Except.error.inj h))
    | ok a => exact .inr ⟨a, rfl, h⟩
  · rintro (rfl | ⟨a, rfl, h⟩)
    · rfl
    · exact h

variable {f : α × ℕ → Except ε β} {l : List α} {n : ℕ}

theorem mapM_cons_eq {g : α → Except ε β} {a : α} :
    (a :: l).mapM g = (g a).bind fun b => (l.mapM g).bind fun bs => .ok (b :: bs) :=
  List.mapM_cons

theorem mapM_zipIdx_eq_ok_iff {R : α → β → Prop} (h : ∀ a i b, f (a, i) = .ok b ↔ R a b)
    {bs : List β} : (l.zipIdx n).mapM f = .ok bs ↔ List.Forall₂ R l bs := by
  induction l generalizing n bs with
  | nil =>
    rw [List.zipIdx_nil, List.mapM_nil, List.forall₂_nil_left_iff]
    exact ⟨fun h => (Except.ok.inj h).symm, fun h => h ▸ rfl⟩
  | cons a l ih =>
    rw [List.zipIdx_cons, mapM_cons_eq, bind_eq_ok]
    simp only [bind_eq_ok, h, ih]
    constructor
    · rintro ⟨b, hb, bs', hbs, h⟩
      obtain rfl := Except.ok.inj h
      exact .cons hb hbs
    · rintro (_ | ⟨hb, hbs⟩)
      exact ⟨_, hb, _, hbs, rfl⟩

/-- What the checks raise is what their first failing member raises. -/
theorem exists_of_mapM_zipIdx_eq_error {e : ε} (h : (l.zipIdx n).mapM f = .error e) :
    ∃ i a, l[i]? = some a ∧ f (a, n + i) = .error e ∧
      ∀ j < i, ∀ a, l[j]? = some a → ∃ b, f (a, n + j) = .ok b := by
  induction l generalizing n with
  | nil => cases h
  | cons a l ih =>
    rw [List.zipIdx_cons, mapM_cons_eq] at h
    rcases bind_eq_error.mp h with h | ⟨b, hb, h⟩
    · exact ⟨0, a, rfl, h, fun j hj => absurd hj (Nat.not_lt_zero j)⟩
    · rcases bind_eq_error.mp h with h | ⟨bs, -, h⟩
      · obtain ⟨i, c, hi, hc, hbefore⟩ := ih h
        refine ⟨i + 1, c, hi, by rw [Nat.add_comm i, ← Nat.add_assoc]; exact hc, ?_⟩
        rintro (_ | j) hj d hd
        · obtain rfl := Option.some.inj hd
          exact ⟨b, hb⟩
        · rw [Nat.add_comm j, ← Nat.add_assoc]
          exact hbefore j (Nat.lt_of_succ_lt_succ hj) d hd
      · cases h

theorem exists_mapM {α β : Type*} {f : α → Option β} {P : β → Prop} {l : List α}
    (h : ∀ a ∈ l, ∃ b, f a = some b ∧ P b) : ∃ r, l.mapM f = some r ∧ ∀ b ∈ r, P b := by
  induction l with
  | nil => exact ⟨[], rfl, nofun⟩
  | cons a l ih =>
    obtain ⟨b, hb, hP⟩ := h a List.mem_cons_self
    obtain ⟨bs, hbs, hPs⟩ := ih fun c hc => h c (List.mem_cons_of_mem _ hc)
    refine ⟨b :: bs, by rw [List.mapM_cons, hb, hbs]; rfl, ?_⟩
    rw [List.forall_mem_cons]
    exact ⟨hP, hPs⟩

theorem exists_foldlM {α σ : Type*} {I : σ → Prop} {f : σ → α → Option σ} {l : List α} {s : σ}
    (hstep : ∀ a ∈ l, ∀ s, I s → ∃ s', f s a = some s' ∧ I s') (h : I s) :
    ∃ s', l.foldlM f s = some s' ∧ I s' := by
  induction l generalizing s with
  | nil => exact ⟨s, rfl, h⟩
  | cons a l ih =>
    obtain ⟨s', hs', hi⟩ := hstep a List.mem_cons_self s h
    obtain ⟨t, ht, hit⟩ := ih (fun b hb => hstep b (List.mem_cons_of_mem _ hb)) hi
    exact ⟨t, by rw [List.foldlM_cons, hs']; exact ht, hit⟩

end K8sLearn.Checked
