import Mathlib.Tactic.Common

/-! # Loops that break or raise

A pass of a loop body ends in one of three ways and leaves the variables behind,
also when it raises. `Sat` is the matching triple: one condition for going on, one for
leaving. The rule for `forEach` asks for an invariant over the items still to come.
-/

namespace K8sLearn

/-- How a pass of a loop body ends. -/
inductive Flow (ε σ : Type*) where
  | next (s : σ)
  | brk (s : σ)
  | raised (e : ε) (s : σ)

namespace Flow

variable {α ε σ : Type*}

def state : Flow ε σ → σ
  | next s | brk s | raised _ s => s

/-- One part of a body after another, unless the first leaves the pass. -/
def bind (r : Flow ε σ) (f : σ → Flow ε σ) : Flow ε σ :=
  match r with
  | next s => f s
  | brk s => .brk s
  | raised e s => .raised e s

/-- `for a in l: body`. -/
def forEach (body : α → σ → Flow ε σ) : List α → σ → Flow ε σ
  | [], s => .next s
  | a :: l, s => (body a s).bind (forEach body l)

/-- `P` holds when the pass goes on, `Q` when it breaks and `R` when it raises. -/
def Sat (P Q R : σ → Prop) : Flow ε σ → Prop
  | next s => P s
  | brk s => Q s
  | raised _ s => R s

variable {P P' Q R : σ → Prop} {r : Flow ε σ}

theorem sat_self_iff : r.Sat Q Q Q ↔ Q r.state := by
  cases r <;> exact Iff.rfl

theorem Sat.mono (hr : r.Sat P Q R) (h : ∀ s, P s → P' s) : r.Sat P' Q R := by
  cases r with
  | next s => exact h s hr
  | brk s => exact hr
  | raised e s => exact hr

theorem Sat.bind {f : σ → Flow ε σ} (hr : r.Sat P Q R) (hf : ∀ s, P s → (f s).Sat P' Q R) :
    (r.bind f).Sat P' Q R := by
  cases r with
  | next s => exact hf s hr
  | brk s => exact hr
  | raised e s => exact hr

theorem Sat.state (hr : r.Sat P Q Q) (h : ∀ s, P s → Q s) : Q r.state :=
  sat_self_iff.mp (hr.mono h)

variable {body : α → σ → Flow ε σ} {l : List α} {s : σ}

theorem forEach_sat {I : List α → σ → Prop}
    (hstep : ∀ a l s, I (a :: l) s → (body a s).Sat (I l) Q R) (h : I l s) :
    (forEach body l s).Sat (I []) Q R := by
  induction l generalizing s with
  | nil => exact h
  | cons a l ih =>
    apply (hstep a l s h).bind
    intro s' hs'
    exact ih hs'

theorem forEach_invariant {I : σ → Prop} (hstep : ∀ a ∈ l, ∀ s, I s → (body a s).Sat I Q R)
    (h : I s) : (forEach body l s).Sat I Q R := by
  apply (forEach_sat (I := fun l' s => (∀ a ∈ l', a ∈ l) ∧ I s) ?_ ⟨fun _ ha => ha, h⟩).mono
  · exact fun s hs => hs.2
  · rintro a l' s ⟨hl, hs⟩
    exact (hstep a (hl a (by simp)) s hs).mono fun s' hs' => ⟨fun b hb => hl b (by simp [hb]), hs'⟩

section Measure

variable {m : σ → ℕ} (hle : ∀ a ∈ l, ∀ s, (body a s).Sat (fun s' => m s ≤ m s') Q R)

include hle

theorem forEach_le {n : ℕ} (h : n ≤ m s) : (forEach body l s).Sat (fun s' => n ≤ m s') Q R := by
  apply forEach_invariant (I := fun s' => n ≤ m s') ?_ h
  intro a ha s hs
  exact (hle a ha s).mono fun s' hs' => Nat.le_trans hs hs'

theorem forEach_lt {a : α} (ha : a ∈ l)
    (hlt : ∀ s, (body a s).Sat (fun s' => m s < m s') Q R) :
    (forEach body l s).Sat (fun s' => m s < m s') Q R := by
  induction l generalizing s with
  | nil => cases ha
  | cons b l ih =>
    have hl : ∀ c ∈ l, ∀ s, (body c s).Sat (fun s' => m s ≤ m s') Q R :=
      fun c hc => hle c (by simp [hc])
    rcases List.mem_cons.mp ha with rfl | ha
    · apply (hlt s).bind
      intro s' hs'
      exact forEach_le hl hs'
    · apply (hle b (by simp) s).bind
      intro s' hs'
      exact (ih hl ha).mono fun s'' hs'' => by omega

end Measure

end Flow

end K8sLearn
