import Mathlib.Data.List.Nodup
import Mathlib.Logic.Function.Basic

/-! # Differences of maps

A change says what a key held and what it holds. The changes between two maps, over keys that
cover their differences, lead from the first to the second when they are applied one by one,
each only where it finds what it says, and back when they are taken back in reverse order.
-/

namespace K8sLearn.Patch

variable {κ β : Type*} [DecidableEq β]

structure Change (κ β : Type*) where
  key : κ
  before : β
  after : β

def change (f g : κ → β) (k : κ) : Option (Change κ β) :=
  if f k = g k then none else some ⟨k, f k, g k⟩

def diff (ks : List κ) (f g : κ → β) : List (Change κ β) := ks.filterMap (change f g)

variable {c : Change κ β} {cs cs' : List (Change κ β)} {f g h : κ → β} {ks : List κ}

theorem mem_diff : c ∈ diff ks f g ↔
    c.key ∈ ks ∧ f c.key ≠ g c.key ∧ c.before = f c.key ∧ c.after = g c.key := by
  obtain ⟨k, before, after⟩ := c
  simp only [diff, List.mem_filterMap, change]
  constructor
  · rintro ⟨k', hk', heq⟩
    split_ifs at heq with hne
    obtain ⟨rfl, rfl, rfl⟩ := Change.mk.inj (Option.some.inj heq)
    exact ⟨hk', hne, rfl, rfl⟩
  · rintro ⟨hk, hne, rfl, rfl⟩
    exact ⟨k, hk, if_neg hne⟩

variable [DecidableEq κ]

/-- A change is applied where its key holds what it says. -/
def Change.apply (c : Change κ β) (f : κ → β) : Option (κ → β) :=
  if f c.key = c.before then some (Function.update f c.key c.after) else none

def replay (cs : List (Change κ β)) (f : κ → β) : Option (κ → β) :=
  cs.foldlM (fun f c => c.apply f) f

def Change.inv (c : Change κ β) : Change κ β := ⟨c.key, c.after, c.before⟩

def inverse (cs : List (Change κ β)) : List (Change κ β) := (cs.map Change.inv).reverse

theorem replay_cons : replay (c :: cs) f = (c.apply f).bind (replay cs) := by
  rw [replay, List.foldlM_cons]
  rfl

theorem replay_append : replay (cs ++ cs') f = (replay cs f).bind (replay cs') := by
  rw [replay, List.foldlM_append]
  rfl

theorem replay_diff_on (hks : ks.Nodup) (hf : ∀ k ∈ ks, h k = f k) :
    replay (diff ks f g) h = some fun k => if k ∈ ks then g k else h k := by
  induction ks generalizing h with
  | nil => simp [diff, replay]
  | cons k ks ih =>
    obtain ⟨hk, hks⟩ := List.nodup_cons.mp hks
    obtain ⟨hfk, hfks⟩ := List.forall_mem_cons.mp hf
    by_cases heq : f k = g k
    · have hskip : diff (k :: ks) f g = diff ks f g :=
        List.filterMap_cons_none (if_pos heq)
      rw [hskip, ih hks hfks]
      congr 1
      ext j
      by_cases hj : j = k
      · subst hj
        simp [hk, hfk, heq]
      · simp [hj]
    · have hstep : diff (k :: ks) f g = ⟨k, f k, g k⟩ :: diff ks f g :=
        List.filterMap_cons_some (if_neg heq)
      have hrest : ∀ j ∈ ks, Function.update h k (g k) j = f j := by
        intro j hj
        rw [Function.update_of_ne fun hjk : j = k => hk (hjk ▸ hj)]
        exact hfks j hj
      rw [hstep, replay_cons, Change.apply, if_pos hfk, Option.bind_some, ih hks hrest]
      congr 1
      ext j
      by_cases hj : j = k
      · subst hj
        simp [hk]
      · simp [hj]

theorem replay_diff (hks : ks.Nodup) (hout : ∀ k, k ∉ ks → f k = g k) :
    replay (diff ks f g) f = some g := by
  rw [replay_diff_on hks fun _ _ => rfl]
  congr 1
  ext k
  split_ifs with hk
  · rfl
  · exact hout k hk

theorem Change.apply_inv (hc : c.apply f = some g) : c.inv.apply g = some f := by
  unfold Change.apply at hc
  split_ifs at hc with hbefore
  obtain rfl := Option.some.inj hc
  rw [Change.apply, Change.inv, Function.update_self, if_pos rfl, Function.update_idem, ← hbefore,
    Function.update_eq_self]

theorem replay_inverse (hcs : replay cs f = some g) : replay (inverse cs) g = some f := by
  induction cs generalizing f with
  | nil =>
    obtain rfl := Option.some.inj hcs
    rfl
  | cons c cs ih =>
    rw [replay_cons] at hcs
    obtain ⟨h, hc, hcs⟩ := Option.bind_eq_some_iff.mp hcs
    have hlast : replay [c.inv] h = some f := by
      rw [replay_cons, c.apply_inv hc]
      rfl
    rw [inverse, List.map_cons, List.reverse_cons, replay_append, ← inverse, ih hcs,
      Option.bind_some, hlast]

end K8sLearn.Patch
