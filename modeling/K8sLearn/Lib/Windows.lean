import Mathlib.Data.List.Chain
import Mathlib.Data.List.Infix
import Mathlib.Data.List.TakeDrop

/-! # Windows over a list

A list is cut into windows of a size, each starting a fixed number of places before the
end of the one before it; the last one may be shorter. What is left out of no window, what
two neighbours share and how the list is put together again.
-/

namespace K8sLearn.Windows

variable {α : Type*} {size overlap : ℕ} {l : List α} {ws : List (List α)}

inductive Cut (size overlap : ℕ) : List α → List (List α) → Prop
  | last {l : List α} : l ≠ [] → l.length ≤ size → Cut size overlap l [l]
  | next {l : List α} {ws : List (List α)} : size < l.length →
      Cut size overlap (l.drop (size - overlap)) ws → Cut size overlap l (l.take size :: ws)

/-- The second list goes on where the first one has its last `overlap` elements. -/
def Overlaps (overlap : ℕ) (a b : List α) : Prop :=
  ∃ u v w, a = u ++ v ∧ b = v ++ w ∧ v.length = overlap ∧ u ≠ [] ∧ w ≠ []

/-- The windows put together, without what is repeated. -/
def glue (overlap : ℕ) : List (List α) → List α
  | [] => []
  | w :: ws => w ++ ws.flatMap (List.drop overlap)

namespace Cut

theorem ne_nil (h : Cut size overlap l ws) : ws ≠ [] := by
  cases h <;> exact List.cons_ne_nil _ _

theorem mem_ne_nil (hs : overlap < size) (h : Cut size overlap l ws) : ∀ w ∈ ws, w ≠ [] := by
  induction h with
  | last hl _ => simpa using hl
  | @next l ws hl _ ih =>
    intro w hw
    rcases List.mem_cons.mp hw with rfl | hw
    · rw [← List.length_pos_iff, List.length_take]
      omega
    · exact ih w hw

theorem length_le (h : Cut size overlap l ws) : ∀ w ∈ ws, w.length ≤ size := by
  induction h with
  | last _ hl => simpa using hl
  | next _ _ ih =>
    intro w hw
    rcases List.mem_cons.mp hw with rfl | hw
    · exact List.length_take_le _ _
    · exact ih w hw

theorem isInfix (h : Cut size overlap l ws) : ∀ w ∈ ws, w <:+: l := by
  induction h with
  | last _ _ => simp
  | next _ _ ih =>
    intro w hw
    rcases List.mem_cons.mp hw with rfl | hw
    · exact (List.take_prefix _ _).isInfix
    · exact (ih w hw).trans (List.drop_suffix _ _).isInfix

theorem le_length (hs : overlap < size) (h : Cut size overlap l ws) :
    ∀ w ∈ ws, w = l ∨ overlap < w.length := by
  induction h with
  | last _ _ => simp
  | @next l ws hl _ ih =>
    intro w hw
    rcases List.mem_cons.mp hw with rfl | hw
    · right
      rw [List.length_take]
      omega
    · rcases ih w hw with rfl | hw
      · right
        rw [List.length_drop]
        omega
      · exact Or.inr hw

/-- The first window begins the list, and goes on past what it shares with the next one. -/
theorem exists_cons (hs : overlap < size) (h : Cut size overlap l ws) (hl : overlap < l.length) :
    ∃ w ws', ws = w :: ws' ∧ w <+: l ∧ overlap < w.length := by
  cases h with
  | last _ _ => exact ⟨l, [], rfl, List.prefix_refl _, hl⟩
  | next hlen _ =>
    refine ⟨_, _, rfl, List.take_prefix _ _, ?_⟩
    rw [List.length_take]
    omega

theorem isChain (hs : overlap < size) (h : Cut size overlap l ws) :
    ws.IsChain (Overlaps overlap) := by
  induction h with
  | last _ _ => exact List.isChain_singleton _
  | @next l ws hl hws ih =>
    obtain ⟨w, ws', rfl, hw, hlen⟩ := hws.exists_cons hs (by rw [List.length_drop]; omega)
    refine List.isChain_cons_cons.mpr ⟨?_, ih⟩
    refine ⟨l.take (size - overlap), (l.drop (size - overlap)).take overlap, w.drop overlap,
      ?_, ?_, ?_, ?_, ?_⟩
    · rw [← List.take_add, Nat.sub_add_cancel hs.le]
    · obtain ⟨t, ht⟩ := hw
      rw [← ht, List.take_append_of_le_length hlen.le, List.take_append_drop]
    · rw [List.length_take, List.length_drop]
      omega
    · rw [← List.length_pos_iff, List.length_take]
      omega
    · rw [← List.length_pos_iff, List.length_drop]
      omega

theorem glue_eq (hs : overlap < size) (h : Cut size overlap l ws) : glue overlap ws = l := by
  induction h with
  | last _ _ => simp [glue]
  | @next l ws hl hws ih =>
    obtain ⟨w, ws', rfl, hw, hlen⟩ := hws.exists_cons hs (by rw [List.length_drop]; omega)
    have hglue : w.drop overlap ++ ws'.flatMap (List.drop overlap) =
        (glue overlap (w :: ws')).drop overlap := by
      rw [glue, List.drop_append_of_le_length hlen.le]
    rw [glue, List.flatMap_cons, hglue, ih, List.drop_drop, Nat.sub_add_cancel hs.le,
      List.take_append_drop]

theorem exists_window (hs : overlap < size) (h : Cut size overlap l ws) {i : ℕ}
    (hi : i < l.length) : ∃ w ∈ ws, ∃ k ≤ i, i < k + w.length ∧ w <+: l.drop k := by
  induction h generalizing i with
  | @last l _ _ => exact ⟨l, List.mem_singleton_self _, 0, i.zero_le, by simpa using hi, by simp⟩
  | @next l ws hl _ ih =>
    rcases Nat.lt_or_ge i size with hlt | hge
    · refine ⟨_, List.mem_cons_self, 0, i.zero_le, ?_, List.take_prefix _ _⟩
      rw [List.length_take]
      omega
    · obtain ⟨w, hw, k, hk, hik, hp⟩ := ih (i := i - (size - overlap)) (by
        rw [List.length_drop]
        omega)
      refine ⟨w, List.mem_cons_of_mem _ hw, size - overlap + k, by omega, by omega, ?_⟩
      rwa [List.drop_drop] at hp

end Cut

end K8sLearn.Windows
