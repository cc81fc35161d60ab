import Mathlib.Data.List.MinMax
import Mathlib.Data.Finset.Lattice.Fold
import K8sLearn.Hif4.Scales

/-! # The scale search

The candidate loop of `_quantize_hif4_impl` runs over all blocks at once: it keeps
the best error, scale and micro-exponents of every block, skips a candidate that
improves no block, and takes the first improving candidate's tensors whole. Block
by block this is the first candidate of least error.
-/

namespace K8sLearn.Hif4

def amax (w : Block ℚ) : ℚ :=
  Finset.univ.sup' Finset.univ_nonempty fun t : Fin 8 × Fin 2 × Fin 4 => |w t.1 t.2.1 t.2.2|

theorem abs_le_amax (w : Block ℚ) (i : Fin 8) (j : Fin 2) (k : Fin 4) : |w i j k| ≤ amax w :=
  Finset.le_sup' (fun t : Fin 8 × Fin 2 × Fin 4 => |w t.1 t.2.1 t.2.2|) (Finset.mem_univ (i, j, k))

theorem exists_abs_eq_amax (w : Block ℚ) : ∃ i j k, |w i j k| = amax w := by
  obtain ⟨t, -, ht⟩ := Finset.exists_mem_eq_sup' Finset.univ_nonempty
    fun t : Fin 8 × Fin 2 × Fin 4 => |w t.1 t.2.1 t.2.2|
  exact ⟨t.1, t.2.1, t.2.2, ht.symm⟩

theorem amax_nonneg (w : Block ℚ) : 0 ≤ amax w := (abs_nonneg _).trans (abs_le_amax w 0 0 0)

/-- `(max_64 / 7.0).clamp(min=2.0 ** (-48))`. -/
def target (w : Block ℚ) : ℚ := max (amax w / 7) (2 ^ (-48 : ℤ))

def candidates (n : ℕ) (w : Block ℚ) : List ℚ := e6m2Candidates (target w) n

section Position

variable {w : Block ℚ}

def position (w : Block ℚ) : ℕ := searchsorted generateE6m2Table (target w)

theorem amax_le_of_position_le {i : ℕ} (hi : i < 255) (h : position w ≤ i) :
    amax w ≤ 7 * e6m2 i := by
  have ht : target w ≤ e6m2 i :=
    not_lt.mp fun hlt => absurd ((e6m2_lt_iff_lt_searchsorted _ hi).mp hlt) (not_lt.mpr h)
  have ha : amax w / 7 ≤ target w := le_max_left _ _
  linarith

theorem lt_amax_of_lt_position {i : ℕ} (hi : i < 255) (h : i < position w) :
    7 * e6m2 i < amax w := by
  have ht : e6m2 i < target w := (e6m2_lt_iff_lt_searchsorted _ hi).mpr h
  have h0 : (2 : ℚ) ^ (-48 : ℤ) ≤ e6m2 i := by
    rw [← e6m2_zero]
    exact e6m2_strictMono.monotone (Nat.zero_le i)
  rcases lt_max_iff.mp ht with ht | ht
  · linarith
  · exact absurd ht (not_lt.mpr h0)

theorem e6m2_mem {i : ℕ} (hi : i < 255) : e6m2 i ∈ generateE6m2Table :=
  mem_generateE6m2Table.mpr ⟨i, hi, rfl⟩

theorem mem_candidates {h i : ℕ} (h2 : 2 ≤ h) (h127 : h ≤ 127) (hi : i < 255)
    (hl : position w ≤ i + h) (hu : i ≤ position w + h) : e6m2 i ∈ candidates (2 * h + 1) w :=
  mem_e6m2Candidates h2 h127 hi hl hu

theorem mem_candidates_three {i : ℕ} (hi : i < 255) (hl : position w ≤ i + 1)
    (hu : i ≤ position w) : e6m2 i ∈ candidates 3 w :=
  mem_e6m2Candidates_three hi hl hu

end Position

/-- The loop variables; a missing best error is infinity. -/
structure SearchState (ι : Type) where
  bestMse : ι → WithTop ℚ
  bestSf : ι → ℚ
  best : Option (ι → Micro)

variable {ι : Type} [Fintype ι]

def searchStep (w : ι → Block ℚ) (imp : ι → Option (Block ℚ)) (st : SearchState ι)
    (sf : ι → ℚ) : SearchState ι :=
  let micro b := (quantizeBlockGivenScale (w b) (sf b) (imp b)).1
  let mse b := (quantizeBlockGivenScale (w b) (sf b) (imp b)).2
  let improved b := decide ((mse b : WithTop ℚ) < st.bestMse b)
  if ∃ b, improved b then
    { bestMse := fun b => if improved b then mse b else st.bestMse b
      bestSf := fun b => if improved b then sf b else st.bestSf b
      best := match st.best with
        | none => some micro
        | some old => some fun b => if improved b then micro b else old b }
  else st

def searchLoop (w : ι → Block ℚ) (imp : ι → Option (Block ℚ)) (n : ℕ) : ι → Encoding :=
  let cands : List (ι → ℚ) := (List.range n).map fun ci b => (candidates n (w b)).getD ci 0
  let st := cands.foldl (searchStep w imp) ⟨fun _ => ⊤, fun _ => 0, none⟩
  match st.best with
  | some micro => fun b => { toMicro := micro b, scaleFactor := st.bestSf b }
  | none => fun b =>
    let sf0 := (candidates n (w b)).getD 0 0
    { toMicro := (quantizeBlockGivenScale (w b) sf0 (imp b)).1, scaleFactor := sf0 }

/-- The first candidate of least error. -/
def searchBlock (n : ℕ) (w : Block ℚ) (imp : Option (Block ℚ)) : Encoding :=
  encodeAt w (((candidates n w).argmin fun s => mseAt w s imp).getD 0) imp

/-- After at least one candidate, every block holds its first candidate of least error. -/
def Tracks (w : ι → Block ℚ) (imp : ι → Option (Block ℚ)) (cands : List (ι → ℚ))
    (st : SearchState ι) : Prop :=
  ∃ micro, st.best = some micro ∧ ∀ b,
    ∃ s ∈ (cands.map (· b)).argmin fun s => mseAt (w b) s (imp b),
      st.bestMse b = mseAt (w b) s (imp b) ∧ st.bestSf b = s ∧
        micro b = (encodeAt (w b) s (imp b)).toMicro

theorem searchStep_first [Nonempty ι] (w : ι → Block ℚ) (imp : ι → Option (Block ℚ))
    (sf₀ sf : ι → ℚ) : Tracks w imp [sf] (searchStep w imp ⟨fun _ => ⊤, sf₀, none⟩ sf) := by
  refine ⟨fun b => (encodeAt (w b) (sf b) (imp b)).toMicro, ?_, fun b => ⟨sf b, by simp, ?_⟩⟩
  · simp [searchStep, encodeAt]
  · simp [searchStep, encodeAt, mseAt]

theorem Tracks.searchStep {w : ι → Block ℚ} {imp : ι → Option (Block ℚ)} {cands : List (ι → ℚ)}
    {st : SearchState ι} (h : Tracks w imp cands st) (sf : ι → ℚ) :
    Tracks w imp (cands ++ [sf]) (searchStep w imp st sf) := by
  obtain ⟨micro, hbest, hb⟩ := h
  have hconcat : ∀ b, ∀ s ∈ (cands.map (· b)).argmin fun s => mseAt (w b) s (imp b),
      ((cands ++ [sf]).map (· b)).argmin (fun s => mseAt (w b) s (imp b)) =
        if mseAt (w b) (sf b) (imp b) < mseAt (w b) s (imp b) then some (sf b) else some s := by
    intro b s hs
    rw [Option.mem_def] at hs
    rw [List.map_append, List.map_singleton, List.argmin_concat, hs]
  simp only [Hif4.searchStep, hbest]
  split_ifs with him
  · refine ⟨_, rfl, fun b => ?_⟩
    obtain ⟨s, hs, hmse, hsf, hm⟩ := hb b
    rw [hconcat b s hs]
    by_cases hlt : mseAt (w b) (sf b) (imp b) < mseAt (w b) s (imp b)
    · have hi : ((quantizeBlockGivenScale (w b) (sf b) (imp b)).2 : WithTop ℚ) < st.bestMse b := by
        rw [hmse]; exact_mod_cast hlt
      exact ⟨sf b, by simp [hlt], by simp [hi, mseAt], by simp [hi], by simp [hi, encodeAt]⟩
    · have hi : ¬ ((quantizeBlockGivenScale (w b) (sf b) (imp b)).2 : WithTop ℚ) <
          st.bestMse b := by
        rw [hmse]; exact_mod_cast hlt
      exact ⟨s, by simp [hlt], by simpa [hi] using hmse, by simp [hi, hsf], by simp [hi, hm]⟩
  · refine ⟨micro, hbest, fun b => ?_⟩
    obtain ⟨s, hs, hmse, hsf, hm⟩ := hb b
    have hlt : ¬ mseAt (w b) (sf b) (imp b) < mseAt (w b) s (imp b) := by
      intro hlt
      refine him ⟨b, decide_eq_true ?_⟩
      rw [hmse]; exact_mod_cast hlt
    exact ⟨s, by rw [hconcat b s hs]; simp [hlt], hmse, hsf, hm⟩

theorem tracks_foldl [Nonempty ι] (w : ι → Block ℚ) (imp : ι → Option (Block ℚ))
    (sf₀ : ι → ℚ) (cands : List (ι → ℚ)) (h : cands ≠ []) :
    Tracks w imp cands (cands.foldl (searchStep w imp) ⟨fun _ => ⊤, sf₀, none⟩) := by
  induction cands using List.reverseRecOn with
  | nil => exact absurd rfl h
  | append_singleton cands sf ih =>
    rw [List.foldl_append, List.foldl_cons, List.foldl_nil]
    cases cands with
    | nil => exact searchStep_first w imp sf₀ sf
    | cons c cs => exact (ih (by simp)).searchStep sf

theorem searchLoop_eq (w : ι → Block ℚ) (imp : ι → Option (Block ℚ)) {n : ℕ} (hn : 2 ≤ n)
    (b : ι) : searchLoop w imp n b = searchBlock n (w b) (imp b) := by
  have : Nonempty ι := ⟨b⟩
  have hlen : (candidates n (w b)).length = n := by
    rw [candidates, length_e6m2Candidates, length_candidateOffsets hn]
  have hrow : ((List.range n).map fun ci (b : ι) => (candidates n (w b)).getD ci 0).map (· b) =
      candidates n (w b) := by
    apply List.ext_getElem (by simp [hlen])
    intro ci h₁ h₂
    simp [List.getD, h₂]
  obtain ⟨micro, hbest, hb⟩ := tracks_foldl w imp (fun _ => 0)
    ((List.range n).map fun ci b => (candidates n (w b)).getD ci 0) (by simp; omega)
  obtain ⟨s, hs, -, hsf, hm⟩ := hb b
  rw [hrow, Option.mem_def] at hs
  simp only [searchLoop, hbest, hm, hsf, searchBlock, hs, Option.getD_some]
  rfl

theorem exists_argmin {α : Type*} (f : α → ℚ) {l : List α} (h : l ≠ []) :
    ∃ a ∈ l, l.argmin f = some a ∧ ∀ b ∈ l, f a ≤ f b := by
  cases ha : l.argmin f with
  | none => exact absurd (List.argmin_eq_none.mp ha) h
  | some a => exact ⟨a, List.argmin_mem ha, rfl, fun b hb => List.le_of_mem_argmin hb ha⟩

variable {n : ℕ} {w : Block ℚ} {imp : Option (Block ℚ)}

theorem exists_searchBlock (hn : 2 ≤ n) (w : Block ℚ) (imp : Option (Block ℚ)) :
    ∃ s ∈ candidates n w, searchBlock n w imp = encodeAt w s imp ∧
      ∀ s' ∈ candidates n w, mseAt w s imp ≤ mseAt w s' imp := by
  have hne : candidates n w ≠ [] := by
    rw [← List.length_pos_iff, candidates, length_e6m2Candidates, length_candidateOffsets hn]
    omega
  obtain ⟨s, hs, harg, hmin⟩ := exists_argmin (fun s => mseAt w s imp) hne
  exact ⟨s, hs, by rw [searchBlock, harg, Option.getD_some], hmin⟩

theorem searchBlock_legal (hn : 2 ≤ n) : (searchBlock n w imp).Legal := by
  obtain ⟨s, hs, he, -⟩ := exists_searchBlock hn w imp
  rw [he]
  exact encodeAt_legal (mem_table_of_mem_e6m2Candidates hs)

theorem searchBlock_le (hn : 2 ≤ n) (hp : ∀ i j k, 0 ≤ weights imp i j k) {e : Encoding}
    (he : e.Legal) (hes : e.scaleFactor ∈ candidates n w) :
    sqDist (weights imp) (searchBlock n w imp).value w ≤ sqDist (weights imp) e.value w := by
  obtain ⟨s, hs, hsb, hmin⟩ := exists_searchBlock hn w imp
  obtain ⟨c, hc, hmse⟩ := exists_mseAt_eq w imp
  have hle := hmin _ hes
  rw [hmse, hmse, mul_le_mul_iff_right₀ hc] at hle
  have hpos : 0 < e.scaleFactor := by
    obtain ⟨i, -, hi⟩ := mem_generateE6m2Table.mp he.scaleFactor_mem
    rw [← hi]; exact e6m2_pos i
  rw [hsb]
  exact hle.trans (encodeAt_optimal hpos hp (Encoding.legal_iff.mp he).2)

end K8sLearn.Hif4
