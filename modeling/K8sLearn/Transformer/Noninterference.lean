import Mathlib.Analysis.SpecialFunctions.Pow.Real
import Mathlib.Analysis.SpecialFunctions.Trigonometric.Basic
import K8sLearn.Transformer.Runs

/-! # What the masks hide

The target mask leaves to a position the tokens up to it that are no pads, so targets
with a common beginning have the same logits there. The source mask leaves the tokens
that are no pads, so pads appended to a source do not change any logit.
-/

namespace K8sLearn.Transformer

section Masks

variable {vocab : ℕ} {tokens tokens' : List (Fin vocab)} {padId : ℕ}

theorem padMask_ne_zero_iff {j : ℕ} :
    padMask tokens padId j ≠ 0 ↔ ∃ token, tokens[j]? = some token ∧ token.val ≠ padId := by
  unfold padMask
  cases tokens[j]? with
  | none => simp
  | some token => simp

theorem mem_unmasked_causal {n i j : ℕ} : j ∈ unmasked n (causal i) ↔ j < n ∧ j ≤ i := by
  rw [mem_unmasked, causal]
  by_cases h : j ≤ i <;> simp [h]

theorem mem_unmasked_tgt {n i j : ℕ} :
    j ∈ unmasked n (makeTgtMask tokens padId i) ↔
      (j < n ∧ j ≤ i) ∧ padMask tokens padId j ≠ 0 := by
  rw [mem_unmasked, makeTgtMask, Nat.mul_ne_zero_iff, ← mem_unmasked_causal, mem_unmasked, and_assoc]

theorem nonempty_unmasked_tgt {b : Fin vocab} (hb : tokens.head? = some b) (hpad : b.val ≠ padId)
    {i : ℕ} : (unmasked tokens.length (makeTgtMask tokens padId i)).Nonempty := by
  have h0 : tokens[0]? = some b := by rw [← List.head?_eq_getElem?, hb]
  refine ⟨0, mem_unmasked_tgt.mpr ⟨⟨?_, Nat.zero_le i⟩, padMask_ne_zero_iff.mpr ⟨b, h0, hpad⟩⟩⟩
  exact (List.getElem?_eq_some_iff.mp h0).1

theorem twin_makeTgtMask {t : ℕ} {b b' : Fin vocab} (hb : tokens.head? = some b)
    (hpad : b.val ≠ padId) (hb' : tokens'.head? = some b') (hpad' : b'.val ≠ padId)
    (ht : t ≤ tokens.length) (ht' : t ≤ tokens'.length)
    (heq : ∀ i < t, tokens[i]? = tokens'[i]?) :
    Twin t tokens.length tokens'.length (makeTgtMask tokens padId)
      (makeTgtMask tokens' padId) where
  le₁ := ht
  le₂ := ht'
  pos₁ := List.length_pos_iff.mpr (by rintro rfl; cases hb)
  pos₂ := List.length_pos_iff.mpr (by rintro rfl; cases hb')
  nonempty₁ _ _ := nonempty_unmasked_tgt hb hpad
  nonempty₂ _ _ := nonempty_unmasked_tgt hb' hpad'
  eq i hi := by
    ext j
    rw [mem_unmasked_tgt, mem_unmasked_tgt]
    constructor
    · rintro ⟨⟨-, hji⟩, hp⟩
      rw [padMask_ne_zero_iff, heq j (by omega), ← padMask_ne_zero_iff] at hp
      exact ⟨⟨by omega, hji⟩, hp⟩
    · rintro ⟨⟨-, hji⟩, hp⟩
      rw [padMask_ne_zero_iff, ← heq j (by omega), ← padMask_ne_zero_iff] at hp
      exact ⟨⟨by omega, hji⟩, hp⟩
  lt i hi j hj := by
    have hji := (mem_unmasked_tgt.mp hj).1.2
    omega

theorem unmasked_padMask_append (tokens : List (Fin vocab)) {pad : Fin vocab}
    (hp : pad.val = padId) (n : ℕ) :
    unmasked (tokens ++ List.replicate n pad).length
      (padMask (tokens ++ List.replicate n pad) padId) =
        unmasked tokens.length (padMask tokens padId) := by
  ext j
  simp only [mem_unmasked, padMask_ne_zero_iff]
  rcases Nat.lt_or_ge j tokens.length with hj | hj
  · rw [List.getElem?_append_left hj]
    constructor
    · exact fun h => ⟨hj, h.2⟩
    · exact fun h => ⟨by rw [List.length_append]; omega, h.2⟩
  · constructor
    · rintro ⟨-, token, ht, hne⟩
      rw [List.getElem?_append_right hj] at ht
      obtain rfl := List.eq_of_mem_replicate (List.mem_of_getElem? ht)
      exact absurd hp hne
    · exact fun h => absurd h.1 (not_lt.mpr hj)

theorem nonempty_unmasked_padMask {s : Fin vocab} (hs : s ∈ tokens) (hne : s.val ≠ padId) :
    (unmasked tokens.length (padMask tokens padId)).Nonempty := by
  obtain ⟨j, hj, hjs⟩ := List.getElem_of_mem hs
  refine ⟨j, mem_unmasked.mpr ⟨hj, padMask_ne_zero_iff.mpr ⟨s, ?_, hne⟩⟩⟩
  rw [List.getElem?_eq_getElem hj, hjs]

end Masks

section Forward

variable {K : Type*} [Field K] [LinearOrder K] (fn : Numerics K) {cfg : Config} (w : Weights K cfg)

theorem exists_forward_iff (src : List (Fin cfg.srcVocab)) (tgt : List (Fin cfg.tgtVocab))
    (srcMask tgtMask : Mask) :
    (∃ L, forward fn w src tgt srcMask tgtMask = some L) ↔
      cfg.Fits src.length ∧ cfg.Fits tgt.length := by
  rw [← exists_embed_iff fn w.srcEmb, ← exists_embed_iff fn w.tgtEmb]
  unfold forward encoder decoder
  constructor
  · rintro ⟨L, hL⟩
    obtain ⟨e, he, hL⟩ := Option.bind_eq_some_iff.mp hL
    obtain ⟨x, hx, -⟩ := Option.map_eq_some_iff.mp he
    obtain ⟨d, hd, -⟩ := Option.map_eq_some_iff.mp hL
    obtain ⟨y, hy, -⟩ := Option.map_eq_some_iff.mp hd
    exact ⟨⟨x, hx⟩, ⟨y, hy⟩⟩
  · rintro ⟨⟨x, hx⟩, ⟨y, hy⟩⟩
    rw [hx, hy]
    exact ⟨_, rfl⟩

/-- Later target tokens do not reach earlier logits. -/
theorem forward_prefix_eq (src : List (Fin cfg.srcVocab)) (f : ℕ → ℕ)
    {tgt₁ tgt₂ : List (Fin cfg.tgtVocab)} {t : ℕ} {m₁ m₂ : Mask}
    (hm : Twin t tgt₁.length tgt₂.length m₁ m₂) (heq : ∀ i < t, tgt₁[i]? = tgt₂[i]?)
    {L₁ L₂ : ℕ → Option (Fin cfg.tgtVocab → K)}
    (h₁ : forward fn w src tgt₁ (fun _ => f) m₁ = some L₁)
    (h₂ : forward fn w src tgt₂ (fun _ => f) m₂ = some L₂) : ∀ i < t, L₁ i = L₂ i := by
  obtain ⟨e, he, h₁⟩ := Option.bind_eq_some_iff.mp h₁
  obtain ⟨d₁, hd₁, rfl⟩ := Option.map_eq_some_iff.mp h₁
  rw [forward, he, Option.bind_some] at h₂
  obtain ⟨d₂, hd₂, rfl⟩ := Option.map_eq_some_iff.mp h₂
  intro i hi
  dsimp only
  rw [(decoder_paired fn w hm heq hd₁ hd₂).eq i hi]

/-- The logits are numbers when the source has a token that is no pad and every row of the target
mask leaves a key. -/
theorem forward_defined {src : List (Fin cfg.srcVocab)} {padId : ℕ} {s : Fin cfg.srcVocab}
    (hs : s ∈ src) (hne : s.val ≠ padId) {tgt : List (Fin cfg.tgtVocab)} {tgtMask : Mask}
    (hm : ∀ i < tgt.length, (unmasked tgt.length (tgtMask i)).Nonempty)
    {L : ℕ → Option (Fin cfg.tgtVocab → K)}
    (h : forward fn w src tgt (makeSrcMask src padId) tgtMask = some L) :
    ∀ i < tgt.length, (L i).isSome := by
  obtain ⟨e, he, h⟩ := Option.bind_eq_some_iff.mp h
  obtain ⟨d, hd, rfl⟩ := Option.map_eq_some_iff.mp h
  have hnon := nonempty_unmasked_padMask hs hne
  obtain ⟨hde, -, -⟩ := encoder_extend fn w le_rfl (fun _ _ => rfl) rfl hnon he he
  intro i hi
  simpa using decoder_defined fn w hm hde hnon hd i hi

theorem forward_pad_eq {src : List (Fin cfg.srcVocab)} {padId : ℕ} {s pad : Fin cfg.srcVocab}
    (hs : s ∈ src) (hne : s.val ≠ padId) (hpad : pad.val = padId) {n : ℕ}
    (hfit : cfg.Fits (src.length + n)) (tgt : List (Fin cfg.tgtVocab)) (tgtMask : Mask) :
    forward fn w (src ++ List.replicate n pad) tgt
        (makeSrcMask (src ++ List.replicate n pad) padId) tgtMask =
      forward fn w src tgt (makeSrcMask src padId) tgtMask := by
  have hfit₀ : cfg.Fits src.length := hfit.imp_left (Nat.le_of_add_right_le ·)
  have hlen : (src ++ List.replicate n pad).length = src.length + n := by simp
  obtain ⟨x, hx⟩ := (exists_embed_iff fn w.srcEmb src).mpr hfit₀
  obtain ⟨y, hy⟩ := (exists_embed_iff fn w.srcEmb (src ++ List.replicate n pad)).mpr
    (hlen ▸ hfit)
  obtain ⟨e, he⟩ : ∃ e, encoder fn w src (makeSrcMask src padId) = some e :=
    ⟨_, by rw [encoder, hx, Option.map_some]⟩
  obtain ⟨e', he'⟩ : ∃ e', encoder fn w (src ++ List.replicate n pad)
      (makeSrcMask (src ++ List.replicate n pad) padId) = some e' :=
    ⟨_, by rw [encoder, hy, Option.map_some]⟩
  have hun := (unmasked_padMask_append src hpad n).symm
  have hnon := nonempty_unmasked_padMask hs hne
  obtain ⟨hd, hd', heq⟩ := encoder_extend fn w (by rw [hlen]; omega)
    (fun i hi => (List.getElem?_append_left hi).symm) hun hnon he he'
  have hdec := decoder_congr fn w tgt tgtMask hd hd' hun hnon
    fun j hj => heq j (mem_unmasked.mp hj).1
  rw [forward, forward, he, he', Option.bind_some, Option.bind_some]
  exact congrArg _ hdec.symm

end Forward

noncomputable def realNumerics : Numerics ℝ := ⟨Real.exp, Real.log, Real.sqrt, Real.sin, Real.cos⟩

/-- Over the reals, whatever the weights and the numbers of layers and heads are: logits do not
depend on later target tokens when the target starts with a token that is no pad, and not on pad
tokens after a source that has another token. A source padded beyond the positional table is
refused. With such a target and source the logits are numbers. -/
theorem forward_noninterference (cfg : Config) (w : Weights ℝ cfg) (padId : ℕ) :
    (∀ (src : List (Fin cfg.srcVocab)) (tgt₁ tgt₂ : List (Fin cfg.tgtVocab)) (t : ℕ)
      (b₁ b₂ : Fin cfg.tgtVocab) (L₁ L₂ : ℕ → Option (Fin cfg.tgtVocab → ℝ)),
      tgt₁.head? = some b₁ → b₁.val ≠ padId → tgt₂.head? = some b₂ → b₂.val ≠ padId →
      t ≤ tgt₁.length → t ≤ tgt₂.length → tgt₁.take t = tgt₂.take t →
      forward realNumerics w src tgt₁ (makeSrcMask src padId) (makeTgtMask tgt₁ padId) = some L₁ →
      forward realNumerics w src tgt₂ (makeSrcMask src padId) (makeTgtMask tgt₂ padId) = some L₂ →
      (∀ i < t, L₁ i = L₂ i) ∧
        ((∃ s ∈ src, s.val ≠ padId) → ∀ i < tgt₁.length, (L₁ i).isSome)) ∧
    ∀ (src : List (Fin cfg.srcVocab)) (tgt : List (Fin cfg.tgtVocab)) (s pad : Fin cfg.srcVocab)
      (n : ℕ), s ∈ src → s.val ≠ padId → pad.val = padId →
      (cfg.Fits (src.length + n) →
        forward realNumerics w (src ++ List.replicate n pad) tgt
            (makeSrcMask (src ++ List.replicate n pad) padId) (makeTgtMask tgt padId) =
          forward realNumerics w src tgt (makeSrcMask src padId) (makeTgtMask tgt padId)) ∧
      (¬ cfg.Fits (src.length + n) →
        forward realNumerics w (src ++ List.replicate n pad) tgt
          (makeSrcMask (src ++ List.replicate n pad) padId) (makeTgtMask tgt padId) = none) := by
  constructor
  · intro src tgt₁ tgt₂ t b₁ b₂ L₁ L₂ hb₁ hp₁ hb₂ hp₂ ht₁ ht₂ htake h₁ h₂
    have heq : ∀ i < t, tgt₁[i]? = tgt₂[i]? := by
      intro i hi
      rw [← List.getElem?_take_of_lt hi, htake, List.getElem?_take_of_lt hi]
    refine ⟨forward_prefix_eq realNumerics w src _
      (twin_makeTgtMask hb₁ hp₁ hb₂ hp₂ ht₁ ht₂ heq) heq h₁ h₂, ?_⟩
    rintro ⟨s, hs, hne⟩
    exact forward_defined realNumerics w hs hne (fun _ _ => nonempty_unmasked_tgt hb₁ hp₁) h₁
  · intro src tgt s pad n hs hne hpad
    refine ⟨fun hfit => forward_pad_eq realNumerics w hs hne hpad hfit tgt _, fun hfit => ?_⟩
    rw [Option.eq_none_iff_forall_not_mem]
    intro L hL
    have hfits := ((exists_forward_iff realNumerics w _ tgt _ _).mp ⟨L, hL⟩).1
    exact hfit (by simpa using hfits)

section Tiny

/-- Three tokens on both sides, one head of two channels and four positions. -/
def tinyConfig : Config := ⟨3, 3, 1, 2, 2, 4, false, by norm_num⟩

def tinyWeights : Weights ℝ tinyConfig :=
  let attn : AttentionWeights ℝ := ⟨fun _ _ => 1, fun _ _ => 1⟩
  let norm : NormWeights ℝ := ⟨fun _ => 1, fun _ => 1⟩
  let ffn : FfnWeights ℝ := ⟨fun _ _ => 1, fun _ => 1, fun _ _ => 1, fun _ => 1⟩
  { srcEmb := fun _ _ => 1, encoderLayers := [⟨norm, attn, norm, ffn⟩], encoderNorm := norm
    tgtEmb := fun _ _ => 1, decoderLayers := [⟨norm, attn, norm, attn, norm, ffn⟩]
    decoderNorm := norm }

theorem tinyConfig_fits {n : ℕ} (h : n ≤ 4) : tinyConfig.Fits n := Or.inl h

theorem forward_noninterference_tiny :
    let src : List (Fin 3) := [2]
    let tgt₁ : List (Fin 3) := [1, 2]
    let tgt₂ : List (Fin 3) := [1, 0, 2]
    ∃ L₁ L₂, forward realNumerics tinyWeights src tgt₁ (makeSrcMask src 0) (makeTgtMask tgt₁ 0) =
        some L₁ ∧
      forward realNumerics tinyWeights src tgt₂ (makeSrcMask src 0) (makeTgtMask tgt₂ 0) =
        some L₂ ∧ L₁ 0 = L₂ 0 ∧ (L₁ 0).isSome ∧
      forward realNumerics tinyWeights (src ++ List.replicate 2 0) tgt₁
        (makeSrcMask (src ++ List.replicate 2 0) 0) (makeTgtMask tgt₁ 0) = some L₁ := by
  intro src tgt₁ tgt₂
  obtain ⟨h, hpad⟩ := forward_noninterference tinyConfig tinyWeights 0
  obtain ⟨L₁, h₁⟩ := (exists_forward_iff realNumerics tinyWeights src tgt₁ (makeSrcMask src 0)
    (makeTgtMask tgt₁ 0)).mpr ⟨tinyConfig_fits (by decide), tinyConfig_fits (by decide)⟩
  obtain ⟨L₂, h₂⟩ := (exists_forward_iff realNumerics tinyWeights src tgt₂ (makeSrcMask src 0)
    (makeTgtMask tgt₂ 0)).mpr ⟨tinyConfig_fits (by decide), tinyConfig_fits (by decide)⟩
  obtain ⟨heq, hsome⟩ := h src tgt₁ tgt₂ 1 (1 : Fin 3) (1 : Fin 3) L₁ L₂ rfl (by decide) rfl
    (by decide) (by decide) (by decide) rfl h₁ h₂
  have hmem : (2 : Fin 3) ∈ src := List.mem_singleton.mpr rfl
  refine ⟨L₁, L₂, h₁, h₂, heq 0 (by norm_num), ?_, ?_⟩
  · exact hsome ⟨(2 : Fin 3), hmem, by decide⟩ 0 (by decide)
  · rw [← h₁]
    exact (hpad src tgt₁ (2 : Fin 3) (0 : Fin 3) 2 hmem (by decide) rfl).1
      (tinyConfig_fits (by decide))

end Tiny

end K8sLearn.Transformer
