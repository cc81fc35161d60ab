import Mathlib.Data.Finset.Max
import K8sLearn.Transformer.Model

/-! # Two runs of the layers

A row of attention depends on the rows of the keys its mask leaves, and on nothing else.
Two runs whose masks leave the same keys to the first positions, all of them among the
first positions, therefore agree there through every layer. A NaN spreads to all rows of
both runs or to none.
-/

namespace K8sLearn.Transformer

/-- The key positions that a row of a mask leaves. -/
def unmasked (n : ℕ) (mask : ℕ → ℕ) : Finset ℕ := (Finset.range n).filter fun j => mask j ≠ 0

@[simp] theorem mem_unmasked {n : ℕ} {mask : ℕ → ℕ} {j : ℕ} :
    j ∈ unmasked n mask ↔ j < n ∧ mask j ≠ 0 := by
  simp [unmasked]

section Rows

variable {K : Type*} [Field K] (fn : Numerics K) (cfg : Config)

def attentionOver (w : AttentionWeights K) (S : Finset ℕ) (x : ℕ → K) (kv : ℕ → ℕ → K) : ℕ → K :=
  let d := cfg.dModel
  let q := linear w.qkvProj d x
  let k j c := linear w.qkvProj d (kv j) (d + c)
  let v j c := linear w.qkvProj d (kv j) (2 * d + c)
  let e h j := fn.exp ((∑ c ∈ Finset.range cfg.headDim,
    q (h * cfg.headDim + c) * k j (h * cfg.headDim + c)) / fn.sqrt cfg.headDim)
  linear w.oProj d fun c =>
    ∑ j ∈ S, e (c / cfg.headDim) j / (∑ t ∈ S, e (c / cfg.headDim) t) * v j c

theorem attentionRow_eq (w : AttentionWeights K) (n : ℕ) (x : ℕ → K) (kv : ℕ → ℕ → K)
    (mask : ℕ → ℕ) :
    attentionRow fn cfg w n x kv mask = attentionOver fn cfg w (unmasked n mask) x kv := by
  have hsum : ∀ f : ℕ → K, ∑ j ∈ Finset.range n, (if mask j = 0 then 0 else f j) =
      ∑ j ∈ unmasked n mask, f j := by
    intro f
    rw [unmasked, Finset.sum_filter]
    apply Finset.sum_congr rfl
    intro j _
    by_cases hj : mask j = 0 <;> simp [hj]
  simp only [attentionRow, attentionOver, attnWeights, ite_div, zero_div, ite_mul, zero_mul, hsum]

theorem attentionOver_congr (w : AttentionWeights K) {S : Finset ℕ} (x : ℕ → K)
    {kv kv' : ℕ → ℕ → K} (h : ∀ j ∈ S, kv j = kv' j) :
    attentionOver fn cfg w S x kv = attentionOver fn cfg w S x kv' := by
  simp only [attentionOver]
  congr 1
  funext c
  apply Finset.sum_congr rfl
  intro j hj
  rw [h j hj]
  congr 2
  apply Finset.sum_congr rfl
  intro t ht
  rw [h t ht]

end Rows

section Runs

variable {K : Type*}

/-- The first `n` rows hold numbers. -/
def Defined (n : ℕ) (x : Hidden K) : Prop := ∀ i < n, (x i).isSome

/-- The first `n` rows hold NaN. -/
def Blank (n : ℕ) (x : Hidden K) : Prop := ∀ i < n, x i = none

/-- Two runs of `n₁` and `n₂` positions agree on the first `t` rows, and hold numbers in all
rows or in none. -/
structure Paired (t n₁ n₂ : ℕ) (x y : Hidden K) : Prop where
  eq : ∀ i < t, x i = y i
  status : Defined n₁ x ∧ Defined n₂ y ∨ Blank n₁ x ∧ Blank n₂ y

/-- Two target masks leave the same keys to the first `t` rows, all among the first `t`, and some
key to every row. -/
structure Twin (t n₁ n₂ : ℕ) (m₁ m₂ : Mask) : Prop where
  le₁ : t ≤ n₁
  le₂ : t ≤ n₂
  pos₁ : 0 < n₁
  pos₂ : 0 < n₂
  nonempty₁ : ∀ i < n₁, (unmasked n₁ (m₁ i)).Nonempty
  nonempty₂ : ∀ i < n₂, (unmasked n₂ (m₂ i)).Nonempty
  eq : ∀ i < t, unmasked n₁ (m₁ i) = unmasked n₂ (m₂ i)
  lt : ∀ i < t, ∀ j ∈ unmasked n₁ (m₁ i), j < t

def mapRows (f : (ℕ → K) → ℕ → K) (x : Hidden K) : Hidden K := fun i => (x i).map f

variable {t n₁ n₂ : ℕ} {x y x' y' : Hidden K}

theorem Defined.mapRows {n : ℕ} (h : Defined n x) (f : (ℕ → K) → ℕ → K) :
    Defined n (mapRows f x) := by
  intro i hi
  simpa [Transformer.mapRows] using h i hi

theorem Paired.mapRows (h : Paired t n₁ n₂ x y) (f : (ℕ → K) → ℕ → K) :
    Paired t n₁ n₂ (mapRows f x) (mapRows f y) where
  eq i hi := by rw [Transformer.mapRows, Transformer.mapRows, h.eq i hi]
  status := by
    rcases h.status with ⟨hx, hy⟩ | ⟨hx, hy⟩
    · exact Or.inl ⟨hx.mapRows f, hy.mapRows f⟩
    · right
      constructor
      · intro i hi
        simp [Transformer.mapRows, hx i hi]
      · intro i hi
        simp [Transformer.mapRows, hy i hi]

variable [Field K]

theorem Defined.residual {n : ℕ} (h : Defined n x) (h' : Defined n x') :
    Defined n (residual x x') := by
  intro i hi
  obtain ⟨a, ha⟩ := Option.isSome_iff_exists.mp (h i hi)
  obtain ⟨b, hb⟩ := Option.isSome_iff_exists.mp (h' i hi)
  simp [Transformer.residual, ha, hb]

theorem Blank.residual_left {n : ℕ} (h : Blank n x) (x' : Hidden K) : Blank n (residual x x') := by
  intro i hi
  simp [residual, h i hi]

theorem Blank.residual_right {n : ℕ} (h : Blank n x') (x : Hidden K) :
    Blank n (residual x x') := by
  intro i hi
  cases hx : x i <;> simp [residual, hx, h i hi]

theorem Paired.residual (h : Paired t n₁ n₂ x y) (h' : Paired t n₁ n₂ x' y') :
    Paired t n₁ n₂ (residual x x') (residual y y') where
  eq i hi := by rw [Transformer.residual, Transformer.residual, h.eq i hi, h'.eq i hi]
  status := by
    rcases h.status with ⟨hx, hy⟩ | ⟨hx, hy⟩
    · rcases h'.status with ⟨hx', hy'⟩ | ⟨hx', hy'⟩
      · exact Or.inl ⟨hx.residual hx', hy.residual hy'⟩
      · exact Or.inr ⟨hx'.residual_right x, hy'.residual_right y⟩
    · exact Or.inr ⟨hx.residual_left x', hy.residual_left y'⟩

variable (fn : Numerics K) (cfg : Config)

theorem multiHeadAttention_of_defined (w : AttentionWeights K) {n : ℕ} {kv : Hidden K}
    (hkv : Defined n kv) (x : Hidden K) {mask : Mask} {i : ℕ}
    (hm : (unmasked n (mask i)).Nonempty) :
    multiHeadAttention fn cfg w n x kv mask i =
      (x i).map fun row => attentionOver fn cfg w (unmasked n (mask i)) row fun j =>
        (kv j).getD 0 := by
  obtain ⟨j, hj⟩ := hm
  obtain ⟨hlt, hne⟩ := mem_unmasked.mp hj
  have hready : (∀ j < n, (kv j).isSome) ∧ (n = 0 ∨ ∃ j < n, mask i j ≠ 0) :=
    ⟨hkv, Or.inr ⟨j, hlt, hne⟩⟩
  simp only [multiHeadAttention, if_pos hready, attentionRow_eq]

theorem multiHeadAttention_defined (w : AttentionWeights K) {n m : ℕ} {kv x : Hidden K}
    (hkv : Defined n kv) (hx : Defined m x) {mask : Mask}
    (hm : ∀ i < m, (unmasked n (mask i)).Nonempty) :
    Defined m (multiHeadAttention fn cfg w n x kv mask) := by
  intro i hi
  rw [multiHeadAttention_of_defined fn cfg w hkv x (hm i hi)]
  simpa using hx i hi

theorem multiHeadAttention_of_blank (w : AttentionWeights K) {n : ℕ} {kv : Hidden K}
    (hkv : Blank n kv) (hn : 0 < n) (x : Hidden K) (mask : Mask) (i : ℕ) :
    multiHeadAttention fn cfg w n x kv mask i = none := by
  have hno : ¬ ((∀ j < n, (kv j).isSome) ∧ (n = 0 ∨ ∃ j < n, mask i j ≠ 0)) := by
    rintro ⟨h, -⟩
    simpa [hkv 0 hn] using h 0 hn
  rw [multiHeadAttention, if_neg hno]

theorem Paired.selfAttention (h : Paired t n₁ n₂ x y) {m₁ m₂ : Mask} (hm : Twin t n₁ n₂ m₁ m₂)
    (w : AttentionWeights K) :
    Paired t n₁ n₂ (multiHeadAttention fn cfg w n₁ x x m₁)
      (multiHeadAttention fn cfg w n₂ y y m₂) := by
  rcases h.status with ⟨hx, hy⟩ | ⟨hx, hy⟩
  · refine ⟨fun i hi => ?_, Or.inl ⟨?_, ?_⟩⟩
    · have hi₁ := hm.nonempty₁ i (hi.trans_le hm.le₁)
      have hi₂ := hm.nonempty₂ i (hi.trans_le hm.le₂)
      rw [multiHeadAttention_of_defined fn cfg w hx x hi₁,
        multiHeadAttention_of_defined fn cfg w hy y hi₂, h.eq i hi, ← hm.eq i hi]
      congr 1
      funext row
      apply attentionOver_congr
      intro j hj
      rw [h.eq j (hm.lt i hi j hj)]
    · exact multiHeadAttention_defined fn cfg w hx hx hm.nonempty₁
    · exact multiHeadAttention_defined fn cfg w hy hy hm.nonempty₂
  · refine ⟨fun i _ => ?_, Or.inr ⟨fun i _ => ?_, fun i _ => ?_⟩⟩
    · rw [multiHeadAttention_of_blank fn cfg w hx hm.pos₁,
        multiHeadAttention_of_blank fn cfg w hy hm.pos₂]
    · exact multiHeadAttention_of_blank fn cfg w hx hm.pos₁ x m₁ i
    · exact multiHeadAttention_of_blank fn cfg w hy hm.pos₂ y m₂ i

theorem Paired.crossAttention (h : Paired t n₁ n₂ x y) (w : AttentionWeights K) (n : ℕ)
    (kv : Hidden K) (f : ℕ → ℕ) :
    Paired t n₁ n₂ (multiHeadAttention fn cfg w n x kv fun _ => f)
      (multiHeadAttention fn cfg w n y kv fun _ => f) := by
  by_cases hready : (∀ j < n, (kv j).isSome) ∧ (n = 0 ∨ ∃ j < n, f j ≠ 0)
  · have heq : ∀ z : Hidden K, multiHeadAttention fn cfg w n z kv (fun _ => f) =
        Transformer.mapRows (fun row =>
          attentionRow fn cfg w n row (fun j => (kv j).getD 0) f) z := by
      intro z
      funext i
      rw [multiHeadAttention, if_pos hready, Transformer.mapRows]
    rw [heq, heq]
    exact h.mapRows _
  · have heq : ∀ z : Hidden K, multiHeadAttention fn cfg w n z kv (fun _ => f) =
        fun _ => none := by
      intro z
      funext i
      rw [multiHeadAttention, if_neg hready]
    rw [heq, heq]
    exact ⟨fun _ _ => rfl, Or.inr ⟨fun _ _ => rfl, fun _ _ => rfl⟩⟩

/-- Cross-attention to two sources that agree on the keys the masks leave. -/
theorem multiHeadAttention_congr (w : AttentionWeights K) {l l' : ℕ} {e e' : Hidden K}
    {f f' : ℕ → ℕ} (he : Defined l e) (he' : Defined l' e')
    (hf : unmasked l f = unmasked l' f') (hne : (unmasked l f).Nonempty)
    (heq : ∀ j ∈ unmasked l f, e j = e' j) (x : Hidden K) :
    multiHeadAttention fn cfg w l x e (fun _ => f) =
      multiHeadAttention fn cfg w l' x e' fun _ => f' := by
  funext i
  rw [multiHeadAttention_of_defined fn cfg w he x hne,
    multiHeadAttention_of_defined fn cfg w he' x (hf ▸ hne), ← hf]
  congr 1
  funext row
  apply attentionOver_congr
  intro j hj
  rw [heq j hj]

theorem norm_eq_mapRows (w : NormWeights K) (x : Hidden K) : norm fn cfg w x =
    mapRows (if cfg.useRmsnorm then rmsNorm fn cfg w else layerNorm fn cfg w) x := rfl

theorem Paired.norm (h : Paired t n₁ n₂ x y) (w : NormWeights K) :
    Paired t n₁ n₂ (norm fn cfg w x) (norm fn cfg w y) := by
  rw [norm_eq_mapRows, norm_eq_mapRows]
  exact h.mapRows _

variable [LinearOrder K]

theorem Paired.feedForward (h : Paired t n₁ n₂ x y) (w : FfnWeights K) :
    Paired t n₁ n₂ (feedForward cfg w x) (feedForward cfg w y) := h.mapRows _

theorem Paired.encoderLayer (h : Paired t n₁ n₂ x y) {m₁ m₂ : Mask} (hm : Twin t n₁ n₂ m₁ m₂)
    (l : EncoderLayer K) :
    Paired t n₁ n₂ (l.forward fn cfg n₁ m₁ x) (l.forward fn cfg n₂ m₂ y) := by
  have hattn := h.residual ((h.norm fn cfg l.norm1).selfAttention fn cfg hm l.selfAttn)
  exact hattn.residual ((hattn.norm fn cfg l.norm2).feedForward cfg l.ffn)

theorem Paired.decoderLayer (h : Paired t n₁ n₂ x y) {m₁ m₂ : Mask} (hm : Twin t n₁ n₂ m₁ m₂)
    (encOut : Hidden K) (n : ℕ) (f : ℕ → ℕ) (l : DecoderLayer K) :
    Paired t n₁ n₂ (l.forward fn cfg n₁ m₁ encOut n (fun _ => f) x)
      (l.forward fn cfg n₂ m₂ encOut n (fun _ => f) y) := by
  have hself := h.residual ((h.norm fn cfg l.norm1).selfAttention fn cfg hm l.selfAttn)
  have hcross := hself.residual
    ((hself.norm fn cfg l.norm2).crossAttention fn cfg l.crossAttn n encOut f)
  exact hcross.residual ((hcross.norm fn cfg l.norm3).feedForward cfg l.ffn)

theorem Defined.encoderLayer {n : ℕ} (h : Defined n x) {mask : Mask}
    (hm : ∀ i < n, (unmasked n (mask i)).Nonempty) (l : EncoderLayer K) :
    Defined n (l.forward fn cfg n mask x) := by
  have hnorm : Defined n (norm fn cfg l.norm1 x) := h.mapRows _
  have hattn := h.residual (multiHeadAttention_defined fn cfg l.selfAttn hnorm hnorm hm)
  exact hattn.residual ((hattn.mapRows _).mapRows _)

theorem Defined.decoderLayer {n l : ℕ} (h : Defined n x) {tgtMask : Mask}
    (hm : ∀ i < n, (unmasked n (tgtMask i)).Nonempty) {encOut : Hidden K} (he : Defined l encOut)
    {f : ℕ → ℕ} (hf : (unmasked l f).Nonempty) (y : DecoderLayer K) :
    Defined n (y.forward fn cfg n tgtMask encOut l (fun _ => f) x) := by
  have hnorm : Defined n (norm fn cfg y.norm1 x) := h.mapRows _
  have hself := h.residual (multiHeadAttention_defined fn cfg y.selfAttn hnorm hnorm hm)
  have hnorm' : Defined n (norm fn cfg y.norm2 _) := hself.mapRows _
  have hcross := hself.residual
    (multiHeadAttention_defined fn cfg y.crossAttn he hnorm' fun _ _ => hf)
  exact hcross.residual ((hcross.mapRows _).mapRows _)

end Runs

section Stacks

variable {K : Type*} [Field K] (fn : Numerics K) {cfg : Config}

theorem embed_defined {vocab : ℕ} {emb : Fin vocab → ℕ → K} {tokens : List (Fin vocab)}
    {x : Hidden K} (h : embed fn cfg emb tokens = some x) : Defined tokens.length x := by
  unfold embed at h
  split at h
  · obtain rfl := Option.some.inj h
    intro i hi
    simp [hi]
  · cases h

theorem embed_congr {vocab : ℕ} {emb : Fin vocab → ℕ → K} {tokens tokens' : List (Fin vocab)}
    {x y : Hidden K} (h : embed fn cfg emb tokens = some x)
    (h' : embed fn cfg emb tokens' = some y) {i : ℕ} (hi : tokens[i]? = tokens'[i]?) :
    x i = y i := by
  unfold embed at h h'
  split at h
  · split at h'
    · obtain rfl := Option.some.inj h
      obtain rfl := Option.some.inj h'
      dsimp only
      rw [hi]
    · cases h'
  · cases h

/-- Whether the sequence fits the positional table. -/
def Config.Fits (cfg : Config) (n : ℕ) : Prop := n ≤ cfg.maxSeqLen ∨ cfg.maxSeqLen = 1

theorem exists_embed_iff {vocab : ℕ} (emb : Fin vocab → ℕ → K) (tokens : List (Fin vocab)) :
    (∃ x, embed fn cfg emb tokens = some x) ↔ cfg.Fits tokens.length := by
  unfold embed
  split
  · case isTrue h => exact ⟨fun _ => h, fun _ => ⟨_, rfl⟩⟩
  · case isFalse h =>
    constructor
    · rintro ⟨x, hx⟩
      cases hx
    · exact fun hf => absurd hf h

variable [LinearOrder K] {t n₁ n₂ : ℕ} {x y : Hidden K} {m₁ m₂ : Mask}

theorem Paired.encoderLayers (h : Paired t n₁ n₂ x y) (hm : Twin t n₁ n₂ m₁ m₂)
    (ls : List (EncoderLayer K)) :
    Paired t n₁ n₂ (ls.foldl (fun x l => l.forward fn cfg n₁ m₁ x) x)
      (ls.foldl (fun y l => l.forward fn cfg n₂ m₂ y) y) := by
  induction ls generalizing x y with
  | nil => exact h
  | cons l ls ih => exact ih (h.encoderLayer fn cfg hm l)

theorem Defined.encoderLayers {n : ℕ} (h : Defined n x) {mask : Mask}
    (hm : ∀ i < n, (unmasked n (mask i)).Nonempty) (ls : List (EncoderLayer K)) :
    Defined n (ls.foldl (fun x l => l.forward fn cfg n mask x) x) := by
  induction ls generalizing x with
  | nil => exact h
  | cons l ls ih => exact ih (h.encoderLayer fn cfg hm l)

theorem Paired.decoderLayers (h : Paired t n₁ n₂ x y) (hm : Twin t n₁ n₂ m₁ m₂)
    (encOut : Hidden K) (n : ℕ) (f : ℕ → ℕ) (ls : List (DecoderLayer K)) :
    Paired t n₁ n₂ (ls.foldl (fun x l => l.forward fn cfg n₁ m₁ encOut n (fun _ => f) x) x)
      (ls.foldl (fun y l => l.forward fn cfg n₂ m₂ encOut n (fun _ => f) y) y) := by
  induction ls generalizing x y with
  | nil => exact h
  | cons l ls ih => exact ih (h.decoderLayer fn cfg hm encOut n f l)

variable (w : Weights K cfg)

theorem decoder_paired {tgt₁ tgt₂ : List (Fin cfg.tgtVocab)}
    (hm : Twin t tgt₁.length tgt₂.length m₁ m₂) (heq : ∀ i < t, tgt₁[i]? = tgt₂[i]?)
    {encOut : Hidden K} {n : ℕ} {f : ℕ → ℕ} {d₁ d₂ : Hidden K}
    (h₁ : decoder fn w tgt₁ encOut m₁ n (fun _ => f) = some d₁)
    (h₂ : decoder fn w tgt₂ encOut m₂ n (fun _ => f) = some d₂) :
    Paired t tgt₁.length tgt₂.length d₁ d₂ := by
  obtain ⟨x, hx, rfl⟩ := Option.map_eq_some_iff.mp h₁
  obtain ⟨y, hy, rfl⟩ := Option.map_eq_some_iff.mp h₂
  have hxy : Paired t tgt₁.length tgt₂.length x y :=
    ⟨fun i hi => embed_congr fn hx hy (heq i hi),
      Or.inl ⟨embed_defined fn hx, embed_defined fn hy⟩⟩
  exact (hxy.decoderLayers fn hm encOut n f w.decoderLayers).norm fn cfg w.decoderNorm

theorem encoder_extend {src src' : List (Fin cfg.srcVocab)} {f f' : ℕ → ℕ}
    (hle : src.length ≤ src'.length) (heq : ∀ i < src.length, src[i]? = src'[i]?)
    (hf : unmasked src.length f = unmasked src'.length f')
    (hne : (unmasked src.length f).Nonempty) {e e' : Hidden K}
    (h : encoder fn w src (fun _ => f) = some e) (h' : encoder fn w src' (fun _ => f') = some e') :
    Defined src.length e ∧ Defined src'.length e' ∧ ∀ i < src.length, e i = e' i := by
  obtain ⟨x, hx, rfl⟩ := Option.map_eq_some_iff.mp h
  obtain ⟨y, hy, rfl⟩ := Option.map_eq_some_iff.mp h'
  have hdx := embed_defined fn hx
  have hdy := embed_defined fn hy
  obtain ⟨j, hj⟩ := hne
  have hpos : 0 < src.length := Nat.zero_lt_of_lt (mem_unmasked.mp hj).1
  have hm : Twin src.length src.length src'.length (fun _ => f) (fun _ => f') :=
    { le₁ := le_rfl, le₂ := hle, pos₁ := hpos, pos₂ := hpos.trans_le hle
      nonempty₁ := fun _ _ => ⟨j, hj⟩
      nonempty₂ := fun _ _ => ⟨j, hf ▸ hj⟩
      eq := fun _ _ => hf
      lt := fun _ _ j hj => (mem_unmasked.mp hj).1 }
  have hxy : Paired src.length src.length src'.length x y :=
    ⟨fun i hi => embed_congr fn hx hy (heq i hi), Or.inl ⟨hdx, hdy⟩⟩
  refine ⟨?_, ?_, ?_⟩
  · exact (hdx.encoderLayers fn hm.nonempty₁ w.encoderLayers).mapRows _
  · exact (hdy.encoderLayers fn hm.nonempty₂ w.encoderLayers).mapRows _
  · exact ((hxy.encoderLayers fn hm w.encoderLayers).norm fn cfg w.encoderNorm).eq

theorem Defined.decoderLayers {n l : ℕ} (h : Defined n x) {tgtMask : Mask}
    (hm : ∀ i < n, (unmasked n (tgtMask i)).Nonempty) {encOut : Hidden K} (he : Defined l encOut)
    {f : ℕ → ℕ} (hf : (unmasked l f).Nonempty) (ls : List (DecoderLayer K)) :
    Defined n (ls.foldl (fun x y => y.forward fn cfg n tgtMask encOut l (fun _ => f) x) x) := by
  induction ls generalizing x with
  | nil => exact h
  | cons y ls ih => exact ih (h.decoderLayer fn cfg hm he hf y)

theorem decoder_defined {tgt : List (Fin cfg.tgtVocab)} {tgtMask : Mask}
    (hm : ∀ i < tgt.length, (unmasked tgt.length (tgtMask i)).Nonempty) {encOut : Hidden K}
    {l : ℕ} (he : Defined l encOut) {f : ℕ → ℕ} (hf : (unmasked l f).Nonempty) {d : Hidden K}
    (h : decoder fn w tgt encOut tgtMask l (fun _ => f) = some d) : Defined tgt.length d := by
  obtain ⟨x, hx, rfl⟩ := Option.map_eq_some_iff.mp h
  exact ((embed_defined fn hx).decoderLayers fn hm he hf w.decoderLayers).mapRows _

theorem decoder_congr (tgt : List (Fin cfg.tgtVocab)) (tgtMask : Mask) {l l' : ℕ}
    {e e' : Hidden K} {f f' : ℕ → ℕ} (he : Defined l e) (he' : Defined l' e')
    (hf : unmasked l f = unmasked l' f') (hne : (unmasked l f).Nonempty)
    (heq : ∀ j ∈ unmasked l f, e j = e' j) :
    decoder fn w tgt e tgtMask l (fun _ => f) = decoder fn w tgt e' tgtMask l' fun _ => f' := by
  have hlayer : ∀ (y : DecoderLayer K) (x : Hidden K),
      y.forward fn cfg tgt.length tgtMask e l (fun _ => f) x =
        y.forward fn cfg tgt.length tgtMask e' l' (fun _ => f') x := by
    intro y x
    simp only [DecoderLayer.forward,
      multiHeadAttention_congr fn cfg y.crossAttn he he' hf hne heq]
  simp only [decoder, hlayer]

end Stacks

end K8sLearn.Transformer
