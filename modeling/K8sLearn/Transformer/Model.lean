import Mathlib.Algebra.BigOperators.Group.Finset.Basic
import Mathlib.Algebra.Field.Basic
import Mathlib.Order.Lattice

/-! # The Transformer

The encoder-decoder model of `model.py` with dropout off, for one element of a batch. A
sequence of hidden states gives for each position a row of channels; a row that holds a
NaN has no value. Attention yields NaN in a row whose keys are all masked, and in every
row when one of the value rows holds a NaN, since a weight of zero does not cancel it.
The elementary functions are given, so that the model is the same over every field.
-/

namespace K8sLearn.Transformer

/-- Ten is a numeral of every field; the small constants of the norms are powers of it. -/
instance ten_atLeastTwo : Nat.AtLeastTwo 10 := ⟨by decide⟩

/-- The elementary functions the model calls. -/
structure Numerics (K : Type*) where
  exp : K → K
  log : K → K
  sqrt : K → K
  sin : K → K
  cos : K → K

/-- The hyperparameters; `d_model` is a multiple of the number of heads. -/
structure Config where
  srcVocab : ℕ
  tgtVocab : ℕ
  nHeads : ℕ
  headDim : ℕ
  dFf : ℕ
  maxSeqLen : ℕ
  useRmsnorm : Bool
  maxSeqLen_pos : 0 < maxSeqLen

def Config.dModel (cfg : Config) : ℕ := cfg.nHeads * cfg.headDim

/-- Rows of channels by position; a row without a value holds a NaN. -/
abbrev Hidden (K : Type*) := ℕ → Option (ℕ → K)

/-- A mask by query and key position; zero hides the key. -/
abbrev Mask := ℕ → ℕ → ℕ

structure AttentionWeights (K : Type*) where
  qkvProj : ℕ → ℕ → K
  oProj : ℕ → ℕ → K

structure NormWeights (K : Type*) where
  weight : ℕ → K
  bias : ℕ → K

structure FfnWeights (K : Type*) where
  w1 : ℕ → ℕ → K
  b1 : ℕ → K
  w2 : ℕ → ℕ → K
  b2 : ℕ → K

structure EncoderLayer (K : Type*) where
  norm1 : NormWeights K
  selfAttn : AttentionWeights K
  norm2 : NormWeights K
  ffn : FfnWeights K

structure DecoderLayer (K : Type*) where
  norm1 : NormWeights K
  selfAttn : AttentionWeights K
  norm2 : NormWeights K
  crossAttn : AttentionWeights K
  norm3 : NormWeights K
  ffn : FfnWeights K

/-- The weights; the output projection is tied to the target embedding. -/
structure Weights (K : Type*) (cfg : Config) where
  srcEmb : Fin cfg.srcVocab → ℕ → K
  encoderLayers : List (EncoderLayer K)
  encoderNorm : NormWeights K
  tgtEmb : Fin cfg.tgtVocab → ℕ → K
  decoderLayers : List (DecoderLayer K)
  decoderNorm : NormWeights K

section Layers

variable {K : Type*} [Field K] [LinearOrder K] (fn : Numerics K) (cfg : Config)

/-- `nn.Linear` without a bias. -/
def linear (weight : ℕ → ℕ → K) (inFeatures : ℕ) (x : ℕ → K) (o : ℕ) : K :=
  ∑ i ∈ Finset.range inFeatures, x i * weight o i

/-- The attention weights of query `i` in head `h`: a masked score is minus infinity, whose
exponential is zero. -/
def attnWeights (seqK : ℕ) (q : ℕ → K) (k : ℕ → ℕ → K) (mask : ℕ → ℕ) (h j : ℕ) : K :=
  let scores j := (∑ c ∈ Finset.range cfg.headDim,
    q (h * cfg.headDim + c) * k j (h * cfg.headDim + c)) / fn.sqrt cfg.headDim
  let e j := if mask j = 0 then 0 else fn.exp (scores j)
  e j / ∑ t ∈ Finset.range seqK, e t

/-- One row of `MultiHeadAttention.forward`: the query comes from `x`, keys and values from
`kv`, all three from one projection. Channel `c` belongs to head `c / head_dim`. -/
def attentionRow (w : AttentionWeights K) (seqK : ℕ) (x : ℕ → K) (kv : ℕ → ℕ → K)
    (mask : ℕ → ℕ) : ℕ → K :=
  let d := cfg.dModel
  let q := linear w.qkvProj d x
  let k j c := linear w.qkvProj d (kv j) (d + c)
  let v j c := linear w.qkvProj d (kv j) (2 * d + c)
  let out c := ∑ j ∈ Finset.range seqK,
    attnWeights fn cfg seqK q k mask (c / cfg.headDim) j * v j c
  linear w.oProj d out

def multiHeadAttention (w : AttentionWeights K) (seqK : ℕ) (x kv : Hidden K) (mask : Mask) :
    Hidden K := fun i =>
  if (∀ j < seqK, (kv j).isSome) ∧ (seqK = 0 ∨ ∃ j < seqK, mask i j ≠ 0) then
    (x i).map fun row => attentionRow fn cfg w seqK row (fun j => (kv j).getD 0) (mask i)
  else none

def layerNorm (w : NormWeights K) (x : ℕ → K) (c : ℕ) : K :=
  let d : K := cfg.dModel
  let mean := (∑ t ∈ Finset.range cfg.dModel, x t) / d
  let var := (∑ t ∈ Finset.range cfg.dModel, (x t - mean) ^ 2) / d
  (x c - mean) / fn.sqrt (var + 1 / 10 ^ 5) * w.weight c + w.bias c

def rmsNorm (w : NormWeights K) (x : ℕ → K) (c : ℕ) : K :=
  let rms := 1 / fn.sqrt ((∑ t ∈ Finset.range cfg.dModel, x t ^ 2) / cfg.dModel + 1 / 10 ^ 6)
  w.weight c * x c * rms

/-- The normalization that `make_norm` selects, row by row. -/
def norm (w : NormWeights K) (x : Hidden K) : Hidden K := fun i =>
  (x i).map (if cfg.useRmsnorm then rmsNorm fn cfg w else layerNorm fn cfg w)

/-- `PositionwiseFeedForward.forward`, row by row. -/
def feedForward (w : FfnWeights K) (x : Hidden K) : Hidden K := fun i =>
  (x i).map fun row =>
    let hidden c := max (linear w.w1 cfg.dModel row c + w.b1 c) 0
    fun c => linear w.w2 cfg.dFf hidden c + w.b2 c

def residual (x y : Hidden K) : Hidden K := fun i =>
  (x i).bind fun a => (y i).map fun b c => a c + b c

def EncoderLayer.forward (l : EncoderLayer K) (seq : ℕ) (srcMask : Mask) (x : Hidden K) :
    Hidden K :=
  let normed := norm fn cfg l.norm1 x
  let x := residual x (multiHeadAttention fn cfg l.selfAttn seq normed normed srcMask)
  residual x (feedForward cfg l.ffn (norm fn cfg l.norm2 x))

def DecoderLayer.forward (l : DecoderLayer K) (seq : ℕ) (tgtMask : Mask) (encOut : Hidden K)
    (srcSeq : ℕ) (srcMask : Mask) (x : Hidden K) : Hidden K :=
  let normed := norm fn cfg l.norm1 x
  let x := residual x (multiHeadAttention fn cfg l.selfAttn seq normed normed tgtMask)
  let normed := norm fn cfg l.norm2 x
  let x := residual x (multiHeadAttention fn cfg l.crossAttn srcSeq normed encOut srcMask)
  residual x (feedForward cfg l.ffn (norm fn cfg l.norm3 x))

/-- The table of `PositionalEncoding`. -/
def positional (pos c : ℕ) : K :=
  let divTerm := fn.exp ((2 * (c / 2) : ℕ) * (-fn.log 10000 / cfg.dModel))
  if c % 2 = 0 then fn.sin (pos * divTerm) else fn.cos (pos * divTerm)

/-- The scaled embedding with the positional encoding. A sequence longer than the table cannot be
added to it, unless the table has one row, which is broadcast. -/
def embed {vocab : ℕ} (emb : Fin vocab → ℕ → K) (tokens : List (Fin vocab)) :
    Option (Hidden K) :=
  if tokens.length ≤ cfg.maxSeqLen ∨ cfg.maxSeqLen = 1 then
    some fun i => tokens[i]?.map fun token c =>
      emb token c * fn.sqrt cfg.dModel +
        positional fn cfg (if cfg.maxSeqLen = 1 then 0 else i) c
  else none

variable {cfg} (w : Weights K cfg)

def encoder (src : List (Fin cfg.srcVocab)) (srcMask : Mask) : Option (Hidden K) :=
  (embed fn cfg w.srcEmb src).map fun x =>
    norm fn cfg w.encoderNorm
      (w.encoderLayers.foldl (fun x l => l.forward fn cfg src.length srcMask x) x)

def decoder (tgt : List (Fin cfg.tgtVocab)) (encOut : Hidden K) (tgtMask : Mask) (srcSeq : ℕ)
    (srcMask : Mask) : Option (Hidden K) :=
  (embed fn cfg w.tgtEmb tgt).map fun x =>
    norm fn cfg w.decoderNorm (w.decoderLayers.foldl
      (fun x l => l.forward fn cfg tgt.length tgtMask encOut srcSeq srcMask x) x)

def outputProj (row : ℕ → K) (token : Fin cfg.tgtVocab) : K :=
  ∑ c ∈ Finset.range cfg.dModel, row c * w.tgtEmb token c

/-- `Transformer.forward`: the logits by position, unless a sequence is longer than the table. -/
def forward (src : List (Fin cfg.srcVocab)) (tgtIn : List (Fin cfg.tgtVocab))
    (srcMask tgtMask : Mask) : Option (ℕ → Option (Fin cfg.tgtVocab → K)) :=
  (encoder fn w src srcMask).bind fun encOut =>
  (decoder fn w tgtIn encOut tgtMask src.length srcMask).map fun decOut i =>
    (decOut i).map (outputProj w)

end Layers

section Masks

variable {vocab : ℕ}

def padMask (tokens : List (Fin vocab)) (padId j : ℕ) : ℕ :=
  match tokens[j]? with
  | some token => if token.val ≠ padId then 1 else 0
  | none => 0

def makeSrcMask (src : List (Fin vocab)) (padId : ℕ) : Mask := fun _ j => padMask src padId j

/-- `torch.tril(torch.ones(seq_len, seq_len))`. -/
def causal : Mask := fun i j => if j ≤ i then 1 else 0

def makeTgtMask (tgt : List (Fin vocab)) (padId : ℕ) : Mask := fun i j =>
  causal i j * padMask tgt padId j

end Masks

end K8sLearn.Transformer
