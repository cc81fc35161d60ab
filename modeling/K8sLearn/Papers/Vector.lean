import Mathlib.Analysis.SpecialFunctions.Log.Basic
import K8sLearn.Lib.Sparse
import K8sLearn.Papers.Dedupe
import K8sLearn.Papers.Score

/-! # Similarity of texts by their features

`vector_similarity` hashes the words and pairs of words of two texts into vectors and returns
their cosine, or zero where it is negative. The hash is a parameter: an index and whether the
sign is plus. So are the numbers, with their logarithm and square root.
-/

namespace K8sLearn.Papers

open Sparse

section Definitions

variable (u : Unicode)

/-- `_features`: the matches of `[a-z0-9]{2,}|[\u4e00-\u9fff]{2,}`, and the pairs of neighbours. -/
def features (text : Str) : List Str :=
  let normalized := normalize u text
  let parts := normalized.splitBy fun a b =>
    (isEnglish a && isEnglish b) || (isChinese a && isChinese b)
  let words := parts.filter fun part =>
    (part.all isEnglish || part.all isChinese) && 2 ≤ part.length
  words ++ words.zipWith (fun a b => a ++ '_' :: b) words.tail

/-- `Counter(items)`. -/
def counter (items : List Str) : List (Str × ℕ) :=
  items.foldl (fun counts token => upsert (· + ·) token 1 counts) []

variable {K : Type*} [Field K] [LinearOrder K] (log sqrt : K → K) (hash : Str → ℕ × Bool)

/-- The sums of the weights of the tokens with an index. -/
def accumulate (counts : List (Str × ℕ)) : List (ℕ × K) :=
  counts.foldl (fun vector entry =>
    let sign : K := if (hash entry.1).2 then 1 else -1
    upsert (· + ·) (hash entry.1).1 (sign * (1 + log entry.2)) vector) []

def hashVector (text : Str) : List (ℕ × K) :=
  let vector := accumulate log hash (counter (features u text))
  let norm := sqrt (sqNorm vector)
  if norm = 0 then [] else scaleDiv vector norm

def cosine (left right : List (ℕ × K)) : K :=
  if left.isEmpty || right.isEmpty then 0
  else if right.length < left.length then dot right left
  else dot left right

def vectorSimilarity (query text : Str) : K :=
  max 0 (cosine (hashVector u log sqrt hash query) (hashVector u log sqrt hash text))

end Definitions

section Accumulate

variable {K : Type*} [Field K] (log : K → K) (hash : Str → ℕ × Bool)

theorem nodup_keys_accumulate [LinearOrder K] (counts : List (Str × ℕ)) :
    ((accumulate log hash counts).map Prod.fst).Nodup := by
  suffices h : ∀ vector : List (ℕ × K), (vector.map Prod.fst).Nodup →
      ((counts.foldl (fun vector entry => upsert (· + ·) (hash entry.1).1
        ((if (hash entry.1).2 then 1 else -1) * (1 + log entry.2)) vector) vector).map
          Prod.fst).Nodup from h [] List.nodup_nil
  induction counts with
  | nil => exact fun _ h => h
  | cons entry counts ih => exact fun vector h => ih _ (nodup_keys_upsert h)

end Accumulate

section Similarity

variable (u : Unicode) (hash : Str → ℕ × Bool)

theorem nodup_keys_hashVector (text : Str) :
    ((hashVector u Real.log Real.sqrt hash text).map Prod.fst).Nodup := by
  simp only [hashVector]
  split_ifs
  · exact List.nodup_nil
  · rw [keys_scaleDiv]
    exact nodup_keys_accumulate _ _ _

theorem sqNorm_hashVector {text : Str} (h : hashVector u Real.log Real.sqrt hash text ≠ []) :
    sqNorm (hashVector u Real.log Real.sqrt hash text) = 1 := by
  simp only [hashVector] at h ⊢
  split_ifs at h ⊢ with hnorm
  · exact absurd rfl h
  · rw [sqNorm_scaleDiv, Real.mul_self_sqrt (sqNorm_nonneg _)]
    exact div_self fun h0 => hnorm (by rw [h0, Real.sqrt_zero])

/-- Taking the shorter vector first makes no difference. -/
theorem cosine_eq_dot {left right : List (ℕ × ℝ)} (hl : (left.map Prod.fst).Nodup)
    (hr : (right.map Prod.fst).Nodup) : cosine left right = dot left right := by
  unfold cosine
  split_ifs with hempty
  · rcases Bool.or_eq_true_iff.mp hempty with h | h <;> rw [List.isEmpty_iff] at h <;> simp [h]
  · exact dot_comm hr hl
  · rfl

/-- The similarity of two texts is between zero and one and the same both ways. Texts that
normalize to the same have similarity one, unless their vector is zero. -/
theorem vectorSimilarity_similarity (u : Unicode) (hash : Str → ℕ × Bool) (a b : Str) :
    (0 ≤ vectorSimilarity u Real.log Real.sqrt hash a b ∧
        vectorSimilarity u Real.log Real.sqrt hash a b ≤ 1) ∧
      vectorSimilarity u Real.log Real.sqrt hash a b =
        vectorSimilarity u Real.log Real.sqrt hash b a ∧
      (normalize u a = normalize u b → hashVector u Real.log Real.sqrt hash a ≠ [] →
        vectorSimilarity u Real.log Real.sqrt hash a b = 1) := by
  have ha := nodup_keys_hashVector u hash a
  have hb := nodup_keys_hashVector u hash b
  have hcos := cosine_eq_dot ha hb
  refine ⟨⟨le_max_left _ _, max_le zero_le_one ?_⟩, ?_, ?_⟩
  · rw [hcos]
    by_cases hna : hashVector u Real.log Real.sqrt hash a = []
    · simp [hna]
    by_cases hnb : hashVector u Real.log Real.sqrt hash b = []
    · simp [hnb]
    exact dot_le_one ha hb (sqNorm_hashVector u hash hna) (sqNorm_hashVector u hash hnb)
  · rw [vectorSimilarity, vectorSimilarity, hcos, cosine_eq_dot hb ha, dot_comm ha hb]
  · intro hab hne
    have hfeatures : features u b = features u a := by
      simp only [features, hab]
    have hvec : hashVector u Real.log Real.sqrt hash b = hashVector u Real.log Real.sqrt hash a := by
      rw [hashVector, hashVector, hfeatures]
    rw [vectorSimilarity, hcos, hvec, dot_self ha, sqNorm_hashVector u hash hne]
    exact max_eq_right zero_le_one

theorem vectorSimilarity_similarity_case :
    vectorSimilarity asciiTables Real.log Real.sqrt (fun _ => (0, true)) "Graph".toList
      " graph!".toList = 1 := by
  have hab : normalize asciiTables "Graph".toList = normalize asciiTables " graph!".toList := by
    decide +kernel
  have hcounts : counter (features asciiTables "Graph".toList) = [("graph".toList, 1)] := by
    decide +kernel
  refine (vectorSimilarity_similarity asciiTables _ _ _).2.2 hab ?_
  rw [hashVector, hcounts]
  simp [accumulate, upsert, sqNorm, scaleDiv]

end Similarity

end K8sLearn.Papers
