import K8sLearn.Transformer.Noninterference
import K8sLearn.Transformer.Tokenizer

/-! # The translation dataset

`TranslationDataset` builds one vocabulary from both languages and gives for an index the
source and the target cut or padded to `max_len`, the target once without its last and once
without its first id. An embedding looks up ids below its size only.
-/

namespace K8sLearn.Transformer

open SimpleTokenizer

/-- `ids[:max_len] + [pad_id] * max(0, max_len - len(ids))`. -/
def padTo (maxLen padId : ℕ) (ids : List ℕ) : List ℕ :=
  ids.take maxLen ++ List.replicate (maxLen - ids.length) padId

structure TranslationDataset where
  data : List (Str × Str)
  maxLen : ℕ
  tokenizer : SimpleTokenizer

/-- An entry of the dataset: the source, the input of the decoder and its labels. -/
structure Item where
  src : List ℕ
  tgtIn : List ℕ
  tgtOut : List ℕ
  deriving Inhabited

namespace TranslationDataset

/-- `TranslationDataset(data, max_len)`. -/
def ofData (data : List (Str × Str)) (maxLen : ℕ) : TranslationDataset where
  data := data
  maxLen := maxLen
  tokenizer := init.buildVocab (data.flatMap fun d => [d.1, d.2]) 1

def getItem (ds : TranslationDataset) (idx : ℕ) : Option Item :=
  ds.data[idx]?.bind fun d =>
  (ds.tokenizer.encode d.1 true).bind fun srcIds =>
  (ds.tokenizer.encode d.2 true).bind fun tgtIds =>
  ds.tokenizer.padId.map fun padId =>
    let tgtIds := padTo ds.maxLen padId tgtIds
    ⟨padTo ds.maxLen padId srcIds, tgtIds.dropLast, tgtIds.tail⟩

end TranslationDataset

/-- `collate_fn`: stacking needs a first item and rows of one length. -/
def collate (batch : List Item) : Option (List Item) :=
  match batch with
  | [] => none
  | first :: rest =>
    if rest.all fun item => item.src.length = first.src.length ∧
        item.tgtIn.length = first.tgtIn.length ∧ item.tgtOut.length = first.tgtOut.length then
      some batch
    else none

/-- The ids as tokens of an embedding; an id that is not below its size is an error. -/
def toTokens (vocab : ℕ) (ids : List ℕ) : Option (List (Fin vocab)) :=
  ids.mapM fun i => if h : i < vocab then some ⟨i, h⟩ else none

theorem collate_eq {batch : List Item} (hne : batch ≠ []) {n m k : ℕ}
    (h : ∀ item ∈ batch, item.src.length = n ∧ item.tgtIn.length = m ∧ item.tgtOut.length = k) :
    collate batch = some batch := by
  cases batch with
  | nil => exact absurd rfl hne
  | cons first rest =>
    obtain ⟨⟨h₁, h₂, h₃⟩, hrest⟩ := List.forall_mem_cons.mp h
    refine if_pos (List.all_eq_true.mpr fun item hitem => decide_eq_true ?_)
    rw [h₁, h₂, h₃]
    exact hrest item hitem

section Padding

variable {maxLen padId : ℕ} {ids : List ℕ}

theorem length_padTo (maxLen padId : ℕ) (ids : List ℕ) :
    (padTo maxLen padId ids).length = maxLen := by
  rw [padTo, List.length_append, List.length_take, List.length_replicate]
  omega

theorem padTo_of_le (h : ids.length ≤ maxLen) :
    padTo maxLen padId ids = ids ++ List.replicate (maxLen - ids.length) padId := by
  rw [padTo, List.take_of_length_le h]

end Padding

section Tokens

variable {vocab : ℕ} {ids : List ℕ} {tokens : List (Fin vocab)}

theorem toTokens_eq_some_iff : toTokens vocab ids = some tokens ↔ tokens.map Fin.val = ids := by
  unfold toTokens
  constructor
  · intro h
    induction Lists.forall₂_of_mapM h with
    | nil => rfl
    | @cons i token ids tokens hi hall ih =>
      split at hi
      · obtain rfl := Option.some.inj hi
        rw [List.map_cons, ih (Lists.mapM_of_forall₂ hall)]
      · cases hi
  · rintro rfl
    apply Lists.mapM_of_forall₂
    rw [List.forall₂_map_left_iff]
    exact List.forall₂_same.mpr fun token _ => dif_pos token.isLt

theorem exists_toTokens (h : ∀ i ∈ ids, i < vocab) : ∃ tokens, toTokens vocab ids = some tokens :=
  Lists.exists_mapM fun i hi => ⟨⟨i, h i hi⟩, dif_pos (h i hi)⟩

theorem toTokens_append {ids' : List ℕ} {tokens' : List (Fin vocab)}
    (h : toTokens vocab ids = some tokens) (h' : toTokens vocab ids' = some tokens') :
    toTokens vocab (ids ++ ids') = some (tokens ++ tokens') := by
  rw [toTokens_eq_some_iff] at h h' ⊢
  rw [List.map_append, h, h']

theorem toTokens_replicate (n : ℕ) (pad : Fin vocab) :
    toTokens vocab (List.replicate n pad.val) = some (List.replicate n pad) :=
  toTokens_eq_some_iff.mpr List.map_replicate

end Tokens

section Ids

variable (builds : List (List Str × ℤ))

theorem padId_after : (after builds).padId = some 0 := by
  rw [after_eq]
  exact Vocab.lookup_special _ 0 pad rfl

theorem bosId_after : (after builds).bosId = some 1 := by
  rw [after_eq]
  exact Vocab.lookup_special _ 1 bos rfl

theorem eosId_after : (after builds).eosId = some 2 := by
  rw [after_eq]
  exact Vocab.lookup_special _ 2 eos rfl

theorem vocabSize_after : (after builds).vocabSize = (vocabOf builds).tokens.length := by
  rw [after_eq]
  exact Numbering.length_ids _

theorem four_le_vocabSize_after : 4 ≤ (after builds).vocabSize := by
  rw [vocabSize_after, Vocab.tokens, List.length_append]
  exact Nat.le_add_right 4 _

theorem encode_after (text : Str) : ∃ body : List ℕ, body.length = text.length ∧
    (∀ i ∈ body, 3 ≤ i ∧ i < (after builds).vocabSize) ∧
    (after builds).encode text true = some ([1] ++ body ++ [2]) := by
  refine ⟨text.map (vocabOf builds).idOf, List.length_map _, ?_, ?_⟩
  · intro i hi
    obtain ⟨c, -, rfl⟩ := List.mem_map.mp hi
    have hfour : specialTokens.length = 4 := rfl
    rw [vocabSize_after, Vocab.idOf]
    cases hl : (Numbering.ids (vocabOf builds).tokens).lookup [c] with
    | none =>
      rw [Option.getD_none, Vocab.tokens, List.length_append]
      omega
    | some i =>
      have hi := (vocabOf builds).char2id_eq_some_iff.mp hl
      refine ⟨?_, (List.getElem?_eq_some_iff.mp hi).1⟩
      by_contra hlt
      rw [Option.getD_some] at hlt
      rw [Vocab.tokens, List.getElem?_append_left (by omega)] at hi
      exact Vocab.singleton_ne_special c (List.mem_of_getElem? hi)
  · rw [after_eq, Vocab.encode_tokenizer]
    rfl

theorem exists_tokens_encode {vocab : ℕ} (hvocab : (after builds).vocabSize ≤ vocab) (text : Str) :
    ∃ tokens : List (Fin vocab), (after builds).encode text true = some (tokens.map Fin.val) ∧
      tokens.length = text.length + 2 ∧ (∃ b, tokens.head? = some b ∧ b.val = 1) ∧
      ∀ token ∈ tokens, token.val ≠ 0 := by
  obtain ⟨body, hlen, hbody, henc⟩ := encode_after builds text
  have hfour := four_le_vocabSize_after builds
  have hids : ∀ i ∈ [1] ++ body ++ [2], i ≠ 0 ∧ i < vocab := by
    intro i hi
    simp only [List.mem_append, List.mem_singleton] at hi
    rcases hi with (rfl | hi) | rfl
    · omega
    · have := hbody i hi
      omega
    · omega
  obtain ⟨tokens, htokens⟩ := exists_toTokens fun i hi => (hids i hi).2
  have hval := toTokens_eq_some_iff.mp htokens
  refine ⟨tokens, hval ▸ henc, ?_, ?_, ?_⟩
  · rw [← List.length_map Fin.val, hval, List.length_append, List.length_append, hlen]
    simp only [List.length_singleton]
    omega
  · cases tokens with
    | nil => simp at hval
    | cons b tokens => exact ⟨b, rfl, (List.cons.inj hval).1⟩
  · intro token htoken
    exact (hids _ (hval ▸ List.mem_map_of_mem htoken)).1

theorem ofData_tokenizer (data : List (Str × Str)) (maxLen : ℕ) :
    (TranslationDataset.ofData data maxLen).tokenizer =
      after [(data.flatMap fun d => [d.1, d.2], 1)] := rfl

end Ids

/-- The special tokens and two characters, one head of two channels and eight positions. -/
def letterConfig : Config := ⟨6, 6, 1, 2, 2, 8, true, by norm_num⟩

def letterWeights : Weights ℝ letterConfig :=
  let attn : AttentionWeights ℝ := ⟨fun _ _ => 1, fun _ _ => 1⟩
  let norm : NormWeights ℝ := ⟨fun _ => 1, fun _ => 1⟩
  let ffn : FfnWeights ℝ := ⟨fun _ _ => 1, fun _ => 1, fun _ _ => 1, fun _ => 1⟩
  { srcEmb := fun _ _ => 1, encoderLayers := [⟨norm, attn, norm, ffn⟩], encoderNorm := norm
    tgtEmb := fun i _ => i.val, decoderLayers := [⟨norm, attn, norm, attn, norm, ffn⟩]
    decoderNorm := norm }

end K8sLearn.Transformer
