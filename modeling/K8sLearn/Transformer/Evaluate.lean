import K8sLearn.Transformer.Dataset
import K8sLearn.Transformer.Loss

/-! # Evaluation

`evaluate` averages the loss over the batches of the dataset. Sources and targets are padded to
`max_len`; the masks hide the pads of the source, the causal mask those of the target, and the
loss skips the labels that are pads, so the result does not depend on `max_len` as long as all
texts fit.
-/

namespace K8sLearn.Transformer

open SimpleTokenizer

section Labels

variable {K : Type*} {vocab : ℕ}

def labelled (L : ℕ → Option (Fin vocab → K)) (labels : List (Fin vocab)) :
    List (LabelledRow K vocab) :=
  labels.zipIdx.map fun label => (L label.2, label.1)

theorem labelled_congr {L L' : ℕ → Option (Fin vocab → K)} {labels : List (Fin vocab)}
    (h : ∀ i < labels.length, L' i = L i) : labelled L' labels = labelled L labels := by
  apply List.map_congr_left
  rintro ⟨label, i⟩ hmem
  have hi := (List.mem_zipIdx hmem).2.1
  dsimp only
  rw [h i (by omega)]

theorem filter_labelled (L : ℕ → Option (Fin vocab → K)) {labels : List (Fin vocab)}
    {padId : ℕ} (h : ∀ label ∈ labels, label.val ≠ padId) {pad : Fin vocab} (hpad : pad.val = padId)
    (k : ℕ) : (labelled L (labels ++ List.replicate k pad)).filter (fun r => r.2.val ≠ padId) =
      labelled L labels := by
  rw [labelled, List.zipIdx_append, List.map_append, List.filter_append,
    List.filter_eq_self.mpr, List.filter_eq_nil_iff.mpr, List.append_nil]
  · rfl
  · intro r hr
    obtain ⟨a, ha, rfl⟩ := List.mem_map.mp hr
    have hmem := (List.mem_zipIdx ha).2.2 ▸ List.getElem_mem _
    simp [List.eq_of_mem_replicate hmem, hpad]
  · intro r hr
    obtain ⟨a, ha, rfl⟩ := List.mem_map.mp hr
    have hmem : a.1 ∈ labels := (List.mem_zipIdx ha).2.2 ▸ List.getElem_mem _
    simpa using h a.1 hmem

theorem filter_map_some (padId : ℕ) (numbers : List ((Fin vocab → K) × Fin vocab)) :
    (numbers.map fun r => ((some r.1, r.2) : LabelledRow K vocab)).filter
      (fun r => r.2.val ≠ padId) = (keptRows padId numbers).map fun r => (some r.1, r.2) := by
  rw [List.filter_map]
  rfl

theorem map_some_injective : Function.Injective
    (List.map fun r : (Fin vocab → K) × Fin vocab => ((some r.1, r.2) : LabelledRow K vocab)) := by
  apply List.map_injective_iff.mpr
  rintro ⟨row, label⟩ ⟨row', label'⟩ h
  simpa using h

end Labels

section Evaluate

variable {K : Type*} [Field K] [LinearOrder K] (fn : Numerics K) {cfg : Config} (w : Weights K cfg)

/-- The rows of logits of an element of a batch, with their labels; an id outside an embedding and
a sequence outside the positional table are errors. -/
def itemRows (padId : ℕ) (item : Item) : Option (List (LabelledRow K cfg.tgtVocab)) :=
  (toTokens cfg.srcVocab item.src).bind fun src =>
  (toTokens cfg.tgtVocab item.tgtIn).bind fun tgtIn =>
  (toTokens cfg.tgtVocab item.tgtOut).bind fun tgtOut =>
  (forward fn w src tgtIn (makeSrcMask src padId) (makeTgtMask tgtIn padId)).map fun logits =>
    labelled logits tgtOut

/-- The loss of a batch of the dataset. Without a value the evaluation raises an error, and a loss
without a value is a NaN. -/
def batchLoss (smoothing : K) (ds : TranslationDataset) (idxs : List ℕ) : Option (Option K) :=
  (idxs.mapM ds.getItem).bind fun items =>
  (collate items).bind fun batch =>
  ds.tokenizer.padId.bind fun padId =>
  (batch.mapM (itemRows fn w padId)).map fun rows =>
    labelSmoothingLoss fn smoothing padId rows.flatten

/-- `evaluate` on batches of indices: `total_loss / max(n_batches, 1)`. -/
def evaluate (smoothing : K) (ds : TranslationDataset) (batches : List (List ℕ)) :
    Option (Option K) :=
  (batches.mapM (batchLoss fn w smoothing ds)).map fun losses =>
    (losses.mapM id).map fun l => l.sum / max (l.length : K) 1

end Evaluate

section Padded

variable {K : Type*} [Field K] [LinearOrder K] (fn : Numerics K) {cfg : Config} (w : Weights K cfg)

theorem dropLast_append_replicate {vocab : ℕ} (tgt : List (Fin vocab)) (pad : Fin vocab) (k : ℕ)
    {i : ℕ} (hi : i < tgt.length - 1) :
    (tgt ++ List.replicate k pad).dropLast[i]? = tgt.dropLast[i]? := by
  have hlen : (tgt ++ List.replicate k pad).length = tgt.length + k := by simp
  rw [List.dropLast_eq_take, List.dropLast_eq_take, List.getElem?_take_of_lt (by omega),
    List.getElem?_take_of_lt hi, List.getElem?_append_left (by omega)]

theorem head?_dropLast {vocab : ℕ} {tgt : List (Fin vocab)} {b : Fin vocab}
    (hb : tgt.head? = some b) (hlen : 2 ≤ tgt.length) : tgt.dropLast.head? = some b := by
  rw [List.head?_eq_getElem?] at hb ⊢
  rw [List.dropLast_eq_take, List.getElem?_take_of_lt (by omega), hb]

/-- Padding a source and a target leaves the rows of the labels; the other rows are numbers. -/
theorem forward_padded {src : List (Fin cfg.srcVocab)} {padId : ℕ} {s pad : Fin cfg.srcVocab}
    (hs : s ∈ src) (hne : s.val ≠ padId) (hpad : pad.val = padId) {n : ℕ}
    (hsrc : cfg.Fits (src.length + n)) {tgt : List (Fin cfg.tgtVocab)} {b : Fin cfg.tgtVocab}
    (hb : tgt.head? = some b) (hbne : b.val ≠ padId) (pad' : Fin cfg.tgtVocab)
    (hlen : 2 ≤ tgt.length) {k : ℕ} (htgt : cfg.Fits (tgt.length + k - 1)) :
    ∃ L L', forward fn w src tgt.dropLast (makeSrcMask src padId)
        (makeTgtMask tgt.dropLast padId) = some L ∧
      forward fn w (src ++ List.replicate n pad) (tgt ++ List.replicate k pad').dropLast
        (makeSrcMask (src ++ List.replicate n pad) padId)
        (makeTgtMask (tgt ++ List.replicate k pad').dropLast padId) = some L' ∧
      (∀ i < tgt.length - 1, L' i = L i) ∧ ∀ i < tgt.length + k - 1, (L' i).isSome := by
  have hlen' : (tgt ++ List.replicate k pad').dropLast.length = tgt.length + k - 1 := by simp
  have hb' : (tgt ++ List.replicate k pad').dropLast.head? = some b :=
    head?_dropLast (by rw [List.head?_append, hb]; rfl) (by simp; omega)
  obtain ⟨L, hL⟩ := (exists_forward_iff fn w src tgt.dropLast (makeSrcMask src padId)
    (makeTgtMask tgt.dropLast padId)).mpr
      ⟨hsrc.imp_left (Nat.le_of_add_right_le ·), by
        rw [List.length_dropLast]
        exact htgt.imp_left fun h => by omega⟩
  obtain ⟨L', hL'⟩ := (exists_forward_iff fn w src (tgt ++ List.replicate k pad').dropLast
    (makeSrcMask src padId) (makeTgtMask (tgt ++ List.replicate k pad').dropLast padId)).mpr
      ⟨hsrc.imp_left (Nat.le_of_add_right_le ·), by rwa [hlen']⟩
  refine ⟨L, L', hL, ?_, ?_, ?_⟩
  · rw [forward_pad_eq fn w hs hne hpad hsrc, hL']
  · have heq : ∀ i < tgt.length - 1,
        (tgt ++ List.replicate k pad').dropLast[i]? = tgt.dropLast[i]? :=
      fun i hi => dropLast_append_replicate tgt pad' k hi
    have htwin := twin_makeTgtMask hb' hbne (head?_dropLast hb hlen) hbne
      (by rw [hlen']; omega) (by rw [List.length_dropLast]) heq
    exact forward_prefix_eq fn w src _ htwin heq hL' hL
  · rw [← hlen']
    exact forward_defined fn w hs hne (fun _ _ => nonempty_unmasked_tgt hb' hbne) hL'

end Padded

section Items

theorem toTokens_padTo {vocab maxLen : ℕ} {tokens : List (Fin vocab)} (pad : Fin vocab)
    (h : tokens.length ≤ maxLen) : toTokens vocab (padTo maxLen pad.val (tokens.map Fin.val)) =
      some (tokens ++ List.replicate (maxLen - tokens.length) pad) := by
  rw [padTo_of_le (by rwa [List.length_map]), List.length_map]
  exact toTokens_append (toTokens_eq_some_iff.mpr rfl) (toTokens_replicate _ pad)

theorem toTokens_dropLast {vocab : ℕ} {ids : List ℕ} {tokens : List (Fin vocab)}
    (h : toTokens vocab ids = some tokens) :
    toTokens vocab ids.dropLast = some tokens.dropLast := by
  rw [toTokens_eq_some_iff] at h ⊢
  rw [List.map_dropLast, h]

theorem toTokens_tail {vocab : ℕ} {ids : List ℕ} {tokens : List (Fin vocab)}
    (h : toTokens vocab ids = some tokens) : toTokens vocab ids.tail = some tokens.tail := by
  rw [toTokens_eq_some_iff] at h ⊢
  rw [List.map_tail, h]

variable {K : Type*} [Field K] [LinearOrder K] (fn : Numerics K) {cfg : Config} (w : Weights K cfg)
  {data : List (Str × Str)}

/-- What the evaluation uses of an entry, whatever it is padded to: the rows of its labels. -/
theorem exists_base (hsrc : (TranslationDataset.ofData data 0).tokenizer.vocabSize ≤ cfg.srcVocab)
    (htgt : (TranslationDataset.ofData data 0).tokenizer.vocabSize ≤ cfg.tgtVocab) {idx : ℕ}
    {d : Str × Str} (hd : data[idx]? = some d) (h₁ : cfg.Fits (d.1.length + 2))
    (h₂ : cfg.Fits (d.2.length + 2)) :
    ∃ base : List ((Fin cfg.tgtVocab → K) × Fin cfg.tgtVocab), base ≠ [] ∧
      ∀ maxLen, d.1.length + 2 ≤ maxLen → d.2.length + 2 ≤ maxLen → cfg.Fits maxLen →
        ∃ item numbers, (TranslationDataset.ofData data maxLen).getItem idx = some item ∧
          (item.src.length = maxLen ∧ item.tgtIn.length = maxLen - 1 ∧
            item.tgtOut.length = maxLen - 1) ∧
          itemRows fn w 0 item = some (numbers.map fun r => (some r.1, r.2)) ∧
          keptRows 0 numbers = base := by
  rw [ofData_tokenizer] at hsrc htgt
  obtain ⟨S, hS, hSlen, ⟨s, hs, -⟩, hSpad⟩ := exists_tokens_encode _ hsrc d.1
  obtain ⟨T, hT, hTlen, ⟨b, hb, -⟩, hTpad⟩ := exists_tokens_encode _ htgt d.2
  have hfour := four_le_vocabSize_after [(data.flatMap fun d => [d.1, d.2], 1)]
  have hsne := hSpad s (List.mem_of_mem_head? hs)
  have hbne := hTpad b (List.mem_of_mem_head? hb)
  let padS : Fin cfg.srcVocab := ⟨0, by omega⟩
  let padT : Fin cfg.tgtVocab := ⟨0, by omega⟩
  have hlabels : ∀ label ∈ T.tail, label.val ≠ 0 :=
    fun label hl => hTpad label (List.mem_of_mem_tail hl)
  have htail : T.tail.length = T.length - 1 := List.length_tail
  -- the rows of the labels when nothing is padded
  obtain ⟨L, L₀, hL, -, hL₀, hdef⟩ := forward_padded fn w (List.mem_of_mem_head? hs) hsne
    (show padS.val = 0 from rfl) (n := 0) (by rwa [hSlen]) hb hbne padT (by omega) (k := 0)
    (by rw [hTlen]; exact h₂.imp_left (by omega))
  have hnum : ∀ r ∈ labelled L T.tail, r.1.isSome := by
    intro r hr
    obtain ⟨a, ha, rfl⟩ := List.mem_map.mp hr
    have hi := (List.mem_zipIdx ha).2.1
    have hlt : a.2 < T.length - 1 := by omega
    rw [← hL₀ a.2 hlt]
    exact hdef a.2 hlt
  obtain ⟨base, hbase⟩ := exists_rows hnum
  refine ⟨base, ?_, ?_⟩
  · rintro rfl
    have hnil := congrArg List.length hbase
    rw [labelled, List.length_map, List.length_zipIdx, List.length_map, htail] at hnil
    simp only [List.length_nil] at hnil
    omega
  intro maxLen hle₁ hle₂ hfit
  have hkS : S.length + (maxLen - S.length) = maxLen := by omega
  have hkT : T.length + (maxLen - T.length) = maxLen := by omega
  obtain ⟨L₁, L', hL₁, hL', heq, hdef'⟩ := forward_padded fn w (List.mem_of_mem_head? hs) hsne
    (show padS.val = 0 from rfl) (n := maxLen - S.length) (by rwa [hkS]) hb hbne padT (by omega)
    (k := maxLen - T.length) (by rw [hkT]; exact hfit.imp_left (by omega))
  obtain rfl := Option.some.inj (hL.symm.trans hL₁)
  have htgtTail : (T ++ List.replicate (maxLen - T.length) padT).tail =
      T.tail ++ List.replicate (maxLen - T.length) padT :=
    List.tail_append_of_ne_nil (List.ne_nil_of_length_pos (by omega))
  have hnum' : ∀ r ∈ labelled L' (T ++ List.replicate (maxLen - T.length) padT).tail,
      r.1.isSome := by
    intro r hr
    obtain ⟨a, ha, rfl⟩ := List.mem_map.mp hr
    have hi := (List.mem_zipIdx ha).2.1
    simp only [List.length_tail, List.length_append, List.length_replicate] at hi
    exact hdef' a.2 (by omega)
  obtain ⟨numbers, hnumbers⟩ := exists_rows hnum'
  have hSpadded : toTokens cfg.srcVocab (padTo maxLen 0 (S.map Fin.val)) = some _ :=
    toTokens_padTo padS (by omega)
  have hTpadded : toTokens cfg.tgtVocab (padTo maxLen 0 (T.map Fin.val)) = some _ :=
    toTokens_padTo padT (by omega)
  refine ⟨⟨padTo maxLen 0 (S.map Fin.val), (padTo maxLen 0 (T.map Fin.val)).dropLast,
    (padTo maxLen 0 (T.map Fin.val)).tail⟩, numbers, ?_, ?_, ?_, ?_⟩
  · have hpadId := padId_after [(data.flatMap fun d => [d.1, d.2], 1)]
    rw [← ofData_tokenizer data maxLen] at hS hT hpadId
    have hdata : (TranslationDataset.ofData data maxLen).data[idx]? = some d := hd
    rw [TranslationDataset.getItem, hdata, Option.bind_some, hS, Option.bind_some, hT,
      Option.bind_some, hpadId]
    rfl
  · simp only [List.length_dropLast, List.length_tail, length_padTo]
    exact ⟨trivial, trivial, trivial⟩
  · simp only [itemRows, hSpadded, toTokens_dropLast hTpadded, toTokens_tail hTpadded,
      Option.bind_some, hL', Option.map_some]
    exact congrArg some hnumbers
  · apply map_some_injective
    rw [← filter_map_some, ← hnumbers, htgtTail, filter_labelled L' hlabels rfl, ← hbase]
    exact labelled_congr fun i hi => heq i (by omega)

/-- Padding lengths that hold every text and the positional table takes. -/
def HoldsTexts (cfg : Config) (data : List (Str × Str)) (maxLen : ℕ) : Prop :=
  cfg.Fits maxLen ∧ ∀ d ∈ data, d.1.length + 2 ≤ maxLen ∧ d.2.length + 2 ≤ maxLen

variable [IsStrictOrderedRing K]

theorem exists_batchLoss
    (hsrc : (TranslationDataset.ofData data 0).tokenizer.vocabSize ≤ cfg.srcVocab)
    (htgt : (TranslationDataset.ofData data 0).tokenizer.vocabSize ≤ cfg.tgtVocab)
    {maxLen₀ : ℕ} (h₀ : HoldsTexts cfg data maxLen₀) (smoothing : K) {idxs : List ℕ}
    (hne : idxs ≠ []) (hidxs : ∀ idx ∈ idxs, idx < data.length) :
    ∃ loss, ∀ maxLen, HoldsTexts cfg data maxLen →
      batchLoss fn w smoothing (TranslationDataset.ofData data maxLen) idxs = some (some loss) := by
  have hbase : ∀ idx ∈ idxs, ∃ base : List ((Fin cfg.tgtVocab → K) × Fin cfg.tgtVocab),
      base ≠ [] ∧ ∀ maxLen, HoldsTexts cfg data maxLen →
        ∃ item numbers, (TranslationDataset.ofData data maxLen).getItem idx = some item ∧
          (item.src.length = maxLen ∧ item.tgtIn.length = maxLen - 1 ∧
            item.tgtOut.length = maxLen - 1) ∧
          itemRows fn w 0 item = some (numbers.map fun r => (some r.1, r.2)) ∧
          keptRows 0 numbers = base := by
    intro idx hidx
    have hd := List.getElem?_eq_getElem (hidxs idx hidx)
    have hmem := List.getElem_mem (hidxs idx hidx)
    obtain ⟨base, hbase, hitem⟩ := exists_base fn w hsrc htgt hd
      (h₀.1.imp_left (h₀.2 _ hmem).1.trans) (h₀.1.imp_left (h₀.2 _ hmem).2.trans)
    exact ⟨base, hbase, fun maxLen h => hitem maxLen (h.2 _ hmem).1 (h.2 _ hmem).2 h.1⟩
  choose! base hbne hbase using hbase
  have hflat : (idxs.map base).flatten ≠ [] := by
    obtain ⟨idx, hidx⟩ := List.exists_mem_of_ne_nil idxs hne
    intro hnil
    exact hbne idx hidx (List.flatten_eq_nil_iff.mp hnil _ (List.mem_map_of_mem hidx))
  refine ⟨((idxs.map base).flatten.map fun r => (1 - smoothing) * -logSoftmax fn r.1 r.2 +
    smoothing * -((∑ t, logSoftmax fn r.1 t) / cfg.tgtVocab)).sum / (idxs.map base).flatten.length,
    fun maxLen hmax => ?_⟩
  have hitems := fun idx hidx => hbase idx hidx maxLen hmax
  choose! item numbers hitem hlen hrows hkept using hitems
  have hcollate : collate (idxs.map item) = some (idxs.map item) := by
    apply collate_eq (by simpa using hne)
    intro i hi
    obtain ⟨idx, hidx, rfl⟩ := List.mem_map.mp hi
    exact hlen idx hidx
  have hforward : (idxs.map item).mapM (itemRows fn w 0) =
      some (idxs.map fun idx => (numbers idx).map fun r => (some r.1, r.2)) := by
    apply Lists.mapM_of_forall₂
    rw [List.forall₂_map_left_iff, List.forall₂_map_right_iff]
    exact List.forall₂_same.mpr hrows
  have hflatten : (idxs.map fun idx => (numbers idx).map
      fun r => ((some r.1, r.2) : LabelledRow K cfg.tgtVocab)).flatten =
        (idxs.map numbers).flatten.map fun r => (some r.1, r.2) := by
    rw [List.map_flatten, List.map_map]
    rfl
  have hkeptAll : keptRows 0 (idxs.map numbers).flatten = (idxs.map base).flatten := by
    rw [keptRows, List.filter_flatten, List.map_map]
    exact congrArg List.flatten (List.map_congr_left hkept)
  have hpadId : (TranslationDataset.ofData data maxLen).tokenizer.padId = some 0 := by
    rw [ofData_tokenizer]
    exact padId_after _
  rw [batchLoss, Lists.mapM_eq_some_map hitem, Option.bind_some, hcollate, Option.bind_some, hpadId,
    Option.bind_some, hforward, Option.map_some, hflatten,
    labelSmoothingLoss_eq smoothing (by rw [hkeptAll]; exact hflat), hkeptAll]

end Items

/-- Over the reals, for all weights, data and batches of its indices: the evaluation loss is a
number, and the same one for all padding lengths that hold the texts. -/
theorem evaluate_eq_of_maxLen (cfg : Config) (w : Weights ℝ cfg) (data : List (Str × Str))
    (hsrc : (TranslationDataset.ofData data 0).tokenizer.vocabSize ≤ cfg.srcVocab)
    (htgt : (TranslationDataset.ofData data 0).tokenizer.vocabSize ≤ cfg.tgtVocab)
    (smoothing : ℝ) (batches : List (List ℕ))
    (hbatches : ∀ idxs ∈ batches, idxs ≠ [] ∧ ∀ idx ∈ idxs, idx < data.length)
    (maxLen maxLen' : ℕ) (h : HoldsTexts cfg data maxLen) (h' : HoldsTexts cfg data maxLen') :
    ∃ loss, evaluate realNumerics w smoothing (.ofData data maxLen) batches = some (some loss) ∧
      evaluate realNumerics w smoothing (.ofData data maxLen') batches = some (some loss) := by
  have hlosses : ∀ idxs ∈ batches, ∃ loss, ∀ maxLen, HoldsTexts cfg data maxLen →
      batchLoss realNumerics w smoothing (.ofData data maxLen) idxs = some (some loss) :=
    fun idxs hidxs => exists_batchLoss _ w hsrc htgt h smoothing (hbatches idxs hidxs).1
      (hbatches idxs hidxs).2
  choose! loss hloss using hlosses
  have heval : ∀ maxLen, HoldsTexts cfg data maxLen →
      evaluate realNumerics w smoothing (.ofData data maxLen) batches =
        some (some ((batches.map loss).sum / max ((batches.map loss).length : ℝ) 1)) := by
    intro maxLen hmax
    have hsome : (batches.map fun idxs => some (loss idxs)).mapM id = some (batches.map loss) := by
      apply Lists.mapM_of_forall₂
      rw [List.forall₂_map_left_iff, List.forall₂_map_right_iff]
      exact List.forall₂_same.mpr fun _ _ => rfl
    rw [evaluate, Lists.mapM_eq_some_map fun idxs hidxs => hloss idxs hidxs maxLen hmax,
      Option.map_some, hsome, Option.map_some]
  exact ⟨_, heval maxLen h, heval maxLen' h'⟩

theorem evaluate_eq_of_maxLen_pairs :
    let data := [("ab".toList, "b".toList), ("a".toList, "bab".toList)]
    ∃ loss, evaluate realNumerics letterWeights (1 / 10) (.ofData data 5) [[1, 0], [1]] =
        some (some loss) ∧
      evaluate realNumerics letterWeights (1 / 10) (.ofData data 8) [[1, 0], [1]] =
        some (some loss) := by
  intro data
  have hsize : (TranslationDataset.ofData data 0).tokenizer.vocabSize = 6 := by decide +kernel
  have hholds : ∀ n, 5 ≤ n → n ≤ 8 → HoldsTexts letterConfig data n := by
    intro n h₁ h₂
    refine ⟨Or.inl h₂, ?_⟩
    have htexts : ∀ d ∈ data, d.1.length + 2 ≤ 5 ∧ d.2.length + 2 ≤ 5 := by decide
    exact fun d hd => ⟨(htexts d hd).1.trans h₁, (htexts d hd).2.trans h₁⟩
  exact evaluate_eq_of_maxLen letterConfig letterWeights data hsize.le hsize.le (1 / 10)
    [[1, 0], [1]] (by decide) 5 8 (hholds 5 (by norm_num) (by norm_num))
    (hholds 8 (by norm_num) (by norm_num))

end K8sLearn.Transformer
