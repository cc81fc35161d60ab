import K8sLearn.Transformer.Dataset
import K8sLearn.Transformer.Stopping

/-! # Translating a text

`translate` encodes a text, generates for a batch of one and decodes. The loop of `generate`
goes on for a sequence that has ended as long as another has not, and in a batch the sources
are padded to one length. Up to its first end token a row of a batch is nevertheless the row
that the source generates alone and without pads.
-/

namespace K8sLearn.Transformer

section Loop

variable {ι τ : Type*} {next : ι → List τ → Option τ} {isEos : τ → Bool}

def throughFirst (isEos : τ → Bool) : List τ → List τ
  | [] => []
  | token :: tgt => if isEos token then [token] else token :: throughFirst isEos tgt

theorem generateWith_singleton {n : ℕ} {e : ι} {tgt : List τ} {token : τ}
    (h : next e tgt = some token) :
    generateWith next isEos (n + 1) [(e, tgt)] =
      if isEos token then some [(e, tgt ++ [token])]
      else generateWith next isEos n [(e, tgt ++ [token])] := by
  simp [generateWith, step, h]

theorem generateWith_alone (n : ℕ) {batch result : List (ι × List τ)}
    (h : generateWith next isEos n batch = some result) :
    List.Forall₂ (fun a b => ∃ s, b = (a.1, a.2 ++ s) ∧
      generateWith next isEos n [a] = some [(a.1, a.2 ++ throughFirst isEos s)]) batch result := by
  induction n generalizing batch with
  | zero =>
    obtain rfl := Option.some.inj h
    exact List.forall₂_same.mpr fun a _ => ⟨[], by simp, by simp [generateWith, throughFirst]⟩
  | succ n ih =>
    obtain ⟨r, hr, h⟩ := Option.bind_eq_some_iff.mp h
    have hstep : List.Forall₂ (fun a c => next a.1 a.2 = some c.2 ∧ c.1 = (a.1, a.2 ++ [c.2]))
        batch r := by
      refine (Lists.forall₂_of_mapM hr).imp fun a c hac => ?_
      obtain ⟨token, htoken, rfl⟩ := Option.map_eq_some_iff.mp hac
      exact ⟨htoken, rfl⟩
    split_ifs at h with hall
    · obtain rfl := Option.some.inj h
      rw [List.forall₂_map_right_iff]
      refine ((List.forall₂_and_left _ _).mpr ⟨List.all_eq_true.mp hall, hstep.flip⟩).flip.imp ?_
      rintro a c ⟨heos, hnext, hc⟩
      refine ⟨[c.2], hc, ?_⟩
      rw [generateWith_singleton hnext, if_pos heos, throughFirst, if_pos heos]
    · have hrest := List.forall₂_map_left_iff.mp (ih h)
      refine Lists.forall₂_trans ?_ hstep hrest
      rintro a c b ⟨hnext, hc⟩ ⟨s, hb, hs⟩
      rw [hc] at hb hs
      refine ⟨c.2 :: s, by rw [hb]; simp, ?_⟩
      rw [generateWith_singleton hnext, throughFirst]
      split_ifs with heos
      · rfl
      · rw [hs]
        simp

theorem generateWith_congr {e e' : ι} (he : ∀ tgt, next e tgt = next e' tgt) (n : ℕ)
    {tgt result : List τ} (h : generateWith next isEos n [(e, tgt)] = some [(e, result)]) :
    generateWith next isEos n [(e', tgt)] = some [(e', result)] := by
  induction n generalizing tgt with
  | zero => simpa [generateWith] using h
  | succ n ih =>
    cases hnext : next e tgt with
    | none => simp [generateWith, step, hnext] at h
    | some token =>
      rw [generateWith_singleton hnext] at h
      rw [generateWith_singleton ((he tgt).symm.trans hnext)]
      split_ifs with heos
      · rw [if_pos heos] at h
        simpa using h
      · rw [if_neg heos] at h
        exact ih h

end Loop

section Translate

variable {K : Type*} [Field K] [LinearOrder K] (fn : Numerics K) {cfg : Config} (w : Weights K cfg)

/-- `translate`, with the vocabulary that the model was trained on. -/
def translate (t : SimpleTokenizer) (text : Str) (maxLen : ℕ) : Option Str :=
  t.padId.bind fun padId =>
  t.bosId.bind fun bosId =>
  t.eosId.bind fun eosId =>
  (t.encode text true).bind fun srcIds =>
  (toTokens cfg.srcVocab srcIds).bind fun src =>
  if h : bosId < cfg.tgtVocab then
    (generate fn w [(src, padMask src padId)] maxLen ⟨bosId, h⟩ eosId 1).bind fun outIds =>
    outIds.head?.map fun row => t.decode (row.map Fin.val) true
  else none

theorem generateToken_pad {src : List (Fin cfg.srcVocab)} {padId : ℕ} {s pad : Fin cfg.srcVocab}
    (hs : s ∈ src) (hne : s.val ≠ padId) (hpad : pad.val = padId) {n : ℕ} {e e' : Hidden K}
    (he : encoder fn w src (fun _ => padMask src padId) = some e)
    (he' : encoder fn w (src ++ List.replicate n pad)
      (fun _ => padMask (src ++ List.replicate n pad) padId) = some e')
    (temperature : K) (tgt : List (Fin cfg.tgtVocab)) :
    generateToken fn w temperature ⟨e', (src ++ List.replicate n pad).length,
        padMask (src ++ List.replicate n pad) padId⟩ tgt =
      generateToken fn w temperature ⟨e, src.length, padMask src padId⟩ tgt := by
  have hun := (unmasked_padMask_append src hpad n).symm
  have hnon := nonempty_unmasked_padMask hs hne
  obtain ⟨hd, hd', heq⟩ := encoder_extend fn w (by simp)
    (fun i hi => (List.getElem?_append_left hi).symm) hun hnon he he'
  have hdec := decoder_congr fn w tgt causal hd hd' hun hnon
    fun j hj => heq j (mem_unmasked.mp hj).1
  rw [generateToken, generateToken, hdec]

variable {fn w}

/-- Alone and without pads, or padded in a batch: the generated rows agree up to the first end
token. -/
theorem generate_batch {padId eosId maxLen : ℕ} {pad : Fin cfg.srcVocab} (hpad : pad.val = padId)
    {bos : Fin cfg.tgtVocab} (hbos : bos.val ≠ eosId) (temperature : K)
    {srcs : List (List (Fin cfg.srcVocab))} (hsrcs : ∀ src ∈ srcs, ∃ s ∈ src, s.val ≠ padId)
    {pads : List (Fin cfg.srcVocab) → ℕ} (hfit : ∀ src ∈ srcs, cfg.Fits src.length)
    {rows : List (List (Fin cfg.tgtVocab))}
    (h : generate fn w (srcs.map fun src => (src ++ List.replicate (pads src) pad,
      padMask (src ++ List.replicate (pads src) pad) padId)) maxLen bos eosId temperature =
        some rows) :
    List.Forall₂ (fun src row => generate fn w [(src, padMask src padId)] maxLen bos eosId
      temperature = some [throughFirst (fun token => token.val = eosId) row]) srcs rows := by
  obtain ⟨start, hstart, h⟩ := Option.bind_eq_some_iff.mp h
  obtain ⟨result, hresult, rfl⟩ := Option.map_eq_some_iff.mp h
  rw [generateLoop_eq] at hresult
  have hrows := generateWith_alone maxLen hresult
  have hsame := List.forall₂_map_left_iff.mp (Lists.forall₂_of_mapM hstart)
  rw [List.forall₂_map_right_iff]
  refine Lists.forall₂_trans ?_ ((List.forall₂_and_left _ _).mpr
    ⟨fun src hsrc => hsrc, hsame⟩) hrows
  rintro src a b ⟨hsrc, ha⟩ ⟨s, rfl, hs⟩
  obtain ⟨e', he', rfl⟩ := Option.map_eq_some_iff.mp ha
  obtain ⟨x, hx⟩ := (exists_embed_iff fn w.srcEmb src).mpr (hfit src hsrc)
  obtain ⟨e, he⟩ : ∃ e, encoder fn w src (fun _ => padMask src padId) = some e :=
    ⟨_, by rw [encoder, hx, Option.map_some]⟩
  obtain ⟨token, htoken, hne⟩ := hsrcs src hsrc
  have hpads := generateToken_pad fn w htoken hne hpad he he' temperature
  have halone := generateWith_congr hpads maxLen hs
  simp only [generate, List.mapM_cons, List.mapM_nil, he, generateLoop_eq]
  simp [halone, throughFirst, hbos]

end Translate

open SimpleTokenizer

/-- Over the reals, for all weights and any vocabulary below the sizes of the embeddings: texts
that are encoded and padded to one length within the positional table are generated in one batch,
and each row, cut after its first end token and decoded, is the translation of its text alone.
A translation has characters of the vocabulary only. -/
theorem translate_eq_batch (cfg : Config) (w : Weights ℝ cfg) (builds : List (List Str × ℤ))
    (hsrc : (after builds).vocabSize ≤ cfg.srcVocab)
    (htgt : (after builds).vocabSize ≤ cfg.tgtVocab)
    (texts : List Str) (n : ℕ) (hn : ∀ text ∈ texts, text.length + 2 ≤ n) (hfit : cfg.Fits n)
    (maxLen : ℕ) (hmax : maxLen ≤ cfg.maxSeqLen) (bos : Fin cfg.tgtVocab) (hbos : bos.val = 1) :
    ∃ batch rows, texts.mapM (fun text => ((after builds).encode text true).bind fun ids =>
        toTokens cfg.srcVocab (padTo n 0 ids)) = some batch ∧
      generate realNumerics w (batch.map fun src => (src, padMask src 0)) maxLen bos 2 1 =
        some rows ∧
      List.Forall₂ (fun text row => ∃ out,
        translate realNumerics w (after builds) text maxLen = some out ∧
        out = (after builds).decode
          ((throughFirst (fun token => token.val = 2) row).map Fin.val) true ∧
        ∀ c ∈ out, Known builds c) texts rows := by
  have hfour := four_le_vocabSize_after builds
  choose src henc hlen hhead hnonpad using exists_tokens_encode builds hsrc
  let pad : Fin cfg.srcVocab := ⟨0, by omega⟩
  have hsrcs : ∀ s ∈ texts.map src, ∃ token ∈ s, token.val ≠ 0 := by
    intro s hs
    obtain ⟨text, -, rfl⟩ := List.mem_map.mp hs
    obtain ⟨b, hb, -⟩ := hhead text
    have hmem := List.mem_of_mem_head? hb
    exact ⟨b, hmem, hnonpad text b hmem⟩
  have hfits : ∀ s ∈ texts.map src, s.length ≤ n ∧ cfg.Fits s.length := by
    intro s hs
    obtain ⟨text, htext, rfl⟩ := List.mem_map.mp hs
    have hle := hn text htext
    rw [hlen]
    exact ⟨hle, hfit.imp_left hle.trans⟩
  have hbatch : texts.mapM (fun text => ((after builds).encode text true).bind fun ids =>
      toTokens cfg.srcVocab (padTo n 0 ids)) =
        some ((texts.map src).map fun s => s ++ List.replicate (n - s.length) pad) := by
    rw [List.map_map]
    apply Lists.mapM_eq_some_map
    intro text htext
    have hle : ((src text).map Fin.val).length ≤ n := by
      rw [List.length_map, hlen]
      exact hn text htext
    rw [henc, Option.bind_some, padTo_of_le hle, List.length_map]
    exact toTokens_append (toTokens_eq_some_iff.mpr rfl) (toTokens_replicate _ pad)
  obtain ⟨rows, hrows⟩ : ∃ rows, generate realNumerics w ((texts.map src).map fun s =>
      (s ++ List.replicate (n - s.length) pad,
        padMask (s ++ List.replicate (n - s.length) pad) 0)) maxLen bos 2 1 = some rows :=
    exists_generate _ hmax (by
      intro a ha
      obtain ⟨s, hs, rfl⟩ := List.mem_map.mp ha
      have hlen : (s ++ List.replicate (n - s.length) pad).length = n := by
        have := (hfits s hs).1
        simp only [List.length_append, List.length_replicate]
        omega
      rwa [hlen]) bos 2 1
  have hne : bos.val ≠ 2 := by omega
  have halone := generate_batch (show pad.val = 0 from rfl) hne (1 : ℝ) hsrcs
    (fun s hs => (hfits s hs).2) hrows
  refine ⟨_, rows, hbatch, by rw [List.map_map]; exact hrows, ?_⟩
  refine (List.forall₂_map_left_iff.mp halone).imp ?_
  rintro text row hrow
  refine ⟨_, ?_, rfl, fun c hc => ?_⟩
  · have hlt : 1 < cfg.tgtVocab := by omega
    have hbos' : (⟨1, hlt⟩ : Fin cfg.tgtVocab) = bos := Fin.ext hbos.symm
    rw [translate, padId_after, bosId_after, eosId_after, henc]
    simp only [Option.bind_some, toTokens_eq_some_iff.mpr rfl, dif_pos hlt, hbos', hrow]
    rfl
  · rw [after_eq] at hc
    exact mem_vocabOf.mp (Vocab.mem_chars_of_mem_decode _ hc)

theorem translate_eq_batch_letters :
    let builds := [(["ab".toList], (1 : ℤ))]
    ∃ rows, List.Forall₂ (fun text row => ∃ out,
      translate realNumerics letterWeights (after builds) text 3 = some out ∧
      out = (after builds).decode
        ((throughFirst (fun token : Fin 6 => token.val = 2) row).map Fin.val) true ∧
      ∀ c ∈ out, Known builds c) ["a".toList, "bxa".toList] rows := by
  intro builds
  have hsize : (after builds).vocabSize = 6 := by decide +kernel
  have hfits : letterConfig.Fits 5 := Or.inl (by decide)
  obtain ⟨-, rows, -, -, h⟩ := translate_eq_batch letterConfig letterWeights builds hsize.le
    hsize.le ["a".toList, "bxa".toList] 5 (by decide) hfits 3 (by decide) (1 : Fin 6) rfl
  exact ⟨rows, h⟩

end K8sLearn.Transformer
