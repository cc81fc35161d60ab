import Mathlib.Algebra.BigOperators.Field
import Mathlib.Data.List.MinMax
import K8sLearn.Lib.Lists
import K8sLearn.Transformer.Noninterference

/-! # Greedy generation

`Transformer.generate` runs the decoder on the growing target of every element of a batch
under a causal mask only, scales the last row by the temperature and appends the first
token of largest logit. The last row of a run on a prefix is a row of the run on the whole
target, and the temperature does not move the maximum, so one pass of `forward` over the
generated target predicts each of its tokens.
-/

namespace K8sLearn.Transformer

section Generate

variable {K : Type*} [Field K] [LinearOrder K] (fn : Numerics K) {cfg : Config} (w : Weights K cfg)

/-- `logits.argmax`: the first token of largest logit; a NaN is largest. -/
def nextToken (logits : Option (Fin cfg.tgtVocab → K)) : Option (Fin cfg.tgtVocab) :=
  match logits with
  | some row => (List.finRange cfg.tgtVocab).argmax row
  | none => (List.finRange cfg.tgtVocab).head?

/-- The encoded source of an element of the batch, its length and its mask. -/
structure Encoded (K : Type*) where
  encOut : Hidden K
  srcSeq : ℕ
  srcMask : ℕ → ℕ

def generateToken (temperature : K) (e : Encoded K) (tgt : List (Fin cfg.tgtVocab)) :
    Option (Fin cfg.tgtVocab) :=
  (decoder fn w tgt e.encOut causal e.srcSeq fun _ => e.srcMask).bind fun decOut =>
    nextToken ((decOut (tgt.length - 1)).map fun row => outputProj w fun c => row c / temperature)

/-- The loop of `generate`, with the number of rounds left. -/
def generateLoop (temperature : K) (eosId : ℕ) :
    ℕ → List (Encoded K × List (Fin cfg.tgtVocab)) →
      Option (List (Encoded K × List (Fin cfg.tgtVocab)))
  | 0, batch => some batch
  | n + 1, batch =>
    (batch.mapM fun a => (generateToken fn w temperature a.1 a.2).map fun token =>
      ((a.1, a.2 ++ [token]), token)).bind fun next =>
    if next.all fun a => a.2.val = eosId then some (next.map Prod.fst)
    else generateLoop temperature eosId n (next.map Prod.fst)

/-- `Transformer.generate` on a batch of sources with their masks. -/
def generate (batch : List (List (Fin cfg.srcVocab) × (ℕ → ℕ))) (maxLen : ℕ)
    (bos : Fin cfg.tgtVocab) (eosId : ℕ) (temperature : K) :
    Option (List (List (Fin cfg.tgtVocab))) :=
  (batch.mapM fun a => (encoder fn w a.1 fun _ => a.2).map fun encOut =>
    ((⟨encOut, a.1.length, a.2⟩ : Encoded K), [bos])).bind fun start =>
  (generateLoop fn w temperature eosId maxLen start).map (List.map Prod.snd)

/-- Every token after the first is the one that the run on the tokens before it gives. -/
structure Greedy (temperature : K) (bos : Fin cfg.tgtVocab) (e : Encoded K)
    (tgt : List (Fin cfg.tgtVocab)) : Prop where
  head : tgt.head? = some bos
  next : ∀ t, t + 1 < tgt.length →
    generateToken fn w temperature e (tgt.take (t + 1)) = tgt[t + 1]?

variable {fn w} {temperature : K} {bos : Fin cfg.tgtVocab} {e : Encoded K}
  {tgt : List (Fin cfg.tgtVocab)}

theorem Greedy.start : Greedy fn w temperature bos e [bos] where
  head := rfl
  next t ht := by simp at ht

theorem Greedy.append (h : Greedy fn w temperature bos e tgt) {token : Fin cfg.tgtVocab}
    (ht : generateToken fn w temperature e tgt = some token) :
    Greedy fn w temperature bos e (tgt ++ [token]) where
  head := by rw [List.head?_append, h.head]; rfl
  next t hlt := by
    rw [List.length_append, List.length_singleton] at hlt
    rcases Nat.lt_or_ge (t + 1) tgt.length with hlt' | hge
    · rw [List.take_append_of_le_length hlt'.le, List.getElem?_append_left hlt']
      exact h.next t hlt'
    · have heq : t + 1 = tgt.length := by omega
      rw [heq, List.take_left, List.getElem?_concat_length]
      exact ht

theorem generateLoop_greedy {eosId : ℕ} (n : ℕ)
    {batch result : List (Encoded K × List (Fin cfg.tgtVocab))}
    (hb : ∀ a ∈ batch, Greedy fn w temperature bos a.1 a.2)
    (h : generateLoop fn w temperature eosId n batch = some result) :
    List.Forall₂ (fun a b => b.1 = a.1 ∧ Greedy fn w temperature bos b.1 b.2 ∧
      b.2.length ≤ a.2.length + n) batch result := by
  induction n generalizing batch with
  | zero =>
    obtain rfl : batch = result := by simpa [generateLoop] using h
    exact List.forall₂_same.mpr fun a ha => ⟨rfl, hb a ha, le_rfl⟩
  | succ n ih =>
    rw [generateLoop] at h
    obtain ⟨next, hnext, h⟩ := Option.bind_eq_some_iff.mp h
    have hstep : List.Forall₂ (fun a b => b.1 = a.1 ∧ Greedy fn w temperature bos b.1 b.2 ∧
        b.2.length = a.2.length + 1) batch (next.map Prod.fst) := by
      rw [List.forall₂_map_right_iff]
      refine ((List.forall₂_and_left _ _).mpr ⟨hb, Lists.forall₂_of_mapM hnext⟩).imp ?_
      rintro a b ⟨ha, hab⟩
      obtain ⟨token, htok, rfl⟩ := Option.map_eq_some_iff.mp hab
      exact ⟨rfl, ha.append htok, by simp⟩
    split_ifs at h
    · obtain rfl := Option.some.inj h
      refine hstep.imp ?_
      rintro a b ⟨he, hg, hlen⟩
      exact ⟨he, hg, by omega⟩
    · have hgreedy : ∀ b ∈ next.map Prod.fst, Greedy fn w temperature bos b.1 b.2 := by
        intro b hmem
        obtain ⟨a, -, -, hg, -⟩ := (Lists.exists_mem_of_forall₂ hstep).1 b hmem
        exact hg
      refine Lists.forall₂_trans ?_ hstep (ih hgreedy h)
      rintro a b c ⟨hab, -, hlen⟩ ⟨hbc, hg, hlen'⟩
      exact ⟨hbc.trans hab, hg, by omega⟩

/-- The loop returns as long as the targets fit the positional table. -/
theorem exists_generateLoop (eosId n : ℕ) {batch : List (Encoded K × List (Fin cfg.tgtVocab))}
    (hb : ∀ a ∈ batch, a.2.length + n ≤ cfg.maxSeqLen + 1) (bos : Fin cfg.tgtVocab) :
    ∃ result, generateLoop fn w temperature eosId n batch = some result := by
  have hV : List.finRange cfg.tgtVocab ≠ [] := List.ne_nil_of_mem (List.mem_finRange bos)
  have hnext : ∀ row : Option (Fin cfg.tgtVocab → K), ∃ token, nextToken row = some token := by
    intro row
    cases row with
    | none => exact ⟨_, List.head?_eq_some_head hV⟩
    | some row =>
      cases hr : (List.finRange cfg.tgtVocab).argmax row with
      | none => exact absurd (List.argmax_eq_none.mp hr) hV
      | some token => exact ⟨token, hr⟩
  induction n generalizing batch with
  | zero => exact ⟨batch, rfl⟩
  | succ n ih =>
    obtain ⟨next, hnx⟩ := Lists.exists_mapM (l := batch)
      (f := fun a => (generateToken fn w temperature a.1 a.2).map fun token =>
        ((a.1, a.2 ++ [token]), token)) (by
      intro a ha
      have hfit : cfg.Fits a.2.length := Or.inl (by have := hb a ha; omega)
      obtain ⟨x, hx⟩ := (exists_embed_iff fn w.tgtEmb a.2).mpr hfit
      obtain ⟨d, hd⟩ : ∃ d, decoder fn w a.2 a.1.encOut causal a.1.srcSeq
          (fun _ => a.1.srcMask) = some d := ⟨_, by rw [decoder, hx, Option.map_some]⟩
      obtain ⟨token, htok⟩ := hnext ((d (a.2.length - 1)).map fun row =>
        outputProj w fun c => row c / temperature)
      exact ⟨_, by rw [generateToken, hd, Option.bind_some, htok, Option.map_some]⟩)
    rw [generateLoop, hnx, Option.bind_some]
    split_ifs
    · exact ⟨_, rfl⟩
    · apply ih
      intro b hmem
      obtain ⟨c, hc, rfl⟩ := List.mem_map.mp hmem
      obtain ⟨a, ha, hac⟩ := (Lists.exists_mem_of_forall₂ (Lists.forall₂_of_mapM hnx)).1 c hc
      obtain ⟨token, -, rfl⟩ := Option.map_eq_some_iff.mp hac
      have := hb a ha
      simp only [List.length_append, List.length_singleton]
      omega

theorem exists_generate (batch : List (List (Fin cfg.srcVocab) × (ℕ → ℕ))) {maxLen : ℕ}
    (hmax : maxLen ≤ cfg.maxSeqLen) (hfit : ∀ a ∈ batch, cfg.Fits a.1.length)
    (bos : Fin cfg.tgtVocab) (eosId : ℕ) (temperature : K) :
    ∃ tgts, generate fn w batch maxLen bos eosId temperature = some tgts := by
  obtain ⟨start, hstart⟩ := Lists.exists_mapM (l := batch)
    (f := fun a => (encoder fn w a.1 fun _ => a.2).map fun encOut =>
      ((⟨encOut, a.1.length, a.2⟩ : Encoded K), [bos])) (by
    intro a ha
    obtain ⟨x, hx⟩ := (exists_embed_iff fn w.srcEmb a.1).mpr (hfit a ha)
    exact ⟨_, by rw [encoder, hx, Option.map_some, Option.map_some]⟩)
  have hlen : ∀ a ∈ start, a.2.length + maxLen ≤ cfg.maxSeqLen + 1 := by
    intro b hb
    obtain ⟨a, -, hab⟩ := (Lists.exists_mem_of_forall₂ (Lists.forall₂_of_mapM hstart)).1 b hb
    obtain ⟨encOut, -, rfl⟩ := Option.map_eq_some_iff.mp hab
    simp only [List.length_singleton]
    omega
  obtain ⟨result, hresult⟩ : ∃ result,
      generateLoop fn w temperature eosId maxLen start = some result :=
    exists_generateLoop eosId maxLen hlen bos
  exact ⟨_, by rw [generate, hstart, Option.bind_some, hresult, Option.map_some]⟩

/-- The returned targets are greedy for their sources and at most one token longer than the
number of rounds. -/
theorem generate_greedy {batch : List (List (Fin cfg.srcVocab) × (ℕ → ℕ))} {maxLen eosId : ℕ}
    {tgts : List (List (Fin cfg.tgtVocab))}
    (h : generate fn w batch maxLen bos eosId temperature = some tgts) :
    List.Forall₂ (fun a tgt => ∃ encOut, encoder fn w a.1 (fun _ => a.2) = some encOut ∧
      Greedy fn w temperature bos ⟨encOut, a.1.length, a.2⟩ tgt ∧ tgt.length ≤ maxLen + 1)
      batch tgts := by
  obtain ⟨start, hstart, h⟩ := Option.bind_eq_some_iff.mp h
  obtain ⟨result, hresult, rfl⟩ := Option.map_eq_some_iff.mp h
  have hf := Lists.forall₂_of_mapM hstart
  have hg : ∀ b ∈ start, Greedy fn w temperature bos b.1 b.2 := by
    intro b hb
    obtain ⟨a, -, hab⟩ := (Lists.exists_mem_of_forall₂ hf).1 b hb
    obtain ⟨encOut, -, rfl⟩ := Option.map_eq_some_iff.mp hab
    exact Greedy.start
  rw [List.forall₂_map_right_iff]
  refine Lists.forall₂_trans ?_ hf (generateLoop_greedy maxLen hg hresult)
  rintro a b c hab ⟨he, hgreedy, hlen⟩
  obtain ⟨encOut, henc, rfl⟩ := Option.map_eq_some_iff.mp hab
  rw [he] at hgreedy
  refine ⟨encOut, henc, hgreedy, ?_⟩
  rw [List.length_singleton] at hlen
  omega

end Generate

section TeacherForcing

theorem argmax_congr {α β : Type*} [LinearOrder β] {f g : α → β} (h : ∀ a b, g a < g b ↔ f a < f b)
    (l : List α) : l.argmax g = l.argmax f := by
  induction l using List.reverseRecOn with
  | nil => rfl
  | append_singleton l a ih =>
    rw [List.argmax_concat, List.argmax_concat, ih]
    cases l.argmax f with
    | none => rfl
    | some c => simp only [h]

variable {K : Type*} [Field K] [LinearOrder K] [IsStrictOrderedRing K] {fn : Numerics K}
  {cfg : Config} {w : Weights K cfg} {temperature : K} {bos : Fin cfg.tgtVocab}

theorem nextToken_temperature (ht : 0 < temperature) (row : Option (ℕ → K)) :
    nextToken (row.map fun row => outputProj w fun c => row c / temperature) =
      nextToken (row.map (outputProj w)) := by
  cases row with
  | none => rfl
  | some row =>
    have hdiv : ∀ token, outputProj w (fun c => row c / temperature) token =
        outputProj w row token / temperature := by
      intro token
      simp only [outputProj, Finset.sum_div]
      apply Finset.sum_congr rfl
      intro c _
      ring
    apply argmax_congr
    intro a b
    dsimp only
    rw [hdiv, hdiv, div_lt_div_iff_of_pos_right ht]

theorem twin_causal {tgt : List (Fin cfg.tgtVocab)} {padId t : ℕ}
    (hpad : ∀ token ∈ tgt, token.val ≠ padId) (ht : t < tgt.length) :
    Twin (t + 1) (tgt.take (t + 1)).length tgt.length causal (makeTgtMask tgt padId) := by
  have hlen : (tgt.take (t + 1)).length = t + 1 := by rw [List.length_take]; omega
  have hmask : ∀ j < tgt.length, padMask tgt padId j ≠ 0 := by
    intro j hj
    exact padMask_ne_zero_iff.mpr ⟨tgt[j], List.getElem?_eq_getElem hj, hpad _ (List.getElem_mem hj)⟩
  refine { le₁ := hlen.ge, le₂ := ht, pos₁ := by omega, pos₂ := by omega, nonempty₁ := ?_,
           nonempty₂ := ?_, eq := ?_, lt := ?_ }
  · intro i _
    exact ⟨0, mem_unmasked_causal.mpr ⟨by omega, Nat.zero_le i⟩⟩
  · intro i _
    exact ⟨0, mem_unmasked_tgt.mpr ⟨⟨by omega, Nat.zero_le i⟩, hmask 0 (by omega)⟩⟩
  · intro i hi
    ext j
    rw [mem_unmasked_causal, mem_unmasked_tgt]
    constructor
    · rintro ⟨hj, hji⟩
      exact ⟨⟨by omega, hji⟩, hmask j (by omega)⟩
    · rintro ⟨⟨-, hji⟩, -⟩
      exact ⟨by omega, hji⟩
  · intro i hi j hj
    have := (mem_unmasked_causal.mp hj).2
    omega

theorem Greedy.forward_argmax {src : List (Fin cfg.srcVocab)} {f : ℕ → ℕ} {encOut : Hidden K}
    (henc : encoder fn w src (fun _ => f) = some encOut) {tgt : List (Fin cfg.tgtVocab)}
    (h : Greedy fn w temperature bos ⟨encOut, src.length, f⟩ tgt) (ht : 0 < temperature)
    {padId : ℕ} (hpad : ∀ token ∈ tgt, token.val ≠ padId) (hfit : cfg.Fits (tgt.length - 1)) :
    ∃ L, forward fn w src tgt.dropLast (fun _ => f) (makeTgtMask tgt.dropLast padId) = some L ∧
      ∀ t token, tgt[t + 1]? = some token → nextToken (L t) = some token := by
  have hpad' : ∀ token ∈ tgt.dropLast, token.val ≠ padId :=
    fun token hm => hpad token (List.mem_of_mem_dropLast hm)
  obtain ⟨y, hy⟩ := (exists_embed_iff fn w.tgtEmb tgt.dropLast).mpr
    (by rwa [List.length_dropLast])
  obtain ⟨d, hd⟩ : ∃ d, decoder fn w tgt.dropLast encOut (makeTgtMask tgt.dropLast padId)
      src.length (fun _ => f) = some d := ⟨_, by rw [decoder, hy, Option.map_some]⟩
  refine ⟨fun i => (d i).map (outputProj w), ?_, fun t token htok => ?_⟩
  · rw [forward, henc, Option.bind_some, hd, Option.map_some]
  have hlt : t + 1 < tgt.length := (List.getElem?_eq_some_iff.mp htok).1
  have htake : tgt.dropLast.take (t + 1) = tgt.take (t + 1) := by
    rw [List.dropLast_eq_take, List.take_take, min_eq_left (by omega)]
  have hnext := h.next t hlt
  rw [htok, generateToken] at hnext
  obtain ⟨d', hd', hnext⟩ := Option.bind_eq_some_iff.mp hnext
  have htwin := twin_causal hpad' (t := t) (by rw [List.length_dropLast]; omega)
  rw [← htake] at hd' hnext
  have hrow := (decoder_paired fn w htwin (fun i hi => List.getElem?_take_of_lt hi) hd' hd).eq t
    (Nat.lt_succ_self t)
  have hlen : (tgt.dropLast.take (t + 1)).length - 1 = t := by
    rw [List.length_take, List.length_dropLast]
    omega
  rw [hlen, hrow, nextToken_temperature ht] at hnext
  exact hnext

end TeacherForcing

/-- Over the reals, for all weights, sources that have a token which is no pad, temperatures and
lengths within the positional table: when a generated target has no pad, the logits of one pass
over it are numbers and the first largest at each position is the next token. Generation
returns when the sources fit the table. -/
theorem generate_agrees_with_forward (cfg : Config) (w : Weights ℝ cfg) (padId : ℕ)
    (batch : List (List (Fin cfg.srcVocab))) (hsrc : ∀ src ∈ batch, ∃ s ∈ src, s.val ≠ padId)
    (maxLen : ℕ) (hmax : maxLen ≤ cfg.maxSeqLen) (bos : Fin cfg.tgtVocab) (eosId : ℕ)
    (temperature : ℝ) (ht : 0 < temperature) :
    (∀ tgts, generate realNumerics w (batch.map fun src => (src, padMask src padId)) maxLen bos
        eosId temperature = some tgts →
      List.Forall₂ (fun src tgt => (∀ token ∈ tgt, token.val ≠ padId) →
        ∃ L, forward realNumerics w src tgt.dropLast (makeSrcMask src padId)
            (makeTgtMask tgt.dropLast padId) = some L ∧
          ∀ t token, tgt[t + 1]? = some token →
            ∃ row, L t = some row ∧ (List.finRange cfg.tgtVocab).argmax row = some token)
        batch tgts) ∧
    ((∀ src ∈ batch, cfg.Fits src.length) →
      ∃ tgts, generate realNumerics w (batch.map fun src => (src, padMask src padId)) maxLen bos
        eosId temperature = some tgts) := by
  constructor
  · intro tgts h
    have hf := generate_greedy h
    rw [List.forall₂_map_left_iff] at hf
    refine ((List.forall₂_and_left _ _).mpr ⟨hsrc, hf⟩).imp ?_
    rintro src tgt ⟨⟨s, hs, hne⟩, encOut, henc, hgreedy, hlen⟩ hpad
    obtain ⟨L, hL, hnext⟩ := hgreedy.forward_argmax henc ht hpad (Or.inl (by omega))
    refine ⟨L, hL, fun t token htok => ?_⟩
    have hlt : t < tgt.dropLast.length := by
      have := (List.getElem?_eq_some_iff.mp htok).1
      rw [List.length_dropLast]
      omega
    have hhead : tgt.dropLast.head? = some bos := by
      rw [List.dropLast_eq_take, List.head?_take, if_neg, hgreedy.head]
      rw [List.length_dropLast] at hlt
      omega
    have hbos : bos.val ≠ padId := hpad bos (List.mem_of_head? hgreedy.head)
    have hsome := forward_defined realNumerics w hs hne
      (fun _ _ => nonempty_unmasked_tgt hhead hbos) hL t hlt
    obtain ⟨row, hrow⟩ := Option.isSome_iff_exists.mp hsome
    have hnext' := hnext t token htok
    rw [hrow] at hnext'
    exact ⟨row, hrow, hnext'⟩
  · intro hfit
    apply exists_generate _ hmax
    intro a ha
    obtain ⟨src, hs, rfl⟩ := List.mem_map.mp ha
    exact hfit src hs

theorem generate_agrees_with_forward_tiny :
    let src : List (Fin 3) := [2]
    ∃ tgt L, generate realNumerics tinyWeights [(src, padMask src 3)] 3 (1 : Fin 3) 2 (1 / 2) =
        some [tgt] ∧
      forward realNumerics tinyWeights src tgt.dropLast (makeSrcMask src 3)
        (makeTgtMask tgt.dropLast 3) = some L ∧
      ∀ t token, tgt[t + 1]? = some token →
        ∃ row, L t = some row ∧ (List.finRange 3).argmax row = some token := by
  intro src
  obtain ⟨hforward, hreturns⟩ := generate_agrees_with_forward tinyConfig tinyWeights 3 [src]
    (List.forall_mem_singleton.mpr ⟨(2 : Fin 3), List.mem_singleton.mpr rfl, by decide⟩)
    3 (by decide) (1 : Fin 3) 2 (1 / 2) (by norm_num)
  obtain ⟨tgts, hgen⟩ := hreturns (List.forall_mem_singleton.mpr (tinyConfig_fits (by decide)))
  obtain ⟨tgt, rest, htgt, hrest, rfl⟩ := List.forall₂_cons_left_iff.mp (hforward tgts hgen)
  obtain rfl := List.forall₂_nil_left_iff.mp hrest
  -- no token of this vocabulary is the pad
  obtain ⟨L, hL, hnext⟩ := htgt fun token _ => token.isLt.ne
  exact ⟨tgt, L, hgen, hL, hnext⟩

end K8sLearn.Transformer
