import K8sLearn.Hif4.Domination
import K8sLearn.Hif4.Quantize

/-! # Decoding after encoding

`_hif4_dequant` multiplies the parameters out and reshapes. A tensor that some legal
parameters represent exactly is represented exactly by a scale inside the window too:
its own scale reaches the largest element, and halving keeps every value. The search
finds such an encoding, so quantizing and dequantizing again changes nothing.
-/

namespace K8sLearn.Hif4

/-- The elements of a block in row-major order. -/
def flattenBlock (v : Block ℚ) : List ℚ :=
  List.ofFn fun t : Fin 64 => v ⟨t / 8, by omega⟩ ⟨t / 4 % 2, by omega⟩ ⟨t % 4, by omega⟩

def hif4Dequant (params : Tensor Encoding) (shape : List ℕ) : Option (Tensor ℚ) :=
  let deq := params.data.flatMap fun e => flattenBlock e.value
  if h : deq.length = shape.prod then some ⟨shape, deq, h⟩ else none

section Flatten

@[simp] theorem length_flattenBlock (v : Block ℚ) : (flattenBlock v).length = 64 :=
  List.length_ofFn

theorem flattenBlock_getD (v : Block ℚ) (i : Fin 8) (j : Fin 2) (k : Fin 4) :
    (flattenBlock v).getD (8 * i + 4 * j + k) 0 = v i j k := by
  have hlt : 8 * i.val + 4 * j + k < 64 := by omega
  rw [List.getD_eq_getElem _ _ (by simpa using hlt)]
  simp only [flattenBlock, List.getElem_ofFn]
  congr 1
  all_goals (ext1; dsimp only; omega)

theorem length_flatMap_flattenBlock (l : List (Block ℚ)) :
    (l.flatMap flattenBlock).length = 64 * l.length := by
  rw [List.length_flatMap]
  simp [mul_comm]

theorem blockAt_flatMap (l : List (Block ℚ)) {b : ℕ} (hb : b < l.length) :
    blockAt (l.flatMap flattenBlock) b = l[b] := by
  induction l generalizing b with
  | nil => simp at hb
  | cons v l ih =>
    funext i j k
    cases b with
    | zero =>
      rw [blockAt, List.flatMap_cons, List.getD_append _ _ _ _ (by simp; omega), mul_zero, zero_add]
      exact flattenBlock_getD v i j k
    | succ b =>
      have hshift : 64 * (b + 1) + (8 * i.val + 4 * j + k) - (flattenBlock v).length =
          64 * b + (8 * i + 4 * j + k) := by
        rw [length_flattenBlock]
        omega
      rw [blockAt, List.flatMap_cons, List.getD_append_right _ _ _ _ (by simp; omega), hshift]
      exact congrFun (congrFun (congrFun (ih (by simpa using hb)) i) j) k

theorem eq_of_blockAt_eq {data data' : List ℚ} (hd : 64 ∣ data.length)
    (hlen : data.length = data'.length)
    (h : ∀ b < data.length / 64, blockAt data b = blockAt data' b) : data = data' := by
  refine List.ext_getElem hlen fun t ht ht' => ?_
  have hb := h (t / 64) (by omega)
  have hel := congrFun (congrFun (congrFun hb ⟨t % 64 / 8, by omega⟩) ⟨t / 4 % 2, by omega⟩)
    ⟨t % 4, by omega⟩
  have hpos : 64 * (t / 64) + (8 * (t % 64 / 8) + 4 * (t / 4 % 2) + t % 4) = t := by omega
  simp only [blockAt, hpos] at hel
  rwa [List.getD_eq_getElem _ _ ht, List.getD_eq_getElem _ _ ht'] at hel

theorem hif4Dequant_eq_some {p : Tensor Encoding} {shape : List ℕ} {x : Tensor ℚ}
    (h : hif4Dequant p shape = some x) :
    x.shape = shape ∧ x.data.length = 64 * p.data.length ∧
      ∀ (b : ℕ) (hb : b < p.data.length), blockAt x.data b = p.data[b].value := by
  unfold hif4Dequant at h
  extract_lets deq at h
  split_ifs at h with hl
  cases h
  have hdeq : deq = (p.data.map Encoding.value).flatMap flattenBlock := by
    rw [List.flatMap_map]
  refine ⟨rfl, ?_, fun b hb => ?_⟩
  · simp only [hdeq, length_flatMap_flattenBlock, List.length_map]
  · simp only [hdeq]
    rw [blockAt_flatMap _ (by simpa using hb), List.getElem_map]

theorem hif4Dequant_of_blocks {p : Tensor Encoding} {x : Tensor ℚ}
    (hlen : x.data.length = 64 * p.data.length)
    (h : ∀ (b : ℕ) (hb : b < p.data.length), p.data[b].value = blockAt x.data b) :
    hif4Dequant p x.shape = some x := by
  have hdata : (p.data.flatMap fun e => flattenBlock e.value) = x.data := by
    rw [← List.flatMap_map Encoding.value flattenBlock]
    have hl : ((p.data.map Encoding.value).flatMap flattenBlock).length = 64 * p.data.length := by
      rw [length_flatMap_flattenBlock, List.length_map]
    refine eq_of_blockAt_eq ⟨_, hl⟩ (hl.trans hlen.symm) fun b hb => ?_
    have hb' : b < p.data.length := by omega
    rw [blockAt_flatMap _ (by simpa using hb'), List.getElem_map, h b hb']
  unfold hif4Dequant
  extract_lets deq
  rw [dif_pos (by rw [← x.length_data, ← hdata])]
  exact congrArg some (Tensor.ext rfl hdata)

end Flatten

theorem amax_le {w : Block ℚ} {c : ℚ} (h : ∀ i j k, |w i j k| ≤ c) : amax w ≤ c :=
  Finset.sup'_le _ _ fun t _ => h t.1 t.2.1 t.2.2

theorem position_value_le {e : Encoding} (he : e.Legal) {i : ℕ} (hi : i < 255)
    (hes : e.scaleFactor = e6m2 i) : position e.value ≤ i := by
  have hmax : amax e.value ≤ 7 * e6m2 i := by
    rw [← hes]
    exact amax_le (he.abs_value_le (hes ▸ e6m2_pos i))
  refine searchsorted_le_of_le hi (max_le (by linarith) ?_)
  rw [← e6m2_zero]
  exact e6m2_strictMono.monotone (Nat.zero_le i)

theorem searchBlock_value {h : ℕ} (h3 : 3 ≤ h) (h127 : h ≤ 127) {imp : Option (Block ℚ)}
    (hp : ∀ i j k, 0 < weights imp i j k) {e : Encoding} (he : e.Legal) :
    (searchBlock (2 * h + 1) e.value imp).value = e.value := by
  have hp' : ∀ i j k, 0 ≤ weights imp i j k := fun i j k => (hp i j k).le
  obtain ⟨i, hi, hes⟩ := mem_generateE6m2Table.mp he.scaleFactor_mem
  obtain ⟨i', e', hi', hge, hnear, he', hes', hle⟩ :=
    exists_legal_above hp' hi (position_value_le he hi hes.symm) he hes.symm
  have hmem : e'.scaleFactor ∈ candidates (2 * h + 1) e.value := by
    rw [hes']
    exact mem_candidates (by omega) h127 hi' (by omega) (by omega)
  have hzero : sqDist (weights imp) e.value e.value = 0 := by simp [sqDist]
  apply eq_of_sqDist_nonpos hp
  calc sqDist (weights imp) (searchBlock (2 * h + 1) e.value imp).value e.value
      ≤ sqDist (weights imp) e'.value e.value := searchBlock_le (by omega) hp' he' hmem
    _ ≤ sqDist (weights imp) e.value e.value := hle
    _ = 0 := hzero

theorem ImportanceAt.weights_pos {x : Tensor ℚ} {imp : Option (Tensor ℚ)} {b : ℕ}
    {iw : Option (Block ℚ)} (h : ImportanceAt x imp b iw)
    (himp : ∀ t, imp = some t → ∀ a ∈ t.data, 0 < a) : ∀ i j k, 0 < weights iw i j k := by
  intro i j k
  cases iw with
  | none => exact zero_lt_one
  | some p =>
    cases imp with
    | none => exact absurd (h.of_none rfl) (by simp)
    | some t => exact himp t rfl _ (h.mem t p rfl rfl i j k)

theorem hif4Dequant_quantizeHif4 {n : ℕ} (hn : Odd n ∧ 7 ≤ n ∧ n ≤ 255) {imp : Option (Tensor ℚ)}
    (himp : ∀ t, imp = some t → ∀ a ∈ t.data, 0 < a) {chunkRows : Option ℕ} {x : Tensor ℚ}
    {p q : Tensor Encoding} (hp : ∀ e ∈ p.data, Encoding.Legal e)
    (hx : hif4Dequant p x.shape = some x) (hq : quantizeHif4 x n imp chunkRows = some q) :
    hif4Dequant q x.shape = some x := by
  obtain ⟨⟨h, rfl⟩, h7, h255⟩ := hn
  obtain ⟨-, hlen, hblocks⟩ := hif4Dequant_eq_some hx
  obtain ⟨hqlen, hqblock⟩ := quantizeHif4_getElem (by omega) hq
  apply hif4Dequant_of_blocks
  · omega
  · intro b hb
    have hbp : b < p.data.length := by omega
    obtain ⟨iw, hiw, he⟩ := hqblock b hb
    rw [he, hblocks b hbp]
    exact searchBlock_value (by omega) (by omega) (hiw.weights_pos himp)
      (hp _ (List.getElem_mem hbp))

theorem exists_hif4Dequant {n : ℕ} (hn : 2 ≤ n) {imp : Option (Tensor ℚ)} {chunkRows : Option ℕ}
    {x : Tensor ℚ} {q : Tensor Encoding} (hq : quantizeHif4 x n imp chunkRows = some q) :
    (∀ e ∈ q.data, Encoding.Legal e) ∧ ∃ y, hif4Dequant q x.shape = some y := by
  obtain ⟨hb, -, -⟩ := quantizeHif4_spec hn hq
  obtain ⟨hlen, hblock⟩ := quantizeHif4_getElem hn hq
  constructor
  · intro e he
    obtain ⟨b, hb, rfl⟩ := List.getElem_of_mem he
    obtain ⟨iw, -, hs⟩ := hblock b hb
    rw [hs]
    exact searchBlock_legal hn
  · have hdvd := sixtyFour_dvd_length hb
    have hl : (q.data.flatMap fun e => flattenBlock e.value).length = x.shape.prod := by
      rw [← List.flatMap_map Encoding.value flattenBlock, length_flatMap_flattenBlock,
        List.length_map, hlen, Nat.mul_div_cancel' hdvd, x.length_data]
    unfold hif4Dequant
    extract_lets deq
    rw [dif_pos hl]
    exact ⟨_, rfl⟩

/-- Decoding after encoding is the identity on the whole format: the parameters returned for a
tensor that any legal parameters represent decode to that tensor, and dequantizing after
quantizing is idempotent on every tensor the quantizer accepts. -/
theorem hif4_roundTrip (n : ℕ) (hn : Odd n ∧ 7 ≤ n ∧ n ≤ 255) (imp : Option (Tensor ℚ))
    (himp : ∀ t, imp = some t → ∀ a ∈ t.data, 0 < a) (chunkRows : Option ℕ) :
    (∀ (x : Tensor ℚ) (p : Tensor Encoding), (∀ e ∈ p.data, e.Legal) →
      hif4Dequant p x.shape = some x →
      (∀ q, quantizeHif4 x n imp chunkRows = some q → hif4Dequant q x.shape = some x) ∧
      (Blockable x → Fits x imp → chunkRows ≠ some 0 →
        ∃ q, quantizeHif4 x n imp chunkRows = some q)) ∧
    ∀ (x : Tensor ℚ) (q : Tensor Encoding), quantizeHif4 x n imp chunkRows = some q →
      ∃ y, hif4Dequant q x.shape = some y ∧
        ∃ q', quantizeHif4 y n imp chunkRows = some q' ∧ hif4Dequant q' y.shape = some y := by
  have hn2 : 2 ≤ n := by omega
  refine ⟨fun x p hp hx => ⟨fun q hq => hif4Dequant_quantizeHif4 hn himp hp hx hq,
    fun hb hi hc => exists_quantizeHif4 hn2 hb hi chunkRows hc⟩, fun x q hq => ?_⟩
  obtain ⟨hlegal, y, hy⟩ := exists_hif4Dequant hn2 hq
  obtain ⟨hysh, -⟩ := hif4Dequant_eq_some hy
  obtain ⟨q', hq'⟩ := exists_quantizeHif4_of_shape_eq hysh.symm hn2 hq
  exact ⟨y, hy, q', hq', hif4Dequant_quantizeHif4 hn himp hlegal (hysh ▸ hy) hq'⟩

/-- One block of the value 8192, written at a scale four times as large. -/
def coarse : Tensor Encoding where
  shape := [1, 1]
  data := [{
    scaleFactor := 2 ^ (15 : ℤ), scaleLv2 := fun _ => 1, scaleLv3 := fun _ _ => 1
    sign := fun _ _ _ => 1, mant := fun _ _ _ => 1 / 4 }]
  length_data := rfl

theorem coarse_legal : ∀ e ∈ coarse.data, e.Legal := by
  intro e he
  obtain rfl := List.mem_singleton.mp he
  refine ⟨mem_generateE6m2Table.mpr ⟨252, by norm_num, by norm_num [e6m2]⟩, ?_, ?_, ?_, ?_⟩
  · exact fun i => Or.inl rfl
  · exact fun i j => Or.inl rfl
  · exact fun i j k => Or.inr (Or.inr rfl)
  · exact fun i j k => ⟨1, by norm_num, by norm_num⟩

theorem hif4_roundTrip_coarse :
    ∃ x q, hif4Dequant coarse [1, 64] = some x ∧
      quantizeHif4 x 7 (some ⟨[64], List.replicate 64 3, rfl⟩) none = some q ∧
      hif4Dequant q [1, 64] = some x := by
  obtain ⟨x, hx⟩ : ∃ x, hif4Dequant coarse [1, 64] = some x := ⟨_, rfl⟩
  obtain ⟨hsh, -, -⟩ := hif4Dequant_eq_some hx
  have h := (hif4_roundTrip 7 (by decide) (some ⟨[64], List.replicate 64 3, rfl⟩)
    (by rintro t ⟨⟩ a ha; rw [List.eq_of_mem_replicate ha]; norm_num) none).1 x coarse coarse_legal
    (by rw [hsh]; exact hx)
  obtain ⟨q, hq⟩ := h.2 (by rw [Blockable, hsh]; decide) (by simp [Fits, hsh]) (by simp)
  exact ⟨x, q, hx, hq, hsh ▸ h.1 q hq⟩

end K8sLearn.Hif4
