import K8sLearn.Hif4.Quantize

/-! # Chunks and blocks

On a two-dimensional tensor the cut into chunks of rows cannot be seen in the result, and
every block of the result is the search of its own 64 values under its own 64 weights. The
weights of a block are those the broadcast gives it: its own row of the importance, or the
only one.
-/

namespace K8sLearn.Hif4

/-- The importances a tensor of `m` rows takes: none, one value for each channel, in one
dimension or as a single row, or one row for each row. -/
def Accepts (m c : ℕ) (imp : Option (Tensor ℚ)) : Prop :=
  ∀ t ∈ imp, t.shape = [c] ∨ t.shape = [1, c] ∨ t.shape = [m, c]

def weightsAt (t : Tensor ℚ) (k b : ℕ) : Block ℚ :=
  blockAt t.data (if 1 < t.shape.length ∧ t.rows ≠ 1 then b else b % k)

def entryAt (x : Tensor ℚ) (imp : Option (Tensor ℚ)) (k b : ℕ) : Block ℚ × Option (Block ℚ) :=
  (blockAt x.data b, imp.map fun t => weightsAt t k b)

section Whole

variable {x t : Tensor ℚ} {imp : Option (Tensor ℚ)} {m c : ℕ}

theorem blockable_iff (hx : x.shape = [m, c]) : Blockable x ↔ c % 64 = 0 ∧ m ≠ 0 := by
  simp [Blockable, hx]

theorem exists_toBlocks_rows (hx : x.shape = [m, c]) (hm : m ≠ 0) (hc : c % 64 = 0) :
    ∃ w, toBlocks x = some w ∧ w.shape = [m, c / 64] ∧
      w.data = (List.range (m * (c / 64))).map (blockAt x.data) := by
  have hb := (blockable_iff hx).mpr ⟨hc, hm⟩
  obtain ⟨w, hw⟩ := exists_toBlocks hb
  obtain ⟨-, hsh, hd⟩ := toBlocks_eq_some hw
  refine ⟨w, hw, by simp [hsh, hx], ?_⟩
  rw [hd, length_div_sixtyFour hb]
  simp [hx]

theorem exists_expand_toBlocks {r : ℕ} (ht : t.shape = [r, c]) (hr : r = 1 ∨ r = m)
    (hm : m ≠ 0) (hc : c % 64 = 0) :
    ∃ v, ((toBlocks t).bind fun u => u.expand [m, c / 64]) = some v ∧
      ∀ b < m * (c / 64), ∀ d, v.data.getD b d = weightsAt t (c / 64) b := by
  have hr0 : r ≠ 0 := by rcases hr with rfl | rfl; exacts [one_ne_zero, hm]
  obtain ⟨u, hu, hus, hud⟩ := exists_toBlocks_rows ht hr0 hc
  obtain ⟨v, hv, hget⟩ := Tensor.exists_expand_rows hus hr
  refine ⟨v, by rw [hu, Option.bind_some, hv], fun b hb d => ?_⟩
  have hk : 0 < c / 64 := Nat.pos_of_ne_zero fun h => by simp [h] at hb
  have hlt : (if r = 1 then b % (c / 64) else b) < r * (c / 64) := by
    split_ifs with h1
    · rw [h1, one_mul]
      exact Nat.mod_lt b hk
    · rwa [hr.resolve_left h1]
  rw [hget b hb, hud, List.getD_eq_getElem _ _ (by simpa using hlt)]
  simp only [List.getElem_map, List.getElem_range, weightsAt, ht, Tensor.rows]
  congr 1
  by_cases h1 : r = 1 <;> simp [h1]

theorem exists_importanceBlocks_rows {w : Tensor (Block ℚ)} (hw : w.shape = [m, c / 64])
    (hi : Accepts m c imp) (hm : m ≠ 0) (hc : c % 64 = 0) :
    ∃ o, importanceBlocks w c imp = some o ∧
      ∀ b < m * (c / 64), ∀ d, (o.map fun v => v.data.getD b d) =
        imp.map fun t => weightsAt t (c / 64) b := by
  cases imp with
  | none => exact ⟨none, rfl, fun _ _ _ => rfl⟩
  | some t =>
    rcases hi t rfl with ht | ht
    · -- a one-dimensional importance is a single row of weights
      obtain ⟨v, hv, hget⟩ := exists_expand_toBlocks (t := unsqueeze t) (r := 1) (m := m) (c := c)
        (by simp [unsqueeze, ht]) (Or.inl rfl) hm hc
      refine ⟨some v, ?_, fun b hb d => ?_⟩
      · have hlast : [c].getLastD 0 = c := rfl
        simp only [importanceBlocks, ht, hw, hlast, reduceCtorEq, if_false, ne_eq, not_true,
          List.length_singleton, if_true]
        rw [← Option.map_some, ← hv, Option.map_bind]
        rfl
      · rw [Option.map_some, Option.map_some, hget b hb d]
        simp [weightsAt, unsqueeze, ht, Tensor.rows]
    · obtain ⟨r, hr, ht⟩ : ∃ r, (r = 1 ∨ r = m) ∧ t.shape = [r, c] := by
        rcases ht with ht | ht
        exacts [⟨1, Or.inl rfl, ht⟩, ⟨m, Or.inr rfl, ht⟩]
      obtain ⟨v, hv, hget⟩ := exists_expand_toBlocks ht hr hm hc
      refine ⟨some v, ?_, fun b hb d => by rw [Option.map_some, Option.map_some, hget b hb d]⟩
      have hlast : [r, c].getLastD 0 = c := rfl
      simp only [importanceBlocks, ht, hw, hlast, reduceCtorEq, if_false, ne_eq, not_true,
        List.length_cons, List.length_nil, Nat.reduceAdd, Nat.reduceEqDiff]
      rw [← Option.map_some, ← hv, Option.map_bind]
      rfl

theorem exists_implBlocks_rows (hx : x.shape = [m, c]) (hm : m ≠ 0) (hc : c % 64 = 0)
    (hi : Accepts m c imp) :
    ∃ q, implBlocks x imp = some q ∧ q.shape = [m, c / 64] ∧
      q.data = (List.range (m * (c / 64))).map (entryAt x imp (c / 64)) := by
  obtain ⟨w, hw, hws, hwd⟩ := exists_toBlocks_rows hx hm hc
  obtain ⟨o, ho, hget⟩ := exists_importanceBlocks_rows hws hi hm hc
  have hlast : x.shape.getLastD 0 = c := by simp [hx]
  refine ⟨_, by rw [implBlocks, hw, Option.bind_some, hlast, ho, Option.map_some], hws, ?_⟩
  have hlen : w.data.length = m * (c / 64) := by simp [hwd]
  apply List.ext_getElem (by simp [hlen])
  intro b hb₁ hb₂
  have hb : b < m * (c / 64) := by simpa using hb₂
  simp [entryAt, hwd, ← hget b hb fun _ _ _ => 0]

end Whole

section Chunked

variable {x : Tensor ℚ} {imp : Option (Tensor ℚ)} {m c start stop : ℕ}

theorem slice_rows_shape (hx : x.shape = [m, c]) (hs : start ≤ stop) (hr : stop ≤ m) :
    (x.slice start stop).shape = [stop - start, c] := by
  simp [Tensor.rows, hx, min_eq_left hr, min_eq_left (hs.trans hr)]

theorem Accepts.chunk (hi : Accepts m c imp) (hx : x.shape = [m, c]) (hs : start ≤ stop)
    (hr : stop ≤ m) : Accepts (stop - start) c (importanceChunk x imp start stop) := by
  intro t ht
  obtain ⟨t', ht', rfl⟩ := Option.map_eq_some_iff.mp ht
  have hrows : x.rows = m := by simp [Tensor.rows, hx]
  split_ifs with hcut
  · refine Or.inr (Or.inr ?_)
    rcases hi t' ht' with h | h | h
    · simp [h] at hcut
    · obtain rfl : 1 = m := by simpa [h, Tensor.rows, hx] using hcut
      exact slice_rows_shape h hs hr
    · exact slice_rows_shape h hs hr
  · rcases hi t' ht' with h | h | h
    · exact Or.inl h
    · exact Or.inr (Or.inl h)
    · exact absurd ⟨by simp [h], by simp [h, Tensor.rows, hx]⟩ hcut

theorem blockAt_slice_rows {t : Tensor ℚ} (ht : t.shape = [m, c]) (hc : c % 64 = 0)
    (hs : start ≤ stop) (hr : stop ≤ m) {b : ℕ} (hb : b < (stop - start) * (c / 64)) :
    blockAt (t.slice start stop).data b = blockAt t.data (start * (c / 64) + b) := by
  have hrows : t.rows = m := by simp [Tensor.rows, ht]
  have hsize : t.rowSize = c := by simp [Tensor.rowSize, ht]
  have hd : 64 ∣ c := Nat.dvd_of_mod_eq_zero hc
  have hlen : (t.slice start stop).data.length = (stop - start) * c := by
    rw [Tensor.length_data, slice_rows_shape ht hs hr]
    simp
  rw [blockAt_slice t hs (hrows ▸ hr) (hsize ▸ hd)
    (by rwa [hlen, Nat.mul_div_assoc _ hd]), hsize]

theorem weightsAt_chunk (hi : Accepts m c imp) (hx : x.shape = [m, c]) (hm : 1 < m)
    (hc : c % 64 = 0) (hs : start ≤ stop) (hr : stop ≤ m) {b : ℕ}
    (hb : b < (stop - start) * (c / 64)) :
    ((importanceChunk x imp start stop).map fun t => weightsAt t (c / 64) b) =
      imp.map fun t => weightsAt t (c / 64) (start * (c / 64) + b) := by
  cases imp with
  | none => rfl
  | some t =>
    have hrows : x.rows = m := by simp [Tensor.rows, hx]
    have hmod : (start * (c / 64) + b) % (c / 64) = b % (c / 64) := by
      rw [Nat.mul_comm, Nat.mul_add_mod]
    simp only [importanceChunk, Option.map_some]
    congr 1
    rcases hi t rfl with ht | ht | ht
    · simp [ht, weightsAt, hmod]
    · have h1 : t.rows = 1 := by simp [Tensor.rows, ht]
      simp [weightsAt, hrows, hmod, h1, hm.ne]
    · have hcut : 1 < t.shape.length ∧ t.rows = x.rows := by simp [ht, Tensor.rows, hx]
      have htm : t.rows ≠ 1 := by rw [hcut.2, hrows]; exact hm.ne'
      have hsl : (t.slice start stop).rows = stop - start := by
        rw [Tensor.rows, slice_rows_shape ht hs hr, List.headD_cons]
      have hb' : (if 1 < (t.slice start stop).shape.length ∧ (t.slice start stop).rows ≠ 1
          then b else b % (c / 64)) = b := by
        split_ifs with h
        · rfl
        · -- a chunk of one row: its blocks are numbered as in that row
          apply Nat.mod_eq_of_lt
          have h1 : stop - start = 1 := by
            by_contra hne
            exact h ⟨by rw [slice_rows_shape ht hs hr]; simp, by rwa [hsl]⟩
          rwa [h1, one_mul] at hb
      rw [if_pos hcut, weightsAt, hb', blockAt_slice_rows ht hc hs hr hb, weightsAt,
        if_pos ⟨hcut.1, htm⟩]

theorem entryAt_chunk (hi : Accepts m c imp) (hx : x.shape = [m, c]) (hm : 1 < m)
    (hc : c % 64 = 0) (hs : start ≤ stop) (hr : stop ≤ m) {b : ℕ}
    (hb : b < (stop - start) * (c / 64)) :
    entryAt (x.slice start stop) (importanceChunk x imp start stop) (c / 64) b =
      entryAt x imp (c / 64) (start * (c / 64) + b) := by
  rw [entryAt, entryAt, blockAt_slice_rows hx hc hs hr hb, weightsAt_chunk hi hx hm hc hs hr hb]

theorem exists_implBlocks_chunk (hi : Accepts m c imp) (hx : x.shape = [m, c]) (hm : 1 < m)
    (hc : c % 64 = 0) (hs : start < stop) (hr : stop ≤ m) :
    ∃ r, implBlocks (x.slice start stop) (importanceChunk x imp start stop) = some r ∧
      r.data = ((List.range (stop * (c / 64) - start * (c / 64))).map
        (start * (c / 64) + ·)).map (entryAt x imp (c / 64)) := by
  obtain ⟨r, hr', -, hrd⟩ := exists_implBlocks_rows (slice_rows_shape hx hs.le hr) (by omega) hc
    (hi.chunk hx hs.le hr)
  refine ⟨r, hr', ?_⟩
  rw [hrd, List.map_map, ← Nat.sub_mul]
  apply List.map_congr_left
  intro b hb
  exact entryAt_chunk hi hx hm hc hs.le hr (List.mem_range.mp hb)

theorem searchedBlocks_eq_implBlocks (hx : x.shape = [m, c]) (hc : c % 64 = 0)
    (hi : Accepts m c imp) {chunkRows : Option ℕ} (h0 : chunkRows ≠ some 0) :
    searchedBlocks x imp chunkRows = implBlocks x imp := by
  have hrows : x.rows = m := by simp [Tensor.rows, hx]
  unfold searchedBlocks inChunks
  extract_lets ndim chunk
  split_ifs with h1 hz
  · rfl
  · exact absurd hz (chunk_ne_zero h0 h1)
  simp only [not_or, not_le] at h1
  have hpos : 0 < chunk := Nat.pos_of_ne_zero hz
  have hm : 1 < m := by omega
  obtain ⟨hs0, hmono, hlast, hcut⟩ := chunk_cuts (m := x.rows) hpos
  set n := (x.rows + chunk - 1) / chunk with hn
  set s : ℕ → ℕ := fun t => min (t * chunk) x.rows with hsdef
  have hparts : List.Forall₂ (fun t t' => ∃ r, implBlocks
      (x.slice (t * chunk) (min (t * chunk + chunk) x.rows))
      (importanceChunk x imp (t * chunk) (min (t * chunk + chunk) x.rows)) = some r ∧
      r.data = ((List.range (s (t' + 1) * (c / 64) - s t' * (c / 64))).map
        (s t' * (c / 64) + ·)).map (entryAt x imp (c / 64))) (List.range n) (List.range n) := by
    rw [List.forall₂_same]
    intro t ht
    obtain ⟨hlt, hst, hst1⟩ := hcut t (List.mem_range.mp ht)
    have hs₀ : s t = t * chunk := hst
    have hs₁ : s (t + 1) = min (t * chunk + chunk) x.rows := hst1
    rw [hs₀, hs₁]
    exact exists_implBlocks_chunk hi hx hm hc (lt_min (by omega) hlt) (hrows ▸ min_le_right _ _)
  obtain ⟨rs, hrs, hall⟩ := Lists.exists_mapM_of_forall₂ hparts
  obtain ⟨q, hq, hqs, hqd⟩ := exists_implBlocks_rows hx (by omega) hc hi
  obtain ⟨-, hshapes, hsum, -⟩ := chunks_spec hpos h1.1 h1.2 hrs
  have hne : rs ≠ [] := by
    rintro rfl
    simp at hsum
    omega
  obtain ⟨p, hp⟩ := Tensor.exists_cat hne hshapes
  rw [hrs, Option.bind_some, hp, hq]
  refine congrArg some (Tensor.ext ?_ ?_)
  · cases rs with
    | nil => exact absurd rfl hne
    | cons r rs =>
      rw [Tensor.shape_of_cat hp, hsum, (hshapes r (by simp)).2, hqs, hrows]
      simp [hx]
  · have hmono' : Monotone fun t => s t * (c / 64) :=
      fun a b hab => Nat.mul_le_mul_right _ (hmono hab)
    have hsn : s n = x.rows := hlast
    rw [Tensor.data_of_cat hp, Lists.flatMap_eq_of_forall₂ hall, hqd, ← List.map_flatMap,
      Lists.flatMap_range_cuts (s := fun t => s t * (c / 64)) (by simp [hsdef]) hmono', hsn, hrows]

end Chunked

section Few

/-! Fewer than two candidates are refused, unless there is no block to search. -/

variable {x : Tensor ℚ} {imp : Option (Tensor ℚ)} {m c n : ℕ}

theorem length_candidateOffsets_ne (hn : n < 2) : (candidateOffsets n).length ≠ n := by
  match n, hn with
  | 0, _ => decide
  | 1, _ => decide

theorem quantizeHif4Impl_eq_none (hn : n < 2) (hx : x.shape = [m, c]) (h : m * (c / 64) ≠ 0) :
    quantizeHif4Impl x n imp = none := by
  unfold quantizeHif4Impl
  cases hw : toBlocks x with
  | none => rfl
  | some w =>
    obtain ⟨hb, -, hd⟩ := toBlocks_eq_some hw
    have hne : w.data ≠ [] := by
      rw [hd, length_div_sixtyFour hb]
      simpa [hx] using h
    rw [Option.bind_some]
    cases importanceBlocks w (x.shape.getLastD 0) imp with
    | none => rfl
    | some r => rw [Option.bind_some, if_pos ⟨hne, length_candidateOffsets_ne hn⟩]

theorem quantizeHif4Impl_congr (hx : x.shape = [m, 0]) (n n' : ℕ) :
    quantizeHif4Impl x n imp = quantizeHif4Impl x n' imp := by
  unfold quantizeHif4Impl
  cases hw : toBlocks x with
  | none => rw [Option.bind_none, Option.bind_none]
  | some w =>
    have hd : w.data = [] := by
      obtain ⟨hb, -, hd⟩ := toBlocks_eq_some hw
      rw [hd, length_div_sixtyFour hb]
      simp [hx]
    rw [Option.bind_some, Option.bind_some]
    cases importanceBlocks w (x.shape.getLastD 0) imp with
    | none => rw [Option.bind_none, Option.bind_none]
    | some r =>
      have hloop : searchLoop (fun b : Fin w.data.length => w.data.get b)
            (fun b => r.map fun t => t.data.getD b fun _ _ _ => 0) n =
          searchLoop (fun b : Fin w.data.length => w.data.get b)
            (fun b => r.map fun t => t.data.getD b fun _ _ _ => 0) n' :=
        funext fun b => absurd b.isLt (by simp [hd])
      rw [Option.bind_some, Option.bind_some, if_neg (fun h => h.1 hd), if_neg fun h => h.1 hd]
      simp only [hloop]

end Few

theorem quantizeHif4_eq_impl {x : Tensor ℚ} {m c : ℕ} (hx : x.shape = [m, c]) (hc : c % 64 = 0)
    {imp : Option (Tensor ℚ)} (hi : Accepts m c imp) (n : ℕ) {chunkRows : Option ℕ}
    (h0 : chunkRows ≠ some 0) : quantizeHif4 x n imp chunkRows = quantizeHif4Impl x n imp := by
  have hmain : ∀ n, 2 ≤ n → quantizeHif4 x n imp chunkRows = quantizeHif4Impl x n imp := by
    intro n hn
    rw [quantizeHif4_eq hn, quantizeHif4Impl_eq hn, searchedBlocks_eq_implBlocks hx hc hi h0]
  rcases Nat.lt_or_ge n 2 with hn | hn
  · have hrows : x.rows = m := by simp [Tensor.rows, hx]
    by_cases hz : c = 0
    · subst hz
      rw [quantizeHif4Impl_congr hx n 2, ← hmain 2 le_rfl]
      unfold quantizeHif4
      extract_lets ndim chunk
      split_ifs with h1 h2
      · exact quantizeHif4Impl_congr hx n 2
      · rfl
      · have hsl : ∀ t, (x.slice (t * chunk) (min (t * chunk + chunk) x.rows)).shape =
            [_, 0] := fun t => by rw [Tensor.slice_shape, hx]; rfl
        simp only [quantizeHif4Impl_congr (hsl _) n 2]
    · unfold quantizeHif4
      extract_lets ndim chunk
      split_ifs with h1 h2
      · rfl
      · exact absurd h2 (chunk_ne_zero h0 h1)
      · simp only [not_or, not_le] at h1
        -- the first chunk has a block, and is refused as the whole tensor is
        have hk : c / 64 ≠ 0 := by omega
        have hpos : 0 < chunk := Nat.pos_of_ne_zero h2
        obtain ⟨k, hk'⟩ : ∃ k, (x.rows + chunk - 1) / chunk = k + 1 :=
          Nat.exists_eq_succ_of_ne_zero (Nat.div_pos (by omega) hpos).ne'
        have hsh : (x.slice (0 * chunk) (min (0 * chunk + chunk) x.rows)).shape =
            [min (0 * chunk + chunk) x.rows - 0 * chunk, c] :=
          slice_rows_shape hx (by simp) (hrows ▸ min_le_right _ _)
        have hfirst : quantizeHif4Impl (x.slice (0 * chunk) (min (0 * chunk + chunk) x.rows)) n
            (importanceChunk x imp (0 * chunk) (min (0 * chunk + chunk) x.rows)) = none :=
          quantizeHif4Impl_eq_none hn hsh (mul_ne_zero (by omega) hk)
        rw [hk', List.range_succ_eq_map, List.mapM_cons, hfirst,
          quantizeHif4Impl_eq_none hn hx (mul_ne_zero (by omega) hk)]
        rfl
  · exact hmain n hn

section Continue

variable {ι : Type} [Fintype ι]

/-- One iteration of the candidate loop without the early `continue`. -/
def searchStepAll (w : ι → Block ℚ) (imp : ι → Option (Block ℚ)) (st : SearchState ι)
    (sf : ι → ℚ) : SearchState ι :=
  let micro b := (quantizeBlockGivenScale (w b) (sf b) (imp b)).1
  let mse b := (quantizeBlockGivenScale (w b) (sf b) (imp b)).2
  let improved b := decide ((mse b : WithTop ℚ) < st.bestMse b)
  { bestMse := fun b => if improved b then mse b else st.bestMse b
    bestSf := fun b => if improved b then sf b else st.bestSf b
    best := match st.best with
      | none => some micro
      | some old => some fun b => if improved b then micro b else old b }

def searchLoopAll (w : ι → Block ℚ) (imp : ι → Option (Block ℚ)) (n : ℕ) : ι → Encoding :=
  let cands : List (ι → ℚ) := (List.range n).map fun ci b => (candidates n (w b)).getD ci 0
  let st := cands.foldl (searchStepAll w imp) ⟨fun _ => ⊤, fun _ => 0, none⟩
  match st.best with
  | some micro => fun b => { toMicro := micro b, scaleFactor := st.bestSf b }
  | none => fun b =>
    let sf0 := (candidates n (w b)).getD 0 0
    { toMicro := (quantizeBlockGivenScale (w b) sf0 (imp b)).1, scaleFactor := sf0 }

variable {w : ι → Block ℚ} {imp : ι → Option (Block ℚ)} {st : SearchState ι}

/-- Once there are best tensors, an iteration that improves no block changes nothing. -/
theorem searchStepAll_eq {micro : ι → Micro} (hm : st.best = some micro) (sf : ι → ℚ) :
    searchStepAll w imp st sf = searchStep w imp st sf := by
  obtain ⟨mse, sfs, best⟩ := st
  obtain rfl : best = some micro := hm
  simp only [searchStepAll, searchStep]
  split_ifs with him
  · rfl
  · simp only [not_exists, Bool.not_eq_true] at him
    simp [him]

theorem searchStepAll_first [Nonempty ι] (sf₀ sf : ι → ℚ) :
    searchStepAll w imp ⟨fun _ => ⊤, sf₀, none⟩ sf = searchStep w imp ⟨fun _ => ⊤, sf₀, none⟩ sf := by
  simp [searchStepAll, searchStep]

theorem foldl_searchStepAll [Nonempty ι] (sf₀ : ι → ℚ) (cands : List (ι → ℚ)) :
    cands.foldl (searchStepAll w imp) ⟨fun _ => ⊤, sf₀, none⟩ =
      cands.foldl (searchStep w imp) ⟨fun _ => ⊤, sf₀, none⟩ := by
  induction cands using List.reverseRecOn with
  | nil => rfl
  | append_singleton cands sf ih =>
    simp only [List.foldl_append, List.foldl_cons, List.foldl_nil, ih]
    cases cands with
    | nil => exact searchStepAll_first sf₀ sf
    | cons c cs =>
      obtain ⟨micro, hm, -⟩ := tracks_foldl w imp sf₀ (c :: cs) (List.cons_ne_nil c cs)
      exact searchStepAll_eq hm sf

theorem searchLoopAll_eq (w : ι → Block ℚ) (imp : ι → Option (Block ℚ)) (n : ℕ) :
    searchLoopAll w imp n = searchLoop w imp n := by
  cases isEmpty_or_nonempty ι with
  | inl h => exact funext fun b => h.elim b
  | inr h =>
    simp only [searchLoopAll, foldl_searchStepAll]
    rfl

end Continue

/-- The chunks cannot be seen, a call with two candidates or more returns, every block returned is
the search of that block's values and weights, and the early `continue` is without effect. -/
theorem quantizeHif4_chunks_invisible {x : Tensor ℚ} {m c : ℕ} (hx : x.shape = [m, c])
    (hc : c % 64 = 0) {imp : Option (Tensor ℚ)} (hi : Accepts m c imp) (n : ℕ)
    {chunkRows : Option ℕ} (h0 : chunkRows ≠ some 0) :
    quantizeHif4 x n imp chunkRows = quantizeHif4Impl x n imp ∧
      (m ≠ 0 → 2 ≤ n → ∃ p, quantizeHif4Impl x n imp = some p) ∧
      (∀ p, quantizeHif4Impl x n imp = some p → p.shape = [m, c / 64] ∧
        ∀ b < m * (c / 64), p.data[b]? = some (searchBlock n (blockAt x.data b)
          (imp.map fun t => weightsAt t (c / 64) b))) ∧
      ∀ (k : ℕ) (w : Fin k → Block ℚ) (iw : Fin k → Option (Block ℚ)),
        searchLoopAll w iw n = searchLoop w iw n := by
  refine ⟨quantizeHif4_eq_impl hx hc hi n h0, fun hm hn => ?_, fun p hp => ?_,
    fun k w iw => searchLoopAll_eq w iw n⟩
  · obtain ⟨q, hq, -⟩ := exists_implBlocks_rows hx hm hc hi
    exact ⟨_, by rw [quantizeHif4Impl_eq hn, hq, Option.map_some]⟩
  · have hm : m ≠ 0 := by
      rintro rfl
      obtain ⟨w, hw, -⟩ := Option.bind_eq_some_iff.mp hp
      exact ((blockable_iff hx).mp (toBlocks_eq_some hw).1).2 rfl
    obtain ⟨q, hq, hqs, hqd⟩ := exists_implBlocks_rows hx hm hc hi
    rcases Nat.lt_or_ge n 2 with hn | hn
    · by_cases hz : m * (c / 64) = 0
      · obtain rfl : c = 0 := by
          have : c / 64 = 0 := (Nat.mul_eq_zero.mp hz).resolve_left hm
          omega
        rw [quantizeHif4Impl_congr hx n 2, quantizeHif4Impl_eq le_rfl, hq, Option.map_some] at hp
        cases hp
        exact ⟨hqs, fun b hb => absurd hb (by simp)⟩
      · rw [quantizeHif4Impl_eq_none hn hx hz] at hp
        cases hp
    · rw [quantizeHif4Impl_eq hn, hq, Option.map_some] at hp
      cases hp
      refine ⟨hqs, fun b hb => ?_⟩
      simp [hqd, hb, entryAt]

/-- Two rows of 64 equal elements, weighted by channel. -/
def twoRows : Tensor ℚ := ⟨[2, 64], List.replicate 128 (1 / 3), rfl⟩

def channelWeights : Tensor ℚ := ⟨[64], (List.range 64).map fun c => (c : ℚ), rfl⟩

theorem quantizeHif4_twoRows_invisible :
    quantizeHif4 twoRows 5 (some channelWeights) (some 1) =
        quantizeHif4Impl twoRows 5 (some channelWeights) ∧
      ∃ p, quantizeHif4Impl twoRows 5 (some channelWeights) = some p := by
  have hi : Accepts 2 64 (some channelWeights) := by
    rintro t ⟨⟩
    exact Or.inl rfl
  have h := quantizeHif4_chunks_invisible (x := twoRows) (m := 2) (c := 64) rfl rfl hi 5
    (show some 1 ≠ some 0 by decide)
  exact ⟨h.1, h.2.1 (by decide) (by decide)⟩

end K8sLearn.Hif4
