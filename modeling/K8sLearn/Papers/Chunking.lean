import K8sLearn.Lib.Spaces
import K8sLearn.Lib.Windows

/-! # Full texts in chunks

`chunk_text` cuts a text with single spaces into overlapping chunks, and `save_chunks` stores
the chunks of a paper that are not too short. Cutting at a space leaves it at an end of a
chunk, where storing removes it. No part of the text is lost.
-/

namespace K8sLearn.Papers

open Str Windows

/-- The loop of `chunk_text` from a start on, for a number of passes; `none` where it is not
finished by then. -/
def chunksFrom (size overlap : ℕ) (clean : Str) : ℕ → ℕ → Option (List Str)
  | 0, _ => none
  | fuel + 1, start =>
    if start < clean.length then
      let stop := min clean.length (start + size)
      let chunk := (clean.take stop).drop start
      if stop = clean.length then some [chunk]
      -- subtraction of natural numbers is the `max(0, end - overlap)` of the loop
      else (chunksFrom size overlap clean fuel (stop - overlap)).map (chunk :: ·)
    else some []

def chunkText (fuel : ℕ) (text : Str) (size overlap : ℕ) : Option (List Str) :=
  let clean := squeeze text
  if clean = [] then some [] else chunksFrom size overlap clean fuel 0

def chunkSize : ℕ := 1200

def chunkOverlap : ℕ := 180

/-- A row of `paper_chunks`; the table is a list in the order of the ids. -/
structure ChunkRow where
  paperId : Str
  text : Str
  textHash : Str

def minChunk : ℕ := 80

/-- `save_chunks`: the table and the number saved. The digest is a parameter. -/
def saveChunks (digest : Str → Str) (rows : List ChunkRow) (paperId : Str) (chunks : List Str)
    (replace : Bool) : List ChunkRow × ℕ :=
  if chunks = [] then (rows, 0)
  else
    let rows := if replace then rows.filter fun row => row.paperId ≠ paperId else rows
    chunks.foldl (fun s text =>
      let clean := squeeze text
      if clean.length < minChunk then s
      else (s.1 ++ [⟨paperId, clean, digest clean⟩], s.2 + 1)) (rows, 0)

def getChunks (rows : List ChunkRow) (paperId : Str) : List Str :=
  (rows.filter fun row => row.paperId = paperId).map ChunkRow.text

section Cutting

variable {size overlap : ℕ} {clean : Str}

/-- With enough passes the loop ends with the windows of the rest of the text. -/
theorem exists_chunksFrom (hs : overlap < size) {start : ℕ} (hstart : start < clean.length) :
    ∃ chunks, Cut size overlap (clean.drop start) chunks ∧
      ∀ fuel, clean.length - start ≤ fuel → chunksFrom size overlap clean fuel start = some chunks := by
  induction hn : clean.length - start using Nat.strong_induction_on generalizing start with
  | _ n ih =>
    subst hn
    have hlen : (clean.drop start).length = clean.length - start := List.length_drop
    have hchunk : (clean.take (min clean.length (start + size))).drop start =
        (clean.drop start).take size := by
      rw [Nat.min_comm, ← List.take_eq_take_min, List.drop_take, Nat.add_sub_cancel_left]
    rcases Nat.lt_or_ge size (clean.length - start) with hlt | hge
    · have hstop : min clean.length (start + size) = start + size := by omega
      have hnext : start + size - overlap = start + (size - overlap) := by omega
      have hlt' : start + size - overlap < clean.length := by omega
      obtain ⟨chunks, hcut, hrun⟩ := ih _ (by omega) hlt' rfl
      refine ⟨(clean.drop start).take size :: chunks, .next (by omega) ?_, fun fuel hfuel => ?_⟩
      · rwa [List.drop_drop, ← hnext]
      · obtain ⟨fuel, rfl⟩ : ∃ k, fuel = k + 1 := ⟨fuel - 1, by omega⟩
        rw [chunksFrom, if_pos hstart]
        simp only [hchunk]
        rw [hstop, if_neg (by omega), hrun fuel (by omega), Option.map_some]
    · refine ⟨[clean.drop start], .last ?_ (by omega), fun fuel hfuel => ?_⟩
      · rw [← List.length_pos_iff]
        omega
      · obtain ⟨fuel, rfl⟩ : ∃ k, fuel = k + 1 := ⟨fuel - 1, by omega⟩
        rw [chunksFrom, if_pos hstart]
        simp only [hchunk]
        rw [if_pos (by omega), List.take_of_length_le (by omega)]

/-- With enough passes `chunk_text` returns the windows of the text with single spaces. -/
theorem exists_chunkText (hs : overlap < size) {text : Str} (ht : squeeze text ≠ []) :
    ∃ chunks, Cut size overlap (squeeze text) chunks ∧
      ∀ fuel, (squeeze text).length ≤ fuel → chunkText fuel text size overlap = some chunks := by
  obtain ⟨chunks, hcut, hrun⟩ := exists_chunksFrom hs (List.length_pos_iff.mpr ht)
  refine ⟨chunks, hcut, fun fuel hfuel => ?_⟩
  rw [chunkText, if_neg ht, hrun fuel hfuel]

end Cutting

section Saving

theorem foldl_saveChunks (digest : Str → Str) (paperId : Str) {chunks : List Str}
    {s : List ChunkRow × ℕ} (hchunks : ∀ c ∈ chunks, minChunk ≤ (squeeze c).length) :
    (chunks.foldl (fun s text =>
      if (squeeze text).length < minChunk then s
      else (s.1 ++ [⟨paperId, squeeze text, digest (squeeze text)⟩], s.2 + 1)) s) =
    (s.1 ++ chunks.map fun text => ⟨paperId, squeeze text, digest (squeeze text)⟩,
      s.2 + chunks.length) := by
  induction chunks generalizing s with
  | nil => simp
  | cons c chunks ih =>
    rw [List.foldl_cons, if_neg (Nat.not_lt.mpr (hchunks c List.mem_cons_self)),
      ih fun c' hc' => hchunks c' (List.mem_cons_of_mem _ hc')]
    simp [Nat.add_comm, Nat.add_left_comm]

/-- Where no chunk is too short, each of them is stored, without white space at its ends. -/
theorem saveChunks_of_le (digest : Str → Str) (rows : List ChunkRow) (paperId : Str)
    {chunks : List Str} (hne : chunks ≠ [])
    (hchunks : ∀ c ∈ chunks, minChunk ≤ (squeeze c).length) (replace : Bool) :
    (saveChunks digest rows paperId chunks replace).2 = chunks.length ∧
      getChunks (saveChunks digest rows paperId chunks replace).1 paperId =
        (if replace then [] else getChunks rows paperId) ++ chunks.map squeeze := by
  simp only [saveChunks, if_neg hne, foldl_saveChunks digest paperId hchunks]
  refine ⟨Nat.zero_add _, ?_⟩
  simp only [getChunks, List.filter_append, List.map_append]
  congr 1
  · cases replace <;> simp
  · rw [List.filter_eq_self.mpr (by simp)]
    simp

/-- A part of the text that is long enough is not too short without its outer spaces. -/
theorem minChunk_le_squeeze {text c : Str} (ht : minChunk ≤ (squeeze text).length)
    (hc : c <:+: squeeze text) (hlen : c = squeeze text ∨ chunkOverlap < c.length) :
    minChunk ≤ (squeeze c).length := by
  rcases hlen with rfl | hlen
  · rwa [squeeze_squeeze]
  · obtain ⟨a, b, h, ha, hb, -⟩ := ((spaced_squeeze text).of_isInfix hc).exists_squeeze
    have hsum := congrArg List.length h
    simp only [List.length_append, chunkOverlap, minChunk] at hsum hlen ⊢
    omega

/-- A window over a character that is not white space has it without its outer spaces too. -/
theorem exists_offset_squeeze {s c : Str} {i k : ℕ} (hs : Spaced s) (hi : i < s.length)
    (hns : isSpace s[i] = false) (hk : k ≤ i) (hik : i < k + c.length) (hc : c <+: s.drop k) :
    ∃ k ≤ i, i < k + (squeeze c).length ∧ squeeze c <+: s.drop k := by
  have hcs : c <:+: s := hc.isInfix.trans (List.drop_suffix k s).isInfix
  obtain ⟨a, b, h, -, -, hab, -⟩ := (hs.of_isInfix hcs).exists_squeeze
  generalize squeeze c = q at h ⊢
  obtain ⟨t, ht⟩ := hc
  have hnot : s[i] ∉ a ++ b := fun hm => by
    rw [hab _ hm] at hns
    exact Bool.false_ne_true hns.symm
  have hget : (a ++ q ++ b)[i - k]? = some s[i] := by
    rw [← h, ← List.getElem?_append_left (by omega), ht, List.getElem?_drop,
      Nat.add_sub_cancel' hk, List.getElem?_eq_getElem hi]
  rw [List.append_assoc] at hget
  have hlen := congrArg List.length h
  simp only [List.length_append] at hlen
  -- the character is in none of the parts that are taken away
  have hleft : a.length ≤ i - k := by
    by_contra hlt
    rw [List.getElem?_append_left (by omega)] at hget
    exact hnot (List.mem_append_left _ (List.mem_of_getElem? hget))
  have hright : i - k < a.length + (q).length := by
    by_contra hge
    rw [List.getElem?_append_right hleft, List.getElem?_append_right (by omega)] at hget
    exact hnot (List.mem_append_right _ (List.mem_of_getElem? hget))
  refine ⟨k + a.length, by omega, by omega, b ++ t, ?_⟩
  rw [← List.drop_drop, ← ht, h]
  simp

end Saving

end K8sLearn.Papers
