import Mathlib.Data.List.Sort
import K8sLearn.Lib.Lists
import K8sLearn.Lib.Numbering
import K8sLearn.Lib.PyValue
import K8sLearn.Lib.Tally

/-! # The character tokenizer

`SimpleTokenizer` keeps a dictionary from tokens to ids and one back. Building the
vocabulary gives the next ids to the characters that are frequent enough and new, the most
frequent first, so after any builds the two dictionaries number one list of tokens, and
decoding an encoded text gives back the characters of the vocabulary.
-/

namespace K8sLearn.Transformer

namespace SimpleTokenizer

def pad : Str := "<pad>".toList
def bos : Str := "<bos>".toList
def eos : Str := "<eos>".toList
def unk : Str := "<unk>".toList

def specialTokens : List Str := [pad, bos, eos, unk]

end SimpleTokenizer

structure SimpleTokenizer where
  char2id : List (Str × ℕ)
  id2char : List (ℕ × Str)
  deriving DecidableEq

namespace SimpleTokenizer

/-- `self.char2id[tok] = i; self.id2char[i] = tok`. -/
def setToken (t : SimpleTokenizer) (tok : Str) (i : ℕ) : SimpleTokenizer where
  char2id := upsert (fun _ a => a) tok i t.char2id
  id2char := upsert (fun _ a => a) i tok t.id2char

def init : SimpleTokenizer := specialTokens.zipIdx.foldl (fun t e => t.setToken e.1 e.2) ⟨[], []⟩

/-- The ids of the special tokens; a missing key is an error. -/
def padId (t : SimpleTokenizer) : Option ℕ := t.char2id.lookup pad
def bosId (t : SimpleTokenizer) : Option ℕ := t.char2id.lookup bos
def eosId (t : SimpleTokenizer) : Option ℕ := t.char2id.lookup eos

def vocabSize (t : SimpleTokenizer) : ℕ := t.char2id.length

/-- `counter.update(text)` for every text. -/
def counter (texts : List Str) : List (Str × ℕ) :=
  texts.foldl (fun d text => text.foldl (fun d ch => Tally.add d ([ch], 1)) d) []

/-- `Counter.most_common`: by falling count, equal counts in their order. -/
def mostCommon (d : List (Str × ℕ)) : List (Str × ℕ) := d.insertionSort fun a b => b.2 ≤ a.2

/-- A round of the loop of `build_vocab`. -/
def addChar (minFreq : ℤ) (t : SimpleTokenizer) (e : Str × ℕ) : SimpleTokenizer :=
  if minFreq ≤ e.2 ∧ (t.char2id.lookup e.1).isNone then t.setToken e.1 t.vocabSize else t

def buildVocab (t : SimpleTokenizer) (texts : List Str) (minFreq : ℤ) : SimpleTokenizer :=
  (mostCommon (counter texts)).foldl (addChar minFreq) t

def encode (t : SimpleTokenizer) (text : Str) (addSpecial : Bool) : Option (List ℕ) :=
  (text.mapM fun ch =>
    (t.char2id.lookup unk).map fun u => (t.char2id.lookup [ch]).getD u).bind fun ids =>
  if addSpecial then
    t.bosId.bind fun b => t.eosId.map fun e => [b] ++ ids ++ [e]
  else some ids

def decode (t : SimpleTokenizer) (ids : List ℕ) (skipSpecial : Bool) : Str :=
  ids.flatMap fun i =>
    let ch := (t.id2char.lookup i).getD unk
    if skipSpecial && specialTokens.contains ch then [] else ch

/-- The tokenizer after calls of `build_vocab` with their texts and least frequencies. -/
def after (builds : List (List Str × ℤ)) : SimpleTokenizer :=
  builds.foldl (fun t b => t.buildVocab b.1 b.2) init

def Known (builds : List (List Str × ℤ)) (c : Char) : Prop :=
  ∃ b ∈ builds, 0 < b.1.flatten.count c ∧ b.2 ≤ b.1.flatten.count c

instance (builds : List (List Str × ℤ)) : DecidablePred (Known builds) := fun c =>
  inferInstanceAs (Decidable (∃ b ∈ builds, 0 < b.1.flatten.count c ∧ b.2 ≤ b.1.flatten.count c))

end SimpleTokenizer

structure Vocab where
  chars : List Char
  nodup : chars.Nodup

namespace Vocab

open SimpleTokenizer

variable (v : Vocab)

def tokens : List Str := specialTokens ++ v.chars.map fun c => [c]

def tokenizer : SimpleTokenizer := ⟨Numbering.ids v.tokens, Numbering.members v.tokens⟩

def add (c : Char) : Vocab :=
  if h : c ∈ v.chars then v
  else ⟨v.chars ++ [c], List.nodup_append'.mpr
    ⟨v.nodup, List.nodup_singleton c, List.disjoint_singleton.mpr h⟩⟩

def addAll (cs : List Char) : Vocab := cs.foldl add v

theorem singleton_ne_special (c : Char) : [c] ∉ specialTokens := by
  intro h
  have hlen : ∀ s ∈ specialTokens, s.length = 5 := by decide
  exact absurd (hlen _ h) (by simp)

theorem mem_tokens {c : Char} : [c] ∈ v.tokens ↔ c ∈ v.chars := by
  simp [tokens, singleton_ne_special c]

theorem nodup_tokens : v.tokens.Nodup := by
  refine List.nodup_append'.mpr ⟨by decide, ?_, ?_⟩
  · exact v.nodup.map fun a b h => (List.cons.inj h).1
  · intro s hs hc
    obtain ⟨c, -, rfl⟩ := List.mem_map.mp hc
    exact singleton_ne_special c hs

theorem chars_add (c : Char) :
    (v.add c).chars = if c ∈ v.chars then v.chars else v.chars ++ [c] := by
  unfold add
  split_ifs <;> rfl

theorem tokenizer_init : (⟨[], List.nodup_nil⟩ : Vocab).tokenizer = init := by
  decide +kernel

theorem addChar_tokenizer (minFreq : ℤ) (c : Char) (n : ℕ) :
    addChar minFreq v.tokenizer ([c], n) =
      (if minFreq ≤ n then v.add c else v).tokenizer := by
  have hnone : (v.tokenizer.char2id.lookup [c]).isNone ↔ c ∉ v.chars := by
    rw [← mem_tokens, ← Numbering.isSome_lookup_ids v.nodup_tokens, Option.not_isSome_iff_eq_none,
      Option.isNone_iff_eq_none]
    rfl
  unfold addChar
  by_cases hn : minFreq ≤ n
  · by_cases hc : c ∈ v.chars
    · have hadd : v.add c = v := dif_pos hc
      rw [if_neg fun h => hnone.mp h.2 hc, if_pos hn, hadd]
    · have hnew : [c] ∉ v.tokens := fun h => hc (v.mem_tokens.mp h)
      have htok : (v.add c).tokens = v.tokens ++ [[c]] := by
        simp [tokens, chars_add, hc]
      have hsize : v.tokenizer.vocabSize = v.tokens.length := Numbering.length_ids _
      rw [if_pos ⟨hn, hnone.mpr hc⟩, if_pos hn, hsize]
      simp only [setToken, tokenizer, htok, Numbering.upsert_ids hnew, Numbering.upsert_members]
  · rw [if_neg fun h => hn h.1, if_neg hn]

theorem addAll_cons (c : Char) (cs : List Char) : v.addAll (c :: cs) = (v.add c).addAll cs := rfl

theorem chars_addAll {cs : List Char} (h : cs.Nodup) :
    (v.addAll cs).chars = v.chars ++ cs.filter (· ∉ v.chars) := by
  induction cs generalizing v with
  | nil => simp [addAll]
  | cons c cs ih =>
    obtain ⟨hc, hcs⟩ := List.nodup_cons.mp h
    rw [addAll_cons, ih _ hcs, chars_add]
    by_cases hv : c ∈ v.chars
    · simp [hv]
    · have hsame : cs.filter (· ∉ v.chars ++ [c]) = cs.filter (· ∉ v.chars) := by
        apply List.filter_congr
        rintro d hd
        have hne : d ≠ c := fun h => hc (h ▸ hd)
        simp [hne]
      rw [if_neg hv, hsame, List.append_assoc, List.filter_cons_of_pos (by simpa using hv)]
      rfl

theorem foldl_addChar (minFreq : ℤ) (f : Char → ℕ) (cs : List Char) :
    (cs.map fun c => ([c], f c)).foldl (addChar minFreq) v.tokenizer =
      (v.addAll (cs.filter fun c => minFreq ≤ f c)).tokenizer := by
  induction cs generalizing v with
  | nil => rfl
  | cons c cs ih =>
    rw [List.map_cons, List.foldl_cons, addChar_tokenizer, ih, List.filter_cons]
    by_cases h : minFreq ≤ f c
    · simp [h, addAll_cons]
    · simp [h]

end Vocab

section Build

open SimpleTokenizer

def ranked (texts : List Str) : List Char :=
  (mostCommon (counter texts)).filterMap fun e => e.1.head?

variable (texts : List Str)

theorem counter_eq :
    counter texts = (texts.flatten.map fun ch => ([ch], 1)).foldl Tally.add [] := by
  simp only [counter, List.foldl_map, List.foldl_flatten]

theorem mem_counter {e : Str × ℕ} :
    e ∈ counter texts ↔ ∃ c ∈ texts.flatten, e = ([c], texts.flatten.count c) := by
  have hamount : ∀ (l : Str) (c : Char),
      Tally.amount (l.map fun ch => ([ch], 1)) [c] = l.count c := by
    intro l c
    induction l with
    | nil => rfl
    | cons a l ih =>
      rw [List.map_cons, Tally.amount_cons, ih, List.count_cons, add_comm]
      simp
  obtain ⟨k, n⟩ := e
  rw [counter_eq, Tally.mem_foldl_add, List.map_map]
  constructor
  · rintro ⟨hk, rfl⟩
    obtain ⟨c, hc, rfl⟩ := List.mem_map.mp hk
    exact ⟨c, hc, by rw [← hamount]; rfl⟩
  · rintro ⟨c, hc, heq⟩
    obtain ⟨rfl, rfl⟩ := Prod.mk.inj heq
    exact ⟨List.mem_map.mpr ⟨c, hc, rfl⟩, (hamount _ c).symm⟩

theorem mostCommon_perm (d : List (Str × ℕ)) : (mostCommon d).Perm d := List.perm_insertionSort _ d

theorem mostCommon_counter :
    mostCommon (counter texts) = (ranked texts).map fun c => ([c], texts.flatten.count c) := by
  have hmem : ∀ e ∈ mostCommon (counter texts), ∃ c, e = ([c], texts.flatten.count c) := by
    intro e he
    obtain ⟨c, -, rfl⟩ := (mem_counter texts).mp ((mostCommon_perm _).mem_iff.mp he)
    exact ⟨c, rfl⟩
  rw [ranked]
  revert hmem
  generalize mostCommon (counter texts) = l
  intro hmem
  induction l with
  | nil => rfl
  | cons e l ih =>
    obtain ⟨⟨c, rfl⟩, hl⟩ := List.forall_mem_cons.mp hmem
    exact congrArg (([c], texts.flatten.count c) :: ·) (ih hl)

theorem nodup_ranked : (ranked texts).Nodup := by
  have hkeys : ((mostCommon (counter texts)).map Prod.fst).Nodup := by
    rw [((mostCommon_perm _).map Prod.fst).nodup_iff, counter_eq]
    exact Tally.nodup_keys_foldl_add List.nodup_nil
  rw [mostCommon_counter, List.map_map] at hkeys
  exact hkeys.of_map

theorem mem_ranked {c : Char} : c ∈ ranked texts ↔ c ∈ texts.flatten := by
  rw [← List.mem_map_of_injective (f := fun c => (([c], texts.flatten.count c) : Str × ℕ))
    (fun a b h => (List.cons.inj (Prod.mk.inj h).1).1), ← mostCommon_counter,
    (mostCommon_perm _).mem_iff, mem_counter]
  constructor
  · rintro ⟨d, hd, heq⟩
    obtain rfl := (List.cons.inj (Prod.mk.inj heq).1).1
    exact hd
  · exact fun hc => ⟨c, hc, rfl⟩

theorem pairwise_ranked :
    (ranked texts).Pairwise fun c d => texts.flatten.count d ≤ texts.flatten.count c := by
  have hsorted := List.pairwise_insertionSort (fun a b : Str × ℕ => b.2 ≤ a.2) (counter texts)
  rw [← mostCommon, mostCommon_counter, List.pairwise_map] at hsorted
  exact hsorted

/-- The characters a build may add, in its order. -/
def frequent (minFreq : ℤ) : List Char :=
  (ranked texts).filter fun c => minFreq ≤ texts.flatten.count c

theorem buildVocab_tokenizer (v : Vocab) (minFreq : ℤ) :
    v.tokenizer.buildVocab texts minFreq = (v.addAll (frequent texts minFreq)).tokenizer := by
  rw [buildVocab, mostCommon_counter, Vocab.foldl_addChar]
  rfl

variable {texts}

theorem mem_frequent {minFreq : ℤ} {c : Char} : c ∈ frequent texts minFreq ↔
    0 < texts.flatten.count c ∧ minFreq ≤ texts.flatten.count c := by
  rw [frequent, List.mem_filter, mem_ranked, List.count_pos_iff, decide_eq_true_eq]

theorem nodup_frequent (texts : List Str) (minFreq : ℤ) : (frequent texts minFreq).Nodup :=
  (nodup_ranked texts).filter _

def vocabOf (builds : List (List Str × ℤ)) : Vocab :=
  builds.foldl (fun v b => v.addAll (frequent b.1 b.2)) ⟨[], List.nodup_nil⟩

theorem vocabOf_concat (builds : List (List Str × ℤ)) (b : List Str × ℤ) :
    vocabOf (builds ++ [b]) = (vocabOf builds).addAll (frequent b.1 b.2) := by
  rw [vocabOf, List.foldl_append]
  rfl

theorem after_eq (builds : List (List Str × ℤ)) : after builds = (vocabOf builds).tokenizer := by
  unfold after
  induction builds using List.reverseRecOn with
  | nil => exact Vocab.tokenizer_init.symm
  | append_singleton builds b ih =>
    rw [List.foldl_append, ih, vocabOf_concat, ← buildVocab_tokenizer]
    rfl

theorem mem_vocabOf {builds : List (List Str × ℤ)} {c : Char} :
    c ∈ (vocabOf builds).chars ↔ Known builds c := by
  induction builds using List.reverseRecOn with
  | nil => simp [vocabOf, Known]
  | append_singleton builds b ih =>
    rw [vocabOf_concat, Vocab.chars_addAll _ (nodup_frequent b.1 b.2), List.mem_append, ih,
      List.mem_filter, mem_frequent, decide_eq_true_eq, ih]
    simp only [Known, List.mem_append, List.mem_singleton]
    constructor
    · rintro (⟨b', hb', h⟩ | ⟨h, -⟩)
      · exact ⟨b', Or.inl hb', h⟩
      · exact ⟨b, Or.inr rfl, h⟩
    · rintro ⟨b', hb' | rfl, h⟩
      · exact Or.inl ⟨b', hb', h⟩
      · exact or_iff_not_imp_left.mpr fun hno => ⟨h, hno⟩

theorem exists_vocabOf_append (builds later : List (List Str × ℤ)) :
    ∃ cs, (vocabOf (builds ++ later)).chars = (vocabOf builds).chars ++ cs := by
  induction later using List.reverseRecOn with
  | nil => exact ⟨[], by simp⟩
  | append_singleton later b ih =>
    obtain ⟨cs, hcs⟩ := ih
    refine ⟨cs ++ (frequent b.1 b.2).filter (· ∉ (vocabOf (builds ++ later)).chars), ?_⟩
    rw [← List.append_assoc, vocabOf_concat, Vocab.chars_addAll _ (nodup_frequent b.1 b.2), hcs,
      List.append_assoc]

end Build

section Coding

open SimpleTokenizer

namespace Vocab

variable (v : Vocab)

def idOf (c : Char) : ℕ := ((Numbering.ids v.tokens).lookup [c]).getD 3

theorem char2id_eq_some_iff {tok : Str} {i : ℕ} :
    v.tokenizer.char2id.lookup tok = some i ↔ v.tokens[i]? = some tok := by
  rw [← Numbering.lookup_members]
  exact Numbering.lookup_ids_iff v.nodup_tokens

theorem tokens_addAll {cs : List Char} (h : cs.Nodup) :
    (v.addAll cs).tokens = v.tokens ++ (cs.filter (· ∉ v.chars)).map fun c => [c] := by
  simp [tokens, chars_addAll v h]

theorem lookup_addAll {cs : List Char} (h : cs.Nodup) {c : Char} (hc : c ∉ v.chars) {i : ℕ}
    (hi : (v.addAll cs).tokenizer.char2id.lookup [c] = some i) :
    v.tokens.length ≤ i ∧ (cs.filter (· ∉ v.chars))[i - v.tokens.length]? = some c := by
  rw [char2id_eq_some_iff, tokens_addAll v h] at hi
  rcases Nat.lt_or_ge i v.tokens.length with hlt | hge
  · rw [List.getElem?_append_left hlt] at hi
    exact absurd (v.mem_tokens.mp (List.mem_of_getElem? hi)) hc
  · rw [List.getElem?_append_right hge, List.getElem?_map] at hi
    obtain ⟨d, hd, heq⟩ := Option.map_eq_some_iff.mp hi
    obtain rfl := (List.cons.inj heq).1
    exact ⟨hge, hd⟩

theorem lookup_special (i : ℕ) (tok : Str) (h : specialTokens[i]? = some tok) :
    (Numbering.ids v.tokens).lookup tok = some i := by
  rw [Numbering.lookup_ids_iff v.nodup_tokens, Numbering.lookup_members, tokens,
    List.getElem?_append_left (List.getElem?_eq_some_iff.mp h).1, h]

theorem encode_tokenizer (text : Str) (addSpecial : Bool) :
    v.tokenizer.encode text addSpecial =
      some (if addSpecial then [1] ++ text.map v.idOf ++ [2] else text.map v.idOf) := by
  have hunk := v.lookup_special 3 unk rfl
  have hids : (text.mapM fun ch => (v.tokenizer.char2id.lookup unk).map fun u =>
      (v.tokenizer.char2id.lookup [ch]).getD u) = some (text.map v.idOf) := by
    apply Lists.mapM_eq_some_map
    rintro c -
    rw [tokenizer, hunk]
    rfl
  have hbos : v.tokenizer.bosId = some 1 := v.lookup_special 1 bos rfl
  have heos : v.tokenizer.eosId = some 2 := v.lookup_special 2 eos rfl
  rw [encode, hids, Option.bind_some, hbos, heos]
  cases addSpecial <;> rfl

theorem lookup_idOf (c : Char) :
    (v.tokenizer.id2char.lookup (v.idOf c)).getD unk = if c ∈ v.chars then [c] else unk := by
  unfold idOf tokenizer
  split_ifs with hc
  · obtain ⟨i, hi⟩ := Option.isSome_iff_exists.mp
      ((Numbering.isSome_lookup_ids v.nodup_tokens).mpr (v.mem_tokens.mpr hc))
    rw [hi, Option.getD_some, (Numbering.lookup_ids_iff v.nodup_tokens).mp hi]
    rfl
  · have hnone : (Numbering.ids v.tokens).lookup [c] = none := by
      rw [← Option.not_isSome_iff_eq_none, Numbering.isSome_lookup_ids v.nodup_tokens, v.mem_tokens]
      exact hc
    rw [hnone, Option.getD_none,
      (Numbering.lookup_ids_iff v.nodup_tokens).mp (v.lookup_special 3 unk rfl)]
    rfl

theorem decode_special (i : ℕ) (tok : Str) (h : specialTokens[i]? = some tok) (skip : Bool) :
    v.tokenizer.decode [i] skip = if skip then [] else tok := by
  have hfound := (Numbering.lookup_ids_iff v.nodup_tokens).mp (v.lookup_special i tok h)
  have hmem : specialTokens.contains tok = true :=
    List.elem_iff.mpr (List.mem_of_getElem? h)
  simp only [decode, List.flatMap_singleton, tokenizer, hfound, Option.getD_some, hmem,
    Bool.and_true]

theorem decode_idOf (text : Str) (skip : Bool) :
    v.tokenizer.decode (text.map v.idOf) skip =
      text.flatMap fun c => if c ∈ v.chars then [c] else if skip then [] else unk := by
  rw [decode, List.flatMap_map]
  apply List.flatMap_congr
  rintro c -
  dsimp only
  rw [lookup_idOf]
  by_cases hc : c ∈ v.chars
  · have hnot : specialTokens.contains [c] = false :=
      Bool.eq_false_iff.mpr fun h => singleton_ne_special c (List.elem_iff.mp h)
    rw [if_pos hc, hnot, Bool.and_false, if_pos hc]
    rfl
  · have hspecial : specialTokens.contains unk = true := by decide
    rw [if_neg hc, hspecial, Bool.and_true, if_neg hc]

theorem decode_append (t : SimpleTokenizer) (ids ids' : List ℕ) (skip : Bool) :
    t.decode (ids ++ ids') skip = t.decode ids skip ++ t.decode ids' skip := List.flatMap_append

theorem mem_chars_of_mem_decode {ids : List ℕ} {c : Char}
    (h : c ∈ v.tokenizer.decode ids true) : c ∈ v.chars := by
  obtain ⟨i, -, hc⟩ := List.mem_flatMap.mp h
  simp only [Bool.true_and, tokenizer, Numbering.lookup_members] at hc
  split_ifs at hc with hspecial
  · cases hc
  · cases htok : v.tokens[i]? with
    | none =>
      rw [htok] at hspecial
      exact absurd (by decide) hspecial
    | some tok =>
      rw [htok, Option.getD_some] at hspecial hc
      rcases List.mem_append.mp (List.mem_of_getElem? htok) with hmem | hmem
      · exact absurd (List.elem_iff.mpr hmem) hspecial
      · obtain ⟨d, hd, rfl⟩ := List.mem_map.mp hmem
        exact List.mem_singleton.mp hc ▸ hd

end Vocab

/-- After any builds, every text is encoded. Without the special tokens the decoded text is that of
the characters that some build has met often enough; with them, every other character has become
`<unk>`. -/
theorem decode_encode_after (builds : List (List Str × ℤ)) (text : Str) (addSpecial : Bool) :
    ∃ ids, (after builds).encode text addSpecial = some ids ∧
      (after builds).decode ids true = text.filter (Known builds) ∧
      (after builds).decode ids false = (if addSpecial then bos else []) ++
        text.flatMap (fun c => if Known builds c then [c] else unk) ++
        (if addSpecial then eos else []) := by
  rw [after_eq]
  refine ⟨_, (vocabOf builds).encode_tokenizer text addSpecial, ?_⟩
  have hbody : ∀ skip, (vocabOf builds).tokenizer.decode (text.map (vocabOf builds).idOf) skip =
      text.flatMap fun c => if Known builds c then [c] else if skip then [] else unk := by
    intro skip
    simp only [Vocab.decode_idOf, mem_vocabOf]
  have hfilter : (text.flatMap fun c => if Known builds c then [c] else []) =
      text.filter (Known builds) := by
    clear hbody
    induction text with
    | nil => rfl
    | cons c text ih =>
      rw [List.flatMap_cons, ih, List.filter_cons]
      by_cases hc : Known builds c <;> simp [hc]
  have hbos := (vocabOf builds).decode_special 1 bos rfl
  have heos := (vocabOf builds).decode_special 2 eos rfl
  cases addSpecial
  · exact ⟨(hbody true).trans hfilter, by simpa using hbody false⟩
  · simp only [if_true, Vocab.decode_append, hbos, heos, hbody, hfilter]
    simp

/-- Whatever is built, the two dictionaries are inverse to each other over the ids below
`vocab_size`, later builds keep every id, and of two characters that one build adds the more
frequent one has the smaller id. -/
theorem ids_after (builds later : List (List Str × ℤ)) :
    (∀ tok i, (after builds).char2id.lookup tok = some i ↔
      (after builds).id2char.lookup i = some tok) ∧
    (∀ i, ((after builds).id2char.lookup i).isSome ↔ i < (after builds).vocabSize) ∧
    (∀ tok i, (after builds).char2id.lookup tok = some i →
      (after (builds ++ later)).char2id.lookup tok = some i) ∧
    ∀ b c d i j, ¬ Known builds c → ¬ Known builds d →
      b.1.flatten.count d < b.1.flatten.count c →
      (after (builds ++ [b])).char2id.lookup [c] = some i →
      (after (builds ++ [b])).char2id.lookup [d] = some j → i < j := by
  refine ⟨?_, ?_, ?_, ?_⟩
  · intro tok i
    rw [after_eq]
    exact Numbering.lookup_ids_iff (vocabOf builds).nodup_tokens
  · intro i
    have hsize : (vocabOf builds).tokenizer.vocabSize = (vocabOf builds).tokens.length :=
      Numbering.length_ids _
    rw [after_eq, hsize, Vocab.tokenizer, Numbering.lookup_members]
    simp
  · intro tok i
    obtain ⟨cs, hcs⟩ := exists_vocabOf_append builds later
    rw [after_eq, after_eq, Vocab.char2id_eq_some_iff, Vocab.char2id_eq_some_iff]
    intro hi
    have htokens : (vocabOf (builds ++ later)).tokens =
        (vocabOf builds).tokens ++ cs.map fun c => [c] := by
      simp [Vocab.tokens, hcs]
    rw [htokens, List.getElem?_append_left (List.getElem?_eq_some_iff.mp hi).1, hi]
  · intro b c d i j hc hd hlt hi hj
    rw [← mem_vocabOf] at hc hd
    rw [after_eq, vocabOf_concat] at hi hj
    obtain ⟨hle, hi⟩ := Vocab.lookup_addAll _ (nodup_frequent b.1 b.2) hc hi
    obtain ⟨hle', hj⟩ := Vocab.lookup_addAll _ (nodup_frequent b.1 b.2) hd hj
    have hranked : ((frequent b.1 b.2).filter (· ∉ (vocabOf builds).chars)).Pairwise
        fun c d => b.1.flatten.count d ≤ b.1.flatten.count c :=
      ((pairwise_ranked b.1).filter _).filter _
    by_contra hge
    rcases (Nat.le_of_not_lt hge).lt_or_eq with hji | rfl
    · -- the character of the smaller id would be the more frequent one
      obtain ⟨hlt₁, rfl⟩ := List.getElem?_eq_some_iff.mp hj
      obtain ⟨hlt₂, rfl⟩ := List.getElem?_eq_some_iff.mp hi
      have := List.pairwise_iff_getElem.mp hranked _ _ hlt₁ hlt₂ (by omega)
      omega
    · obtain rfl := Option.some.inj (hi.symm.trans hj)
      omega

theorem ids_after_twice :
    let first := [(["ab".toList], (1 : ℤ))]
    (after first).char2id.lookup ['b'] = some 5 ∧
    (after (first ++ [(["cddb".toList], 1)])).char2id.lookup ['b'] = some 5 ∧
    (after first).id2char.lookup 5 = some ['b'] ∧ ((after first).id2char.lookup 5).isSome ∧
    (4 : ℕ) < 5 := by
  intro first
  obtain ⟨hinv, hrange, hkeep, -⟩ := ids_after first [(["cddb".toList], 1)]
  obtain ⟨-, -, -, horder⟩ := ids_after [] []
  have hb : (after first).char2id.lookup ['b'] = some 5 := by decide +kernel
  refine ⟨hb, hkeep _ _ hb, (hinv _ _).mp hb, (hrange 5).mpr (by decide +kernel), ?_⟩
  exact horder (["aab".toList], 1) 'a' 'b' 4 5 (by decide) (by decide) (by decide)
    (by decide +kernel) (by decide +kernel)

end Coding

end K8sLearn.Transformer
