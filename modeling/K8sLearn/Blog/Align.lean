import Mathlib.Algebra.Order.Field.Rat
import Mathlib.Data.Finset.Card
import Mathlib.Data.Finset.Dedup
import Mathlib.Data.List.TakeWhile
import K8sLearn.Lib.Greedy
import K8sLearn.Lib.Lists
import K8sLearn.Lib.Pattern

/-! # Chinese names for the features of a release

`align_official_chinese` gives the features of each section of the English release blog the names
and descriptions of the Chinese one. It matches the names greedily, but what the matching leaves
open is written by position, without regard to the threshold. No entry is written twice.
-/

namespace K8sLearn.Blog

structure Feature where
  sec : Str
  name : Str
  nameZh : Str
  descriptionZh : Str
deriving DecidableEq

/-- An entry of the Chinese blog; `_extract_zh_features` passes over headings without text. -/
structure ZhEntry where
  name : Str
  description : Str
  name_ne_nil : name ≠ []

section Similarity

variable (lower : Str → Str)

/-- `[\u4e00-\u9fff]`. -/
def isCjk (c : Char) : Bool := 0x4e00 ≤ c.toNat && c.toNat ≤ 0x9fff

def tokenize (s : Str) : Finset Str :=
  if s = [] then ∅
  else (Str.runs Char.isAlphanum (lower s)).toFinset ∪
    (((lower s).filter isCjk).map fun c => [c]).toFinset

def similarity (a b : Str) : ℚ :=
  let ta := tokenize lower a
  let tb := tokenize lower b
  if ta = ∅ ∧ tb = ∅ then 1
  else if ta = ∅ ∨ tb = ∅ then 0
  else (ta ∩ tb).card / (ta ∪ tb).card

def similarityThreshold : ℚ := 2 / 5

def bestMatchPairs (enNames zhNames : List Str) : List (ℕ × ℕ × ℚ) :=
  Greedy.pairs (similarity lower) zhNames enNames

end Similarity

section Writes

/-- The features of a section, and which entry was written to which feature, by position. -/
structure Alignment where
  en : List Feature
  writes : List (ℕ × ℕ)

variable (zh : List ZhEntry)

/-- The name and the description of an entry go to a feature. -/
def Alignment.write (a : Alignment) (p : ℕ × ℕ) : Alignment :=
  match zh[p.2]? with
  | none => a
  | some z => ⟨a.en.modify p.1 fun f => { f with nameZh := z.name, descriptionZh := z.description },
      a.writes ++ [p]⟩

/-- The fill-in by position: the features that are left, the entries the cursor has not passed and
those that are used. -/
def fillIn : List ℕ → List ℕ → List ℕ → Alignment → Alignment
  | [], _, _, a => a
  | ei :: eis, rest, used, a =>
    if (a.en[ei]?).any fun f => f.nameZh ≠ [] then fillIn eis rest used a
    else match rest.dropWhile fun zj => zj ∈ used with
      | [] => fillIn eis [] used a
      | zi :: rest => fillIn eis rest (zi :: used) (a.write zh (ei, zi))

end Writes

section Align

variable (lower : Str → Str)

/-- The loop body of `align_official_chinese`: one section. -/
def alignSection (en : List Feature) (zh : List ZhEntry) : Alignment :=
  if en = [] ∨ zh = [] then ⟨en, []⟩
  else
    let pairs := bestMatchPairs lower (en.map Feature.name) (zh.map ZhEntry.name)
    let good := pairs.filter fun p => similarityThreshold ≤ p.2.2
    if zh.length = en.length then
      if good.length = en.length then
        (pairs.map fun p => (p.1, p.2.1)).foldl (Alignment.write zh) ⟨en, []⟩
      else ((List.range en.length).map fun i => (i, i)).foldl (Alignment.write zh) ⟨en, []⟩
    else
      let a := (good.map fun p => (p.1, p.2.1)).foldl (Alignment.write zh) ⟨en, []⟩
      if good.length < en.length then
        fillIn zh (List.range en.length) (List.range zh.length) (pairs.map fun p => p.2.1) a
      else a

def replaceWhere (p : Feature → Bool) : List Feature → List Feature → List Feature
  | [], _ => []
  | f :: l, [] => f :: l
  | f :: l, g :: new => if p f then g :: replaceWhere p l new else f :: replaceWhere p l (g :: new)

/-- The keys of `en_per_section`, in the order of their first features. -/
def sections (all : List Feature) : List Str := (all.map Feature.sec).reverse.dedup.reverse

def alignOfficialChinese (zhBySection : List (Str × List ZhEntry)) (all : List Feature) :
    List Feature :=
  if zhBySection.all fun p => p.2.isEmpty then all
  else (sections all).foldl (fun all sec =>
    replaceWhere (fun f => f.sec = sec) all
      (alignSection lower (all.filter fun f => f.sec = sec)
        ((zhBySection.lookup sec).getD [])).en) all

end Align

section Writes

variable {zh : List ZhEntry} {a : Alignment}

theorem write_of_getElem? {p : ℕ × ℕ} {z : ZhEntry} (hz : zh[p.2]? = some z) :
    a.write zh p = ⟨a.en.modify p.1 fun f =>
      { f with nameZh := z.name, descriptionZh := z.description }, a.writes ++ [p]⟩ := by
  rw [Alignment.write, hz]

theorem writes_foldl {ps : List (ℕ × ℕ)} (hps : ∀ p ∈ ps, p.2 < zh.length) :
    (ps.foldl (Alignment.write zh) a).writes = a.writes ++ ps := by
  induction ps generalizing a with
  | nil => simp
  | cons p ps ih =>
    have hz := List.getElem?_eq_getElem (hps p List.mem_cons_self)
    rw [List.foldl_cons, ih fun q hq => hps q (List.mem_cons_of_mem _ hq), write_of_getElem? hz,
      List.append_assoc]
    rfl

def Alignment.Unnamed (a : Alignment) (i : ℕ) : Prop := ∃ f, a.en[i]? = some f ∧ f.nameZh = []

theorem unnamed_write {p : ℕ × ℕ} (hp : p.2 < zh.length) {i : ℕ} :
    (a.write zh p).Unnamed i ↔ a.Unnamed i ∧ p.1 ≠ i := by
  have hz := List.getElem?_eq_getElem hp
  rw [write_of_getElem? hz]
  simp only [Alignment.Unnamed, List.getElem?_modify]
  by_cases hi : p.1 = i
  · simp only [hi, if_true, ne_eq, not_true, and_false, iff_false]
    rintro ⟨f, hf, hname⟩
    obtain ⟨g, -, rfl⟩ := Option.map_eq_some_iff.mp hf
    exact zh[p.2].name_ne_nil hname
  · simp [hi]

theorem unnamed_foldl {ps : List (ℕ × ℕ)} (hps : ∀ p ∈ ps, p.2 < zh.length) {i : ℕ} :
    (ps.foldl (Alignment.write zh) a).Unnamed i ↔ a.Unnamed i ∧ ∀ p ∈ ps, p.1 ≠ i := by
  induction ps generalizing a with
  | nil => simp
  | cons p ps ih =>
    rw [List.foldl_cons, ih fun q hq => hps q (List.mem_cons_of_mem _ hq),
      unnamed_write (hps p List.mem_cons_self)]
    simp [and_assoc]

end Writes

section FillIn

variable {zh : List ZhEntry} {a : Alignment} {eis rest used : List ℕ} {p : ℕ × ℕ}

theorem length_write (p : ℕ × ℕ) : (a.write zh p).en.length = a.en.length := by
  unfold Alignment.write
  cases zh[p.2]? with
  | none => rfl
  | some z => exact List.length_modify _ _ _

theorem unnamed_of_not_any {i : ℕ} (hi : i < a.en.length)
    (h : ¬ ((a.en[i]?).any fun f => f.nameZh ≠ []) = true) : a.Unnamed i := by
  rw [List.getElem?_eq_getElem hi] at h
  exact ⟨a.en[i], List.getElem?_eq_getElem hi, by simpa using h⟩

theorem Alignment.Unnamed.not_any {i : ℕ} (h : a.Unnamed i) :
    ¬ ((a.en[i]?).any fun f => f.nameZh ≠ []) = true := by
  obtain ⟨f, hf, hname⟩ := h
  simp [hf, hname]

theorem of_dropWhile_eq_cons {zi : ℕ} {rest' : List ℕ}
    (h : rest.dropWhile (fun zj => zj ∈ used) = zi :: rest') :
    zi ∉ used ∧ zi ∈ rest ∧ ∀ z ∈ rest', z ∈ rest := by
  have hsuffix : zi :: rest' <:+ rest := h ▸ List.dropWhile_suffix _
  refine ⟨?_, hsuffix.subset List.mem_cons_self,
    fun z hz => hsuffix.subset (List.mem_cons_of_mem _ hz)⟩
  have hhead := List.head?_dropWhile_not (fun zj => decide (zj ∈ used)) rest
  rw [h] at hhead
  simpa using hhead

/-- What the fill-in writes goes from an entry not used to a feature without a Chinese name. -/
theorem of_mem_fillIn (heis : ∀ i ∈ eis, i < a.en.length) (hrest : ∀ z ∈ rest, z < zh.length)
    (hp : p ∈ (fillIn zh eis rest used a).writes) :
    p ∈ a.writes ∨ a.Unnamed p.1 ∧ p.2 ∈ rest ∧ p.2 ∉ used := by
  induction eis generalizing rest used a with
  | nil => exact Or.inl hp
  | cons ei eis ih =>
    have heis' : ∀ i ∈ eis, i < a.en.length := fun i hi => heis i (List.mem_cons_of_mem _ hi)
    rw [fillIn] at hp
    split_ifs at hp with hnamed
    · exact ih heis' hrest hp
    · split at hp
      · rcases ih heis' (by simp) hp with h | ⟨-, h, -⟩
        · exact Or.inl h
        · cases h
      · rename_i zi rest' hdrop
        obtain ⟨hfree, hzi, hsub⟩ := of_dropWhile_eq_cons hdrop
        have hz := List.getElem?_eq_getElem (hrest zi hzi)
        have hlen : ∀ i ∈ eis, i < (a.write zh (ei, zi)).en.length := by
          simpa only [length_write] using heis'
        rcases ih hlen (fun z hz => hrest z (hsub z hz)) hp with h | ⟨hun, hmem, hnot⟩
        · rw [write_of_getElem? hz] at h
          rcases List.mem_append.mp h with h | h
          · exact Or.inl h
          · obtain rfl := List.mem_singleton.mp h
            exact Or.inr ⟨unnamed_of_not_any (heis ei List.mem_cons_self) hnamed, hzi, hfree⟩
        · rw [List.mem_cons, not_or] at hnot
          exact Or.inr ⟨((unnamed_write (hrest zi hzi)).mp hun).1, hsub _ hmem, hnot.2⟩

theorem mem_fillIn_of_mem (hp : p ∈ a.writes) : p ∈ (fillIn zh eis rest used a).writes := by
  induction eis generalizing rest used a with
  | nil => exact hp
  | cons ei eis ih =>
    rw [fillIn]
    split_ifs
    · exact ih hp
    · split
      · exact ih hp
      · refine ih ?_
        unfold Alignment.write
        split
        · exact hp
        · exact List.mem_append_left _ hp

/-- A feature without a Chinese name and an entry not used make the fill-in write. -/
theorem exists_mem_fillIn (heis : ∀ i ∈ eis, i < a.en.length) (hrest : ∀ z ∈ rest, z < zh.length)
    {i j : ℕ} (hi : i ∈ eis) (hun : a.Unnamed i) (hj : j ∈ rest) (hfree : j ∉ used) :
    ∃ p ∈ (fillIn zh eis rest used a).writes, a.Unnamed p.1 ∧ p.2 ∈ rest ∧ p.2 ∉ used := by
  induction eis with
  | nil => cases hi
  | cons ei eis ih =>
    rw [fillIn]
    split_ifs with hnamed
    · rcases List.mem_cons.mp hi with rfl | hi
      · exact absurd hnamed hun.not_any
      · exact ih (fun i hi => heis i (List.mem_cons_of_mem _ hi)) hi
    · split
      · rename_i hdrop
        have hused := List.dropWhile_eq_nil_iff.mp hdrop j hj
        exact absurd (of_decide_eq_true hused) hfree
      · rename_i zi rest' hdrop
        obtain ⟨hnot, hzi, -⟩ := of_dropWhile_eq_cons hdrop
        have hz := List.getElem?_eq_getElem (hrest zi hzi)
        refine ⟨(ei, zi), mem_fillIn_of_mem ?_,
          unnamed_of_not_any (heis ei List.mem_cons_self) hnamed, hzi, hnot⟩
        rw [write_of_getElem? hz]
        exact List.mem_append_right _ List.mem_cons_self

theorem nodup_fillIn (hrest : ∀ z ∈ rest, z < zh.length) (hnodup : (a.writes.map Prod.snd).Nodup)
    (hused : ∀ p ∈ a.writes, p.2 ∈ used) :
    ((fillIn zh eis rest used a).writes.map Prod.snd).Nodup := by
  induction eis generalizing rest used a with
  | nil => exact hnodup
  | cons ei eis ih =>
    rw [fillIn]
    split_ifs
    · exact ih hrest hnodup hused
    · split
      · exact ih (by simp) hnodup hused
      · rename_i zi rest' hdrop
        obtain ⟨hfree, hzi, hsub⟩ := of_dropWhile_eq_cons hdrop
        have hz := List.getElem?_eq_getElem (hrest zi hzi)
        refine ih (fun z hz => hrest z (hsub z hz)) ?_ fun p hp => ?_
        · rw [write_of_getElem? hz, List.map_append]
          refine List.nodup_append'.mpr ⟨hnodup, List.nodup_singleton _, ?_⟩
          rw [List.map_singleton, List.disjoint_singleton]
          intro hmem
          obtain ⟨q, hq, rfl⟩ := List.mem_map.mp hmem
          exact hfree (hused q hq)
        · rw [write_of_getElem? hz] at hp
          rcases List.mem_append.mp hp with hp | hp
          · exact List.mem_cons_of_mem _ (hused p hp)
          · obtain rfl := List.mem_singleton.mp hp
            exact List.mem_cons_self

end FillIn

section Trust

variable (lower : Str → Str) (en : List Feature) (zh : List ZhEntry)

/-- The name of the entry is similar enough to that of the feature. -/
def Trusted (p : ℕ × ℕ) : Prop :=
  ∃ f z, en[p.1]? = some f ∧ zh[p.2]? = some z ∧
    similarityThreshold ≤ similarity lower f.name z.name

/-- The greedy matching pairs the feature with an entry similar enough. -/
def Matched (i : ℕ) : Prop :=
  ∃ p ∈ bestMatchPairs lower (en.map Feature.name) (zh.map ZhEntry.name),
    p.1 = i ∧ similarityThreshold ≤ p.2.2

/-- Nothing is left to be written by position, or what is written by position is similar enough. -/
def Reliable : Prop :=
  if zh.length = en.length then
    (∀ i < en.length, Matched lower en zh i) ∨
      ∀ q ∈ en.zip zh, similarityThreshold ≤ similarity lower q.1.name q.2.name
  else
    (∀ j < zh.length, ∃ p ∈ bestMatchPairs lower (en.map Feature.name) (zh.map ZhEntry.name),
      p.2.1 = j) ∨
    ∀ i f, en[i]? = some f → f.nameZh = [] → Matched lower en zh i

instance : DecidablePred (Matched lower en zh) := fun _ =>
  inferInstanceAs (Decidable (∃ p ∈ _, _))

variable {lower en zh} {p : ℕ × ℕ} {q : ℕ × ℕ × ℚ} {i j : ℕ}

theorem of_mem_bestMatchPairs
    (hq : q ∈ bestMatchPairs lower (en.map Feature.name) (zh.map ZhEntry.name)) :
    ∃ f z, en[q.1]? = some f ∧ zh[q.2.1]? = some z ∧ similarity lower f.name z.name = q.2.2 := by
  obtain ⟨-, e, n, he, hn, hscore⟩ := Greedy.of_mem_pairs hq
  rw [List.getElem?_map] at he hn
  obtain ⟨f, hf, rfl⟩ := Option.map_eq_some_iff.mp he
  obtain ⟨z, hz, rfl⟩ := Option.map_eq_some_iff.mp hn
  exact ⟨f, z, hf, hz, hscore⟩

theorem lt_of_mem_bestMatchPairs
    (hq : q ∈ bestMatchPairs lower (en.map Feature.name) (zh.map ZhEntry.name)) :
    q.1 < en.length ∧ q.2.1 < zh.length := by
  obtain ⟨f, z, hf, hz, -⟩ := of_mem_bestMatchPairs hq
  exact ⟨(List.getElem?_eq_some_iff.mp hf).1, (List.getElem?_eq_some_iff.mp hz).1⟩

theorem trusted_of_mem (hq : q ∈ bestMatchPairs lower (en.map Feature.name) (zh.map ZhEntry.name))
    (hs : similarityThreshold ≤ q.2.2) : Trusted lower en zh (q.1, q.2.1) := by
  obtain ⟨f, z, hf, hz, hscore⟩ := of_mem_bestMatchPairs hq
  exact ⟨f, z, hf, hz, hscore ▸ hs⟩

theorem not_trusted_of_free (hi : ¬ Matched lower en zh i)
    (hj : j ∉ (bestMatchPairs lower (en.map Feature.name) (zh.map ZhEntry.name)).map
      fun q => q.2.1) : ¬ Trusted lower en zh (i, j) := by
  rintro ⟨f, z, hf, hz, hs⟩
  have hen : (en.map Feature.name)[i]? = some f.name := by simp only [List.getElem?_map, hf]; rfl
  have hzh : (zh.map ZhEntry.name)[j]? = some z.name := by simp only [List.getElem?_map, hz]; rfl
  rcases Greedy.le_of_free hen hzh hj with h | ⟨j', s, hp, hle⟩
  · have hpos : (0 : ℚ) < similarityThreshold := by decide +kernel
    exact absurd (hs.trans h) (not_le.mpr hpos)
  · exact hi ⟨_, hp, rfl, hs.trans hle⟩

end Trust

section Writes

variable (lower : Str → Str) (en : List Feature) (zh : List ZhEntry)

def goodPairs : List (ℕ × ℕ) :=
  ((bestMatchPairs lower (en.map Feature.name) (zh.map ZhEntry.name)).filter fun q =>
    similarityThreshold ≤ q.2.2).map fun q => (q.1, q.2.1)

variable {lower en zh}

theorem mem_goodPairs {p : ℕ × ℕ} : p ∈ goodPairs lower en zh ↔
    ∃ q ∈ bestMatchPairs lower (en.map Feature.name) (zh.map ZhEntry.name),
      similarityThreshold ≤ q.2.2 ∧ (q.1, q.2.1) = p := by
  simp only [goodPairs, List.mem_map, List.mem_filter, decide_eq_true_eq, and_assoc]

theorem lt_of_mem_goodPairs : ∀ p ∈ goodPairs lower en zh, p.2 < zh.length := by
  intro p hp
  obtain ⟨q, hq, -, rfl⟩ := mem_goodPairs.mp hp
  exact (lt_of_mem_bestMatchPairs hq).2

theorem trusted_goodPairs : ∀ p ∈ goodPairs lower en zh, Trusted lower en zh p := by
  intro p hp
  obtain ⟨q, hq, hs, rfl⟩ := mem_goodPairs.mp hp
  exact trusted_of_mem hq hs

theorem matched_iff {i : ℕ} : Matched lower en zh i ↔ ∃ p ∈ goodPairs lower en zh, p.1 = i := by
  constructor
  · rintro ⟨q, hq, rfl, hs⟩
    exact ⟨_, mem_goodPairs.mpr ⟨q, hq, hs, rfl⟩, rfl⟩
  · rintro ⟨p, hp, rfl⟩
    obtain ⟨q, hq, hs, rfl⟩ := mem_goodPairs.mp hp
    exact ⟨q, hq, rfl, hs⟩

theorem nodup_goodPairs : ((goodPairs lower en zh).map Prod.snd).Nodup := by
  have hright := Greedy.nodup_right (similarity lower) (zh.map ZhEntry.name) (en.map Feature.name)
  rw [goodPairs, List.map_map]
  exact hright.sublist (List.filter_sublist.map _)

theorem fst_goodPairs (lower : Str → Str) (en : List Feature) (zh : List ZhEntry) :
    ((goodPairs lower en zh).map Prod.fst).Nodup ∧
      (goodPairs lower en zh).map Prod.fst ⊆ List.range en.length := by
  have hleft := Greedy.nodup_left (similarity lower) (zh.map ZhEntry.name) (en.map Feature.name)
  constructor
  · rw [goodPairs, List.map_map]
    exact hleft.sublist (List.filter_sublist.map _)
  · intro i hi
    obtain ⟨p, hp, rfl⟩ := List.mem_map.mp hi
    obtain ⟨q, hq, -, rfl⟩ := mem_goodPairs.mp hp
    exact List.mem_range.mpr (lt_of_mem_bestMatchPairs hq).1

theorem length_goodPairs_iff (lower : Str → Str) (en : List Feature) (zh : List ZhEntry) :
    (goodPairs lower en zh).length = en.length ↔ ∀ i < en.length, Matched lower en zh i := by
  have hlen := Lists.length_eq_iff_subset (fst_goodPairs lower en zh).1 List.nodup_range
    (fst_goodPairs lower en zh).2
  rw [List.length_map, List.length_range] at hlen
  rw [hlen]
  simp only [List.subset_def, List.mem_range, List.mem_map, matched_iff]

theorem length_goodPairs_le : (goodPairs lower en zh).length ≤ en.length := by
  have hle := (List.subperm_of_subset (fst_goodPairs lower en zh).1
    (fst_goodPairs lower en zh).2).length_le
  rwa [List.length_map, List.length_range] at hle

theorem goodPairs_of_matched (h : ∀ i < en.length, Matched lower en zh i) :
    goodPairs lower en zh =
      (bestMatchPairs lower (en.map Feature.name) (zh.map ZhEntry.name)).map fun q =>
        (q.1, q.2.1) := by
  have hsub : (bestMatchPairs lower (en.map Feature.name) (zh.map ZhEntry.name)).map Prod.fst ⊆
      List.range en.length := by
    intro i hi
    obtain ⟨q, hq, rfl⟩ := List.mem_map.mp hi
    exact List.mem_range.mpr (lt_of_mem_bestMatchPairs hq).1
  have hle := (List.subperm_of_subset (Greedy.nodup_left (similarity lower) _ _) hsub).length_le
  have hgood := (length_goodPairs_iff lower en zh).mpr h
  rw [List.length_map, List.length_range] at hle
  rw [goodPairs, List.length_map] at hgood
  have hall := List.length_filter_eq_length_iff.mp
    (le_antisymm (List.length_filter_le _ _) (hle.trans hgood.ge))
  rw [goodPairs, bestMatchPairs, List.filter_eq_self.mpr hall]

theorem alignSection_of_eq (hlen : zh.length = en.length) :
    alignSection lower en zh =
      (if ∀ i < en.length, Matched lower en zh i then goodPairs lower en zh
        else (List.range en.length).map fun i => (i, i)).foldl (Alignment.write zh) ⟨en, []⟩ := by
  by_cases hempty : en = [] ∨ zh = []
  · have hnil : en = [] := by
      rcases hempty with rfl | rfl
      · rfl
      · exact List.length_eq_zero_iff.mp hlen.symm
    subst hnil
    rw [alignSection, if_pos hempty]
    split_ifs <;> rfl
  · have hgood := length_goodPairs_iff lower en zh
    rw [goodPairs, List.length_map] at hgood
    simp only [alignSection, if_neg hempty, if_pos hlen, hgood]
    split_ifs with h
    · rw [goodPairs_of_matched h]
    · rfl

theorem alignSection_of_ne (hlen : zh.length ≠ en.length) (hempty : ¬ (en = [] ∨ zh = [])) :
    alignSection lower en zh =
      if ∀ i < en.length, Matched lower en zh i then
        (goodPairs lower en zh).foldl (Alignment.write zh) ⟨en, []⟩
      else fillIn zh (List.range en.length) (List.range zh.length)
        ((bestMatchPairs lower (en.map Feature.name) (zh.map ZhEntry.name)).map fun q => q.2.1)
        ((goodPairs lower en zh).foldl (Alignment.write zh) ⟨en, []⟩) := by
  have hlt : (goodPairs lower en zh).length < en.length ↔
      ¬ ∀ i < en.length, Matched lower en zh i := by
    rw [← length_goodPairs_iff]
    exact ⟨fun h => ne_of_lt h, fun h => lt_of_le_of_ne length_goodPairs_le h⟩
  rw [goodPairs, List.length_map] at hlt
  simp only [alignSection, if_neg hempty, if_neg hlen, hlt, ite_not, goodPairs]

end Writes

section Aligned

variable {lower : Str → Str} {en : List Feature} {zh : List ZhEntry}

theorem writes_good : ((goodPairs lower en zh).foldl (Alignment.write zh) ⟨en, []⟩).writes =
    goodPairs lower en zh :=
  writes_foldl lt_of_mem_goodPairs

theorem unnamed_good {i : ℕ} :
    ((goodPairs lower en zh).foldl (Alignment.write zh) ⟨en, []⟩).Unnamed i ↔
      (∃ f, en[i]? = some f ∧ f.nameZh = []) ∧ ¬ Matched lower en zh i := by
  rw [unnamed_foldl lt_of_mem_goodPairs, matched_iff]
  simp only [Alignment.Unnamed, not_exists, not_and, ne_eq]

theorem length_foldl_write (ps : List (ℕ × ℕ)) (a : Alignment) :
    (ps.foldl (Alignment.write zh) a).en.length = a.en.length := by
  induction ps generalizing a with
  | nil => rfl
  | cons p ps ih => rw [List.foldl_cons, ih, length_write]

/-- The features are what the recorded writes make of `en`. -/
def Logged (zh : List ZhEntry) (en : List Feature) (a : Alignment) : Prop :=
  a.writes.foldl (Alignment.write zh) ⟨en, []⟩ = a

theorem Logged.write {a : Alignment} (h : Logged zh en a) (p : ℕ × ℕ) :
    Logged zh en (a.write zh p) := by
  cases hz : zh[p.2]? with
  | none =>
    rw [Alignment.write, hz]
    exact h
  | some z =>
    have hstep : (a.write zh p).writes = a.writes ++ [p] := by rw [write_of_getElem? hz]
    rw [Logged, hstep, List.foldl_append, h]
    rfl

theorem Logged.foldl {a : Alignment} (h : Logged zh en a) (ps : List (ℕ × ℕ)) :
    Logged zh en (ps.foldl (Alignment.write zh) a) := by
  induction ps generalizing a with
  | nil => exact h
  | cons p ps ih => exact ih (h.write p)

theorem Logged.fillIn {a : Alignment} (h : Logged zh en a) (eis rest used : List ℕ) :
    Logged zh en (fillIn zh eis rest used a) := by
  induction eis generalizing rest used a with
  | nil => exact h
  | cons ei eis ih =>
    rw [Blog.fillIn]
    split_ifs
    · exact ih h rest used
    · split
      · exact ih h [] used
      · exact ih (h.write _) _ _

theorem logged_alignSection (lower : Str → Str) (en : List Feature) (zh : List ZhEntry) :
    Logged zh en (alignSection lower en zh) := by
  have hstart : Logged zh en ⟨en, []⟩ := rfl
  unfold alignSection
  dsimp only
  split_ifs
  · exact hstart
  · exact hstart.foldl _
  · exact hstart.foldl _
  · exact (hstart.foldl _).fillIn _ _ _
  · exact hstart.foldl _

/-- No entry is written to two features: every entry is written at most once, in the phases of
sections of equal length as in the greedy phase and the fill-in. -/
theorem alignSection_injective (lower : Str → Str) (en : List Feature) (zh : List ZhEntry) :
    ((alignSection lower en zh).writes.map Prod.snd).Nodup := by
  by_cases hlen : zh.length = en.length
  · rw [alignSection_of_eq hlen]
    split_ifs with h
    · rw [writes_good]
      exact nodup_goodPairs
    · have hvalid : ∀ p ∈ (List.range en.length).map fun i => (i, i), p.2 < zh.length := by
        intro p hp
        obtain ⟨i, hi, rfl⟩ := List.mem_map.mp hp
        exact hlen ▸ List.mem_range.mp hi
      rw [writes_foldl hvalid, List.nil_append, List.map_map]
      exact List.nodup_range.map fun _ _ h => h
  · by_cases hempty : en = [] ∨ zh = []
    · rw [alignSection, if_pos hempty]
      exact List.nodup_nil
    · rw [alignSection_of_ne hlen hempty]
      split_ifs with h
      · rw [writes_good]
        exact nodup_goodPairs
      · refine nodup_fillIn (fun z hz => List.mem_range.mp hz) ?_ fun p hp => ?_
        · rw [writes_good]
          exact nodup_goodPairs
        · rw [writes_good] at hp
          obtain ⟨q, hq, -, rfl⟩ := mem_goodPairs.mp hp
          exact List.mem_map_of_mem hq

/-- What is written in order is similar enough where the features and the entries are in pairs. -/
theorem trusted_zip_iff (hlen : zh.length = en.length) :
    (∀ p ∈ (List.range en.length).map fun i => (i, i), Trusted lower en zh p) ↔
      ∀ q ∈ en.zip zh, similarityThreshold ≤ similarity lower q.1.name q.2.name := by
  constructor
  · intro h q hq
    obtain ⟨i, hi⟩ := List.mem_iff_getElem?.mp hq
    obtain ⟨hf, hz⟩ := List.getElem?_zip_eq_some.mp hi
    have hmem : (i, i) ∈ (List.range en.length).map fun i => (i, i) :=
      List.mem_map.mpr ⟨i, List.mem_range.mpr (List.getElem?_eq_some_iff.mp hf).1, rfl⟩
    obtain ⟨f, z, hf', hz', hs⟩ := h _ hmem
    obtain rfl := Option.some.inj (hf.symm.trans hf')
    obtain rfl := Option.some.inj (hz.symm.trans hz')
    exact hs
  · intro h p hp
    obtain ⟨i, hi, rfl⟩ := List.mem_map.mp hp
    have hf := List.mem_range.mp hi
    have hz : i < zh.length := hlen.symm ▸ hf
    have hpair : (en.zip zh)[i]? = some (en[i], zh[i]) :=
      List.getElem?_zip_eq_some.mpr ⟨List.getElem?_eq_getElem hf, List.getElem?_eq_getElem hz⟩
    exact ⟨en[i], zh[i], List.getElem?_eq_getElem hf, List.getElem?_eq_getElem hz,
      h (en[i], zh[i]) (List.mem_of_getElem? hpair)⟩

/-- Where the numbers differ, everything written is similar enough unless a feature and an entry
are left to the fill-in. -/
theorem trusted_of_ne_iff (hlen : zh.length ≠ en.length) (hempty : ¬ (en = [] ∨ zh = [])) :
    (∀ p ∈ (alignSection lower en zh).writes, Trusted lower en zh p) ↔
      (∀ j < zh.length, ∃ q ∈ bestMatchPairs lower (en.map Feature.name) (zh.map ZhEntry.name),
        q.2.1 = j) ∨
      ∀ i f, en[i]? = some f → f.nameZh = [] → Matched lower en zh i := by
  rw [alignSection_of_ne hlen hempty]
  split_ifs with hall
  · rw [writes_good]
    exact ⟨fun _ => Or.inr fun i f hf _ => hall i (List.getElem?_eq_some_iff.mp hf).1,
      fun _ => trusted_goodPairs⟩
  · let a := (goodPairs lower en zh).foldl (Alignment.write zh) ⟨en, []⟩
    have heis : ∀ i ∈ List.range en.length, i < a.en.length := by
      intro i hi
      rw [length_foldl_write]
      exact List.mem_range.mp hi
    have hrest : ∀ z ∈ List.range zh.length, z < zh.length := fun z hz => List.mem_range.mp hz
    constructor
    · intro h
      by_contra hcon
      push Not at hcon
      obtain ⟨⟨j, hj, hfree⟩, i, f, hf, hname, hopen⟩ := hcon
      have hun : a.Unnamed i := unnamed_good.mpr ⟨⟨f, hf, hname⟩, hopen⟩
      have hnot : j ∉ (bestMatchPairs lower (en.map Feature.name) (zh.map ZhEntry.name)).map
          fun q => q.2.1 := by
        rintro hmem
        obtain ⟨q, hq, rfl⟩ := List.mem_map.mp hmem
        exact hfree q hq rfl
      obtain ⟨p, hp, hpun, -, hpfree⟩ := exists_mem_fillIn heis hrest
        (List.mem_range.mpr (List.getElem?_eq_some_iff.mp hf).1) hun (List.mem_range.mpr hj) hnot
      exact not_trusted_of_free (unnamed_good.mp hpun).2 hpfree (h p hp)
    · intro h p hp
      rcases of_mem_fillIn heis hrest hp with hgood | ⟨hun, hmem, hfree⟩
      · rw [writes_good] at hgood
        exact trusted_goodPairs p hgood
      · obtain ⟨⟨f, hf, hname⟩, hopen⟩ := unnamed_good.mp hun
        rcases h with h | h
        · obtain ⟨q, hq, hj⟩ := h p.2 (List.mem_range.mp hmem)
          exact absurd (List.mem_map.mpr ⟨q, hq, hj⟩) hfree
        · exact absurd (h p.1 f hf hname) hopen

/-- Everything written to the features of a section comes from entries similar enough exactly
where nothing is left to be written by position, or what is written by position happens to be
similar enough. -/
theorem alignSection_trusted_iff (lower : Str → Str) (en : List Feature) (zh : List ZhEntry) :
    (∀ p ∈ (alignSection lower en zh).writes, Trusted lower en zh p) ↔ Reliable lower en zh := by
  unfold Reliable
  split_ifs with hlen
  · rw [alignSection_of_eq hlen]
    split_ifs with hall
    · rw [writes_good]
      exact ⟨fun _ => Or.inl hall, fun _ => trusted_goodPairs⟩
    · have hvalid : ∀ p ∈ (List.range en.length).map fun i => (i, i), p.2 < zh.length := by
        intro p hp
        obtain ⟨i, hi, rfl⟩ := List.mem_map.mp hp
        exact hlen ▸ List.mem_range.mp hi
      rw [writes_foldl hvalid, List.nil_append, or_iff_right hall]
      exact trusted_zip_iff hlen
  · by_cases hempty : en = [] ∨ zh = []
    · rw [alignSection, if_pos hempty]
      refine iff_of_true (by simp) ?_
      rcases hempty with rfl | rfl
      · exact Or.inr (by simp)
      · exact Or.inl (by simp)
    · exact trusted_of_ne_iff hlen hempty

def unrelated : List Feature × List ZhEntry :=
  ([⟨"Beta".toList, "Node swap".toList, [], []⟩],
    [⟨"Job 并行".toList, "失败任务的重试策略".toList, by decide⟩])

/-- With one feature and one entry the entry is written, although nothing in the names agrees. -/
theorem not_alignSection_trusted : ¬ ∀ (en : List Feature) (zh : List ZhEntry),
    ∀ p ∈ (alignSection (List.map Char.toLower) en zh).writes,
      Trusted (List.map Char.toLower) en zh p := by
  intro h
  have hwrites :
      (alignSection (List.map Char.toLower) unrelated.1 unrelated.2).writes = [(0, 0)] := by
    decide +kernel
  have hscore : ¬ similarityThreshold ≤
      similarity (List.map Char.toLower) "Node swap".toList "Job 并行".toList := by decide +kernel
  obtain ⟨f, z, hf, hz, hs⟩ := h unrelated.1 unrelated.2 (0, 0) (hwrites ▸ List.mem_cons_self)
  obtain rfl := Option.some.inj hf
  obtain rfl := Option.some.inj hz
  exact hscore hs

end Aligned

section Sections

variable {lower : Str → Str} {zh : List ZhEntry} {p q : Feature → Bool} {l new : List Feature}

theorem filter_replaceWhere (hlen : new.length = (l.filter p).length)
    (hnew : ∀ g ∈ new, p g = true) :
    (replaceWhere p l new).filter p = new := by
  induction l generalizing new with
  | nil => exact (List.length_eq_zero_iff.mp hlen).symm
  | cons f l ih =>
    cases new with
    | nil => exact List.length_eq_zero_iff.mp hlen.symm
    | cons g new =>
      by_cases hf : p f = true
      · rw [List.filter_cons_of_pos hf, List.length_cons, List.length_cons, Nat.add_right_cancel_iff]
          at hlen
        rw [replaceWhere, if_pos hf, List.filter_cons_of_pos (hnew g List.mem_cons_self),
          ih hlen fun g hg => hnew g (List.mem_cons_of_mem _ hg)]
      · rw [List.filter_cons_of_neg hf] at hlen
        rw [replaceWhere, if_neg hf, List.filter_cons_of_neg hf, ih hlen hnew]

theorem filter_replaceWhere_of_disjoint (hq : ∀ f, p f = true → q f = false)
    (hnew : ∀ g ∈ new, p g = true) : (replaceWhere p l new).filter q = l.filter q := by
  induction l generalizing new with
  | nil => rfl
  | cons f l ih =>
    cases new with
    | nil => rfl
    | cons g new =>
      have hnew' : ∀ g ∈ new, p g = true := fun g hg => hnew g (List.mem_cons_of_mem _ hg)
      by_cases hf : p f = true
      · rw [replaceWhere, if_pos hf, List.filter_cons_of_neg (by
          simp [hq g (hnew g List.mem_cons_self)]), List.filter_cons_of_neg (by simp [hq f hf]),
          ih hnew']
      · rw [replaceWhere, if_neg hf, List.filter_cons, List.filter_cons, ih hnew]

theorem sec_write (a : Alignment) (p : ℕ × ℕ) :
    (a.write zh p).en.map Feature.sec = a.en.map Feature.sec := by
  unfold Alignment.write
  cases zh[p.2]? with
  | none => rfl
  | some z =>
    apply List.ext_getElem?
    intro i
    simp only [List.getElem?_map, List.getElem?_modify]
    cases a.en[i]? with
    | none => rfl
    | some f => split_ifs <;> rfl

theorem sec_foldl_write (ps : List (ℕ × ℕ)) (a : Alignment) :
    (ps.foldl (Alignment.write zh) a).en.map Feature.sec = a.en.map Feature.sec := by
  induction ps generalizing a with
  | nil => rfl
  | cons p ps ih => rw [List.foldl_cons, ih, sec_write]

theorem sec_fillIn (eis rest used : List ℕ) (a : Alignment) :
    (fillIn zh eis rest used a).en.map Feature.sec = a.en.map Feature.sec := by
  induction eis generalizing rest used a with
  | nil => rfl
  | cons ei eis ih =>
    rw [fillIn]
    split_ifs
    · exact ih rest used a
    · split
      · exact ih [] used a
      · rw [ih, sec_write]

theorem sec_alignSection (lower : Str → Str) (en : List Feature) (zh : List ZhEntry) :
    (alignSection lower en zh).en.map Feature.sec = en.map Feature.sec := by
  unfold alignSection
  dsimp only
  split_ifs
  · rfl
  · exact sec_foldl_write _ _
  · exact sec_foldl_write _ _
  · rw [sec_fillIn, sec_foldl_write]
  · exact sec_foldl_write _ _

def alignIn (lower : Str → Str) (zhBySection : List (Str × List ZhEntry)) (all : List Feature)
    (sec : Str) : List Feature :=
  replaceWhere (fun f => f.sec = sec) all
    (alignSection lower (all.filter fun f => f.sec = sec) ((zhBySection.lookup sec).getD [])).en

theorem filter_alignIn (zhBySection : List (Str × List ZhEntry)) (all : List Feature)
    (sec s : Str) : (alignIn lower zhBySection all sec).filter (fun f => f.sec = s) =
      if s = sec then (alignSection lower (all.filter fun f => f.sec = sec)
        ((zhBySection.lookup sec).getD [])).en
      else all.filter fun f => f.sec = s := by
  have hsec := sec_alignSection lower (all.filter fun f => f.sec = sec)
    ((zhBySection.lookup sec).getD [])
  have hnew : ∀ g ∈ (alignSection lower (all.filter fun f => f.sec = sec)
      ((zhBySection.lookup sec).getD [])).en, decide (g.sec = sec) = true := by
    intro g hg
    have hmem : g.sec ∈ (all.filter fun f => f.sec = sec).map Feature.sec :=
      hsec ▸ List.mem_map_of_mem hg
    obtain ⟨f, hf, hfg⟩ := List.mem_map.mp hmem
    rw [← hfg]
    exact (List.mem_filter.mp hf).2
  split_ifs with h
  · subst h
    refine filter_replaceWhere ?_ hnew
    simpa using congrArg List.length hsec
  · refine filter_replaceWhere_of_disjoint (fun f hf => ?_) hnew
    have hf' : f.sec = sec := of_decide_eq_true hf
    simpa [hf'] using Ne.symm h

/-- Every section is aligned for itself: its features end as the loop body leaves them, whatever
the other sections hold. -/
theorem alignOfficialChinese_section (zhBySection : List (Str × List ZhEntry)) (all : List Feature)
    (s : Str) : (alignOfficialChinese lower zhBySection all).filter (fun f => f.sec = s) =
      (alignSection lower (all.filter fun f => f.sec = s) ((zhBySection.lookup s).getD [])).en := by
  have hfold : ∀ (secs : List Str) (all : List Feature), secs.Nodup →
      (secs.foldl (alignIn lower zhBySection) all).filter (fun f => f.sec = s) =
        if s ∈ secs then (alignSection lower (all.filter fun f => f.sec = s)
          ((zhBySection.lookup s).getD [])).en
        else all.filter fun f => f.sec = s := by
    intro secs
    induction secs with
    | nil => exact fun _ _ => rfl
    | cons sec secs ih =>
      intro all hnodup
      obtain ⟨hnot, hnodup⟩ := List.nodup_cons.mp hnodup
      rw [List.foldl_cons, ih _ hnodup, filter_alignIn]
      by_cases hs : s = sec
      · subst hs
        simp [hnot]
      · simp [hs]
  unfold alignOfficialChinese
  split_ifs with hempty
  · have hnone : (zhBySection.lookup s).getD [] = [] := by
      cases hlookup : zhBySection.lookup s with
      | none => rfl
      | some zh =>
        obtain ⟨l₁, l₂, hsplit, -⟩ := List.lookup_eq_some_iff.mp hlookup
        have hmem : (s, zh) ∈ zhBySection := hsplit ▸ List.mem_append_right _ List.mem_cons_self
        exact List.isEmpty_iff.mp (List.all_eq_true.mp hempty _ hmem)
    rw [hnone, alignSection, if_pos (Or.inr rfl)]
  · have hnodup : (sections all).Nodup := List.nodup_reverse.mpr (List.nodup_dedup _)
    refine (hfold (sections all) all hnodup).trans ?_
    split_ifs with hmem
    · rfl
    · have hnil : all.filter (fun f => f.sec = s) = [] := by
        rw [List.filter_eq_nil_iff]
        intro f hf hsec
        refine hmem ?_
        rw [sections, List.mem_reverse, List.mem_dedup, List.mem_reverse]
        exact List.mem_map.mpr ⟨f, hf, of_decide_eq_true hsec⟩
      rw [hnil, alignSection, if_pos (Or.inl rfl)]

end Sections

end K8sLearn.Blog
