import Mathlib.Algebra.Order.BigOperators.Group.List
import Mathlib.Algebra.Order.Field.Basic
import Mathlib.Algebra.Order.Field.Rat
import Mathlib.Data.List.Sort
import Mathlib.Data.Nat.Cast.Order.Ring
import Mathlib.Tactic.Linarith
import Mathlib.Tactic.Positivity
import K8sLearn.Lib.Lists
import K8sLearn.Lib.Tally
import K8sLearn.Rag.Agent

/-! # Fusion of rankings

Reciprocal rank fusion files every id of every ranked list with the sum of its reciprocal ranks
and sorts by that sum. An id that stands before another wherever the other occurs earns more
in every list, so it stands before it in the fusion. `HybridRetriever.search` fuses its two
indexes in this way and reranks; over indexes that return distinct passages of the corpus it is
a retriever as the agent needs it.
-/

namespace K8sLearn.Rag

section Fusion

abbrev Ranking := List (Str × ℚ)

def ids (rl : Ranking) : List Str := rl.map Prod.fst

/-- The pairs that a list of `_rrf` adds to the scores. -/
def reciprocals (rrfK : ℕ) (rl : List Str) (start : ℕ) : List (Str × ℚ) :=
  (rl.zipIdx start).map fun e => (e.1, 1 / (rrfK + e.2 + 1))

def rrfList (rrfK : ℕ) (scores : Ranking) (rl : Ranking) : Ranking :=
  rl.zipIdx.foldl (fun scores e => Tally.add scores (e.1.1, 1 / (rrfK + e.2 + 1))) scores

def rrf (rankedLists : List Ranking) (rrfK : ℕ) : Ranking :=
  (rankedLists.foldl (rrfList rrfK) []).insertionSort fun a b => b.2 ≤ a.2

def fusedScore (rrfK : ℕ) (rankings : List (List Str)) (id : Str) : ℚ :=
  (rankings.map fun rl => if id ∈ rl then 1 / ((rrfK : ℚ) + rl.idxOf id + 1) else 0).sum

variable {rrfK : ℕ} {rankedLists : List Ranking} {a b id : Str}

theorem rrfList_eq (scores rl : Ranking) :
    rrfList rrfK scores rl = (reciprocals rrfK (ids rl) 0).foldl Tally.add scores := by
  rw [rrfList, reciprocals, ids, List.zipIdx_map, List.map_map, List.foldl_map]
  rfl

theorem foldl_rrfList (scores : Ranking) :
    rankedLists.foldl (rrfList rrfK) scores =
      (rankedLists.flatMap fun rl => reciprocals rrfK (ids rl) 0).foldl Tally.add scores := by
  rw [List.foldl_flatMap]
  exact List.foldl_ext _ _ _ fun scores rl _ => rrfList_eq scores rl

theorem keys_reciprocals (rl : List Str) (start : ℕ) :
    (reciprocals rrfK rl start).map Prod.fst = rl := by
  rw [reciprocals, List.map_map]
  exact List.zipIdx_map_fst start rl

theorem amount_reciprocals {rl : List Str} (h : rl.Nodup) (start : ℕ) :
    Tally.amount (reciprocals rrfK rl start) id =
      if id ∈ rl then 1 / ((rrfK : ℚ) + (start + rl.idxOf id : ℕ) + 1) else 0 := by
  induction rl generalizing start with
  | nil => rfl
  | cons x rl ih =>
    obtain ⟨hx, hrl⟩ := List.nodup_cons.mp h
    have hcons : reciprocals rrfK (x :: rl) start =
        (x, 1 / ((rrfK : ℚ) + start + 1)) :: reciprocals rrfK rl (start + 1) := rfl
    rw [hcons, Tally.amount_cons, ih hrl]
    by_cases hid : x = id
    · subst hid
      simp [hx]
    · rw [if_neg hid, zero_add, List.idxOf_cons_ne _ hid, Nat.succ_eq_add_one]
      simp only [List.mem_cons, Ne.symm hid, false_or]
      rw [Nat.add_right_comm, Nat.add_assoc]

theorem mem_rrf (h : ∀ rl ∈ rankedLists, (ids rl).Nodup) {score : ℚ} :
    (id, score) ∈ rrf rankedLists rrfK ↔
      (∃ rl ∈ rankedLists, id ∈ ids rl) ∧ score = fusedScore rrfK (rankedLists.map ids) id := by
  rw [rrf, (List.perm_insertionSort _ _).mem_iff, foldl_rrfList, Tally.mem_foldl_add,
    Tally.amount_flatMap]
  have hkeys : id ∈ (rankedLists.flatMap fun rl => reciprocals rrfK (ids rl) 0).map Prod.fst ↔
      ∃ rl ∈ rankedLists, id ∈ ids rl := by
    simp only [List.map_flatMap, keys_reciprocals, List.mem_flatMap]
  have hsum : (rankedLists.map fun rl => Tally.amount (reciprocals rrfK (ids rl) 0) id) =
      (rankedLists.map ids).map fun rl =>
        if id ∈ rl then 1 / ((rrfK : ℚ) + rl.idxOf id + 1) else 0 := by
    rw [List.map_map]
    refine List.map_congr_left fun rl hrl => ?_
    rw [amount_reciprocals (h rl hrl), Nat.zero_add]
    rfl
  rw [hkeys, hsum, fusedScore]

theorem nodup_ids_rrf (rankedLists : List Ranking) (rrfK : ℕ) :
    (ids (rrf rankedLists rrfK)).Nodup := by
  rw [ids, rrf, ((List.perm_insertionSort _ _).map Prod.fst).nodup_iff, foldl_rrfList]
  exact Tally.nodup_keys_foldl_add List.nodup_nil

theorem mem_ids_rrf (h : ∀ rl ∈ rankedLists, (ids rl).Nodup) :
    id ∈ ids (rrf rankedLists rrfK) ↔ ∃ rl ∈ rankedLists, id ∈ ids rl := by
  constructor
  · intro hid
    obtain ⟨⟨_, score⟩, he, rfl⟩ := List.mem_map.mp hid
    exact ((mem_rrf h).mp he).1
  · intro hid
    exact List.mem_map_of_mem ((mem_rrf h).mpr ⟨hid, rfl⟩)

theorem fusedScore_lt (hb : ∃ rl ∈ rankedLists, b ∈ ids rl)
    (hab : ∀ rl ∈ rankedLists, b ∈ ids rl → (ids rl).idxOf a < (ids rl).idxOf b) :
    fusedScore rrfK (rankedLists.map ids) b < fusedScore rrfK (rankedLists.map ids) a := by
  have hearn : ∀ rl ∈ rankedLists, b ∈ ids rl →
      (if b ∈ ids rl then 1 / ((rrfK : ℚ) + (ids rl).idxOf b + 1) else 0) <
        if a ∈ ids rl then 1 / ((rrfK : ℚ) + (ids rl).idxOf a + 1) else 0 := by
    intro rl hrl hmem
    have hlt := hab rl hrl hmem
    have ha : a ∈ ids rl := List.idxOf_lt_length_iff.mp (hlt.trans_le List.idxOf_le_length)
    rw [if_pos hmem, if_pos ha]
    have hlt' : ((ids rl).idxOf a : ℚ) < (ids rl).idxOf b := Nat.cast_lt.mpr hlt
    exact one_div_lt_one_div_of_lt (by positivity) (by linarith)
  rw [fusedScore, fusedScore, List.map_map, List.map_map]
  refine List.sum_lt_sum _ _ (fun rl hrl => ?_) ?_
  · by_cases hmem : b ∈ ids rl
    · exact (hearn rl hrl hmem).le
    · simp only [Function.comp_apply, if_neg hmem]
      split_ifs
      · positivity
      · exact le_rfl
  · obtain ⟨rl, hrl, hmem⟩ := hb
    exact ⟨rl, hrl, hearn rl hrl hmem⟩

/-- Of two entries of a fusion the one of higher score stands first. -/
theorem idxOf_rrf_lt {s s' : ℚ} (ha : (a, s) ∈ rrf rankedLists rrfK)
    (hb : (b, s') ∈ rrf rankedLists rrfK) (h : s' < s) :
    (ids (rrf rankedLists rrfK)).idxOf a < (ids (rrf rankedLists rrfK)).idxOf b := by
  have hsorted : (rrf rankedLists rrfK).Pairwise fun x y => y.2 ≤ x.2 := by
    have : Std.Total fun x y : Str × ℚ => y.2 ≤ x.2 := ⟨fun x y => le_total _ _⟩
    have : IsTrans (Str × ℚ) fun x y => y.2 ≤ x.2 := ⟨fun _ _ _ hxy hyz => hyz.trans hxy⟩
    exact List.pairwise_insertionSort _ _
  have hnodup := nodup_ids_rrf rankedLists rrfK
  obtain ⟨i, hi, hia⟩ := List.mem_iff_getElem.mp ha
  obtain ⟨j, hj, hjb⟩ := List.mem_iff_getElem.mp hb
  have hidx : ∀ (n : ℕ) (hn : n < (rrf rankedLists rrfK).length) (x : Str × ℚ),
      (rrf rankedLists rrfK)[n] = x → (ids (rrf rankedLists rrfK)).idxOf x.1 = n := by
    rintro n hn x rfl
    have hn' : n < (ids (rrf rankedLists rrfK)).length := by rwa [ids, List.length_map]
    have hget : (ids (rrf rankedLists rrfK))[n] = (rrf rankedLists rrfK)[n].1 := by simp [ids]
    rw [← hget]
    exact hnodup.idxOf_getElem n hn'
  rw [hidx i hi _ hia, hidx j hj _ hjb]
  by_contra hle
  rcases (not_lt.mp hle).eq_or_lt with rfl | hlt
  · rw [hjb] at hia
    exact h.ne (congrArg Prod.snd hia)
  · have hge := List.pairwise_iff_getElem.mp hsorted j i hj hi hlt
    rw [hia, hjb] at hge
    exact h.not_ge hge

/-- Fusion respects unanimous preference, has every id of its lists once, and its scores depend on
the ranks alone. -/
theorem rrf_unanimous (rankedLists : List Ranking) (rrfK : ℕ)
    (hnodup : ∀ rl ∈ rankedLists, (ids rl).Nodup) :
    (∀ a b, (∃ rl ∈ rankedLists, a ∈ ids rl) → (∃ rl ∈ rankedLists, b ∈ ids rl) →
      (∀ rl ∈ rankedLists, b ∈ ids rl → (ids rl).idxOf a < (ids rl).idxOf b) →
      (ids (rrf rankedLists rrfK)).idxOf a < (ids (rrf rankedLists rrfK)).idxOf b) ∧
    ((ids (rrf rankedLists rrfK)).Nodup ∧
      ∀ id, id ∈ ids (rrf rankedLists rrfK) ↔ ∃ rl ∈ rankedLists, id ∈ ids rl) ∧
    ∀ rankedLists' : List Ranking, (rankedLists'.map ids).Perm (rankedLists.map ids) →
      (rrf rankedLists' rrfK).Perm (rrf rankedLists rrfK) := by
  refine ⟨fun a b ha hb hab => ?_, ⟨nodup_ids_rrf _ _, fun id => mem_ids_rrf hnodup⟩,
    fun rankedLists' hperm => ?_⟩
  · exact idxOf_rrf_lt ((mem_rrf hnodup).mpr ⟨ha, rfl⟩) ((mem_rrf hnodup).mpr ⟨hb, rfl⟩)
      (fusedScore_lt hb hab)
  · have hnodup' : ∀ rl ∈ rankedLists', (ids rl).Nodup := by
      intro rl hrl
      obtain ⟨rl', hrl', heq⟩ := List.mem_map.mp (hperm.mem_iff.mp (List.mem_map_of_mem hrl))
      exact heq ▸ hnodup rl' hrl'
    refine (List.perm_ext_iff_of_nodup (nodup_ids_rrf _ _).of_map (nodup_ids_rrf _ _).of_map).mpr ?_
    rintro ⟨id, score⟩
    have hmap : ∀ lists : List Ranking, (∃ rl ∈ lists, id ∈ ids rl) ↔
        ∃ rl ∈ lists.map ids, id ∈ rl := by simp
    have hmem : (∃ rl ∈ rankedLists', id ∈ ids rl) ↔ ∃ rl ∈ rankedLists, id ∈ ids rl := by
      rw [hmap, hmap]
      exact exists_congr fun rl => and_congr_left fun _ => hperm.mem_iff
    have hscore : fusedScore rrfK (rankedLists'.map ids) id =
        fusedScore rrfK (rankedLists.map ids) id := (hperm.map _).sum_eq
    rw [mem_rrf hnodup', mem_rrf hnodup, hmem, hscore]

def bm25Ranking : Ranking := [("a".toList, 7), ("b".toList, 5), ("c".toList, 1)]

def denseRanking : Ranking := [("d".toList, 3 / 4), ("a".toList, 1 / 2)]

theorem rrf_unanimous_two :
    (ids (rrf [bm25Ranking, denseRanking] 60)).idxOf "a".toList <
        (ids (rrf [bm25Ranking, denseRanking] 60)).idxOf "b".toList ∧
      (rrf [denseRanking, bm25Ranking] 60).Perm (rrf [bm25Ranking, denseRanking] 60) := by
  obtain ⟨hbefore, -, hperm⟩ := rrf_unanimous [bm25Ranking, denseRanking] 60 (by decide)
  exact ⟨hbefore _ _ (by decide) (by decide) (by decide),
    hperm [denseRanking, bm25Ranking] (List.Perm.swap _ _ _)⟩

end Fusion

section Search

/-- The passages of a corpus with its two indexes and the scores of the cross-encoder. An index
returns different passages of the corpus. -/
structure HybridRetriever where
  docs : List Document
  bm25 : Str → ℕ → Ranking
  dense : Str → ℕ → Ranking
  scorePairs : List (Str × Str) → List ℚ
  unique_ids : (docs.map Document.id).Nodup
  bm25_ids : ∀ query k, (ids (bm25 query k)).Nodup ∧ ids (bm25 query k) ⊆ docs.map Document.id
  dense_ids : ∀ query k, (ids (dense query k)).Nodup ∧ ids (dense query k) ⊆ docs.map Document.id

namespace HybridRetriever

variable (r : HybridRetriever) (query : Str) (args : SearchArgs)

/-- `docs_by_id[did]`, where nothing means that it raises. -/
def docById (did : Str) : Option Document := r.docs.find? fun d => d.id = did

def lists : List Ranking :=
  (if args.useBm25 then [r.bm25 query (max args.recallK args.k)] else []) ++
    if args.useDense then [r.dense query (max args.recallK args.k)] else []

def fused : Ranking :=
  match r.lists query args with
  | [] => []
  | [rl] => rl
  | rankedLists => rrf rankedLists 60

/-- The scores of the cross-encoder for the first 512 characters of every passage. -/
def rerank (k : ℕ) (top : Ranking) : Option Ranking :=
  (top.mapM fun e => (r.docById e.1).map fun d => (query, d.text.take 512)).map fun pairs =>
    (((ids top).zip (r.scorePairs pairs)).insertionSort fun a b => b.2 ≤ a.2).take k

def search : Option (List RetrievedDoc) :=
  if r.lists query args = [] then some []
  else
    (if args.rerank then
      r.rerank query args.k ((r.fused query args).take (max args.recallK args.k))
    else some ((r.fused query args).take args.k)).bind fun top =>
      (top.take args.k).mapM fun e => (r.docById e.1).map fun d => ⟨d, e.2⟩

def Serves (rl : Ranking) : Prop := (ids rl).Nodup ∧ ids rl ⊆ r.docs.map Document.id

variable {r query args}

theorem Serves.sublist {rl rl' : Ranking} (h : r.Serves rl) (hsub : (ids rl').Sublist (ids rl)) :
    r.Serves rl' :=
  ⟨h.1.sublist hsub, fun _ hx => h.2 (hsub.subset hx)⟩

theorem Serves.take {rl : Ranking} (h : r.Serves rl) (n : ℕ) : r.Serves (rl.take n) :=
  h.sublist ((List.take_sublist n rl).map Prod.fst)

theorem serves_of_mem_lists {rl : Ranking} (h : rl ∈ r.lists query args) : r.Serves rl := by
  unfold lists at h
  rcases List.mem_append.mp h with h | h
  · split_ifs at h
    · exact List.mem_singleton.mp h ▸ r.bm25_ids _ _
    · cases h
  · split_ifs at h
    · exact List.mem_singleton.mp h ▸ r.dense_ids _ _
    · cases h

theorem serves_rrf {rankedLists : List Ranking} (h : ∀ rl ∈ rankedLists, r.Serves rl) (rrfK : ℕ) :
    r.Serves (rrf rankedLists rrfK) := by
  refine ⟨nodup_ids_rrf _ _, fun id hid => ?_⟩
  obtain ⟨rl, hrl, hmem⟩ := (mem_ids_rrf fun rl hrl => (h rl hrl).1).mp hid
  exact (h rl hrl).2 hmem

theorem serves_fused : r.Serves (r.fused query args) := by
  have hlists : ∀ rl ∈ r.lists query args, r.Serves rl := fun _ => serves_of_mem_lists
  unfold fused
  split
  · exact ⟨List.nodup_nil, List.nil_subset _⟩
  · rename_i rl heq
    exact hlists rl (heq ▸ List.mem_singleton_self rl)
  · exact serves_rrf hlists 60

theorem exists_docById {rl : Ranking} (h : r.Serves rl) {e : Str × ℚ} (he : e ∈ rl) :
    ∃ d ∈ r.docs, r.docById e.1 = some d ∧ d.id = e.1 := by
  obtain ⟨d, hd, hid⟩ := List.mem_map.mp (h.2 (List.mem_map_of_mem he))
  have hsome : (r.docById e.1).isSome := List.find?_isSome.mpr ⟨d, hd, decide_eq_true hid⟩
  obtain ⟨d', hd'⟩ := Option.isSome_iff_exists.mp hsome
  exact ⟨d', List.mem_of_find?_eq_some hd', hd', of_decide_eq_true (List.find?_some hd' :)⟩

theorem exists_rerank {top : Ranking} (h : r.Serves top) (k : ℕ) :
    ∃ rl, r.rerank query k top = some rl ∧ r.Serves rl := by
  obtain ⟨pairs, hpairs⟩ := Lists.exists_mapM (l := top)
    (f := fun e => (r.docById e.1).map fun d => (query, d.text.take 512)) fun e he => by
      obtain ⟨d, -, hd, -⟩ := exists_docById h he
      exact ⟨_, by rw [hd]; rfl⟩
  refine ⟨_, by rw [rerank, hpairs]; rfl, ?_⟩
  have hzip : r.Serves ((ids top).zip (r.scorePairs pairs)) :=
    h.sublist (Lists.map_fst_zip_sublist _ _)
  have hperm := (List.perm_insertionSort (fun a b : Str × ℚ => b.2 ≤ a.2)
    ((ids top).zip (r.scorePairs pairs))).map Prod.fst
  refine Serves.take ⟨hperm.nodup_iff.mpr hzip.1, fun id hid => hzip.2 (hperm.mem_iff.mp hid)⟩ k

theorem exists_found {top : Ranking} (h : r.Serves top) :
    ∃ found, (top.mapM fun e => (r.docById e.1).map fun d => RetrievedDoc.mk d e.2) = some found ∧
      (∀ d ∈ found, d.doc ∈ r.docs) ∧ found.map RetrievedDoc.id = ids top := by
  have hall : List.Forall₂ (fun (e : Str × ℚ) id => ∃ d : RetrievedDoc,
      ((r.docById e.1).map fun d => RetrievedDoc.mk d e.2) = some d ∧ d.id = id) top (ids top) := by
    refine List.forall₂_map_right_iff.mpr (List.forall₂_same.mpr fun e he => ?_)
    obtain ⟨d, -, hget, hid⟩ := exists_docById h he
    exact ⟨⟨d, e.2⟩, by rw [hget]; rfl, hid⟩
  obtain ⟨found, hfound, hids⟩ := Lists.exists_mapM_of_forall₂ hall
  refine ⟨found, hfound, fun d hd => ?_, ?_⟩
  · obtain ⟨e, -, hget⟩ := (Lists.of_mapM_eq_some hfound).2 d hd
    obtain ⟨doc, hdoc, rfl⟩ := Option.map_eq_some_iff.mp hget
    exact List.mem_of_find?_eq_some hdoc
  · exact List.forall₂_eq_eq_eq ▸ List.forall₂_map_left_iff.mpr hids

/-- A search never raises, and finds at most `k` different passages of the corpus. -/
theorem exists_search (r : HybridRetriever) (query : Str) (args : SearchArgs) :
    ∃ found, r.search query args = some found ∧ (∀ d ∈ found, d.doc ∈ r.docs) ∧
      (found.map RetrievedDoc.id).Nodup ∧ found.length ≤ args.k := by
  unfold search
  by_cases hlists : r.lists query args = []
  · rw [if_pos hlists]
    exact ⟨[], rfl, by simp, List.nodup_nil, Nat.zero_le _⟩
  · have hfused : r.Serves (r.fused query args) := serves_fused
    obtain ⟨top, htop, hserves⟩ : ∃ top, (if args.rerank then
        r.rerank query args.k ((r.fused query args).take (max args.recallK args.k))
      else some ((r.fused query args).take args.k)) = some top ∧ r.Serves top := by
      split_ifs
      · exact exists_rerank (hfused.take _) args.k
      · exact ⟨_, rfl, hfused.take _⟩
    obtain ⟨found, hfound, hdocs, hids⟩ := exists_found (hserves.take args.k)
    rw [if_neg hlists, htop]
    refine ⟨found, hfound, hdocs, hids ▸ (hserves.take args.k).1, ?_⟩
    have hlen := congrArg List.length hids
    simp only [ids, List.length_map] at hlen
    exact hlen.le.trans (List.length_take_le _ _)

def toRetriever (r : HybridRetriever) : Retriever where
  corpus := r.docs
  search query args := (r.search query args).getD []
  unique_ids := r.unique_ids
  from_corpus query args := by
    obtain ⟨found, hfound, hdocs, -⟩ := r.exists_search query args
    rw [hfound]
    exact hdocs
  distinct query args := by
    obtain ⟨found, hfound, -, hnodup, -⟩ := r.exists_search query args
    rw [hfound]
    exact hnodup
  length_le query args := by
    obtain ⟨found, hfound, -, -, hlen⟩ := r.exists_search query args
    rw [hfound]
    exact hlen

end HybridRetriever

end Search

end K8sLearn.Rag
