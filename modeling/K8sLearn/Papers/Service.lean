import K8sLearn.Lib.Interleaving
import K8sLearn.Lib.Spaces
import K8sLearn.Papers.YearFilter

/-! # Searches that share a cache and a store

Searches wait for their providers while others begin and end. Each looks for its payload in the
cache first, under a key made of all its arguments, and a search that misses saves what it found and
caches its payload for 900 seconds. So a hit is the payload of the last search with the same
arguments, and what a payload shows has its row in the store.
-/

namespace K8sLearn.Papers.Searching

open Interleaving Rounding

deriving instance DecidableEq for Request

def ttl : ℚ := 900

/-- What a search returns, when, and whether it came from the cache. -/
structure Returned where
  request : Request
  payload : List Hit
  cacheHit : Bool
  time : ℚ

/-- The rows of the papers, the memory of the cache with the times at which its items end, the
searches that wait for their providers with the papers that they read before, and what searches have
returned. -/
structure Service where
  rows : List (Str × Paper)
  memory : List (Str × ℚ × List Hit)
  waiting : List (Request × List Paper)
  returned : List Returned

/-- A search begins, or its providers have answered it; the store and the cache of the world are not
looked at. -/
inductive Action
  | search (now : ℚ) (r : Request)
  | answer (place : ℕ) (now : ℚ) (w : World)

section Search

variable (rt : Runtime) (digest : Str → Str)

/-- `save_papers`: the rows and the number of new ones. A new paper is no row before the commit, so
that the second one with its id makes the commit fail. -/
def savePapers (rows : List (Str × Paper)) (papers : List Paper) :
    Option (List (Str × Paper) × ℕ) :=
  let new := (papers.map Paper.sourceId).filter fun id => id ∉ rows.map Prod.fst
  if new.Nodup then
    some (papers.foldl (fun rows p => upsert (fun _ p => p) p.sourceId p rows) rows, new.length)
  else none

def keyText (r : Request) : Str := cacheText r (prepareQuery rt r.query)

def cacheKey (r : Request) : Str := "kp:search:".toList ++ digest (keyText rt r)

def cacheGet (memory : List (Str × ℚ × List Hit)) (now : ℚ) (key : Str) : Option (List Hit) :=
  ((memory.lookup key).filter fun item => now < item.1).map Prod.snd

def cacheSet (memory : List (Str × ℚ × List Hit)) (now : ℚ) (key : Str) (payload : List Hit) :
    List (Str × ℚ × List Hit) :=
  upsert (fun _ item => item) key (now + ttl, payload) memory

def variantsOf (r : Request) : List Str := queryVariants r.query (prepareQuery rt r.query)

/-- The papers that a search finds among the rows that it has read and at its providers. -/
def found (r : Request) (localPapers : List Paper) (w : World) : List Paper :=
  gather rt { w with store := localPapers } r (variantsOf rt r)

/-- The end of a search that missed; it may raise before or after it has saved the papers. -/
def finish (s : Service) (now : ℚ) (r : Request) (localPapers : List Paper) (w : World) : Service :=
  let papers := found rt r localPapers w
  match if r.online then (savePapers s.rows papers).map Prod.fst else some s.rows with
  | none => s
  | some rows =>
    match rank rt (variantsOf rt r) r.topK papers with
    | none => { s with rows := rows }
    | some payload =>
      { s with
        rows := rows
        memory := cacheSet s.memory now (cacheKey rt digest r) payload
        returned := s.returned ++ [⟨r, payload, false, now⟩] }

def silent : World := ⟨[], fun _ => none, fun _ _ _ _ => none, fun _ _ => none, fun _ _ => none⟩

/-- The beginning of a search; it ends at once if it hits or asks no provider. -/
def begin (s : Service) (now : ℚ) (r : Request) : Service :=
  match cacheGet s.memory now (cacheKey rt digest r) with
  | some payload => { s with returned := s.returned ++ [⟨r, payload, true, now⟩] }
  | none =>
    if r.online then { s with waiting := s.waiting ++ [(r, s.rows.map Prod.snd)] }
    else finish rt digest s now r (s.rows.map Prod.snd) silent

def advance (s : Service) : Action → Option Service
  | .search now r => some (begin rt digest s now r)
  | .answer place now w =>
    match s.waiting[place]? with
    | none => none
    | some (r, localPapers) =>
      some (finish rt digest { s with waiting := s.waiting.eraseIdx place } now r localPapers w)

end Search

section Key

variable {rt : Runtime}

theorem count_prepareQuery (query : Str) : (prepareQuery rt query).count '|' = query.count '|' := by
  have hspace : Str.isSpace '|' = false := by decide
  have haliases : ∀ specific, ∀ entry ∈ aliases specific, entry.2.count '|' = 0 := by decide
  unfold prepareQuery
  extract_lets replaced text queryTokens additions
  have htext : text.count '|' = query.count '|' := by
    rw [Str.count_strip hspace, Str.count_collapseSpaces hspace,
      Str.count_replaceAll (by decide) (by decide), Str.count_strip hspace]
  have hadditions : (additions.map (List.count '|')).sum = 0 := by
    refine List.sum_eq_zero fun n hn => ?_
    obtain ⟨addition, haddition, rfl⟩ := List.mem_map.mp hn
    obtain ⟨entry, hentry, rfl⟩ := List.mem_map.mp haddition
    exact haliases _ entry (List.mem_of_mem_filter hentry)
  split_ifs
  · exact htext
  · rw [Str.count_strip hspace, Str.count_join (by decide), List.map_cons, List.sum_cons,
      hadditions, Nat.add_zero, htext]

/-- The text of its key determines a search. The fields at its end have no bars, and the query has
half of the bars before them. -/
theorem keyText_injective : Function.Injective (keyText rt) := by
  intro r r' h
  have htext : ∀ (r : Request) (q : Str), cacheText r q =
      ((((r.query ++ '|' :: q) ++ '|' :: Str.ofInt r.topK) ++ '|' :: yearText r.yearFrom) ++
        '|' :: yearText r.yearTo) ++ '|' :: (if r.online then "True" else "False").toList := by
    intro r q
    simp [cacheText, Str.join]
  have hbar : ∀ b : Bool, '|' ∉ (if b then "True" else "False").toList := by decide
  have hint : ∀ n : ℤ, '|' ∉ Str.ofInt n := by
    intro n hn
    rcases Str.isDigit_or_eq_of_mem_ofInt hn with h | h <;> exact absurd h (by decide)
  have honline : ∀ b b' : Bool, (if b then "True" else "False").toList =
      (if b' then "True" else "False").toList → b = b' := by decide
  rw [keyText, keyText, htext, htext] at h
  obtain ⟨h, hb⟩ := Str.append_cons_inj (hbar _) (hbar _) h
  obtain ⟨h, hto⟩ := Str.append_cons_inj (bar_notMem_yearText _) (bar_notMem_yearText _) h
  obtain ⟨h, hfrom⟩ := Str.append_cons_inj (bar_notMem_yearText _) (bar_notMem_yearText _) h
  obtain ⟨h, hk⟩ := Str.append_cons_inj (hint _) (hint _) h
  have hcount : r.query.count '|' = r'.query.count '|' := by
    have hbars := congrArg (List.count '|') h
    simp only [List.count_append, List.count_cons_self, count_prepareQuery] at hbars
    omega
  have hquery : r.query = r'.query := Str.eq_of_count_eq hcount h
  cases r
  cases r'
  simp only [Request.mk.injEq]
  exact ⟨hquery, Nat.cast_injective (Str.ofInt_injective hk), yearText_injective hfrom,
    yearText_injective hto, honline _ _ hb⟩

end Key

section Payload

variable {rt : Runtime} {u : Unicode} {variants : List Str} {topK : ℕ} {papers : List Paper}
  {payload : List Hit}

theorem sourceId_merge (a b : Paper) :
    (merge a b).sourceId = a.sourceId ∨ (merge a b).sourceId = b.sourceId := by
  rcases preferred_cases a b with ⟨h, -⟩ | ⟨h, -⟩
  · exact Or.inl (by simp [merge, h])
  · exact Or.inr (by simp [merge, h])

theorem exists_sourceId_of_mem_dedupe {p : Paper} (hp : p ∈ dedupe u papers) :
    ∃ q ∈ papers, q.sourceId = p.sourceId := by
  have hcollect : ∀ (key : Paper → Option Str) (l : List Paper),
      ∀ p ∈ (collect key merge l).map Prod.snd, ∃ q ∈ l, q.sourceId = p.sourceId := by
    intro key l p hp
    obtain ⟨e, he, rfl⟩ := List.mem_map.mp hp
    refine collect_forall (P := fun _ v => ∃ q ∈ l, q.sourceId = v.sourceId)
      (fun a ha _ _ => ⟨a, ha, rfl⟩) (fun _ v a hv ha => ?_) e he
    rcases sourceId_merge v a with h | h <;> rwa [h]
  obtain ⟨q, hq, hid⟩ := hcollect _ _ p hp
  obtain ⟨q', hq', hid'⟩ := hcollect _ _ q hq
  exact ⟨q', hq', hid'.trans hid⟩

theorem pairwise_dedupe : (dedupe u papers).Pairwise fun p q =>
    titleKey u p ≠ titleKey u q ∧ doiKey u p ≠ doiKey u q := by
  set seen := (collect (doiKey u) merge papers).map Prod.snd with hseen
  have hfiled : ∀ e ∈ collect (titleKey u) merge seen,
      Filed (titleKey u) (seen.map Paper.identity) e.1 e.2 :=
    filed_collect _ (fun p q => titleKey_congr) fun p hp => List.mem_map_of_mem hp
  have hdoi : ∀ e ∈ collect (doiKey u) merge papers,
      Filed (doiKey u) (papers.map Paper.identity) e.1 e.2 :=
    filed_collect _ (fun p q => doiKey_congr) fun p hp => List.mem_map_of_mem hp
  -- equal keys of the first pass belong to one entry of it, and so to one title
  have hkeys : ∀ e ∈ collect (titleKey u) merge seen, ∀ e' ∈ collect (titleKey u) merge seen,
      doiKey u e.2 = doiKey u e'.2 → e.1 = e'.1 := by
    intro e he e' he' heq
    obtain ⟨htitle, hid⟩ := hfiled e he
    obtain ⟨htitle', hid'⟩ := hfiled e' he'
    obtain ⟨v, hv, hvid⟩ := List.mem_map.mp hid
    obtain ⟨v', hv', hvid'⟩ := List.mem_map.mp hid'
    obtain ⟨⟨k, v⟩, hk, rfl⟩ := List.mem_map.mp hv
    obtain ⟨⟨k', v'⟩, hk', rfl⟩ := List.mem_map.mp hv'
    have hkk : k = k' := by
      refine Option.some.inj ?_
      rw [← (hdoi _ hk).1, ← (hdoi _ hk').1, doiKey_congr hvid, doiKey_congr hvid', heq]
    subst hkk
    obtain rfl := eq_of_mem_collect hk hk'
    refine Option.some.inj ?_
    rw [← htitle, ← htitle', ← titleKey_congr hvid, ← titleKey_congr hvid']
  have hnodup := nodup_keys_collect (titleKey u) merge seen
  rw [dedupe, ← hseen, List.pairwise_map]
  refine (List.pairwise_map.mp hnodup).imp_of_mem fun {e e'} he he' hne => ⟨?_, ?_⟩
  · rw [(hfiled e he).1, (hfiled e' he').1]
    exact fun h => hne (Option.some.inj h)
  · exact fun h => hne (hkeys e he e' he' h)

/-- What a search shows: no more than were asked for, the best first, each of them a good match and
no two of them the same paper. -/
structure Presents (rt : Runtime) (topK : ℕ) (payload : List Hit) : Prop where
  length : payload.length ≤ topK
  quality : ∀ hit ∈ payload, isQualityCandidate rt hit.paper = true ∧ threshold ≤ hit.score
  sorted : payload.Pairwise fun a b => b.score ≤ a.score
  distinct : payload.Pairwise fun a b =>
    titleKey rt.toUnicode a.paper ≠ titleKey rt.toUnicode b.paper ∧
      doiKey rt.toUnicode a.paper ≠ doiKey rt.toUnicode b.paper

theorem roundScore_mono {x y : ℚ} (h : x ≤ y) : roundScore x ≤ roundScore y := by
  have hround : roundHalfEven (x * 10000) ≤ roundHalfEven (y * 10000) :=
    roundHalfEven_mono (mul_le_mul_of_nonneg_right h (by norm_num))
  rw [roundScore, roundScore]
  exact div_le_div_of_nonneg_right (by exact_mod_cast hround) (by norm_num)

theorem threshold_le_roundScore {x : ℚ} (h : threshold ≤ x) : threshold ≤ roundScore x := by
  have hfix : roundScore threshold = threshold := by
    have hint : threshold * 10000 = ((2800 : ℤ) : ℚ) := by norm_num [threshold]
    rw [roundScore, hint, roundHalfEven_intCast]
    norm_num [threshold]
  exact hfix.symm.le.trans (roundScore_mono h)

theorem map_fst_scored {candidates : List Paper} {scored : List (Paper × ℚ)}
    (h : (candidates.mapM fun paper => (bestScore rt variants paper).map fun s => (paper, s)) =
      some scored) : scored.map Prod.fst = candidates := by
  have hforall : List.Forall₂ (fun p (item : Paper × ℚ) => p = item.1) candidates scored :=
    (Lists.forall₂_of_mapM h).imp fun p item hitem => by
      obtain ⟨s, -, rfl⟩ := Option.map_eq_some_iff.mp hitem
      rfl
  have heq := List.forall₂_map_right_iff.mpr hforall
  rw [List.forall₂_eq_eq_eq] at heq
  exact heq.symm

theorem presents_rank (h : rank rt variants topK papers = some payload) :
    Presents rt topK payload := by
  obtain ⟨scored, hscored, rfl⟩ := Option.map_eq_some_iff.mp h
  have hfst := map_fst_scored hscored
  set key := fun item : Paper × ℚ =>
    toLex (item.2, toLex (sourcePriority item.1, item.1.citedByCount))
  have hsub : List.Sublist (((sortDescending key scored).take topK).filter fun item =>
      threshold ≤ item.2) (sortDescending key scored) :=
    List.filter_sublist.trans (List.take_sublist _ _)
  constructor
  · rw [List.length_map]
    exact (List.length_filter_le _ _).trans (List.length_take_le _ _)
  · rintro hit hhit
    obtain ⟨item, hitem, rfl⟩ := List.mem_map.mp hhit
    have hmem := mem_sortDescending.mp (hsub.subset hitem)
    have hcandidate : item.1 ∈ scored.map Prod.fst := List.mem_map_of_mem hmem
    rw [hfst] at hcandidate
    exact ⟨(List.mem_filter.mp hcandidate).2,
      threshold_le_roundScore (of_decide_eq_true (List.mem_filter.mp hitem).2)⟩
  · rw [List.pairwise_map]
    have hsorted : (sortDescending key scored).Pairwise fun a b => key b ≤ key a :=
      List.pairwise_insertionSort _ _
    refine (hsorted.sublist hsub).imp fun {a b} hab => roundScore_mono ?_
    rcases Prod.Lex.le_iff.mp hab with hlt | ⟨heq, -⟩
    · exact hlt.le
    · exact heq.le
  · rw [List.pairwise_map]
    have hdistinct : scored.Pairwise fun a b =>
        titleKey rt.toUnicode a.1 ≠ titleKey rt.toUnicode b.1 ∧
          doiKey rt.toUnicode a.1 ≠ doiKey rt.toUnicode b.1 := by
      rw [← List.pairwise_map (f := Prod.fst) (R := fun p q : Paper =>
        titleKey rt.toUnicode p ≠ titleKey rt.toUnicode q ∧
          doiKey rt.toUnicode p ≠ doiKey rt.toUnicode q), hfst]
      exact pairwise_dedupe.sublist List.filter_sublist
    have hperm : (sortDescending key scored).Perm scored := List.perm_insertionSort _ _
    exact ((hperm.pairwise_iff fun h => ⟨h.1.symm, h.2.symm⟩).mpr hdistinct).sublist hsub

end Payload

section Runs

variable {rt : Runtime} {digest : Str → Str} {s s' : Service} {A : Set Request} {a : Action}

def lastFresh (l : List Returned) (r : Request) : Option Returned :=
  (l.filter fun e => !e.cacheHit && e.request = r).getLast?

/-- The digest tells the keys of these searches apart. -/
def Collisionless (rt : Runtime) (digest : Str → Str) (A : Set Request) : Prop :=
  Set.InjOn (fun r => digest (keyText rt r)) A

/-- What holds of the cache and the results in every state of a run. -/
structure Caches (rt : Runtime) (digest : Str → Str) (A : Set Request) (s : Service) : Prop where
  waiting : ∀ e ∈ s.waiting, e.1 ∈ A
  memory : ∀ r ∈ A, s.memory.lookup (cacheKey rt digest r) =
    (lastFresh s.returned r).map fun e => (e.time + ttl, e.payload)
  fresh : ∀ e ∈ s.returned, e.cacheHit = false → Presents rt e.request.topK e.payload
  hits : ∀ before ret after, s.returned = before ++ ret :: after → ret.cacheHit = true →
    ∃ e, lastFresh before ret.request = some e ∧ ret.payload = e.payload ∧ ret.time < e.time + ttl

theorem cacheKey_injOn (h : Collisionless rt digest A) : Set.InjOn (cacheKey rt digest) A :=
  fun _ hr _ hr' heq => h hr hr' (List.append_cancel_left heq)

theorem lastFresh_concat {l : List Returned} {e : Returned} {r : Request} :
    lastFresh (l ++ [e]) r =
      if e.cacheHit = false ∧ e.request = r then some e else lastFresh l r := by
  rw [lastFresh, List.filter_append]
  split_ifs with h
  · rw [List.filter_cons_of_pos (by simp [h])]
    simp
  · rw [List.filter_cons_of_neg (by simpa using h), List.filter_nil, List.append_nil, lastFresh]

theorem mem_of_lastFresh {l : List Returned} {e : Returned} {r : Request}
    (h : lastFresh l r = some e) : e ∈ l ∧ e.cacheHit = false ∧ e.request = r := by
  obtain ⟨hmem, hfresh⟩ := List.mem_filter.mp (List.mem_of_getLast? h)
  simpa using And.intro hmem hfresh

/-- The rows that a search leaves: with the papers saved if it asked providers. -/
def Saves (rows : List (Str × Paper)) (r : Request) (papers : List Paper)
    (rows' : List (Str × Paper)) : Prop :=
  if r.online then ∃ n, savePapers rows papers = some (rows', n) else rows' = rows

/-- What the end of a search that missed can be: an exception before or after saving, or a payload
in the cache. -/
inductive Ends (rt : Runtime) (digest : Str → Str) (s : Service) (now : ℚ) (r : Request)
    (papers : List Paper) : Service → Prop
  | unsaved : Ends rt digest s now r papers s
  | unranked {rows} : Saves s.rows r papers rows →
      Ends rt digest s now r papers { s with rows := rows }
  | ranked {rows payload} : Saves s.rows r papers rows →
      rank rt (variantsOf rt r) r.topK papers = some payload →
      Ends rt digest s now r papers { s with
        rows := rows
        memory := cacheSet s.memory now (cacheKey rt digest r) payload
        returned := s.returned ++ [⟨r, payload, false, now⟩] }

theorem finish_ends (s : Service) (now : ℚ) (r : Request) (localPapers : List Paper) (w : World) :
    Ends rt digest s now r (found rt r localPapers w) (finish rt digest s now r localPapers w) := by
  have hrank : ∀ rows, Saves s.rows r (found rt r localPapers w) rows →
      (if r.online then (savePapers s.rows (found rt r localPapers w)).map Prod.fst
        else some s.rows) = some rows →
      Ends rt digest s now r (found rt r localPapers w)
        (finish rt digest s now r localPapers w) := by
    intro rows hrows heq
    unfold finish
    dsimp only
    rw [heq]
    cases hpayload : rank rt (variantsOf rt r) r.topK (found rt r localPapers w) with
    | none => exact .unranked hrows
    | some payload => exact .ranked hrows hpayload
  cases honline : r.online with
  | false => exact hrank s.rows (by simp [Saves, honline]) (by simp [honline])
  | true =>
    cases hsave : savePapers s.rows (found rt r localPapers w) with
    | none =>
      have hfinish : finish rt digest s now r localPapers w = s := by
        unfold finish
        dsimp only
        rw [honline, if_pos rfl, hsave]
        rfl
      rw [hfinish]
      exact .unsaved
    | some saved =>
      obtain ⟨rows, n⟩ := saved
      exact hrank rows (by simp [Saves, honline, hsave]) (by simp [honline, hsave])

theorem begin_cases (rt : Runtime) (digest : Str → Str) (s : Service) (now : ℚ) (r : Request) :
    (∃ item, s.memory.lookup (cacheKey rt digest r) = some item ∧ now < item.1 ∧
      begin rt digest s now r =
        { s with returned := s.returned ++ [⟨r, item.2, true, now⟩] }) ∨
    begin rt digest s now r = { s with waiting := s.waiting ++ [(r, s.rows.map Prod.snd)] } ∨
    (r.online = false ∧
      begin rt digest s now r = finish rt digest s now r (s.rows.map Prod.snd) silent) := by
  unfold begin
  cases hget : cacheGet s.memory now (cacheKey rt digest r) with
  | some payload =>
    obtain ⟨item, hitem, rfl⟩ := Option.map_eq_some_iff.mp hget
    obtain ⟨hlookup, hlt⟩ := Option.filter_eq_some_iff.mp hitem
    exact Or.inl ⟨item, hlookup, of_decide_eq_true hlt, rfl⟩
  | none =>
    cases honline : r.online with
    | true => exact Or.inr (Or.inl (by simp))
    | false => exact Or.inr (Or.inr ⟨rfl, by simp⟩)

theorem hits_concat {l : List Returned} {e : Returned}
    (h : ∀ before ret after, l = before ++ ret :: after → ret.cacheHit = true →
      ∃ e, lastFresh before ret.request = some e ∧ ret.payload = e.payload ∧
        ret.time < e.time + ttl)
    (he : e.cacheHit = true → ∃ e', lastFresh l e.request = some e' ∧ e.payload = e'.payload ∧
      e.time < e'.time + ttl) :
    ∀ before ret after, l ++ [e] = before ++ ret :: after → ret.cacheHit = true →
      ∃ e, lastFresh before ret.request = some e ∧ ret.payload = e.payload ∧
        ret.time < e.time + ttl := by
  intro before ret after heq hhit
  rcases List.eq_nil_or_concat after with rfl | ⟨after, e', rfl⟩
  · obtain ⟨rfl, htail⟩ := List.append_inj' heq rfl
    obtain rfl := (List.cons.inj htail).1
    exact he hhit
  · have hsplit : l ++ [e] = (before ++ ret :: after) ++ [e'] := by simpa using heq
    obtain ⟨hl, -⟩ := List.append_inj' hsplit rfl
    exact h before ret after hl hhit

theorem Caches.ended (hA : Collisionless rt digest A) (h : Caches rt digest A s) {now : ℚ}
    {r : Request} (hr : r ∈ A) {papers : List Paper} (hends : Ends rt digest s now r papers s') :
    Caches rt digest A s' := by
  cases hends with
  | unsaved => exact h
  | unranked => exact ⟨h.waiting, h.memory, h.fresh, h.hits⟩
  | @ranked rows payload _ hrank =>
    refine ⟨h.waiting, fun r' hr' => ?_, fun e he hfresh => ?_, ?_⟩
    · rw [lastFresh_concat, cacheSet, lookup_upsert]
      by_cases heq : r = r'
      · subst heq
        rw [if_pos rfl, if_pos ⟨rfl, rfl⟩]
        rfl
      · rw [if_neg fun hkey => heq (cacheKey_injOn hA hr hr' hkey.symm), if_neg fun h => heq h.2]
        exact h.memory r' hr'
    · rcases List.mem_append.mp he with he | he
      · exact h.fresh e he hfresh
      · rw [List.mem_singleton.mp he]
        exact presents_rank hrank
    · exact hits_concat h.hits fun hhit => by cases hhit

theorem Caches.advance (hA : Collisionless rt digest A) (h : Caches rt digest A s)
    (ha : ∀ now r, a = .search now r → r ∈ A) (hs : advance rt digest s a = some s') :
    Caches rt digest A s' := by
  cases a with
  | search now r =>
    obtain rfl := Option.some.inj hs
    have hr := ha now r rfl
    rcases begin_cases rt digest s now r with
      ⟨item, hlookup, hlt, heq⟩ | heq | ⟨-, heq⟩
    · rw [heq]
      rw [h.memory r hr] at hlookup
      obtain ⟨e, hlast, rfl⟩ := Option.map_eq_some_iff.mp hlookup
      refine ⟨h.waiting, fun r' hr' => ?_, fun e' he' hfresh => ?_, ?_⟩
      · rw [lastFresh_concat, if_neg (by simp)]
        exact h.memory r' hr'
      · rcases List.mem_append.mp he' with he' | he'
        · exact h.fresh e' he' hfresh
        · rw [List.mem_singleton.mp he'] at hfresh
          cases hfresh
      · exact hits_concat h.hits fun _ => ⟨e, hlast, rfl, hlt⟩
    · rw [heq]
      refine ⟨fun e he => ?_, h.memory, h.fresh, h.hits⟩
      rcases List.mem_append.mp he with he | he
      · exact h.waiting e he
      · rwa [List.mem_singleton.mp he]
    · rw [heq]
      exact h.ended hA hr (finish_ends s now r _ silent)
  | answer place now w =>
    rw [Searching.advance] at hs
    cases hplace : s.waiting[place]? with
    | none =>
      rw [hplace] at hs
      cases hs
    | some e =>
      rw [hplace] at hs
      obtain rfl := Option.some.inj hs
      have herase : Caches rt digest A { s with waiting := s.waiting.eraseIdx place } :=
        ⟨fun e he => h.waiting e (List.mem_of_mem_eraseIdx he), h.memory, h.fresh, h.hits⟩
      exact herase.ended hA (h.waiting e (List.mem_of_getElem? hplace))
        (finish_ends _ now e.1 e.2 w)

def asked (actions : List Action) : Set Request := {r | ∃ now, Action.search now r ∈ actions}

/-- Before the first search, with the rows of earlier runs. -/
def Service.start (rows : List (Str × Paper)) : Service := ⟨rows, [], [], []⟩

theorem caches_run {actions : List Action} {rows : List (Str × Paper)}
    (hA : Collisionless rt digest (asked actions))
    (h : run (Searching.advance rt digest) (.start rows) actions = some s) :
    Caches rt digest (asked actions) s := by
  have hinit : Caches rt digest (asked actions) (.start rows) := by
    constructor
    · exact List.forall_mem_nil _
    · exact fun _ _ => rfl
    · exact List.forall_mem_nil _
    · intro before ret after heq
      cases before <;> cases heq
  refine @history_run _ _ _ _ s actions
    (fun past s => past ⊆ actions → Caches rt digest (asked actions) s) (fun _ => hinit) ?_ h
    (List.Subset.refl _)
  rintro past s₁ a s₂ ih hs hsub
  obtain ⟨hpast, ha⟩ := List.append_subset.mp hsub
  refine (ih hpast).advance hA (fun now r heq => ⟨now, ?_⟩) hs
  exact heq ▸ ha (List.mem_singleton_self a)

/-- However searches interleave, one that hits returns the payload of the last search with the same
arguments that missed, less than 900 seconds after that one ended; and whatever a search returns is
what a search shows. -/
theorem search_run {actions : List Action} {rows : List (Str × Paper)}
    (hA : Collisionless rt digest (asked actions))
    (h : run (Searching.advance rt digest) (.start rows) actions = some s)
    {before after : List Returned} {ret : Returned} (hs : s.returned = before ++ ret :: after) :
    (ret.cacheHit = true → ∃ e, lastFresh before ret.request = some e ∧ ret.payload = e.payload ∧
      ret.time < e.time + ttl) ∧
    Presents rt ret.request.topK ret.payload := by
  have hcaches := caches_run hA h
  have hmem : ∀ e ∈ before ++ [ret], e ∈ s.returned := by
    intro e he
    rw [hs]
    simp only [List.mem_append, List.mem_cons, List.not_mem_nil, or_false] at he ⊢
    tauto
  refine ⟨hcaches.hits before ret after hs, ?_⟩
  cases hhit : ret.cacheHit with
  | false => exact hcaches.fresh ret (hmem ret (by simp)) hhit
  | true =>
    obtain ⟨e, he, hpayload, -⟩ := hcaches.hits before ret after hs hhit
    obtain ⟨hbefore, hfresh, hrequest⟩ := mem_of_lastFresh he
    rw [hpayload, ← hrequest]
    exact hcaches.fresh e (hmem e (List.mem_append_left _ hbefore)) hfresh

end Runs

section Rows

variable {rt : Runtime} {digest : Str → Str} {s s' : Service} {a : Action}

def ids (rows : List (Str × Paper)) : List Str := rows.map Prod.fst

def Keyed (rows : List (Str × Paper)) : Prop := ∀ e ∈ rows, e.2.sourceId = e.1

theorem foldl_save (rows : List (Str × Paper)) (papers : List Paper) :
    let rows' := papers.foldl (fun rows p => upsert (fun _ p => p) p.sourceId p rows) rows
    (Keyed rows → Keyed rows') ∧ ids rows ⊆ ids rows' ∧ ∀ p ∈ papers, p.sourceId ∈ ids rows' := by
  induction papers generalizing rows with
  | nil => exact ⟨fun h => h, List.Subset.refl _, List.forall_mem_nil _⟩
  | cons p papers ih =>
    obtain ⟨hkeyed, hsub, hmem⟩ := ih (upsert (fun _ p => p) p.sourceId p rows)
    have hstep : ids rows ⊆ ids (upsert (fun _ p => p) p.sourceId p rows) :=
      fun id hid => mem_keys_upsert.mpr (Or.inr hid)
    refine ⟨fun h => hkeyed fun e he => ?_, List.Subset.trans hstep hsub,
      List.forall_mem_cons.mpr ⟨?_, hmem⟩⟩
    · rcases mem_upsert he with he | rfl | ⟨_, _, rfl⟩
      · exact h e he
      · rfl
      · rfl
    · exact hsub (mem_keys_upsert.mpr (Or.inl rfl))

theorem Saves.rows {rows rows' : List (Str × Paper)} {r : Request} {papers : List Paper}
    (h : Saves rows r papers rows') : (Keyed rows → Keyed rows') ∧ ids rows ⊆ ids rows' ∧
      (r.online = true → ∀ p ∈ papers, p.sourceId ∈ ids rows') := by
  unfold Saves at h
  split_ifs at h with honline
  · obtain ⟨n, h⟩ := h
    rw [savePapers] at h
    split_ifs at h
    obtain ⟨rfl, -⟩ := Prod.mk.inj (Option.some.inj h)
    obtain ⟨hkeyed, hsub, hmem⟩ := foldl_save rows papers
    exact ⟨hkeyed, hsub, fun _ => hmem⟩
  · subst h
    exact ⟨fun h => h, List.Subset.refl _, fun h => absurd h honline⟩

/-- Without providers a search finds rows that it has read. -/
theorem mem_of_mem_found {r : Request} (honline : r.online = false) {localPapers : List Paper}
    {w : World} {p : Paper} (hp : p ∈ found rt r localPapers w) : p ∈ localPapers := by
  unfold found gather at hp
  simp only [honline, Bool.false_eq_true, if_false] at hp
  obtain ⟨variant, -, hp⟩ := List.mem_flatMap.mp hp
  obtain ⟨item, hitem, rfl⟩ := List.mem_map.mp hp
  exact mem_of_mem_listLocalPapers (mem_of_mem_searchLocal hitem)

def OnShelf (rows : List (Str × Paper)) (payload : List Hit) : Prop :=
  ∀ hit ∈ payload, hit.paper.sourceId ∈ ids rows

/-- The papers that searches have read, cached or returned have rows. -/
structure Shelved (s : Service) : Prop where
  keyed : Keyed s.rows
  waiting : ∀ e ∈ s.waiting, ∀ p ∈ e.2, p.sourceId ∈ ids s.rows
  memory : ∀ e ∈ s.memory, OnShelf s.rows e.2.2
  returned : ∀ e ∈ s.returned, OnShelf s.rows e.payload

theorem OnShelf.mono {rows rows' : List (Str × Paper)} {payload : List Hit}
    (hsub : ids rows ⊆ ids rows') (h : OnShelf rows payload) : OnShelf rows' payload :=
  fun hit hhit => hsub (h hit hhit)

theorem Shelved.with_rows {rows : List (Str × Paper)} (h : Shelved s) (hkeyed : Keyed rows)
    (hsub : ids s.rows ⊆ ids rows) : Shelved { s with rows := rows } where
  keyed := hkeyed
  waiting e he p hp := hsub (h.waiting e he p hp)
  memory e he := (h.memory e he).mono hsub
  returned e he := (h.returned e he).mono hsub

theorem Shelved.ended (h : Shelved s) {now : ℚ} {r : Request} {localPapers : List Paper} {w : World}
    (hlocal : ∀ p ∈ localPapers, p.sourceId ∈ ids s.rows) :
    Shelved (finish rt digest s now r localPapers w) := by
  have hends : Ends rt digest s now r _ (finish rt digest s now r localPapers w) :=
    finish_ends s now r localPapers w
  generalize finish rt digest s now r localPapers w = s' at hends
  cases hends with
  | unsaved => exact h
  | unranked hsaves =>
    obtain ⟨hkeyed, hsub, -⟩ := hsaves.rows
    exact h.with_rows (hkeyed h.keyed) hsub
  | @ranked rows payload hsaves hrank =>
    obtain ⟨hkeyed, hsub, honline⟩ := hsaves.rows
    have hshelf : OnShelf rows payload := by
      intro hit hhit
      obtain ⟨p, hp, hid⟩ := exists_sourceId_of_mem_dedupe (mem_of_mem_rank hrank hhit)
      rw [← hid]
      cases hr : r.online with
      | true => exact honline hr p hp
      | false => exact hsub (hlocal p (mem_of_mem_found hr hp))
    obtain ⟨hkeyed', hwaiting, hmemory, hreturned⟩ := h.with_rows (hkeyed h.keyed) hsub
    refine ⟨hkeyed', hwaiting, fun e he => ?_, fun e he => ?_⟩
    · rcases mem_upsert he with he | rfl | ⟨_, _, rfl⟩
      · exact hmemory e he
      · exact hshelf
      · exact hshelf
    · rcases List.mem_append.mp he with he | he
      · exact hreturned e he
      · rwa [List.mem_singleton.mp he]

theorem Shelved.advance (h : Shelved s) (hs : advance rt digest s a = some s') : Shelved s' := by
  have hrows : ∀ p ∈ s.rows.map Prod.snd, p.sourceId ∈ ids s.rows := by
    intro p hp
    obtain ⟨e, he, rfl⟩ := List.mem_map.mp hp
    rw [h.keyed e he]
    exact List.mem_map_of_mem he
  cases a with
  | search now r =>
    obtain rfl := Option.some.inj hs
    rcases begin_cases rt digest s now r with ⟨item, hlookup, -, heq⟩ | heq | ⟨-, heq⟩
    · rw [heq]
      refine ⟨h.keyed, h.waiting, h.memory, fun e he => ?_⟩
      rcases List.mem_append.mp he with he | he
      · exact h.returned e he
      · rw [List.mem_singleton.mp he]
        obtain ⟨l, l', hl, -⟩ := List.lookup_eq_some_iff.mp hlookup
        exact h.memory (cacheKey rt digest r, item) (by simp [hl])
    · rw [heq]
      refine ⟨h.keyed, fun e he => ?_, h.memory, h.returned⟩
      rcases List.mem_append.mp he with he | he
      · exact h.waiting e he
      · rwa [List.mem_singleton.mp he]
    · rw [heq]
      exact h.ended hrows
  | answer place now w =>
    rw [Searching.advance] at hs
    cases hplace : s.waiting[place]? with
    | none =>
      rw [hplace] at hs
      cases hs
    | some e =>
      rw [hplace] at hs
      obtain rfl := Option.some.inj hs
      have herase : Shelved { s with waiting := s.waiting.eraseIdx place } :=
        ⟨h.keyed, fun e he => h.waiting e (List.mem_of_mem_eraseIdx he), h.memory, h.returned⟩
      exact herase.ended (h.waiting e (List.mem_of_getElem? hplace))

/-- However searches interleave, every paper that one has ever returned, from the cache or not, has
a row in the store under its id, and keeps it. -/
theorem returned_shelved {actions : List Action} {rows : List (Str × Paper)} (hrows : Keyed rows)
    (h : run (Searching.advance rt digest) (.start rows) actions = some s) :
    ∀ ret ∈ s.returned, ∀ hit ∈ ret.payload, ∃ p,
      s.rows.lookup hit.paper.sourceId = some p ∧ p.sourceId = hit.paper.sourceId := by
  have hinit : Shelved (.start rows) :=
    ⟨hrows, List.forall_mem_nil _, List.forall_mem_nil _, List.forall_mem_nil _⟩
  have hshelved : Shelved s := @history_run _ _ _ _ s actions (fun _ s => Shelved s) hinit
    (fun h hs => h.advance hs) h
  intro ret hret hit hhit
  have hmem := hshelved.returned ret hret hit hhit
  cases hlookup : s.rows.lookup hit.paper.sourceId with
  | none =>
    obtain ⟨e, he, hid⟩ := List.mem_map.mp hmem
    have hall := List.lookup_eq_none_iff.mp hlookup e he
    rw [hid] at hall
    simp at hall
  | some p =>
    obtain ⟨l, l', hl, -⟩ := List.lookup_eq_some_iff.mp hlookup
    exact ⟨p, rfl, hshelved.keyed (hit.paper.sourceId, p) (by simp [hl])⟩

end Rows

section Example

/-- The rows and the search of an example: one stored paper, searched for without providers. -/
def shelf : List (Str × Paper) := [([], onTopic [] 1990)]

def searched (hit : Hit) : Service where
  rows := shelf
  memory :=
    [(cacheKey asciiRuntime (fun text => text) (topicRequest 2020 2024 false), 0 + ttl, [hit])]
  waiting := []
  returned := [⟨topicRequest 2020 2024 false, [hit], false, 0⟩]

theorem exists_searched : ∃ hit : Hit, hit.paper = onTopic [] 1990 ∧
    advance asciiRuntime (fun text => text) (.start shelf)
      (.search 0 (topicRequest 2020 2024 false)) = some (searched hit) := by
  obtain ⟨hit, hpaper, hrank⟩ := rank_onTopic asciiRuntime [] 1990
  have hvariants : variantsOf asciiRuntime (topicRequest 2020 2024 false) = [topic] := by
    rw [variantsOf, topicRequest, prepareQuery_topic]
    decide
  have hfound : found asciiRuntime (topicRequest 2020 2024 false) [onTopic [] 1990] silent =
      [onTopic [] 1990] := by
    rw [found, hvariants]
    exact gather_store
  refine ⟨hit, hpaper, ?_⟩
  have hfinish : finish asciiRuntime (fun text => text) (.start shelf) 0
      (topicRequest 2020 2024 false) [onTopic [] 1990] silent = searched hit := by
    unfold finish
    rw [hfound, hvariants]
    dsimp only
    rw [show (topicRequest 2020 2024 false).online = false from rfl, if_neg Bool.false_ne_true,
      show (topicRequest 2020 2024 false).topK = 1 from rfl, hrank]
    rfl
  exact congrArg some hfinish

theorem search_run_again : ∃ s hit, run (Searching.advance asciiRuntime fun text => text)
    (.start shelf) [.search 0 (topicRequest 2020 2024 false),
      .search 10 (topicRequest 2020 2024 false)] = some s ∧
    s.returned = [⟨topicRequest 2020 2024 false, [hit], false, 0⟩] ++
      ⟨topicRequest 2020 2024 false, [hit], true, 10⟩ :: [] ∧ Presents asciiRuntime 1 [hit] := by
  obtain ⟨hit, -, hstep⟩ := exists_searched
  have hget : cacheGet (searched hit).memory 10
      (cacheKey asciiRuntime (fun text => text) (topicRequest 2020 2024 false)) = some [hit] := by
    have hlt : (10 : ℚ) < ttl := by norm_num [ttl]
    simp [cacheGet, searched, hlt]
  have hrun : run (Searching.advance asciiRuntime fun text => text) (.start shelf)
      [.search 0 (topicRequest 2020 2024 false), .search 10 (topicRequest 2020 2024 false)] =
      some { searched hit with returned := [⟨topicRequest 2020 2024 false, [hit], false, 0⟩] ++
        [⟨topicRequest 2020 2024 false, [hit], true, 10⟩] } := by
    rw [run_cons, hstep, Option.bind_some, run_cons, Searching.advance, begin, hget]
    rfl
  have hdigest : Collisionless asciiRuntime (fun text => text) (asked
      [.search 0 (topicRequest 2020 2024 false), .search 10 (topicRequest 2020 2024 false)]) :=
    fun _ _ _ _ heq => keyText_injective heq
  exact ⟨_, hit, hrun, rfl, (search_run hdigest hrun rfl).2⟩

theorem returned_shelved_once : ∃ (s : Service) (hit : Hit),
    run (Searching.advance asciiRuntime fun text => text) (.start shelf)
      [.search 0 (topicRequest 2020 2024 false)] = some s ∧
    (∃ p, s.rows.lookup hit.paper.sourceId = some p ∧ p.sourceId = hit.paper.sourceId) ∧
      hit.paper = onTopic [] 1990 := by
  obtain ⟨hit, hpaper, hstep⟩ := exists_searched
  have hrun : run (Searching.advance asciiRuntime fun text => text) (.start shelf)
      [.search 0 (topicRequest 2020 2024 false)] = some (searched hit) := by
    rw [run_cons, hstep]
    rfl
  have hkeyed : Keyed shelf := by
    rintro e he
    rw [List.mem_singleton.mp he]
    rfl
  exact ⟨_, hit, hrun, returned_shelved hkeyed hrun _ (List.mem_singleton_self _) hit
    (List.mem_singleton_self _), hpaper⟩

end Example

end K8sLearn.Papers.Searching
