import Mathlib.Data.Int.ConditionallyCompleteOrder
import Mathlib.Order.Interval.Set.Basic
import K8sLearn.Lib.Lists
import K8sLearn.Papers.Search

/-! # The bounds on the year

Merging keeps the year of the winner, and ranking keeps papers as they are, so the year of a
hit is the year of a paper of some source. Only OpenAlex is told the bounds: the hits respect
them exactly when all years known to the store, to Crossref and to arXiv do. The cache adds
nothing, for the text of its key ends in the bounds.
-/

namespace K8sLearn.Papers

def YearIn (years : Set ℤ) (p : Paper) : Prop := ∀ y, p.year = some y → y ∈ years

structure KnownYears where
  store : Set ℤ
  crossref : Set ℤ
  arxiv : Set ℤ

/-- OpenAlex honours the bounds it is given, and the other sources know only these years. -/
structure World.Meets (w : World) (known : KnownYears) : Prop where
  store : ∀ p ∈ w.store, YearIn known.store p
  openalex : ∀ query topK lo hi papers, w.openalex query topK (some lo) (some hi) = some papers →
    ∀ p ∈ papers, YearIn (Set.Icc lo hi) p
  crossref : ∀ query topK papers, w.crossref query topK = some papers →
    ∀ p ∈ papers, YearIn known.crossref p
  arxiv : ∀ query topK papers, w.arxiv query topK = some papers →
    ∀ p ∈ papers, YearIn known.arxiv p

section Merge

variable {u : Unicode} {years : Set ℤ}

theorem YearIn.merge {p q : Paper} (hp : YearIn years p) (hq : YearIn years q) :
    YearIn years (merge p q) := by
  obtain ⟨w, hw, -, -, hy⟩ := merge_cases p q
  intro y h
  rw [hy] at h
  rcases hw with ⟨rfl, -⟩ | ⟨rfl, -⟩
  · exact hp y h
  · exact hq y h

theorem yearIn_collect {key : Paper → Option Str} {papers : List Paper}
    (h : ∀ p ∈ papers, YearIn years p) :
    ∀ p ∈ (collect key merge papers).map Prod.snd, YearIn years p := by
  intro p hp
  obtain ⟨e, he, rfl⟩ := List.mem_map.mp hp
  exact collect_forall (P := fun _ v => YearIn years v) (fun a ha _ _ => h a ha)
    (fun _ _ _ hv ha => hv.merge ha) e he

theorem yearIn_dedupe {papers : List Paper} (h : ∀ p ∈ papers, YearIn years p) :
    ∀ p ∈ dedupe u papers, YearIn years p :=
  yearIn_collect (yearIn_collect h)

end Merge

section Ranking

variable {rt : Runtime}

theorem mem_sortDescending {α β : Type*} [LinearOrder β] {key : α → β} {l : List α} {a : α} :
    a ∈ sortDescending key l ↔ a ∈ l :=
  (List.perm_insertionSort _ l).mem_iff

theorem mem_of_mem_searchLocal {query : Str} {papers : List Paper} {topK : ℕ}
    {item : Paper × ℚ} (h : item ∈ searchLocal rt query papers topK) : item.1 ∈ papers := by
  obtain ⟨ranked, hr, rfl⟩ := List.mem_map.mp h
  have hr := mem_sortDescending.mp (List.mem_of_mem_take (List.mem_of_mem_filter hr))
  obtain ⟨p, hp, rfl⟩ := List.mem_map.mp hr
  exact hp

theorem mem_of_mem_listLocalPapers {store : List Paper} {p : Paper}
    (h : p ∈ listLocalPapers store) : p ∈ store :=
  mem_sortDescending.mp (List.mem_of_mem_take h)

theorem mem_of_mem_rank {variants : List Str} {topK : ℕ} {papers : List Paper}
    {payload : List Hit} (h : rank rt variants topK papers = some payload) {hit : Hit}
    (hh : hit ∈ payload) : hit.paper ∈ dedupe rt.toUnicode papers := by
  obtain ⟨scored, hscored, rfl⟩ := Option.map_eq_some_iff.mp h
  obtain ⟨item, hitem, rfl⟩ := List.mem_map.mp hh
  have hmem := mem_sortDescending.mp (List.mem_of_mem_take (List.mem_of_mem_filter hitem))
  obtain ⟨p, hp, hps⟩ :=
    (Lists.exists_mem_of_forall₂ (Lists.forall₂_of_mapM hscored)).1 item hmem
  obtain ⟨s, -, rfl⟩ := Option.map_eq_some_iff.mp hps
  exact List.mem_of_mem_filter hp

end Ranking

section Sources

variable {rt : Runtime} {known : KnownYears} {lo hi : ℤ} {w : World} {r : Request}

def Request.Asks (r : Request) (lo hi : ℤ) : Prop := r.yearFrom = some lo ∧ r.yearTo = some hi

def KnownYears.Within (known : KnownYears) (lo hi : ℤ) : Prop :=
  known.store ⊆ Set.Icc lo hi ∧ known.crossref ⊆ Set.Icc lo hi ∧ known.arxiv ⊆ Set.Icc lo hi

theorem yearIn_remotePapers (hw : w.Meets known) (hk : known.Within lo hi) (hr : r.Asks lo hi)
    {variant : Str} : ∀ p ∈ remotePapers w r variant, YearIn (Set.Icc lo hi) p := by
  intro p hp
  obtain ⟨result, hresult, hp⟩ := List.mem_flatMap.mp hp
  cases result with
  | none => exact absurd hp List.not_mem_nil
  | some papers =>
    rw [hr.1, hr.2] at hresult
    rcases List.mem_cons.mp hresult with h | h
    · exact hw.openalex _ _ _ _ papers h.symm p hp
    · split_ifs at h with hwords
      · simp only [List.mem_cons, List.not_mem_nil, or_false] at h
        rcases h with h | h
        · exact fun y hy => hk.2.1 (hw.crossref _ _ papers h.symm p hp y hy)
        · exact fun y hy => hk.2.2 (hw.arxiv _ _ papers h.symm p hp y hy)
      · exact absurd h List.not_mem_nil

theorem yearIn_gather (hw : w.Meets known) (hk : known.Within lo hi) (hr : r.Asks lo hi)
    {variants : List Str} : ∀ p ∈ gather rt w r variants, YearIn (Set.Icc lo hi) p := by
  have hlocal : ∀ p ∈ variants.flatMap fun variant =>
      (searchLocal rt variant (listLocalPapers w.store) (r.topK * 2)).map Prod.fst,
      YearIn (Set.Icc lo hi) p := by
    intro p hp
    obtain ⟨variant, -, hp⟩ := List.mem_flatMap.mp hp
    obtain ⟨item, hitem, rfl⟩ := List.mem_map.mp hp
    have hstore := mem_of_mem_listLocalPapers (mem_of_mem_searchLocal hitem)
    exact fun y hy => hk.1 (hw.store _ hstore y hy)
  unfold gather
  split_ifs with honline
  · refine yearIn_dedupe fun p hp => ?_
    rcases List.mem_append.mp hp with hp | hp
    · exact hlocal p hp
    · obtain ⟨variant, -, hp⟩ := List.mem_flatMap.mp hp
      exact yearIn_remotePapers hw hk hr p hp
  · exact hlocal

end Sources

section Cache

variable (rt : Runtime)

/-- The caches that calls leave behind, the calls with these bounds in worlds that know only these
years. An entry is lost when its time is over. -/
inductive Cached (known : KnownYears) (lo hi : ℤ) : (Str → Option (List Hit)) → Prop
  | empty : Cached known lo hi fun _ => none
  | search {w : World} {r : Request} {o : Outcome} : Cached known lo hi w.cached →
      (r.Asks lo hi → w.Meets known) → search rt w r = some o →
      Cached known lo hi
        (Function.update w.cached (cacheText r (prepareQuery rt r.query)) (some o.payload))
  | expire {cache : Str → Option (List Hit)} {text : Str} : Cached known lo hi cache →
      Cached known lo hi (Function.update cache text none)

variable {rt}

theorem yearText_injective : Function.Injective yearText := by
  have hnone : ∀ y : ℤ, yearText (some y) ≠ yearText none := by
    intro y h
    have hN : 'N' ∈ yearText (some y) := by
      rw [h]
      decide
    rcases Str.isDigit_or_eq_of_mem_ofInt hN with h | h
    · exact absurd h (by decide)
    · exact absurd h (by decide)
  intro x y h
  cases x with
  | none =>
    cases y with
    | none => rfl
    | some y => exact absurd h.symm (hnone y)
  | some x =>
    cases y with
    | none => exact absurd h (hnone x)
    | some y => exact congrArg some (Str.ofInt_injective h)

theorem bar_notMem_yearText (x : Option ℤ) : '|' ∉ yearText x := by
  cases x with
  | none => decide
  | some y =>
    intro h
    rcases Str.isDigit_or_eq_of_mem_ofInt h with h | h
    · exact absurd h (by decide)
    · exact absurd h (by decide)

theorem years_eq_of_cacheText_eq {r r' : Request} {q q' : Str}
    (h : cacheText r q = cacheText r' q') : r.yearFrom = r'.yearFrom ∧ r.yearTo = r'.yearTo := by
  have htext : ∀ (r : Request) (q : Str), cacheText r q =
      (((r.query ++ '|' :: (q ++ '|' :: Str.ofInt r.topK)) ++ '|' :: yearText r.yearFrom) ++
        '|' :: yearText r.yearTo) ++ '|' :: (if r.online then "True" else "False").toList := by
    intro r q
    simp [cacheText, Str.join]
  have honline : ∀ b : Bool, '|' ∉ (if b then "True" else "False").toList := by decide
  rw [htext, htext] at h
  obtain ⟨h, -⟩ := Str.append_cons_inj (honline _) (honline _) h
  obtain ⟨h, hto⟩ := Str.append_cons_inj (bar_notMem_yearText _) (bar_notMem_yearText _) h
  obtain ⟨-, hfrom⟩ := Str.append_cons_inj (bar_notMem_yearText _) (bar_notMem_yearText _) h
  exact ⟨yearText_injective hfrom, yearText_injective hto⟩

theorem yearIn_search {known : KnownYears} {lo hi : ℤ} {w : World} {r : Request} {o : Outcome}
    (hw : w.Meets known) (hk : known.Within lo hi) (hr : r.Asks lo hi)
    (hcache : ∀ payload, w.cached (cacheText r (prepareQuery rt r.query)) = some payload →
      ∀ hit ∈ payload, YearIn (Set.Icc lo hi) hit.paper)
    (ho : search rt w r = some o) : ∀ hit ∈ o.payload, YearIn (Set.Icc lo hi) hit.paper := by
  intro hit hhit
  simp only [search] at ho
  split at ho
  case h_1 payload hpayload =>
    obtain rfl := Option.some.inj ho
    exact hcache payload hpayload hit hhit
  case h_2 =>
    obtain ⟨payload, hpayload, rfl⟩ := Option.map_eq_some_iff.mp ho
    exact yearIn_dedupe (yearIn_gather hw hk hr) _ (mem_of_mem_rank hpayload hhit)

theorem Cached.yearIn {known : KnownYears} {lo hi : ℤ} (hk : known.Within lo hi)
    {cache : Str → Option (List Hit)} (h : Cached rt known lo hi cache) :
    ∀ (r : Request) (q : Str), r.Asks lo hi → ∀ payload, cache (cacheText r q) = some payload →
      ∀ hit ∈ payload, YearIn (Set.Icc lo hi) hit.paper := by
  induction h with
  | empty =>
    intro r q _ payload h
    exact absurd h (by simp)
  | @search w r o _ hmeets ho ih =>
    intro r' q' hr' payload hp hit hhit
    by_cases htext : cacheText r' q' = cacheText r (prepareQuery rt r.query)
    · rw [htext, Function.update_self] at hp
      obtain rfl := Option.some.inj hp
      obtain ⟨hfrom, hto⟩ := years_eq_of_cacheText_eq htext
      have hr : r.Asks lo hi := ⟨hfrom ▸ hr'.1, hto ▸ hr'.2⟩
      exact yearIn_search (hmeets hr) hk hr (ih r _ hr) ho hit hhit
    · rw [Function.update_of_ne htext] at hp
      exact ih r' q' hr' payload hp hit hhit
  | @expire cache text _ ih =>
    intro r q hr payload hp
    by_cases htext : cacheText r q = text
    · rw [htext, Function.update_self] at hp
      exact absurd hp (by simp)
    · rw [Function.update_of_ne htext] at hp
      exact ih r q hr payload hp

end Cache

section Unfiltered

variable (rt : Runtime)

def topic : Str := "deep learning".toList

def onTopic (source : Str) (y : ℤ) : Paper :=
  { source := source
    sourceId := []
    doi := none
    title := topic
    abstract := topic
    year := some y
    journal := none
    authors := []
    institutions := []
    concepts := []
    citedByCount := 0
    isOa := false
    landingPageUrl := none
    pdfUrl := none }

variable {rt} {source : Str} {y : ℤ}

theorem normalize_of_plain {s : Str} (hs : s.all fun c => isPlain c || c = ' ')
    (ha : Str.isAscii s = true) : normalize rt.toUnicode s =
      Str.join " ".toList (Str.splitSpaces
        (Str.replaceRuns (fun c => !isPlain c) " ".toList (replaceUrls s))) := by
  have hlower : rt.lower s = s := by
    refine rt.lower_plain s fun c hc => ?_
    simpa using List.all_eq_true.mp hs c hc
  rw [normalize, rt.nfkc_ascii s ha, hlower]

theorem normalize_topic : normalize rt.toUnicode topic = topic := by
  rw [normalize_of_plain (by decide) (by decide)]
  decide

theorem normalize_body : normalize rt.toUnicode (Str.join " ".toList [topic, topic,
    Str.join " ".toList [], Str.join " ".toList []]) = "deep learning deep learning".toList := by
  rw [normalize_of_plain (by decide) (by decide)]
  decide

theorem tokens_topic :
    tokens rt.toUnicode topic = ["deep".toList, "learning".toList] := by
  rw [tokens, normalize_topic]
  decide

theorem tokens_body : tokens rt.toUnicode "deep learning deep learning".toList =
    ["deep".toList, "learning".toList] := by
  rw [tokens, normalize_of_plain (by decide) (by decide)]
  decide

theorem threshold_le_score : threshold ≤ score rt topic (onTopic source y) := by
  have hratio := rt.ratio_nonneg topic topic
  have hoverlap : overlapOf ["deep".toList, "learning".toList]
      ["deep".toList, "learning".toList] = 1 := by
    norm_num [overlapOf]
  have hphrase : topic ≠ [] ∧ topic <:+: topic := by decide
  have hordered : 0 ≤ orderedTitleMatch rt.toUnicode topic topic := by
    unfold orderedTitleMatch
    dsimp only
    split_ifs
    · exact le_rfl
    · split
      · positivity
      · exact le_rfl
  simp only [score, onTopic, normalize_topic, normalize_body, tokens_topic, tokens_body, hoverlap,
    if_pos hphrase]
  rw [if_neg (by decide), if_pos hphrase.1, threshold, le_min_iff]
  refine ⟨by norm_num, ?_⟩
  split_ifs <;> linarith

theorem dedupe_onTopic :
    dedupe rt.toUnicode [onTopic source y] = [onTopic source y] := by
  have htitle : titleKey rt.toUnicode (onTopic source y) = some topic :=
    titleKey_eq_some_iff.mpr ⟨by decide, normalize_topic⟩
  have hdoi : doiKey rt.toUnicode (onTopic source y) = some topic :=
    doiKey_eq_some_iff.mpr ⟨by decide, Or.inr ⟨rfl, normalize_topic⟩⟩
  simp [dedupe, collect, collectStep, htitle, hdoi, upsert]

theorem isQualityCandidate_onTopic : isQualityCandidate rt (onTopic source y) = true := by
  have hlower : rt.lower (Str.strip topic) = topic := rt.lower_plain _ (by decide)
  have hdoi : rt.lower [] = [] := rt.lower_plain [] (by simp)
  have habstract : topic.isEmpty = false := by decide
  simp only [isQualityCandidate, onTopic, hlower, Option.getD_none, hdoi, habstract]
  rw [if_neg (by decide), if_neg (by decide), if_neg (by simp), if_neg (by simp)]

theorem prepareQuery_topic : prepareQuery rt topic = topic := by
  have htext : Str.strip (Str.collapseSpaces (Str.replaceAll ["相关论文".toList, "论文".toList,
      "文献".toList, "相关".toList, "检索".toList, "搜索".toList, "查找".toList, "请找".toList,
      "请搜索".toList, "有关".toList, "关于".toList] " ".toList (Str.strip topic))) = topic := by
    decide
  have hwords : (asciiWords topic).map rt.lower = ["deep".toList, "learning".toList] := by
    have h : asciiWords topic = ["deep".toList, "learning".toList] := by decide
    rw [h, List.map_cons, List.map_cons, List.map_nil, rt.lower_plain _ (by decide),
      rt.lower_plain _ (by decide)]
  have haliases : ∀ specific : Bool, ((aliases specific).filter fun entry =>
      ["deep".toList, "learning".toList].contains entry.1).map Prod.snd = [] := by
    decide
  simp only [prepareQuery, htext, hwords, haliases, if_true]

theorem rank_onTopic (rt : Runtime) (source : Str) (y : ℤ) : ∃ hit : Hit, hit.paper = onTopic source y ∧
    rank rt [topic] 1 [onTopic source y] = some [hit] := by
  refine ⟨⟨onTopic source y, roundScore (score rt topic (onTopic source y))⟩, rfl, ?_⟩
  simp [rank, dedupe_onTopic, isQualityCandidate_onTopic, bestScore, sortDescending,
    threshold_le_score]

def topicRequest (lo hi : ℤ) (online : Bool) : Request := ⟨topic, 1, some lo, some hi, online⟩

/-- A world with one list of papers for each source without a filter, and no cache. -/
def topicWorld (store crossref arxiv : List Paper) : World where
  store := store
  cached _ := none
  openalex _ _ _ _ := none
  crossref _ _ := some crossref
  arxiv _ _ := some arxiv

theorem search_topic {w : World} {lo hi : ℤ} {online : Bool} (hw : ∀ text, w.cached text = none)
    (hg : gather rt w (topicRequest lo hi online) [topic] = [onTopic source y]) :
    ∃ o, search rt w (topicRequest lo hi online) = some o ∧
      ∃ hit ∈ o.payload, hit.paper.year = some y := by
  obtain ⟨hit, hpaper, hrank⟩ := rank_onTopic rt source y
  have hvariants : queryVariants topic topic = [topic] := by decide
  refine ⟨⟨[hit], false, if online then [onTopic source y] else []⟩, ?_, hit,
    List.mem_singleton_self hit, by rw [hpaper]; rfl⟩
  simp only [topicRequest] at hg ⊢
  simp only [search, hw, prepareQuery_topic, hvariants, hg, hrank, Option.map_some]

theorem gather_store {lo hi : ℤ} : gather rt (topicWorld [onTopic source y] [] [])
    (topicRequest lo hi false) [topic] = [onTopic source y] := by
  simp [gather, topicRequest, topicWorld, listLocalPapers, searchLocal, sortDescending,
    threshold_le_score]

theorem gather_remote {crossref arxiv : List Paper} {lo hi : ℤ}
    (h : crossref ++ arxiv = [onTopic source y]) :
    gather rt (topicWorld [] crossref arxiv) (topicRequest lo hi true) [topic] =
      [onTopic source y] := by
  have hwords : (asciiWords topic).length = 2 := by decide
  simp [gather, topicRequest, topicWorld, listLocalPapers, searchLocal, sortDescending,
    remotePapers, hwords, h, dedupe_onTopic]

theorem topicWorld_meets {store crossref arxiv : List Paper} {known : KnownYears}
    (hs : ∀ p ∈ store, YearIn known.store p) (hc : ∀ p ∈ crossref, YearIn known.crossref p)
    (ha : ∀ p ∈ arxiv, YearIn known.arxiv p) : (topicWorld store crossref arxiv).Meets known := by
  refine ⟨hs, ?_, ?_, ?_⟩
  · intro _ _ _ _ _ h
    exact absurd h (by simp [topicWorld])
  · rintro _ _ _ ⟨⟩
    exact hc
  · rintro _ _ _ ⟨⟩
    exact ha

theorem yearIn_singleton {years : Set ℤ} (hy : y ∈ years) :
    ∀ p ∈ [onTopic source y], YearIn years p := by
  rintro p hp z hz
  obtain rfl := List.mem_singleton.mp hp
  obtain rfl := Option.some.inj hz
  exact hy

end Unfiltered

/-- The hits of every call with these bounds respect them, after any earlier calls, exactly when
all years known to the store, to Crossref and to arXiv are within the bounds. -/
theorem search_respects_years_iff (rt : Runtime) (known : KnownYears) (lo hi : ℤ) :
    (∀ (w : World) (r : Request) (o : Outcome), Cached rt known lo hi w.cached →
      w.Meets known → r.Asks lo hi → search rt w r = some o →
      ∀ hit ∈ o.payload, YearIn (Set.Icc lo hi) hit.paper) ↔ known.Within lo hi := by
  constructor
  · intro h
    have hsource : ∀ (w : World) (online : Bool) (source : Str) (y : ℤ),
        w.cached = (fun _ => none) → w.Meets known →
        gather rt w (topicRequest lo hi online) [topic] = [onTopic source y] →
        y ∈ Set.Icc lo hi := by
      intro w online source y hcached hw hg
      obtain ⟨o, ho, hit, hhit, hyear⟩ := search_topic (fun text => congrFun hcached text) hg
      exact h w _ o (hcached ▸ .empty) hw ⟨rfl, rfl⟩ ho hit hhit y hyear
    refine ⟨fun y hy => ?_, fun y hy => ?_, fun y hy => ?_⟩
    · exact hsource (topicWorld [onTopic [] y] [] []) false [] y rfl
        (topicWorld_meets (yearIn_singleton hy) (by simp) (by simp)) gather_store
    · exact hsource (topicWorld [] [onTopic "crossref".toList y] []) true _ y rfl
        (topicWorld_meets (by simp) (yearIn_singleton hy) (by simp)) (gather_remote rfl)
    · exact hsource (topicWorld [] [] [onTopic "arxiv".toList y]) true _ y rfl
        (topicWorld_meets (by simp) (by simp) (yearIn_singleton hy)) (gather_remote rfl)
  · intro hk w r o hcached hw hr ho
    exact yearIn_search hw hk hr (hcached.yearIn hk r _ hr) ho

/-- The tables on ASCII, with a matcher that only knows equality. -/
def asciiRuntime : Runtime where
  toUnicode := asciiTables
  nfkc_ascii _ _ := rfl
  isWord c := c.isAlphanum || c = '_'
  ratio a b := if a = b then 1 else 0
  ratio_nonneg a b := by
    split_ifs <;> norm_num

/-- A stored paper of 1990 is a hit for the years 2020 to 2024. -/
theorem search_returns_1990 :
    ∃ o, search asciiRuntime (topicWorld [onTopic [] 1990] [] []) (topicRequest 2020 2024 false) =
      some o ∧ ∃ hit ∈ o.payload, ¬ YearIn (Set.Icc 2020 2024) hit.paper := by
  have hg : gather asciiRuntime (topicWorld [onTopic [] 1990] [] []) (topicRequest 2020 2024 false)
      [topic] = [onTopic [] 1990] := gather_store
  obtain ⟨o, ho, hit, hhit, hyear⟩ := search_topic (fun _ => rfl) hg
  exact ⟨o, ho, hit, hhit, fun h => absurd (h 1990 hyear).1 (by norm_num)⟩

end K8sLearn.Papers
