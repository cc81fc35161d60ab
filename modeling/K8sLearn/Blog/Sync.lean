import K8sLearn.Lib.Encoding
import K8sLearn.Lib.Lists

/-! # Refreshing the analysis document

`sync_analysis` carries the rows of the analysis over to the current catalog, and
`extract_feature_changes` those of the feature changes to the current facts. A row is found by its
id, takes what the extraction derives and keeps the rest. Doing it again changes nothing. The file
is emptied before its new text is encoded, so that a text without an encoding loses every row.
-/

namespace K8sLearn.Blog

open PyValue

abbrev Json := PyValue Empty

abbrev Obj := Items Empty

/-- `str(v)`, of which only the texts matter here. -/
structure StrOf where
  str : Json → Str
  str_str : ∀ s, str (.str s) = s

/-- What `classify_feature` returns. -/
inductive Category
  | mature
  | enhanced
  | new
deriving DecidableEq

inductive Kind
  | feature (category : Category) (subFeatures : Json)
  | risk

/-- An item of the catalog; its id begins with `release-blog:`. -/
structure Item where
  catalogId : Str
  catalogId_ne_nil : catalogId ≠ []
  version : Str
  name : Str
  source : Str
  kind : Kind

structure CatalogVersion where
  features : List Item
  risks : List Item

section Rows

def rowsOf (key : Str) (analysis : Json) : Option (List Obj) :=
  analysis.asDict.bind fun items =>
    (((lookup key items).getD (.list [])).iterate).bind fun vs => vs.mapM asDict

def dictOf (row : Obj) : Json := .dict none row

/-- The rows of `result` have the ids of `entries` in their order; where the rows of `analysis` have
distinct ids, each of them whose id is among these keeps every field but those of its entry. -/
def CarriesOver (key idKey : Str) (idOf : Obj → Option Str) (entries : List (Str × List Str))
    (analysis result : Json) : Prop :=
  ∃ rows rows', rowsOf key analysis = some rows ∧ rowsOf key result = some rows' ∧
    rows'.map (lookup idKey) = entries.map (fun e => some (.str e.1)) ∧
    ((rows.filterMap idOf).Nodup → ∀ row ∈ rows, ∀ e ∈ entries, idOf row = some e.1 →
      ∃ row' ∈ rows', lookup idKey row' = some (.str e.1) ∧
        ∀ k v, k ∉ e.2 → lookup k row = some v → lookup k row' = some v)

end Rows

section Sync

variable (t : StrOf)

def catalogIdKey : Str := "catalog_id".toList

def versionAnalysisKey : Str := "version_analysis".toList

def featureChangesKey : Str := "feature_changes".toList

def supplementalKey : Str := "supplemental_sources".toList

def statusKey : Str := "status".toList

def urlKey : Str := "url".toList

def idOf (row : Obj) : Option Str := ((lookup catalogIdKey row).filter truthy).map t.str

/-- `str(row.get(key))`. -/
def textOf (key : Str) (row : Obj) : Str := t.str ((lookup key row).getD .none)

def isRisk (row : Obj) : Bool :=
  match lookup "category".toList row with
  | some (.str s) => s = "弃用与移除".toList || s = "关键变更风险".toList
  | _ => false

def exactKey (row : Obj) : Str × Str × Bool :=
  (textOf t "version".toList row, textOf t "feature_name".toList row, isRisk row)

def Item.isRisk (item : Item) : Bool :=
  match item.kind with
  | .feature _ _ => false
  | .risk => true

/-- `existing.get(..) or existing_exact.get(.., {})`; of rows of one key the last counts. -/
def existingRow (rows : List Obj) (item : Item) : Obj :=
  ((rows.reverse.find? fun row => idOf t row = some item.catalogId).or
    (rows.reverse.find? fun row => exactKey t row = (item.version, item.name, item.isRisk))).getD []

def categoryGroup (category : Category) (version : Str) : Str :=
  (match category with
    | .mature => "孵化成熟特性".toList
    | .enhanced => "增强特性".toList
    | .new => "新增特性".toList) ++ ':' :: version

/-- What only the catalog decides about a row. -/
def Item.derived (item : Item) : List (Str × Json) :=
  let shared : List (Str × Json) := [("feature_name".toList, .str item.name),
    ("name_source".toList, .str "official_release_blog".toList),
    ("primary_source".toList, .str item.source)]
  match item.kind with
  | .feature category subFeatures =>
    [(catalogIdKey, .str item.catalogId), ("version".toList, .str item.version),
      ("category".toList, .str (if category ≠ .enhanced then "关键特性".toList else "关键变更".toList)),
      ("category_group".toList, .str (categoryGroup category item.version)),
      ("sub_features".toList, subFeatures)] ++ shared
  | .risk =>
    [(catalogIdKey, .str item.catalogId), ("version".toList, .str item.version),
      ("category".toList, .str "弃用与移除".toList),
      ("category_group".toList, .str ("特性剔除:".toList ++ item.version))] ++ shared

/-- `[entry["url"] for entry in supplemental if entry.get("url")]`. -/
def urlsOf (supplemental : Json) : Option (List Json) :=
  (supplemental.iterate.bind fun entries => entries.mapM asDict).map fun entries =>
    entries.filterMap fun entry => (lookup urlKey entry).filter truthy

/-- What `row.update` assigns. -/
def Item.assigned (item : Item) (supplemental : Json) (urls : List Json) (status : Json) :
    List (Str × Json) :=
  item.derived ++ [(supplementalKey, supplemental),
    ("sources".toList, .list (.str item.source :: urls)), (statusKey, status)]

def Item.refresh (item : Item) (row : Obj) : Option Obj :=
  let supplemental := (lookup supplementalKey row).getD (.list [])
  (urlsOf supplemental).map fun urls =>
    update row (item.assigned supplemental urls
      ((lookup statusKey row).getD (.str "research".toList)))

def catalogItems (versions : List CatalogVersion) : List Item :=
  versions.flatMap fun v => v.features ++ v.risks

/-- The document that `sync_analysis` writes; there is none where it raises before. -/
def syncAnalysis (versions : List CatalogVersion) (analysis : Json) : Option Json :=
  (rowsOf versionAnalysisKey analysis).bind fun rows =>
    ((catalogItems versions).mapM fun item : Item =>
        item.refresh (existingRow t rows item)).bind fun rows =>
      analysis.asDict.map fun items =>
        .dict none (setDefault (setDefault
          (setItem versionAnalysisKey (.list (rows.map dictOf)) items)
          (featureChangesKey, .list [])) ("catalog_omissions".toList, .list []))

end Sync

section Merge

structure Fact where
  id : Str
  compatible : Bool

def idKey : Str := "id".toList

/-- `hash(v)` does not raise. -/
def hashable : Json → Bool
  | .list _ | .dict _ _ => false
  | _ => true

def strId (row : Obj) : Option Str :=
  match lookup idKey row with
  | some (.str s) => some s
  | _ => none

/-- What `row.setdefault` gives a row. -/
def Fact.defaults (fact : Fact) : List (Str × Json) :=
  [("compatibility".toList, .bool fact.compatible), ("compatibility_analysis".toList, .str []),
    ("conclusion".toList, .str []), ("check_method".toList, .str []), ("sources".toList, .list []),
    ("details".toList, .str []), ("recommendation".toList, .str "待核实".toList),
    ("notes".toList, .str []), (statusKey, .str "research".toList)]

def Fact.row (rows : List Obj) (fact : Fact) : Obj :=
  fact.defaults.foldl setDefault
    ((rows.reverse.find? fun row => strId row = some fact.id).getD [(.str idKey, .str fact.id)])

/-- The document that the merge in `main` of `extract_feature_changes` writes. -/
def mergeChanges (facts : List Fact) (analysis : Json) : Option Json :=
  (rowsOf featureChangesKey analysis).bind fun rows =>
    if rows.all fun row => hashable ((lookup idKey row).getD .none) then
      analysis.asDict.map fun items =>
        .dict none (setItem featureChangesKey (.list ((facts.map (Fact.row rows)).map dictOf))
          (setItem versionAnalysisKey ((lookup versionAnalysisKey items).getD (.list [])) items))
    else none

end Merge

section Files

/-- `analysis.json`: a document, or what a write that failed has left. -/
inductive AnalysisFile
  | document (v : Json)
  | emptied

/-- `path.write_text(json.dumps(v, ..) + "\n", encoding="utf-8")`. -/
def writeText (v : Json) : AnalysisFile :=
  -- opening the file empties it, and only then the text is encoded
  if v.encodable then .document v else .emptied

def rerun (merge : Json → Option Json) : AnalysisFile → AnalysisFile
  | .document v =>
    match merge v with
    | some merged => writeText merged
    | Option.none => .document v
  | .emptied => .emptied

/-- Two runs leave the file of one, and a run that does not raise before it writes leaves a document
that carries the rows over. -/
structure KeepsWork (merge : Json → Option Json) (key idKey : Str) (idOf : Obj → Option Str)
    (entries : List (Str × List Str)) (analysis : Json) : Prop where
  twice : rerun merge (rerun merge (.document analysis)) = rerun merge (.document analysis)
  carriesOver : (merge analysis).isSome → ∃ result,
    rerun merge (.document analysis) = .document result ∧
      CarriesOver key idKey idOf entries analysis result

theorem keepsWork_iff {merge : Json → Option Json} {key idKey : Str} {idOf : Obj → Option Str}
    {entries : List (Str × List Str)} {analysis : Json}
    (htwice : (merge analysis).bind merge = merge analysis)
    (hcarries : ∀ result, merge analysis = some result →
      CarriesOver key idKey idOf entries analysis result) :
    KeepsWork merge key idKey idOf entries analysis ↔
      ∀ result, merge analysis = some result → result.encodable = true := by
  constructor
  · rintro ⟨-, h⟩ result hresult
    obtain ⟨written, hwritten, -⟩ := h (hresult ▸ rfl)
    rw [rerun, hresult] at hwritten
    simp only [writeText] at hwritten
    split_ifs at hwritten with hencodable
    exact hencodable
  · intro h
    cases hresult : merge analysis with
    | none =>
      have hstays : rerun merge (.document analysis) = .document analysis := by rw [rerun, hresult]
      exact ⟨by rw [hstays, hstays], fun hsome => by simp [hresult] at hsome⟩
    | some result =>
      have hagain : merge result = some result := by simpa [hresult] using htwice
      have hwritten : writeText result = .document result := if_pos (h result hresult)
      have hfirst : rerun merge (.document analysis) = .document result := by
        rw [rerun, hresult]
        exact hwritten
      refine ⟨?_, fun _ => ⟨result, hfirst, hcarries result hresult⟩⟩
      rw [hfirst, rerun, hagain]
      exact hwritten

end Files

section Refresh

variable {item : Item} {row row' : Obj} {supplemental status v : Json} {urls : List Json} {k : Str}

def Kind.keys : Kind → List Str
  | .feature _ _ => [catalogIdKey, "version".toList, "category".toList, "category_group".toList,
      "sub_features".toList, "feature_name".toList, "name_source".toList, "primary_source".toList,
      supplementalKey, "sources".toList, statusKey]
  | .risk => [catalogIdKey, "version".toList, "category".toList, "category_group".toList,
      "feature_name".toList, "name_source".toList, "primary_source".toList, supplementalKey,
      "sources".toList, statusKey]

theorem Item.nodup_assigned : ((item.assigned supplemental urls status).map Prod.fst).Nodup := by
  have hkeys : (item.assigned supplemental urls status).map Prod.fst = item.kind.keys := by
    unfold Item.assigned Item.derived
    cases item.kind <;> rfl
  rw [hkeys]
  cases item.kind with
  | feature _ _ =>
    rw [Kind.keys]
    decide
  | risk =>
    rw [Kind.keys]
    decide

theorem Item.exists_of_refresh (h : item.refresh row = some row') :
    ∃ urls, urlsOf ((lookup supplementalKey row).getD (.list [])) = some urls ∧
      row' = update row (item.assigned ((lookup supplementalKey row).getD (.list [])) urls
        ((lookup statusKey row).getD (.str "research".toList))) := by
  obtain ⟨urls, hurls, rfl⟩ := Option.map_eq_some_iff.mp h
  exact ⟨urls, hurls, rfl⟩

theorem Item.catalogId_mem_assigned :
    (catalogIdKey, .str item.catalogId) ∈ item.assigned supplemental urls status := by
  unfold Item.assigned Item.derived
  cases item.kind <;> exact List.mem_cons_self

theorem Item.lookup_catalogId (h : item.refresh row = some row') :
    lookup catalogIdKey row' = some (.str item.catalogId) := by
  obtain ⟨urls, -, rfl⟩ := Item.exists_of_refresh h
  exact lookup_update_of_mem Item.nodup_assigned Item.catalogId_mem_assigned

theorem Item.refresh_refresh (h : item.refresh row = some row') :
    item.refresh row' = some row' := by
  obtain ⟨urls, hurls, rfl⟩ := Item.exists_of_refresh h
  have hassigned : ∀ e ∈ item.assigned ((lookup supplementalKey row).getD (.list [])) urls
      ((lookup statusKey row).getD (.str "research".toList)), lookup e.1 (update row (item.assigned
        ((lookup supplementalKey row).getD (.list [])) urls
        ((lookup statusKey row).getD (.str "research".toList)))) = some e.2 :=
    fun e he => lookup_update_of_mem Item.nodup_assigned he
  have hsupplemental := hassigned (supplementalKey, (lookup supplementalKey row).getD (.list []))
    (List.mem_append_right _ (by simp))
  have hstatus := hassigned (statusKey, (lookup statusKey row).getD (.str "research".toList))
    (List.mem_append_right _ (by simp))
  rw [Item.refresh]
  simp only [hsupplemental, hstatus, Option.getD_some, hurls, Option.map_some]
  rw [update_of_lookup hassigned]

def Item.derivedKeys (item : Item) : List Str := "sources".toList :: item.derived.map Prod.fst

theorem Item.lookup_refresh (h : item.refresh row = some row') (hk : k ∉ item.derivedKeys)
    (hv : lookup k row = some v) : lookup k row' = some v := by
  obtain ⟨urls, -, rfl⟩ := Item.exists_of_refresh h
  simp only [Item.derivedKeys, List.mem_cons, not_or] at hk
  have hmem : ∀ w, (k, w) ∈ item.assigned ((lookup supplementalKey row).getD (.list [])) urls
      ((lookup statusKey row).getD (.str "research".toList)) → w = v →
      lookup k (update row (item.assigned ((lookup supplementalKey row).getD (.list [])) urls
        ((lookup statusKey row).getD (.str "research".toList)))) = some v := by
    rintro w hw rfl
    exact lookup_update_of_mem Item.nodup_assigned hw
  by_cases hsupplemental : k = supplementalKey
  · refine hmem ((lookup supplementalKey row).getD (.list [])) (List.mem_append_right _ ?_) ?_
    · rw [hsupplemental]
      exact List.mem_cons_self
    · rw [← hsupplemental, hv]
      rfl
  by_cases hstatus : k = statusKey
  · refine hmem ((lookup statusKey row).getD (.str "research".toList))
      (List.mem_append_right _ ?_) ?_
    · rw [hstatus]
      simp
    · rw [← hstatus, hv]
      rfl
  rw [lookup_update_of_not_mem, hv]
  rw [Item.assigned, List.map_append, List.mem_append, not_or]
  refine ⟨hk.2, ?_⟩
  simp only [List.map_cons, List.map_nil, List.mem_cons, List.not_mem_nil, or_false, not_or]
  exact ⟨hsupplemental, hk.1, hstatus⟩

end Refresh

section Documents

variable {t : StrOf} {versions : List CatalogVersion} {analysis result : Json} {key : Str}
  {rows : List Obj}

theorem rowsOf_dict {items : Obj} (h : lookup key items = some (.list (rows.map dictOf))) :
    rowsOf key (.dict none items) = some rows := by
  have hrows : (rows.map dictOf).mapM asDict = some rows :=
    Lists.mapM_of_forall₂ (List.forall₂_map_left_iff.mpr (List.forall₂_same.mpr fun _ _ => rfl))
  rw [rowsOf, asDict, Option.bind_some, h]
  exact hrows

theorem syncAnalysis_eq_some_iff : syncAnalysis t versions analysis = some result ↔
    ∃ rows rows' items, rowsOf versionAnalysisKey analysis = some rows ∧
      ((catalogItems versions).mapM fun item : Item => item.refresh (existingRow t rows item)) =
        some rows' ∧ analysis.asDict = some items ∧
      result = .dict none (setDefault (setDefault
        (setItem versionAnalysisKey (.list (rows'.map dictOf)) items)
        (featureChangesKey, .list [])) ("catalog_omissions".toList, .list [])) := by
  simp only [syncAnalysis, Option.bind_eq_some_iff, Option.map_eq_some_iff]
  constructor
  · rintro ⟨rows, hrows, rows', hrows', items, hitems, rfl⟩
    exact ⟨rows, rows', items, hrows, hrows', hitems, rfl⟩
  · rintro ⟨rows, rows', items, hrows, hrows', hitems, rfl⟩
    exact ⟨rows, hrows, rows', hrows', items, hitems, rfl⟩

theorem idOf_of_lookup {row : Obj} {item : Item}
    (h : lookup catalogIdKey row = some (.str item.catalogId)) :
    idOf t row = some item.catalogId := by
  have htruthy : truthy (.str item.catalogId : Json) = true := by
    simpa [truthy] using item.catalogId_ne_nil
  rw [idOf, h, Option.filter_some_pos htruthy, Option.map_some, t.str_str]

theorem rows_of_mapM {find : Item → Obj} {items : List Item} {rows' : List Obj}
    (h : (items.mapM fun item : Item => item.refresh (find item)) = some rows') :
    ∃ row : Item → Obj, rows' = items.map row ∧
      ∀ item ∈ items, item.refresh (find item) = some (row item) := by
  have hrow : ∀ item ∈ items, item.refresh (find item) =
      some ((item.refresh (find item)).getD []) := by
    intro item hitem
    obtain ⟨row, hrow⟩ := (Lists.of_mapM_eq_some h).1 item hitem
    rw [hrow]
    rfl
  exact ⟨_, Option.some.inj (h.symm.trans (Lists.mapM_eq_some_map hrow)), hrow⟩

theorem lookup_synced {rows' : List Obj} {items : Obj} :
    lookup versionAnalysisKey (setDefault (setDefault
      (setItem versionAnalysisKey (.list (rows'.map dictOf)) items)
      (featureChangesKey, .list [])) ("catalog_omissions".toList, .list [])) =
      some (.list (rows'.map dictOf)) :=
  lookup_setDefault_of_some (lookup_setDefault_of_some lookup_setItem_self)

theorem syncAnalysis_idempotent (t : StrOf)
    (h : ((catalogItems versions).map Item.catalogId).Nodup) (analysis : Json) :
    (syncAnalysis t versions analysis).bind (syncAnalysis t versions) =
      syncAnalysis t versions analysis := by
  cases hresult : syncAnalysis t versions analysis with
  | none => rfl
  | some result =>
    obtain ⟨rows, rows', items, hrows, hmap, hitems, rfl⟩ := syncAnalysis_eq_some_iff.mp hresult
    obtain ⟨row, rfl, hrefresh⟩ := rows_of_mapM hmap
    have hid : ∀ item ∈ catalogItems versions, idOf t (row item) = some item.catalogId :=
      fun item hitem => idOf_of_lookup (Item.lookup_catalogId (hrefresh item hitem))
    have hnodup : (((catalogItems versions).map row).filterMap (idOf t)).Nodup := by
      have hids : ((catalogItems versions).map row).filterMap (idOf t) =
          (catalogItems versions).map Item.catalogId := by
        rw [List.filterMap_map, ← List.filterMap_eq_map]
        exact List.filterMap_congr hid
      rwa [hids]
    have hagain : ∀ item ∈ catalogItems versions,
        item.refresh (existingRow t ((catalogItems versions).map row) item) = some (row item) := by
      intro item hitem
      have hfound := Lists.find?_reverse_of_nodup hnodup (List.mem_map_of_mem hitem)
        (hid item hitem)
      rw [existingRow, hfound]
      exact Item.refresh_refresh (hrefresh item hitem)
    refine syncAnalysis_eq_some_iff.mpr ⟨(catalogItems versions).map row, _, _,
      rowsOf_dict lookup_synced, Lists.mapM_eq_some_map hagain, rfl, ?_⟩
    rw [setItem_of_lookup lookup_synced]
    exact congrArg _ (foldl_setDefault_idem [(featureChangesKey, .list []),
      ("catalog_omissions".toList, .list [])] _).symm

def Item.entry (item : Item) : Str × List Str := (item.catalogId, item.derivedKeys)

/-- After a run the rows have the ids of the catalog in its order, and a row whose id was there
keeps everything the catalog does not decide. -/
theorem syncAnalysis_carriesOver (h : syncAnalysis t versions analysis = some result) :
    CarriesOver versionAnalysisKey catalogIdKey (idOf t) ((catalogItems versions).map Item.entry)
      analysis result := by
  obtain ⟨rows, rows', items, hrows, hmap, hitems, rfl⟩ := syncAnalysis_eq_some_iff.mp h
  obtain ⟨row, rfl, hrefresh⟩ := rows_of_mapM hmap
  refine ⟨rows, _, hrows, rowsOf_dict lookup_synced, ?_, ?_⟩
  · rw [List.map_map, List.map_map]
    exact List.map_congr_left fun item hitem => Item.lookup_catalogId (hrefresh item hitem)
  · intro hnodup old hold e he hid
    obtain ⟨item, hitem, rfl⟩ := List.mem_map.mp he
    have hfound := Lists.find?_reverse_of_nodup hnodup hold hid
    have hold' : existingRow t rows item = old := by
      rw [Item.entry] at hfound
      rw [existingRow, hfound]
      rfl
    have hnew := hrefresh item hitem
    rw [hold'] at hnew
    exact ⟨row item, List.mem_map_of_mem hitem, Item.lookup_catalogId hnew,
      fun k v hk hv => Item.lookup_refresh hnew hk hv⟩

theorem isSome_syncAnalysis (h : rowsOf versionAnalysisKey analysis = some rows)
    (hrows : ∀ row ∈ rows, (urlsOf ((lookup supplementalKey row).getD (.list []))).isSome) :
    (syncAnalysis t versions analysis).isSome := by
  have hrefresh : ∀ item ∈ catalogItems versions, ∃ row,
      Item.refresh item (existingRow t rows item) = some row := by
    intro item _
    have hurls : (urlsOf ((lookup supplementalKey (existingRow t rows item)).getD
        (.list []))).isSome := by
      unfold existingRow
      cases hfind : (rows.reverse.find? fun row => idOf t row = some item.catalogId).or
          (rows.reverse.find? fun row =>
            exactKey t row = (item.version, item.name, item.isRisk)) with
      | none => rfl
      | some row =>
        apply hrows
        rcases Option.or_eq_some_iff.mp hfind with hfind | ⟨-, hfind⟩ <;>
        exact List.mem_reverse.mp (List.mem_of_find?_eq_some hfind)
    obtain ⟨urls, hurls⟩ := Option.isSome_iff_exists.mp hurls
    exact ⟨_, by rw [Item.refresh, hurls, Option.map_some]⟩
  obtain ⟨rows', hmap⟩ := Lists.exists_mapM hrefresh
  obtain ⟨items, hitems, -⟩ := Option.bind_eq_some_iff.mp h
  exact Option.isSome_iff_exists.mpr
    ⟨_, syncAnalysis_eq_some_iff.mpr ⟨rows, rows', items, h, hmap, hitems, rfl⟩⟩

end Documents

section Changes

variable {facts : List Fact} {analysis result : Json} {rows : List Obj}

theorem mergeChanges_eq_some_iff : mergeChanges facts analysis = some result ↔
    ∃ rows items, rowsOf featureChangesKey analysis = some rows ∧
      (∀ row ∈ rows, hashable ((lookup idKey row).getD .none) = true) ∧
      analysis.asDict = some items ∧
      result = .dict none
        (setItem featureChangesKey (.list ((facts.map (Fact.row rows)).map dictOf))
          (setItem versionAnalysisKey ((lookup versionAnalysisKey items).getD (.list [])) items)) := by
  simp only [mergeChanges, Option.bind_eq_some_iff, Option.ite_none_right_eq_some, List.all_eq_true,
    Option.map_eq_some_iff]
  constructor
  · rintro ⟨rows, hrows, hhash, items, hitems, rfl⟩
    exact ⟨rows, items, hrows, hhash, hitems, rfl⟩
  · rintro ⟨rows, items, hrows, hhash, hitems, rfl⟩
    exact ⟨rows, hrows, hhash, items, hitems, rfl⟩

theorem strId_eq_some_iff {row : Obj} {s : Str} :
    strId row = some s ↔ lookup idKey row = some (.str s) := by
  unfold strId
  cases lookup idKey row with
  | none => simp
  | some v => cases v <;> simp

theorem Fact.strId_row (rows : List Obj) (fact : Fact) :
    strId (Fact.row rows fact) = some fact.id := by
  rw [strId_eq_some_iff]
  refine lookup_foldl_setDefault ?_
  cases hfind : rows.reverse.find? fun row => strId row = some fact.id with
  | none => exact if_pos rfl
  | some row => exact strId_eq_some_iff.mp (by simpa using List.find?_some hfind)

theorem Fact.isSome_lookup_row (rows : List Obj) (fact : Fact) :
    ∀ e ∈ fact.defaults, (lookup e.1 (Fact.row rows fact)).isSome :=
  fun _ he => isSome_lookup_foldl_setDefault he

theorem lookup_versionAnalysis_merged {items : Obj} {v : Json} :
    lookup versionAnalysisKey (setItem featureChangesKey v
      (setItem versionAnalysisKey ((lookup versionAnalysisKey items).getD (.list [])) items)) =
      some ((lookup versionAnalysisKey items).getD (.list [])) := by
  have hne : versionAnalysisKey ≠ featureChangesKey := by decide
  rw [lookup_setItem_of_ne hne, lookup_setItem_self]

theorem mergeChanges_idempotent (h : (facts.map Fact.id).Nodup) (analysis : Json) :
    (mergeChanges facts analysis).bind (mergeChanges facts) = mergeChanges facts analysis := by
  cases hresult : mergeChanges facts analysis with
  | none => rfl
  | some result =>
    obtain ⟨rows, items, hrows, hhash, hitems, rfl⟩ := mergeChanges_eq_some_iff.mp hresult
    have hid : ∀ fact ∈ facts, (strId ∘ Fact.row rows) fact = (some ∘ Fact.id) fact := by
      intro fact _
      rw [Function.comp_apply, Function.comp_apply, Fact.strId_row]
    have hnodup : ((facts.map (Fact.row rows)).filterMap strId).Nodup := by
      have hids : (facts.map (Fact.row rows)).filterMap strId = facts.map Fact.id := by
        rw [List.filterMap_map, ← List.filterMap_eq_map]
        exact List.filterMap_congr hid
      rwa [hids]
    have hagain : ∀ fact ∈ facts,
        Fact.row (facts.map (Fact.row rows)) fact = Fact.row rows fact := by
      intro fact hfact
      have hfound := Lists.find?_reverse_of_nodup hnodup (List.mem_map_of_mem hfact)
        (fact.strId_row rows)
      have hpresent := fact.isSome_lookup_row rows
      rw [Fact.row, hfound, Option.getD_some, foldl_setDefault_of_isSome hpresent]
    have hrows' : facts.map (Fact.row (facts.map (Fact.row rows))) = facts.map (Fact.row rows) :=
      List.map_congr_left hagain
    refine mergeChanges_eq_some_iff.mpr ⟨facts.map (Fact.row rows), _,
      rowsOf_dict lookup_setItem_self, ?_, rfl, ?_⟩
    · intro r hr
      obtain ⟨fact, -, rfl⟩ := List.mem_map.mp hr
      rw [strId_eq_some_iff.mp (fact.strId_row rows)]
      rfl
    · rw [hrows', lookup_versionAnalysis_merged, Option.getD_some,
        setItem_of_lookup lookup_versionAnalysis_merged, setItem_of_lookup lookup_setItem_self]

/-- A fact decides nothing about its row. -/
def Fact.entry (fact : Fact) : Str × List Str := (fact.id, [])

/-- After a merge the rows have the ids of the facts in their order, and a row whose id was there
keeps everything. -/
theorem mergeChanges_carriesOver (h : mergeChanges facts analysis = some result) :
    CarriesOver featureChangesKey idKey strId (facts.map Fact.entry) analysis result := by
  obtain ⟨rows, items, hrows, -, -, rfl⟩ := mergeChanges_eq_some_iff.mp h
  refine ⟨rows, facts.map (Fact.row rows), hrows, rowsOf_dict lookup_setItem_self, ?_, ?_⟩
  · rw [List.map_map, List.map_map]
    refine List.map_congr_left fun fact _ => ?_
    rw [Function.comp_apply, strId_eq_some_iff.mp (fact.strId_row rows)]
    rfl
  · intro hnodup row hrow e he hid
    obtain ⟨fact, hfact, rfl⟩ := List.mem_map.mp he
    have hfound := Lists.find?_reverse_of_nodup hnodup hrow hid
    have hrowId := strId_eq_some_iff.mp (fact.strId_row rows)
    refine ⟨Fact.row rows fact, List.mem_map_of_mem hfact, hrowId, fun k v _ hv => ?_⟩
    rw [Fact.entry] at hfound
    rw [Fact.row, hfound, Option.getD_some]
    exact lookup_foldl_setDefault hv

theorem isSome_mergeChanges (h : rowsOf featureChangesKey analysis = some rows)
    (hrows : ∀ row ∈ rows, hashable ((lookup idKey row).getD .none) = true) :
    (mergeChanges facts analysis).isSome := by
  obtain ⟨items, hitems, -⟩ := Option.bind_eq_some_iff.mp h
  exact Option.isSome_iff_exists.mpr
    ⟨_, mergeChanges_eq_some_iff.mpr ⟨rows, items, h, hrows, hitems, rfl⟩⟩

end Changes

section Encodable

variable {t : StrOf} {versions : List CatalogVersion} {facts : List Fact} {analysis : Json}
  {item : Item} {row row' items : Obj} {key : Str}

theorem encodable_of_mem_iterate {v w : Json} {vs : List Json} (h : v.iterate = some vs)
    (hv : v.encodable = true) (hw : w ∈ vs) : w.encodable = true := by
  cases v with
  | list us | tuple us =>
    obtain rfl := Option.some.inj h
    rw [PyValue.encodable, encodableElements_eq_all] at hv
    exact List.all_eq_true.mp hv w hw
  | str s =>
    obtain rfl := Option.some.inj h
    obtain ⟨c, hc, rfl⟩ := List.mem_map.mp hw
    exact Str.encodable_of_subset (List.cons_subset.mpr ⟨hc, List.nil_subset _⟩) hv
  | dict sub items =>
    obtain rfl := Option.some.inj h
    rw [PyValue.encodable] at hv
    clear h
    induction items with
    | nil => cases hw
    | cons e items ih =>
      rw [encodableItems, Bool.and_eq_true, Bool.and_eq_true] at hv
      rcases List.mem_cons.mp hw with rfl | hw
      · exact hv.1.1
      · exact ih hv.2 hw
  | none | bool | int | float | object => cases h

theorem encodable_of_lookup {v : Json} (h : lookup key items = some v)
    (hitems : encodableItems items = true) : v.encodable = true := by
  induction items using lookup.induct key with
  | case1 => cases h
  | case2 w items =>
    rw [lookup, if_pos rfl] at h
    obtain rfl := Option.some.inj h
    rw [encodableItems, Bool.and_eq_true, Bool.and_eq_true] at hitems
    exact hitems.1.2
  | case3 k w items hk ih =>
    rw [lookup, if_neg hk] at h
    rw [encodableItems, Bool.and_eq_true] at hitems
    exact ih h hitems.2
  | case4 e items he ih =>
    rw [lookup] at h
    · rw [encodableItems, Bool.and_eq_true] at hitems
      exact ih h hitems.2
    · exact he

theorem encodable_of_mem_urlsOf {supplemental : Json} {urls : List Json} {u : Json}
    (h : urlsOf supplemental = some urls) (hs : supplemental.encodable = true) (hu : u ∈ urls) :
    u.encodable = true := by
  obtain ⟨entries, hentries, rfl⟩ := Option.map_eq_some_iff.mp h
  obtain ⟨vs, hvs, hentries⟩ := Option.bind_eq_some_iff.mp hentries
  obtain ⟨entry, hentry, hlookup⟩ := List.mem_filterMap.mp hu
  obtain ⟨v, hv, hdict⟩ := (Lists.of_mapM_eq_some hentries).2 entry hentry
  have hencodable := encodable_of_mem_iterate hvs hs hv
  cases v with
  | dict sub items =>
    obtain rfl := Option.some.inj hdict
    exact encodable_of_lookup (Option.eq_some_of_filter_eq_some hlookup) hencodable
  | none | bool | int | float | str | list | tuple | object => cases hdict

def Item.encodable (item : Item) : Bool :=
  Str.encodable item.catalogId && Str.encodable item.version && Str.encodable item.name &&
    Str.encodable item.source && match item.kind with
      | .feature _ subFeatures => subFeatures.encodable
      | .risk => true

theorem encodable_constants : ∀ s ∈ [catalogIdKey, "version".toList, "category".toList,
    "category_group".toList, "sub_features".toList, "feature_name".toList, "name_source".toList,
    "primary_source".toList, "official_release_blog".toList, "弃用与移除".toList, "特性剔除:".toList,
    supplementalKey, "sources".toList, statusKey, "research".toList], Str.encodable s = true := by
  decide

theorem Item.encodable_derived (item : Item) :
    (item.derived.all fun e => Str.encodable e.1 && e.2.encodable) = item.encodable := by
  have hconst := encodable_constants
  simp only [List.forall_mem_cons] at hconst
  obtain ⟨catalogId, -, version, name, source, kind⟩ := item
  cases kind with
  | feature category subFeatures =>
    have hcategory : Str.encodable
        (if category ≠ .enhanced then "关键特性".toList else "关键变更".toList) = true := by
      cases category <;> decide
    have hgroup : Str.encodable (categoryGroup category version) = Str.encodable version := by
      cases category <;> exact Str.encodable_append
    simp only [Item.derived, List.cons_append, List.nil_append, List.all_cons, List.all_nil,
      PyValue.encodable, hcategory, hgroup, hconst, Item.encodable, Bool.true_and, Bool.and_true]
    ac_rfl
  | risk =>
    simp only [Item.derived, List.cons_append, List.nil_append, List.all_cons, List.all_nil,
      PyValue.encodable, Str.encodable_append, hconst, Item.encodable, Bool.true_and, Bool.and_true]
    ac_rfl

theorem Item.assigned_perm {supplemental status : Json} {urls : List Json} :
    ((item.assigned supplemental urls status).map Prod.fst).Perm
      (statusKey :: supplementalKey :: item.derivedKeys) := by
  have hkeys : (item.assigned supplemental urls status).map Prod.fst =
      item.derived.map Prod.fst ++ [supplementalKey, "sources".toList, statusKey] := by
    rw [Item.assigned, List.map_append]
    rfl
  rw [hkeys]
  refine List.perm_append_comm.trans ?_
  exact (List.Perm.cons _ (List.Perm.swap _ _ _)).trans (List.Perm.swap _ _ _)

theorem Item.encodableItems_refresh (h : item.refresh row = some row') :
    encodableItems row' =
      (item.encodable && encodableItems (dropKeys item.derivedKeys row)) := by
  obtain ⟨urls, hurls, rfl⟩ := Item.exists_of_refresh h
  have hconst := encodable_constants
  simp only [List.forall_mem_cons] at hconst
  obtain ⟨hstatus, hsupplemental, -⟩ : statusKey ∉ supplementalKey :: item.derivedKeys ∧
      supplementalKey ∉ item.derivedKeys ∧ item.derivedKeys.Nodup := by
    have hperm : ((item.assigned .none [] .none).map Prod.fst).Perm
        (statusKey :: supplementalKey :: item.derivedKeys) := Item.assigned_perm
    simpa using hperm.nodup_iff.mp Item.nodup_assigned
  have hdefault : ∀ (o : Option Json) (v : Json), v.encodable = true →
      (o.getD v).encodable = o.all PyValue.encodable := by
    rintro (_ | w) v hv
    · exact hv
    · rfl
  have hkept : encodableItems (dropKeys item.derivedKeys row) =
      (((lookup supplementalKey row).getD (.list [])).encodable &&
        (((lookup statusKey row).getD (.str "research".toList)).encodable &&
          encodableItems (dropKeys (statusKey :: supplementalKey :: item.derivedKeys) row))) := by
    rw [hdefault _ _ rfl, hdefault _ _ (by decide),
      encodableItems_eq (by decide : Str.encodable supplementalKey = true),
      lookup_dropKeys hsupplemental, encodableItems_eq (by decide : Str.encodable statusKey = true),
      lookup_dropKey_of_ne (by decide), lookup_dropKeys fun h => hstatus (List.mem_cons_of_mem _ h)]
    rfl
  have hsources : ((lookup supplementalKey row).getD (.list [])).encodable = true →
      urls.all PyValue.encodable = true :=
    fun hs => List.all_eq_true.mpr fun u hu => encodable_of_mem_urlsOf hurls hs hu
  rw [encodableItems_update Item.nodup_assigned, dropKeys_perm Item.assigned_perm, hkept,
    Item.assigned, List.all_append, Item.encodable_derived, Bool.eq_iff_iff]
  have hsource : item.encodable = true → Str.encodable item.source = true := by
    simp only [Item.encodable, Bool.and_eq_true]
    exact fun h => h.1.2
  have hlist : (list (str item.source :: urls) : Json).encodable =
      (Str.encodable item.source && urls.all PyValue.encodable) := encodable_list _
  simp only [List.all_cons, List.all_nil, hconst, hlist, Bool.true_and, Bool.and_true,
    Bool.and_eq_true]
  constructor
  · rintro ⟨⟨hitem, hs, hsource, hst⟩, hrest⟩
    exact ⟨hitem, hs, hst, hrest⟩
  · rintro ⟨hitem, hs, hst, hrest⟩
    exact ⟨⟨hitem, hs, ⟨hsource hitem, hsources hs⟩, hst⟩, hrest⟩

/-- What `sync_analysis` carries over can be encoded: the texts of the catalog, what the rows found
for it keep, and the document beside the rows. -/
def SyncEncodable (t : StrOf) (versions : List CatalogVersion) (analysis : Json) : Prop :=
  ∀ rows items, rowsOf versionAnalysisKey analysis = some rows → analysis.asDict = some items →
    (∀ item ∈ catalogItems versions,
      (urlsOf ((lookup supplementalKey (existingRow t rows item)).getD (.list []))).isSome) →
    (∀ item ∈ catalogItems versions, item.encodable = true ∧
      encodableItems (dropKeys item.derivedKeys (existingRow t rows item)) = true) ∧
    encodableItems (dropKey versionAnalysisKey items) = true

/-- What the merge carries over can be encoded: the rows found for the facts, the ids of the other
facts, and the document beside the rows. -/
def MergeEncodable (facts : List Fact) (analysis : Json) : Prop :=
  ∀ rows items, rowsOf featureChangesKey analysis = some rows → analysis.asDict = some items →
    (∀ row ∈ rows, hashable ((lookup idKey row).getD .none) = true) →
    (∀ fact ∈ facts, encodableItems ((rows.reverse.find? fun row =>
      strId row = some fact.id).getD [(.str idKey, .str fact.id)]) = true) ∧
    encodableItems (dropKey featureChangesKey items) = true

theorem encodable_rows (rows : List Obj) :
    (list (rows.map dictOf) : Json).encodable = rows.all encodableItems := by
  rw [encodable_list, List.all_map]
  rfl

theorem syncEncodable_iff :
    (∀ result, syncAnalysis t versions analysis = some result → result.encodable = true) ↔
      SyncEncodable t versions analysis := by
  have hdocument : ∀ (rows' : List Obj) (items : Obj), PyValue.encodable (.dict none (setDefault
      (setDefault (setItem versionAnalysisKey (.list (rows'.map dictOf)) items)
        (featureChangesKey, .list [])) ("catalog_omissions".toList, .list [])) : Json) =
      (rows'.all encodableItems && encodableItems (dropKey versionAnalysisKey items)) := by
    intro rows' items
    rw [PyValue.encodable, encodableItems_setDefault (by decide),
      encodableItems_setDefault (by decide), encodableItems_setItem, encodable_rows]
    rfl
  constructor
  · intro h rows items hrows hitems hurls
    have hrefresh : ∀ item ∈ catalogItems versions,
        ∃ row, Item.refresh item (existingRow t rows item) = some row := by
      intro item hitem
      obtain ⟨urls, hurls⟩ := Option.isSome_iff_exists.mp (hurls item hitem)
      exact ⟨_, by rw [Item.refresh, hurls, Option.map_some]⟩
    obtain ⟨rows', hmap⟩ := Lists.exists_mapM hrefresh
    have hresult := h _ (syncAnalysis_eq_some_iff.mpr ⟨rows, rows', items, hrows, hmap, hitems, rfl⟩)
    obtain ⟨row, rfl, hrefresh⟩ := rows_of_mapM hmap
    rw [hdocument, Bool.and_eq_true, List.all_map, List.all_eq_true] at hresult
    refine ⟨fun item hitem => ?_, hresult.2⟩
    rw [← Bool.and_eq_true, ← Item.encodableItems_refresh (hrefresh item hitem)]
    exact hresult.1 item hitem
  · intro h result hresult
    obtain ⟨rows, rows', items, hrows, hmap, hitems, rfl⟩ := syncAnalysis_eq_some_iff.mp hresult
    obtain ⟨row, rfl, hrefresh⟩ := rows_of_mapM hmap
    obtain ⟨hcatalog, hrest⟩ := h rows items hrows hitems fun item hitem => by
      obtain ⟨urls, hurls, -⟩ := Item.exists_of_refresh (hrefresh item hitem)
      rw [hurls]
      rfl
    rw [hdocument, hrest, Bool.and_true, List.all_map, List.all_eq_true]
    intro item hitem
    rw [Function.comp_apply, Item.encodableItems_refresh (hrefresh item hitem), Bool.and_eq_true]
    exact hcatalog item hitem

theorem encodable_defaults : ∀ s ∈ ["compatibility".toList, "compatibility_analysis".toList,
    "conclusion".toList, "check_method".toList, "sources".toList, "details".toList,
    "recommendation".toList, "待核实".toList, "notes".toList, statusKey, "research".toList, []],
    Str.encodable s = true := by
  decide

theorem Fact.encodableItems_row (rows : List Obj) (fact : Fact) :
    encodableItems (Fact.row rows fact) = encodableItems ((rows.reverse.find? fun row =>
      strId row = some fact.id).getD [(.str idKey, .str fact.id)]) := by
  refine encodableItems_foldl_setDefault ?_
  have hconst := encodable_defaults
  simp only [List.forall_mem_cons] at hconst
  simp only [Fact.defaults, List.forall_mem_cons, hconst, PyValue.encodable, encodableElements,
    List.not_mem_nil, false_implies, implies_true, and_true, Bool.and_true]

theorem mergeEncodable_iff :
    (∀ result, mergeChanges facts analysis = some result → result.encodable = true) ↔
      MergeEncodable facts analysis := by
  have hdefault : ∀ items : Obj, setItem versionAnalysisKey
      ((lookup versionAnalysisKey items).getD (.list [])) items =
        setDefault items (versionAnalysisKey, .list []) := by
    intro items
    cases hlookup : lookup versionAnalysisKey items with
    | none => rw [setDefault, hlookup]; rfl
    | some v => rw [setDefault, hlookup, Option.getD_some, setItem_of_lookup hlookup]; rfl
  have hdocument : ∀ (rows' : List Obj) (items : Obj), PyValue.encodable (.dict none
      (setItem featureChangesKey (.list (rows'.map dictOf)) (setItem versionAnalysisKey
        ((lookup versionAnalysisKey items).getD (.list [])) items)) : Json) =
      (rows'.all encodableItems && encodableItems (dropKey featureChangesKey items)) := by
    intro rows' items
    have hdrop : dropKey featureChangesKey (setDefault items (versionAnalysisKey, .list [])) =
        setDefault (dropKey featureChangesKey items) (versionAnalysisKey, .list []) := by
      rw [setDefault, setDefault, lookup_dropKey_of_ne (by decide)]
      split_ifs
      · rfl
      · exact dropKey_setItem_of_ne (by decide)
    rw [PyValue.encodable, encodableItems_setItem, hdefault, hdrop,
      encodableItems_setDefault (by decide), encodable_rows]
    rfl
  constructor
  · intro h rows items hrows hitems hhash
    have hresult := h _ (mergeChanges_eq_some_iff.mpr ⟨rows, items, hrows, hhash, hitems, rfl⟩)
    rw [hdocument, Bool.and_eq_true, List.all_map, List.all_eq_true] at hresult
    refine ⟨fun fact hfact => ?_, hresult.2⟩
    have hrow := hresult.1 fact hfact
    rwa [Function.comp_apply, Fact.encodableItems_row rows fact] at hrow
  · intro h result hresult
    obtain ⟨rows, items, hrows, hhash, hitems, rfl⟩ := mergeChanges_eq_some_iff.mp hresult
    obtain ⟨hfacts, hrest⟩ := h rows items hrows hitems hhash
    rw [hdocument, hrest, Bool.and_true, List.all_map, List.all_eq_true]
    intro fact hfact
    rw [Function.comp_apply, Fact.encodableItems_row]
    exact hfacts fact hfact

end Encodable

section Rerun

/-- Extracting again keeps the analyst's work, twice is once, the rows follow the catalog and the
facts, and a row that was there keeps what the extraction does not derive, exactly if what is
carried over can be encoded. -/
theorem rerun_carriesOver_iff (t : StrOf) (versions : List CatalogVersion) (facts : List Fact)
    (analysis : Json) (hcatalog : ((catalogItems versions).map Item.catalogId).Nodup)
    (hfacts : (facts.map Fact.id).Nodup) :
    (KeepsWork (syncAnalysis t versions) versionAnalysisKey catalogIdKey (idOf t)
        ((catalogItems versions).map Item.entry) analysis ↔ SyncEncodable t versions analysis) ∧
    (KeepsWork (mergeChanges facts) featureChangesKey idKey strId (facts.map Fact.entry) analysis ↔
      MergeEncodable facts analysis) := by
  constructor
  · rw [keepsWork_iff (syncAnalysis_idempotent t hcatalog analysis)
      fun _ h => syncAnalysis_carriesOver h]
    exact syncEncodable_iff
  · rw [keepsWork_iff (mergeChanges_idempotent hfacts analysis)
      fun _ h => mergeChanges_carriesOver h]
    exact mergeEncodable_iff

/-- `str` on the texts, and the empty text for any other value. -/
def plainStr : StrOf where
  str v := match v with
    | .str s => s
    | _ => []
  str_str _ := rfl

def sidecarItem : Item where
  catalogId := "release-blog:1.33:feature:5d41402abc4b".toList
  catalogId_ne_nil := by decide
  version := "1.33".toList
  name := "Sidecar containers".toList
  source := "https://kubernetes.io/blog/2025/04/23/kubernetes-v1-33-release/".toList
  kind := .feature .mature (.list [])

def sidecarFact : Fact := ⟨"1.32-to-1.33:SidecarContainers".toList, true⟩

/-- A document with one row of each kind that an analyst has written to. -/
def draftAnalysis (details : Str) : Json :=
  .dict none [
    (.str versionAnalysisKey, .list [dictOf [(.str catalogIdKey, .str sidecarItem.catalogId),
      (.str "details".toList, .str details)]]),
    (.str featureChangesKey, .list [dictOf [(.str idKey, .str sidecarFact.id),
      (.str "details".toList, .str details)]])]

theorem rerun_carriesOver_iff_sidecar :
    KeepsWork (syncAnalysis plainStr [⟨[sidecarItem], []⟩]) versionAnalysisKey catalogIdKey
      (idOf plainStr) [sidecarItem.entry] (draftAnalysis "checked".toList) ∧
    KeepsWork (mergeChanges [sidecarFact]) featureChangesKey idKey strId [sidecarFact.entry]
      (draftAnalysis "checked".toList) := by
  obtain ⟨hsync, hmerge⟩ := rerun_carriesOver_iff plainStr [⟨[sidecarItem], []⟩] [sidecarFact]
    (draftAnalysis "checked".toList) (by decide) (by decide)
  constructor
  · refine hsync.mpr ?_
    rintro rows items hrows hitems -
    obtain rfl := Option.some.inj hrows
    obtain rfl := Option.some.inj hitems
    decide
  · refine hmerge.mpr ?_
    rintro rows items hrows hitems -
    obtain rfl := Option.some.inj hrows
    obtain rfl := Option.some.inj hitems
    decide

def loneDetails : Str := "half ".toList ++ [Char.ofNat 0x10F83D]

/-- Both runs empty the document that holds it. -/
theorem rerun_empties_lone :
    rerun (syncAnalysis plainStr [⟨[sidecarItem], []⟩]) (.document (draftAnalysis loneDetails)) =
      .emptied ∧
    ¬ KeepsWork (syncAnalysis plainStr [⟨[sidecarItem], []⟩]) versionAnalysisKey catalogIdKey
      (idOf plainStr) [sidecarItem.entry] (draftAnalysis loneDetails) ∧
    rerun (mergeChanges [sidecarFact]) (.document (draftAnalysis loneDetails)) = .emptied ∧
    ¬ KeepsWork (mergeChanges [sidecarFact]) featureChangesKey idKey strId [sidecarFact.entry]
      (draftAnalysis loneDetails) := by
  have hsync : rerun (syncAnalysis plainStr [⟨[sidecarItem], []⟩])
      (.document (draftAnalysis loneDetails)) = .emptied := rfl
  have hmerge : rerun (mergeChanges [sidecarFact]) (.document (draftAnalysis loneDetails)) =
      .emptied := rfl
  refine ⟨hsync, fun h => ?_, hmerge, fun h => ?_⟩
  · obtain ⟨result, hresult, -⟩ := h.carriesOver rfl
    rw [hsync] at hresult
    cases hresult
  · obtain ⟨result, hresult, -⟩ := h.carriesOver rfl
    rw [hmerge] at hresult
    cases hresult

end Rerun

end K8sLearn.Blog
