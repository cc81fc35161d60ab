import K8sLearn.Lib.Checked
import K8sLearn.Lib.Scan
import K8sLearn.Report.Verify

/-! # Which reports the verifier accepts

The builder and the verifier derive the order of the rows from the same catalog, so the
names always agree. The verifier asks for more than the builder needs: a risk, one of
the three categories on every feature, version labels that span the range, and as many
rows and omissions as the catalog has features. A report that can be built is accepted
exactly if it meets these.
-/

namespace K8sLearn.Report

section Texts

theorem unescape_cons_of_ne {c : Char} (hamp : c ≠ '&') (hcr : c ≠ '\r') (s : Str) :
    unescape (c :: s) = c :: unescape s := by
  rw [unescape]
  · rintro _ rfl
    exact absurd rfl hcr
  · rintro rfl
    exact absurd rfl hcr
  all_goals
    rintro _ rfl
    exact absurd rfl hamp

theorem unescape_escape {s : Str} (h : '\r' ∉ s) : unescape (escape s) = s := by
  induction s with
  | nil => rfl
  | cons c s ih =>
    obtain ⟨hcr, hs⟩ : '\r' ≠ c ∧ '\r' ∉ s := by simpa using h
    have hcons : escape ([c] ++ s) = escape [c] ++ escape s := List.flatMap_append
    rw [← List.singleton_append, hcons]
    obtain rfl | hamp := eq_or_ne c '&'
    · exact congrArg _ (ih hs)
    · obtain rfl | hlt := eq_or_ne c '<'
      · exact congrArg _ (ih hs)
      · obtain rfl | hgt := eq_or_ne c '>'
        · exact congrArg _ (ih hs)
        · have hself : escape [c] = [c] := by
            rw [escape, List.flatMap_singleton, if_neg hamp, if_neg hlt, if_neg hgt]
          rw [hself, List.singleton_append, unescape_cons_of_ne hamp hcr.symm, ih hs,
            List.singleton_append]

theorem mem_escape_iff {s : Str} : '\r' ∈ escape s ↔ '\r' ∈ s := by
  rw [escape, List.mem_flatMap]
  constructor
  · rintro ⟨c, hc, hmem⟩
    split_ifs at hmem
    · exact absurd hmem (by decide)
    · exact absurd hmem (by decide)
    · exact absurd hmem (by decide)
    · rwa [List.mem_singleton.mp hmem]
  · intro h
    exact ⟨_, h, by decide⟩

theorem cellText_inlineCell {s : Str} (h : '\r' ∉ s) : cellText (inlineCell s) = s := by
  simp [cellText, inlineCell, unescape_escape h]

@[simp]
theorem firstText_cons (c : Cell) (row : SheetRow) : firstText (c :: row) = some (cellText c) := rfl

end Texts

section Requirements

variable {α β : Type}

@[simp]
theorem require_ok_iff {p : Bool} {e : Rejection} {a : Unit} :
    require p e = .ok a ↔ p = true := by
  cases p <;> simp [require]

theorem forM_ok_iff {f : α → Except Rejection Unit} {l : List α} :
    l.forM f = .ok () ↔ ∀ a ∈ l, f a = .ok () := by
  induction l with
  | nil => simp [List.forM, pure, Except.pure]
  | cons a l ih =>
    rw [List.forM, List.forall_mem_cons, ← ih]
    cases f a <;> simp [bind, Except.bind]

theorem mapM_ok {ε : Type} {f : α → Except ε β} {g : α → β} {l : List α}
    (h : ∀ a ∈ l, f a = .ok (g a)) : l.mapM f = .ok (l.map g) := by
  induction l with
  | nil => rfl
  | cons a l ih =>
    rw [List.forall_mem_cons] at h
    rw [List.mapM_cons, h.1, ih h.2]
    rfl

end Requirements

section Versions

def IsVersion (s : Str) : Prop :=
  ∃ x y : Str, x ≠ [] ∧ y ≠ [] ∧ (∀ c ∈ x, c.isDigit = true) ∧ (∀ c ∈ y, c.isDigit = true) ∧
    s = x ++ '.' :: y

theorem IsVersion.take {s r : Str} (h : IsVersion s) (hr : ∀ c ∈ r.head?, c.isDigit = false) :
    takeVersion (s ++ r) = some (s, r) := by
  obtain ⟨x, y, hx, hy, hxd, hyd, rfl⟩ := h
  have hpoint : ∀ c ∈ ('.' :: (y ++ r)).head?, c.isDigit = false := by simp
  have hs : x ++ '.' :: y ++ r = x ++ '.' :: (y ++ r) := by simp
  rw [hs]
  simp only [takeVersion, Scan.takeWhile_append hxd hpoint, Scan.dropWhile_append hxd hpoint,
    Scan.takeWhile_append hyd hr, Scan.dropWhile_append hyd hr]
  simp [hx, hy]

theorem isStage_versionRangeLabel {a b : Str} (ha : IsVersion a) (hb : IsVersion b) :
    isStage (versionRangeLabel a b) = true := by
  have hlabel : versionRangeLabel a b = 'v' :: (a ++ '-' :: '>' :: 'v' :: b) := by
    simp [versionRangeLabel]
  have hb' := hb.take (r := []) (by simp)
  rw [List.append_nil] at hb'
  rw [hlabel]
  simp only [isStage, ha.take (r := '-' :: '>' :: 'v' :: b) (by simp), hb']
  rfl

theorem isVersion_text {v : Gates.Version} (h : 0 ≤ (ofLex v).1) (h' : 0 ≤ (ofLex v).2) :
    IsVersion v.text.toList := by
  obtain ⟨m, hm⟩ := Int.eq_ofNat_of_zero_le h
  obtain ⟨n, hn⟩ := Int.eq_ofNat_of_zero_le h'
  refine ⟨Nat.toDigits 10 m, Nat.toDigits 10 n, Nat.toDigits_ne_nil, Nat.toDigits_ne_nil,
    fun c => Str.isDigit_of_mem_toDigits, fun c => Str.isDigit_of_mem_toDigits, ?_⟩
  have htext : ∀ k : ℕ, (toString (k : ℤ)).toList = Nat.toDigits 10 k := by
    intro k
    have hk : toString (k : ℤ) = Nat.repr k := rfl
    rw [hk, Nat.repr]
    simp
  rw [Gates.Version.text, hm, hn, String.toList_append, String.toList_append, htext, htext]
  simp

theorem titleVersionsFrom_skip (x s : Str) :
    titleVersionsFrom x.length (x ++ s) = titleVersionsFrom 0 s := by
  induction x with
  | nil => rfl
  | cons c x ih => simpa [titleVersionsFrom] using ih

theorem titleVersionsFrom_append {x : Str} (hx : 'v' ∉ x) (s : Str) :
    titleVersionsFrom 0 (x ++ s) = titleVersionsFrom 0 s := by
  induction x with
  | nil => rfl
  | cons c x ih =>
    obtain ⟨hc, hx⟩ : 'v' ≠ c ∧ 'v' ∉ x := by simpa using hx
    rw [List.cons_append, titleVersionsFrom]
    · exact ih hx
    · rintro _ _ rfl
      exact absurd rfl hc

theorem titleVersionsFrom_version {s r : Str} (h : IsVersion s)
    (hr : ∀ c ∈ r.head?, c.isDigit = false) :
    titleVersionsFrom 0 ('v' :: (s ++ r)) = s :: titleVersionsFrom 0 r := by
  simp only [titleVersionsFrom, h.take hr, titleVersionsFrom_skip]

theorem titleVersions_title {config : Config} (hfrom : IsVersion config.fromVersion)
    (hto : IsVersion config.toVersion) :
    titleVersions (title config) = [config.fromVersion, config.toVersion] := by
  have hsplit : ∀ a b t : Str, "kubernetes v".toList ++ a ++ "-v".toList ++ b ++ t =
      "kubernetes ".toList ++ 'v' :: (a ++ (['-'] ++ 'v' :: (b ++ t))) := by
    intro a b t
    have hfront : "kubernetes v".toList = "kubernetes ".toList ++ ['v'] := by decide
    rw [hfront]
    simp
  have hkubernetes : 'v' ∉ "kubernetes ".toList := by decide
  have hback : 'v' ∉ " Release Note/ChangeLog解读".toList := by decide
  have hhead : ∀ c ∈ (" Release Note/ChangeLog解读".toList).head?, c.isDigit = false := by decide
  have htitle : title config = _ := hsplit config.fromVersion config.toVersion _
  rw [htitle, titleVersions]
  generalize " Release Note/ChangeLog解读".toList = back at hback hhead
  have hend := titleVersionsFrom_append hback []
  rw [List.append_nil] at hend
  rw [titleVersionsFrom_append hkubernetes,
    titleVersionsFrom_version hfrom (by rintro c ⟨⟩; rfl), titleVersionsFrom_append (by decide),
    titleVersionsFrom_version hto hhead, hend, titleVersionsFrom]

end Versions

section Categories

theorem takeWhile_ne_of_not_mem {c : Char} {s : Str} (h : c ∉ s) : s.takeWhile (· ≠ c) = s := by
  rw [List.takeWhile_eq_self_iff]
  intro d hd
  simpa using ne_of_mem_of_not_mem hd h

theorem shownPrefix_of_allowed {group : Str}
    (h : categoryPrefix group ∈ allowedFeatureCategories) :
    group ≠ [] ∧ shownPrefix group ∈ allowedFeatureCategories := by
  have hallowed : ∀ a ∈ allowedFeatureCategories, a ≠ [] ∧ '：' ∉ a := by decide
  obtain ⟨hne, hwide⟩ := hallowed _ h
  constructor
  · rintro rfl
    exact hne rfl
  · unfold categoryPrefix at h hwide
    unfold shownPrefix
    split_ifs at h hwide with hcolon hcolon'
    · rwa [takeWhile_ne_of_not_mem hwide]
    · rwa [takeWhile_ne_of_not_mem hcolon]
    · rwa [takeWhile_ne_of_not_mem hcolon, takeWhile_ne_of_not_mem hwide]

theorem ne_riskSection_of_allowed {group : Str}
    (h : categoryPrefix group ∈ allowedFeatureCategories) : group ≠ "关键变更风险分析".toList := by
  rintro rfl
  exact absurd h (by decide)

end Categories

section Rows

variable (catalog : Catalog)

def entry (row : VersionRow) : CatalogItem :=
  (row.catalogId.bind (official catalog)).getD ⟨[], [], []⟩

def item (row : VersionRow) : Item := ⟨row, (entry catalog row).name, (entry catalog row).version⟩

def Newer (a b : VersionRow) : Prop :=
  versionKey (entry catalog b).version ≤ versionKey (entry catalog a).version

instance : DecidableRel (Newer catalog) :=
  fun a b => inferInstanceAs (Decidable (versionKey (entry catalog b).version ≤
    versionKey (entry catalog a).version))

def featureRows (rows : List VersionRow) : List VersionRow :=
  ((rows.filter fun row => !row.isRisk).insertionSort fun a b => a.rank ≤ b.rank).insertionSort
    (Newer catalog)

def riskRows (rows : List VersionRow) : List VersionRow :=
  (rows.filter fun row => row.isRisk).insertionSort (Newer catalog)

def Named (row : VersionRow) : Prop := ∃ id, row.catalogId = some id ∧ official catalog id ≠ none

instance (row : VersionRow) : Decidable (Named catalog row) :=
  decidable_of_iff (row.catalogId.any fun id => (official catalog id).isSome) (by
    simp [Named, Option.any_eq_true, Option.isSome_iff_ne_none])

variable {catalog} {rows : List VersionRow}

theorem Named.officialItem {row : VersionRow} (h : Named catalog row) :
    officialItem catalog row = .ok (item catalog row) := by
  obtain ⟨id, hid, hne⟩ := h
  obtain ⟨e, he⟩ := Option.ne_none_iff_exists'.mp hne
  simp [Report.officialItem, item, entry, hid, he]

theorem Named.catalogById {row : VersionRow} (h : Named catalog row) :
    catalogById catalog row = .ok (entry catalog row) := by
  obtain ⟨id, hid, hne⟩ := h
  obtain ⟨e, he⟩ := Option.ne_none_iff_exists'.mp hne
  simp [Report.catalogById, entry, hid, he]

theorem mem_featureRows {row : VersionRow} :
    row ∈ featureRows catalog rows ↔ row ∈ rows ∧ row.isRisk = false := by
  simp [featureRows]

theorem mem_riskRows {row : VersionRow} :
    row ∈ riskRows catalog rows ↔ row ∈ rows ∧ row.isRisk = true := by
  simp [riskRows]

variable (catalog rows) in
theorem sortFeatures_map_item :
    sortFeatures ((rows.map (item catalog)).filter fun i => !i.row.isRisk) =
      (featureRows catalog rows).map (item catalog) := by
  rw [sortFeatures, featureRows, List.filter_map]
  rw [List.map_insertionSort (Newer catalog)
    (fun a b : Item => versionKey b.version ≤ versionKey a.version) (item catalog) _
    (fun a _ b _ => Iff.rfl)]
  rw [List.map_insertionSort (fun a b : VersionRow => a.rank ≤ b.rank)
    (fun a b : Item => a.row.rank ≤ b.row.rank) (item catalog) _ (fun a _ b _ => Iff.rfl)]
  rfl

variable (catalog rows) in
theorem sortRisks_map_item :
    sortRisks ((rows.map (item catalog)).filter fun i => i.row.isRisk) =
      (riskRows catalog rows).map (item catalog) := by
  rw [sortRisks, riskRows, List.filter_map]
  rw [List.map_insertionSort (Newer catalog)
    (fun a b : Item => versionKey b.version ≤ versionKey a.version) (item catalog) _
    (fun a _ b _ => Iff.rfl)]
  rfl

theorem expectedNames_eq (h : ∀ row ∈ rows, Named catalog row) :
    expectedNames catalog rows =
      .ok ((rows.insertionSort (Newer catalog)).map fun row => (entry catalog row).name) := by
  have hmap := List.map_insertionSort (Newer catalog)
    (fun a b : CatalogItem => versionKey b.version ≤ versionKey a.version) (entry catalog) rows
    (fun a _ b _ => Iff.rfl)
  rw [expectedNames, mapM_ok fun row hrow => (h row hrow).catalogById]
  simp only [bind, Except.bind, pure, Except.pure, ← hmap, List.map_map]
  rfl

end Rows

section Sheets

variable (catalog : Catalog) (config : Config)

def sheet (features risks : List VersionRow) : List SheetRow :=
  [inlineCell (title config)] :: [inlineCell "关键特性分析".toList] :: versionHeaders.map inlineCell ::
    (features.map (fun row => featureCells (item catalog row)) ++
      [inlineCell "关键变更风险分析".toList] :: riskHeaders.map inlineCell ::
        risks.map fun row => riskCells (item catalog row))

theorem versionLayout_eq {analysis : Analysis}
    (h : ∀ row ∈ analysis.versionAnalysis, Named catalog row) :
    versionLayout analysis catalog config = .ok (sheet catalog config
      (featureRows catalog analysis.versionAnalysis)
      (riskRows catalog analysis.versionAnalysis)) := by
  rw [versionLayout, mapM_ok fun row hrow => (h row hrow).officialItem]
  simp only [bind, Except.bind, pure, Except.pure, sortFeatures_map_item, sortRisks_map_item,
    List.map_map, sheet]
  rfl

theorem sections {α : Type} (a b c d e : α) (features risks : List α) :
    (a :: b :: c :: (features ++ d :: e :: risks)).length = features.length + risks.length + 5 ∧
      ((a :: b :: c :: (features ++ d :: e :: risks)).drop 3).take features.length = features ∧
      (a :: b :: c :: (features ++ d :: e :: risks)).drop (features.length + 3 + 2) = risks := by
  refine ⟨?_, by simp, by simp [List.drop_append]⟩
  simp only [List.length_cons, List.length_append]
  omega

variable (features risks : List VersionRow) in
theorem sheet_sections :
    (sheet catalog config features risks).length = features.length + risks.length + 5 ∧
      ((sheet catalog config features risks).drop 3).take features.length =
        features.map (fun row => featureCells (item catalog row)) ∧
      (sheet catalog config features risks).drop (features.length + 3 + 2) =
        risks.map fun row => riskCells (item catalog row) := by
  have h := sections [inlineCell (title config)] [inlineCell "关键特性分析".toList]
    (versionHeaders.map inlineCell) [inlineCell "关键变更风险分析".toList]
    (riskHeaders.map inlineCell) (features.map fun row => featureCells (item catalog row))
    (risks.map fun row => riskCells (item catalog row))
  rw [List.length_map, List.length_map] at h
  exact h

theorem findIdx_append_cons {α : Type} {p : α → Bool} {l₁ l₂ : List α} {a : α}
    (h : ∀ b ∈ l₁, p b = false) (ha : p a = true) :
    (l₁ ++ a :: l₂).findIdx p = l₁.length := by
  induction l₁ with
  | nil => simp [List.findIdx_cons, ha]
  | cons b l₁ ih =>
    rw [List.forall_mem_cons] at h
    simp [List.findIdx_cons, h.1, ih h.2]

def shownCategory (row : VersionRow) : Str :=
  if row.isRisk then riskCategory (item catalog row) else featureCategory (item catalog row)

theorem featureCategory_of_allowed {row : VersionRow}
    (h : categoryPrefix (row.categoryGroup.getD []) ∈ allowedFeatureCategories) :
    featureCategory (item catalog row) = row.categoryGroup.getD [] := by
  rw [featureCategory, orElse, if_neg]
  · rfl
  · exact (shownPrefix_of_allowed h).1

theorem title_ne (config : Config) : title config ≠ "关键变更风险分析".toList := by
  intro h
  have hhead : (title config).head? = some 'k' := rfl
  rw [h] at hhead
  exact absurd hhead (by decide)

/-- The texts that the verifier compares hold no carriage return. -/
structure Plain (features risks : List VersionRow) : Prop where
  title : '\r' ∉ title config
  features : ∀ row ∈ features,
    '\r' ∉ featureCategory (item catalog row) ∧ '\r' ∉ (entry catalog row).name
  risks : ∀ row ∈ risks, '\r' ∉ riskCategory (item catalog row) ∧
    '\r' ∉ (entry catalog row).name ∧ '\r' ∉ row.riskDescription

variable {features risks : List VersionRow}

theorem not_mem_of_inlineCell {rows : List SheetRow}
    (h : ∀ t ∈ rows.flatten.flatten, '\r' ∉ t) {row : SheetRow} (hrow : row ∈ rows) {s : Str}
    (hs : inlineCell s ∈ row) : '\r' ∉ s := by
  intro hcr
  have hcell : inlineCell s ∈ rows.flatten := List.mem_flatten.mpr ⟨row, hrow, hs⟩
  exact h (escape s) (List.mem_flatten.mpr ⟨_, hcell, List.mem_singleton_self _⟩)
    (mem_escape_iff.mpr hcr)

theorem plain_of_sheet (h : ∀ t ∈ (sheet catalog config features risks).flatten.flatten, '\r' ∉ t) :
    Plain catalog config features risks := by
  have hfeature : ∀ row ∈ features,
      featureCells (item catalog row) ∈ sheet catalog config features risks := by
    intro row hrow
    simp only [sheet, List.mem_cons, List.mem_append]
    exact Or.inr (Or.inr (Or.inr (Or.inl (List.mem_map_of_mem hrow))))
  have hrisk : ∀ row ∈ risks, riskCells (item catalog row) ∈ sheet catalog config features risks := by
    intro row hrow
    simp only [sheet, List.mem_cons, List.mem_append]
    exact Or.inr (Or.inr (Or.inr (Or.inr (Or.inr (Or.inr (List.mem_map_of_mem hrow))))))
  constructor
  · exact not_mem_of_inlineCell h List.mem_cons_self (List.mem_singleton_self _)
  · intro row hrow
    exact ⟨not_mem_of_inlineCell h (hfeature row hrow) (by simp [featureCells]),
      not_mem_of_inlineCell h (hfeature row hrow) (by simp [featureCells, item])⟩
  · intro row hrow
    exact ⟨not_mem_of_inlineCell h (hrisk row hrow) (by simp [riskCells]),
      not_mem_of_inlineCell h (hrisk row hrow) (by simp [riskCells, item]),
      not_mem_of_inlineCell h (hrisk row hrow) (by simp [riskCells, item])⟩

variable {catalog} {config}

theorem firstText_featureCells {i : Item} (h : '\r' ∉ featureCategory i) :
    firstText (featureCells i) = some (featureCategory i) := by
  rw [featureCells, firstText_cons, cellText_inlineCell h]

theorem firstText_riskCells {i : Item} (h : '\r' ∉ riskCategory i) :
    firstText (riskCells i) = some (riskCategory i) := by
  rw [riskCells, firstText_cons, cellText_inlineCell h]

theorem cellText_riskCells {i : Item} (h : '\r' ∉ i.row.riskDescription) :
    (riskCells i)[2]?.map cellText = some i.row.riskDescription :=
  congrArg some (cellText_inlineCell h)

theorem firstText_headers {first : Str} (h : '\r' ∉ first) (rest : List Str) :
    firstText ((first :: rest).map inlineCell) = some first := by
  rw [List.map_cons, firstText_cons, cellText_inlineCell h]

theorem findIdx_sheet (hplain : Plain catalog config features risks)
    (h : ∀ row ∈ features,
      categoryPrefix (row.categoryGroup.getD []) ∈ allowedFeatureCategories) :
    (sheet catalog config features risks).findIdx
      (fun row => firstText row = some "关键变更风险分析".toList) = features.length + 3 := by
  have hsplit : sheet catalog config features risks =
      ([inlineCell (title config)] :: [inlineCell "关键特性分析".toList] ::
        versionHeaders.map inlineCell :: features.map fun row => featureCells (item catalog row)) ++
      [inlineCell "关键变更风险分析".toList] :: riskHeaders.map inlineCell ::
        risks.map fun row => riskCells (item catalog row) := rfl
  rw [hsplit, findIdx_append_cons]
  · simp
  · have hheaders : firstText (versionHeaders.map inlineCell) = some "分类".toList :=
      firstText_headers (by decide) _
    have hsection : cellText (inlineCell "关键特性分析".toList) = "关键特性分析".toList :=
      cellText_inlineCell (by decide)
    simp only [List.forall_mem_cons, List.forall_mem_map, firstText_cons, hsection, hheaders,
      cellText_inlineCell hplain.title, Option.some.injEq, decide_eq_false_iff_not]
    refine ⟨title_ne config, by decide, by decide, ?_⟩
    intro row hrow
    rw [firstText_featureCells (hplain.features row hrow).1, Option.some.injEq,
      featureCategory_of_allowed catalog (h row hrow)]
    exact ne_riskSection_of_allowed (h row hrow)
  · exact decide_eq_true (congrArg some (cellText_inlineCell (by decide)))

def shownCategories (catalog : Catalog) (features risks : List VersionRow) : List Str :=
  (features.map fun row => featureCategory (item catalog row)) ++
    risks.map fun row => riskCategory (item catalog row)

theorem versionLabels_sheet (hplain : Plain catalog config features risks) :
    versionLabels (((sheet catalog config features risks).drop 3).filterMap firstText) =
      versionLabels (shownCategories catalog features risks) := by
  have hmarker : versionLabel "关键变更风险分析".toList = none := by decide
  have hheader : versionLabel "分类".toList = none := by decide
  have hheaders : firstText (riskHeaders.map inlineCell) = some "分类".toList :=
    firstText_headers (by decide) _
  have hsection : cellText (inlineCell "关键变更风险分析".toList) = "关键变更风险分析".toList :=
    cellText_inlineCell (by decide)
  have hfeatures : (features.map fun row => featureCells (item catalog row)).filterMap firstText =
      features.map fun row => featureCategory (item catalog row) := by
    rw [List.filterMap_map, ← List.filterMap_eq_map]
    exact List.filterMap_congr fun row hrow => firstText_featureCells (hplain.features row hrow).1
  have hrisks : (risks.map fun row => riskCells (item catalog row)).filterMap firstText =
      risks.map fun row => riskCategory (item catalog row) := by
    rw [List.filterMap_map, ← List.filterMap_eq_map]
    exact List.filterMap_congr fun row hrow => firstText_riskCells (hplain.risks row hrow).1
  have hdrop : (sheet catalog config features risks).drop 3 =
      (features.map fun row => featureCells (item catalog row)) ++
        [inlineCell "关键变更风险分析".toList] :: riskHeaders.map inlineCell ::
          risks.map fun row => riskCells (item catalog row) := rfl
  rw [hdrop, versionLabels, versionLabels, List.filterMap_append,
    List.filterMap_cons_some (firstText_cons _ _), List.filterMap_cons_some hheaders, hfeatures,
    hrisks, List.filterMap_append, shownCategories, List.filterMap_append, hsection,
    List.filterMap_cons_none hmarker, List.filterMap_cons_none hheader]

theorem heading_isInfix_title (config : Config) :
    "Release Note/ChangeLog解读".toList <:+: title config := by
  have hspace : " Release Note/ChangeLog解读".toList = ' ' :: "Release Note/ChangeLog解读".toList := by
    decide
  have hsplit : title config = _ ++ ' ' :: "Release Note/ChangeLog解读".toList :=
    congrArg (HAppend.hAppend _) hspace
  rw [hsplit]
  exact ((List.suffix_cons ' ' _).trans (List.suffix_append _ _)).isInfix

theorem verifyVersionSheet_iff (hplain : Plain catalog config features risks)
    (hcats : ∀ row ∈ features,
      categoryPrefix (row.categoryGroup.getD []) ∈ allowedFeatureCategories)
    (hdescribed : ∀ row ∈ risks, row.riskDescription ≠ []) {i : ℕ} :
    verifyVersionSheet (sheet catalog config features risks) = .ok i ↔
      (if 1 < (titleVersions (title config)).dedup.length then 2 else 1) ≤
          (versionLabels (shownCategories catalog features risks)).length ∧
        0 < risks.length ∧ i = features.length + 3 := by
  obtain ⟨hlength, htake, hdrop⟩ := sheet_sections catalog config features risks
  have hrow₀ : rowAt (sheet catalog config features risks) 0 = .ok [inlineCell (title config)] := rfl
  have hrow₁ : rowAt (sheet catalog config features risks) 1 =
      .ok [inlineCell "关键特性分析".toList] := rfl
  have hlead : ∀ s, '\r' ∉ s → leadText [inlineCell s] = .ok s := by
    intro s hs
    exact congrArg Except.ok (cellText_inlineCell hs)
  have hsection := hlead "关键特性分析".toList (by decide)
  have hfeatures : (features.map fun row => featureCells (item catalog row)).forM
      verifyFeatureRow = .ok () := by
    rw [forM_ok_iff, List.forall_mem_map]
    intro row hrow
    rw [verifyFeatureRow, firstText_featureCells (hplain.features row hrow).1, Option.getD_some,
      featureCategory_of_allowed catalog (hcats row hrow)]
    exact require_ok_iff.mpr (decide_eq_true (Or.inr (shownPrefix_of_allowed (hcats row hrow)).2))
  have hrisks : (risks.map fun row => riskCells (item catalog row)).forM verifyRiskRow = .ok () := by
    rw [forM_ok_iff, List.forall_mem_map]
    intro row hrow
    have htext := cellText_riskCells (i := item catalog row) (hplain.risks row hrow).2.2
    rw [verifyRiskRow, htext, Option.getD_some]
    exact require_ok_iff.mpr (decide_eq_true (Or.inr (hdescribed row hrow)))
  have hempty : features.length + 3 + 2 < (sheet catalog config features risks).length ↔
      0 < risks.length := by omega
  have hrow : 5 ≤ (sheet catalog config features risks).length := by omega
  simp only [verifyVersionSheet, bind, Checked.bind_eq_ok, require_ok_iff, decide_eq_true_eq, hrow₀,
    hrow₁, hlead _ hplain.title, hsection, versionLabels_sheet hplain, findIdx_sheet hplain hcats,
    Nat.add_sub_cancel, htake, hdrop, hfeatures, hrisks, hempty, hrow, heading_isInfix_title,
    Except.ok.injEq, exists_eq_left', pure, Except.pure, true_and, exists_const, eq_comm (a := i)]

end Sheets

section Contract

def catalogFeatures (catalog : Catalog) : List CatalogItem := catalog.flatMap CatalogVersion.features

/-- What an analysis owes the catalog: its rows name entries, every feature has a row or a
listed omission, and every risk has a description. -/
structure Prepared (catalog : Catalog) (analysis : Analysis) : Prop where
  named : ∀ row ∈ analysis.versionAnalysis, Named catalog row
  covered : ∀ f ∈ catalogFeatures catalog,
    (∃ row ∈ analysis.versionAnalysis, row.catalogId = some f.catalogId) ∨
      f.catalogId ∈ analysis.catalogOmissions
  described : ∀ row ∈ analysis.versionAnalysis, row.isRisk = true → row.riskDescription ≠ []

structure Contract (catalog : Catalog) (config : Config) (analysis : Analysis) : Prop where
  category : ∀ row ∈ analysis.versionAnalysis, row.isRisk = false →
    categoryPrefix (row.categoryGroup.getD []) ∈ allowedFeatureCategories
  risk : ∃ row ∈ analysis.versionAnalysis, row.isRisk = true
  /-- Two rows show labels, different ones where the title shows different versions. -/
  labels : ∃ a ∈ analysis.versionAnalysis, ∃ b ∈ analysis.versionAnalysis, ∃ l m,
    versionLabel (shownCategory catalog a) = some l ∧
      versionLabel (shownCategory catalog b) = some m ∧
      (1 < (titleVersions (title config)).dedup.length → l ≠ m)
  count : (catalogFeatures catalog).length ≤
    (analysis.versionAnalysis.filter fun row => !row.isRisk).length +
      analysis.catalogOmissions.length

/-- The texts of a workbook come through an XML parser. -/
def Workbook.Carried (workbook : Workbook) : Prop :=
  ∀ t ∈ workbook.texts, ∀ c ∈ t, isXmlChar c = true ∧ c ≠ '\r'

variable {catalog : Catalog} {config : Config} {analysis : Analysis} {facts : List Gates.Row}

instance : Decidable (Prepared catalog analysis) :=
  decidable_of_iff ((∀ row ∈ analysis.versionAnalysis, Named catalog row) ∧
      (∀ f ∈ catalogFeatures catalog,
        (∃ row ∈ analysis.versionAnalysis, row.catalogId = some f.catalogId) ∨
          f.catalogId ∈ analysis.catalogOmissions) ∧
      ∀ row ∈ analysis.versionAnalysis, row.isRisk = true → row.riskDescription ≠ [])
    ⟨fun ⟨hnamed, hcovered, hdescribed⟩ => ⟨hnamed, hcovered, hdescribed⟩,
      fun h => ⟨h.named, h.covered, h.described⟩⟩

instance (workbook : Workbook) : Decidable workbook.Carried :=
  inferInstanceAs (Decidable (∀ t ∈ workbook.texts, ∀ c ∈ t, isXmlChar c = true ∧ c ≠ '\r'))

theorem length_iff {α : Type} {l : List α} (hl : l.Nodup) {p : Prop} [Decidable p] :
    (if p then 2 else 1) ≤ l.length ↔ ∃ a ∈ l, ∃ b ∈ l, p → a ≠ b := by
  rcases l with _ | ⟨a, _ | ⟨b, l⟩⟩
  · split_ifs <;> simp
  · split_ifs with hp
    · simp [hp]
    · simp [hp]
  · have hne : a ≠ b := fun h => (List.nodup_cons.mp hl).1 (h ▸ List.mem_cons_self)
    refine iff_of_true ?_ ⟨a, by simp, b, by simp, fun _ => hne⟩
    split_ifs <;> simp

theorem mem_versionLabels_iff {x : Str} :
    x ∈ versionLabels (shownCategories catalog (featureRows catalog analysis.versionAnalysis)
        (riskRows catalog analysis.versionAnalysis)) ↔
      ∃ row ∈ analysis.versionAnalysis, versionLabel (shownCategory catalog row) = some x := by
  rw [versionLabels, List.mem_dedup, List.mem_filterMap]
  constructor
  · rintro ⟨category, hmem, hx⟩
    rcases List.mem_append.mp hmem with hmem | hmem
    · obtain ⟨row, hrow, rfl⟩ := List.mem_map.mp hmem
      obtain ⟨hrow, hr⟩ := mem_featureRows.mp hrow
      exact ⟨row, hrow, by rwa [shownCategory, hr]⟩
    · obtain ⟨row, hrow, rfl⟩ := List.mem_map.mp hmem
      obtain ⟨hrow, hr⟩ := mem_riskRows.mp hrow
      exact ⟨row, hrow, by rwa [shownCategory, hr]⟩
  · rintro ⟨row, hrow, hx⟩
    refine ⟨_, ?_, hx⟩
    rw [shownCategories, List.mem_append, List.mem_map, List.mem_map, shownCategory]
    cases hr : row.isRisk with
    | false => exact Or.inl ⟨row, mem_featureRows.mpr ⟨hrow, hr⟩, by simp⟩
    | true => exact Or.inr ⟨row, mem_riskRows.mpr ⟨hrow, hr⟩, by simp⟩

theorem labels_iff :
    (if 1 < (titleVersions (title config)).dedup.length then 2 else 1) ≤
        (versionLabels (shownCategories catalog (featureRows catalog analysis.versionAnalysis)
          (riskRows catalog analysis.versionAnalysis))).length ↔
      ∃ a ∈ analysis.versionAnalysis, ∃ b ∈ analysis.versionAnalysis, ∃ l m,
        versionLabel (shownCategory catalog a) = some l ∧
          versionLabel (shownCategory catalog b) = some m ∧
          (1 < (titleVersions (title config)).dedup.length → l ≠ m) := by
  have hnodup : (versionLabels (shownCategories catalog (featureRows catalog
      analysis.versionAnalysis) (riskRows catalog analysis.versionAnalysis))).Nodup :=
    List.nodup_dedup _
  rw [length_iff hnodup]
  constructor
  · rintro ⟨l, hl, m, hm, hne⟩
    obtain ⟨a, ha, hal⟩ := mem_versionLabels_iff.mp hl
    obtain ⟨b, hb, hbm⟩ := mem_versionLabels_iff.mp hm
    exact ⟨a, ha, b, hb, l, m, hal, hbm, hne⟩
  · rintro ⟨a, ha, b, hb, l, m, hal, hbm, hne⟩
    exact ⟨l, mem_versionLabels_iff.mpr ⟨a, ha, hal⟩, m, mem_versionLabels_iff.mpr ⟨b, hb, hbm⟩, hne⟩

theorem shownNames_map {f : Item → SheetRow}
    (hf : ∀ i, ∃ c rest, f i = c :: inlineCell i.featureName :: rest) {rows : List VersionRow}
    (hrows : ∀ row ∈ rows, '\r' ∉ (entry catalog row).name) :
    shownNames (rows.map fun row => f (item catalog row)) =
      .ok (rows.map fun row => (entry catalog row).name) := by
  rw [shownNames, List.mapM_map]
  apply mapM_ok
  intro row hmem
  obtain ⟨c, rest, hrow⟩ := hf (item catalog row)
  rw [Function.comp_apply, hrow]
  exact congrArg Except.ok (cellText_inlineCell (hrows row hmem))

theorem verifyChangeSheet_changeLayout
    (hplain : ∀ t ∈ (changeLayout facts analysis).flatten.flatten, '\r' ∉ t)
    (h : ∀ r ∈ facts, IsVersion r.priorVersion.toList ∧ IsVersion r.toVersion.toList) :
    verifyChangeSheet (changeLayout facts analysis) = .ok () := by
  have hrow : rowAt (changeLayout facts analysis) 0 = .ok (changeHeaders.map inlineCell) := rfl
  have hclean : ∀ s ∈ changeHeaders, '\r' ∉ s := by decide
  have htexts : (changeHeaders.map inlineCell).map cellText = changeHeaders := by
    rw [List.map_map]
    exact (List.map_congr_left fun s hs => cellText_inlineCell (hclean s hs)).trans (List.map_id _)
  have hstage : ∀ r ∈ facts, verifyChangeRow (changeCells analysis r) = .ok () := by
    intro r hr
    obtain ⟨hprior, hto⟩ := h r hr
    have hlabel : '\r' ∉ versionRangeLabel r.priorVersion.toList r.toVersion.toList :=
      not_mem_of_inlineCell hplain (List.mem_cons_of_mem _ (List.mem_map_of_mem hr))
        List.mem_cons_self
    have hlead : leadText (changeCells analysis r) =
        .ok (versionRangeLabel r.priorVersion.toList r.toVersion.toList) :=
      congrArg Except.ok (cellText_inlineCell hlabel)
    rw [verifyChangeRow, hlead]
    exact require_ok_iff.mpr (decide_eq_true (Or.inr (isStage_versionRangeLabel hprior hto)))
  rw [verifyChangeSheet, hrow]
  simp only [bind, Except.bind, htexts]
  rw [(require_ok_iff (a := ())).mpr (by decide)]
  exact forM_ok_iff.mpr (List.forall_mem_map.mpr hstage)

theorem catalogCount_eq (catalog : Catalog) :
    (catalog.map fun v => v.features.length).sum = (catalogFeatures catalog).length := by
  rw [catalogFeatures, List.length_flatMap]

theorem of_verifyRunDir {workbook : Workbook} {i : ℕ}
    (h : verifyRunDir workbook i facts catalog analysis = .ok ()) :
    (catalogFeatures catalog).length ≤ (analysis.versionAnalysis.filter fun row =>
        !row.isRisk).length + analysis.catalogOmissions.length ∧
      ∀ row ∈ analysis.versionAnalysis, row.isRisk = false →
        categoryPrefix (row.categoryGroup.getD []) ∈ allowedFeatureCategories := by
  simp only [verifyRunDir, bind, Checked.bind_eq_ok, require_ok_iff, decide_eq_true_eq,
    catalogCount_eq, exists_const] at h
  obtain ⟨-, hcount, ⟨⟩, hgroups, -⟩ := h
  refine ⟨hcount, fun row hrow hrisk => ?_⟩
  have hgroup := forM_ok_iff.mp hgroups row (List.mem_filter.mpr ⟨hrow, by simp [hrisk]⟩)
  exact of_decide_eq_true (require_ok_iff.mp hgroup)

theorem verifyRunDir_sheet (hplain : Plain catalog config
      (featureRows catalog analysis.versionAnalysis) (riskRows catalog analysis.versionAnalysis))
    (hnamed : ∀ row ∈ analysis.versionAnalysis, Named catalog row)
    (h : Contract catalog config analysis) :
    verifyRunDir ⟨sheet catalog config (featureRows catalog analysis.versionAnalysis)
        (riskRows catalog analysis.versionAnalysis), changeLayout facts analysis⟩
      ((featureRows catalog analysis.versionAnalysis).length + 3) facts catalog analysis = .ok () := by
  have hlen : (changeLayout facts analysis).length - 1 = facts.length := by simp [changeLayout]
  have hgroups : (analysis.versionAnalysis.filter fun row => !row.isRisk).forM
      verifyCategoryGroup = .ok () := by
    rw [forM_ok_iff]
    intro row hrow
    obtain ⟨hmem, hrisk⟩ := List.mem_filter.mp hrow
    exact require_ok_iff.mpr (decide_eq_true (h.category row hmem (by simpa using hrisk)))
  have hfeatures : expectedNames catalog ((analysis.versionAnalysis.filter fun row =>
      !row.isRisk).insertionSort fun a b => a.rank ≤ b.rank) =
      .ok ((featureRows catalog analysis.versionAnalysis).map fun row => (entry catalog row).name) := by
    apply expectedNames_eq
    intro row hrow
    exact hnamed row (by simp at hrow; exact hrow.1)
  have hrisks : expectedNames catalog (analysis.versionAnalysis.filter fun row => row.isRisk) =
      .ok ((riskRows catalog analysis.versionAnalysis).map fun row => (entry catalog row).name) := by
    apply expectedNames_eq
    intro row hrow
    exact hnamed row (List.mem_of_mem_filter hrow)
  obtain ⟨-, htake, hdrop⟩ := sheet_sections catalog config
    (featureRows catalog analysis.versionAnalysis) (riskRows catalog analysis.versionAnalysis)
  have hshown := shownNames_map (f := featureCells) (fun i => ⟨_, _, rfl⟩)
    fun row hrow => (hplain.features row hrow).2
  have hshown' := shownNames_map (f := riskCells) (fun i => ⟨_, _, rfl⟩)
    fun row hrow => (hplain.risks row hrow).2.1
  simp only [verifyRunDir, bind, Checked.bind_eq_ok, require_ok_iff, decide_eq_true_eq,
    catalogCount_eq, hlen, hgroups, hfeatures, hrisks, Nat.add_sub_cancel, htake, hdrop, hshown,
    hshown', h.count, Except.ok.injEq, exists_eq_left', exists_const, true_and]

theorem verifyReport_iff (hprepared : Prepared catalog analysis)
    (hfacts : ∀ r ∈ facts, IsVersion r.priorVersion.toList ∧ IsVersion r.toVersion.toList)
    (hcarried : Workbook.Carried ⟨sheet catalog config
      (featureRows catalog analysis.versionAnalysis) (riskRows catalog analysis.versionAnalysis),
      changeLayout facts analysis⟩) :
    verifyReport ⟨sheet catalog config (featureRows catalog analysis.versionAnalysis)
        (riskRows catalog analysis.versionAnalysis), changeLayout facts analysis⟩
        facts catalog analysis = .ok () ↔ Contract catalog config analysis := by
  rw [Workbook.Carried, Workbook.texts, List.flatten_append, List.flatten_append,
    List.forall_mem_append] at hcarried
  obtain ⟨hversion, hchange⟩ := hcarried
  have hplain := plain_of_sheet catalog config fun t ht hcr => (hversion t ht _ hcr).2 rfl
  have hchanges := verifyChangeSheet_changeLayout (fun t ht hcr => (hchange t ht _ hcr).2 rfl) hfacts
  have hdescribed : ∀ row ∈ riskRows catalog analysis.versionAnalysis, row.riskDescription ≠ [] := by
    intro row hrow
    obtain ⟨hmem, hrisk⟩ := mem_riskRows.mp hrow
    exact hprepared.described row hmem hrisk
  have hxml : ((sheet catalog config (featureRows catalog analysis.versionAnalysis)
      (riskRows catalog analysis.versionAnalysis) ++ changeLayout facts analysis).flatten.flatten.all
        fun t => t.all isXmlChar) = true := by
    rw [List.flatten_append, List.flatten_append, List.all_append, Bool.and_eq_true]
    exact ⟨List.all_eq_true.mpr fun t ht => List.all_eq_true.mpr fun c hc => (hversion t ht c hc).1,
      List.all_eq_true.mpr fun t ht => List.all_eq_true.mpr fun c hc => (hchange t ht c hc).1⟩
  simp only [verifyReport, Workbook.texts, bind, Checked.bind_eq_ok, require_ok_iff, hxml, hchanges,
    exists_const, true_and]
  have hcats : (∀ row ∈ analysis.versionAnalysis, row.isRisk = false →
      categoryPrefix (row.categoryGroup.getD []) ∈ allowedFeatureCategories) →
      ∀ row ∈ featureRows catalog analysis.versionAnalysis,
        categoryPrefix (row.categoryGroup.getD []) ∈ allowedFeatureCategories := by
    intro hcategory row hrow
    obtain ⟨hmem, hrisk⟩ := mem_featureRows.mp hrow
    exact hcategory row hmem hrisk
  constructor
  · rintro ⟨i, hi, hrun⟩
    obtain ⟨hcount, hcategory⟩ := of_verifyRunDir hrun
    obtain ⟨hlabels, hrisk, -⟩ := (verifyVersionSheet_iff hplain (hcats hcategory) hdescribed).mp hi
    obtain ⟨row, hrow⟩ := List.exists_mem_of_length_pos hrisk
    exact ⟨hcategory, ⟨row, mem_riskRows.mp hrow⟩, labels_iff.mp hlabels, hcount⟩
  · intro h
    obtain ⟨row, hrow, hrisk⟩ := h.risk
    exact ⟨_, (verifyVersionSheet_iff hplain (hcats h.category) hdescribed).mpr
      ⟨labels_iff.mpr h.labels, List.length_pos_of_mem (mem_riskRows.mpr ⟨hrow, hrisk⟩), rfl⟩,
      verifyRunDir_sheet hplain hprepared.named h⟩

end Contract

section Facts

variable {h : Gates.History} {start stop : Gates.Version} {fromVersion toVersion : String}

def WrittenVersions (h : Gates.History) : Prop :=
  ∀ g ∈ h.gates, ∀ s ∈ g.2, 0 ≤ (ofLex s.version).1 ∧ 0 ≤ (ofLex s.version).2

theorem releaseRow_versions {name : String} {specs : List Gates.Spec} {r : Gates.Row}
    (hr : Gates.releaseRow start stop fromVersion toVersion name specs = some r) :
    r.toVersion = toVersion ∧ ∃ s ∈ specs, r.priorVersion = s.version.text := by
  unfold Gates.releaseRow at hr
  split at hr
  · cases hr
  · rename_i first rest hrange
    obtain rfl := Option.some.inj hr
    refine ⟨rfl, _, ?_, rfl⟩
    have hfirst : first ∈ specs := (Gates.mem_inRange.mp (hrange ▸ List.mem_cons_self)).1
    cases hlast : (specs.filter fun s => s.version < start).getLast? with
    | none => exact hfirst
    | some s => exact List.mem_of_mem_filter (List.mem_of_getLast? hlast)

theorem isVersion_of_mem_releaseEvents (hh : WrittenVersions h)
    (hto : IsVersion toVersion.toList) {r : Gates.Row}
    (hr : r ∈ Gates.releaseEvents h start stop fromVersion toVersion) :
    IsVersion r.priorVersion.toList ∧ IsVersion r.toVersion.toList := by
  obtain ⟨name, specs, hg, hrow⟩ := Gates.mem_releaseEvents.mp hr
  obtain ⟨hversion, s, hs, hprior⟩ := releaseRow_versions hrow
  obtain ⟨hmajor, hminor⟩ := hh _ hg s hs
  rw [hversion, hprior]
  exact ⟨isVersion_text hmajor hminor, hto⟩

end Facts

section Example

def exampleRow (id category group : String) : VersionRow :=
  ⟨some id.toList, some category.toList, some group.toList, some "现状".toList, some "增强".toList,
    none, some "DFX:稳定性".toList, some "价值".toList⟩

def catalogWith (name : String) : Catalog :=
  [⟨[⟨"f:1.35".toList, "Baseline Example".toList, "1.35".toList⟩], []⟩,
    ⟨[⟨"f:1.36".toList, name.toList, "1.36".toList⟩],
      [⟨"r:1.36".toList, "Retired Example".toList, "1.36".toList⟩]⟩]

def exampleCatalog : Catalog := catalogWith "Target Example"

/-- A parser reads the carriage return in a name as a line feed. -/
def returnCatalog : Catalog := catalogWith "Target\rExample"

def exampleConfig : Config := ⟨"1.35".toList, "1.36".toList⟩

def exampleAnalysis (rows : List VersionRow) : Analysis := ⟨rows, [], []⟩

def baseline : VersionRow := exampleRow "f:1.35" "关键特性" "孵化成熟特性:1.35"

def target : VersionRow := exampleRow "f:1.36" "关键特性" "孵化成熟特性:1.36"

def retired : VersionRow := exampleRow "r:1.36" "弃用与移除" "特性剔除:1.36"

def noGates : Gates.History := ⟨[], by simp, by simp, by simp⟩

def exampleFacts : List Gates.Row :=
  Gates.releaseEvents noGates (toLex (1, 35)) (toLex (1, 36)) "1.35" "1.36"

instance {x : Except PyError Workbook} {p : Workbook → Prop} [DecidablePred p] :
    Decidable (∃ workbook, x = .ok workbook ∧ p workbook) :=
  match x with
  | .ok workbook => decidable_of_iff (p workbook) (by simp)
  | .error _ => .isFalse (by simp)

/-- A prepared analysis whose report is built, comes through the parser and is refused. -/
def Refused (rows : List VersionRow) (e : Rejection) : Prop :=
  Prepared exampleCatalog (exampleAnalysis rows) ∧
    ∃ workbook, writeXlsx (exampleAnalysis rows) exampleFacts exampleCatalog exampleConfig =
        .ok workbook ∧ workbook.Carried ∧
      verifyReport workbook exampleFacts exampleCatalog (exampleAnalysis rows) = .error e

instance (rows : List VersionRow) (e : Rejection) : Decidable (Refused rows e) :=
  inferInstanceAs (Decidable (_ ∧ _))

end Example

end K8sLearn.Report
