import Mathlib.Data.List.DropRight
import K8sLearn.Report.Build

/-! # Verifying the report

`verify_report.main` reads the two sheets back and leaves at the first requirement that
fails: the headings, the version labels of the categories, a risk section with
described risks, the three feature categories, the stage column of the changes, the
counts, and the names of both sections in the order it derives from the run directory.
-/

namespace K8sLearn.Report

/-- `Char` of XML 1.0; a document with another character is not parsed. -/
def isXmlChar (c : Char) : Bool :=
  c = '\t' || c = '\n' || c = '\r' || ' ' ≤ c && c.toNat ≠ 0xFFFE && c.toNat ≠ 0xFFFF

def Workbook.texts (workbook : Workbook) : List Str :=
  (workbook.versionRows ++ workbook.changeRows).flatten.flatten

/-- The text an XML parser reads from escaped character data; a line ends with a line feed in it,
however it ends in the document. -/
def unescape : Str → Str
  | [] => []
  | '\r' :: '\n' :: s => '\n' :: unescape s
  | '\r' :: s => '\n' :: unescape s
  | '&' :: 'a' :: 'm' :: 'p' :: ';' :: s => '&' :: unescape s
  | '&' :: 'l' :: 't' :: ';' :: s => '<' :: unescape s
  | '&' :: 'g' :: 't' :: ';' :: s => '>' :: unescape s
  | c :: s => c :: unescape s

def cellText (cell : Cell) : Str := (cell.map unescape).flatten

/-- `cell_text(row.find("m:c", NS))`; a row without cells gives `none`. -/
def firstText (row : SheetRow) : Option Str := row.head?.map cellText

/-- Why a report is not accepted: the `SystemExit`s of `main`, and the exceptions it lets
through. -/
inductive Rejection where
  | noHierarchy
  | noTitle
  | notCovering (versions : List Str)
  | noRisks
  | featureCategory (category : Str)
  | noDescription
  | noHeaders
  | stage (text : Str)
  | changeCount (report facts : ℕ)
  | coverage (report omissions catalog : ℕ)
  | categoryGroup (categoryGroup : Str)
  | featureNames
  | riskNames
  | raised (e : PyError)
  deriving DecidableEq

def Rejection.message : Rejection → String
  | noHierarchy => "version analysis hierarchy is missing"
  | noTitle => "version analysis title is missing"
  | notCovering versions => "version analysis does not cover the full range: " ++
      String.ofList (Str.join ", ".toList versions)
  | noRisks => "version analysis risk section is empty"
  | featureCategory category =>
    "version analysis feature category must be one of 孵化成熟特性/增强特性/新增特性, got: " ++
      String.ofList category
  | noDescription => "version analysis contains a risk row without detailed description"
  | noHeaders => "feature change headers are incomplete"
  | stage text => "feature change 版本变更阶段 must be v<X>->v<Y> format, got: " ++ String.ofList text
  | changeCount report facts => "feature change row count mismatch: report=" ++ toString report ++
      ", facts=" ++ toString facts
  | coverage report omissions catalog => "version analysis coverage mismatch: report=" ++
      toString report ++ ", omissions=" ++ toString omissions ++ ", catalog=" ++ toString catalog
  | categoryGroup text =>
    "version analysis category_group must be one of 孵化成熟特性/增强特性/新增特性, got: " ++
      String.ofList text
  | featureNames => "version analysis feature names differ from official release-blog catalog"
  | riskNames => "version analysis risk names differ from official release-blog catalog"
  | raised (.exception _ message) => message
  | raised _ => ""

section Patterns

/-- What `\d+\.\d+` matches at the start of a text, with the rest. -/
def takeVersion (s : Str) : Option (Str × Str) :=
  match s.dropWhile Char.isDigit with
  | '.' :: r =>
    if s.takeWhile Char.isDigit ≠ [] ∧ r.takeWhile Char.isDigit ≠ [] then
      some (s.takeWhile Char.isDigit ++ '.' :: r.takeWhile Char.isDigit, r.dropWhile Char.isDigit)
    else none
  | _ => none

/-- The scan of `titleVersions`, which first passes over the rest of the last match. -/
def titleVersionsFrom : ℕ → Str → List Str
  | _, [] => []
  | n + 1, _ :: s => titleVersionsFrom n s
  | 0, c :: s =>
    match c, takeVersion s with
    | 'v', some (version, _) => version :: titleVersionsFrom version.length s
    | _, _ => titleVersionsFrom 0 s

/-- `re.findall(r"v(\d+\.\d+)", title)`. -/
def titleVersions (title : Str) : List Str := titleVersionsFrom 0 title

/-- `re.compile(r"^v\d+\.\d+->v\d+\.\d+$").match(text)`. -/
def isStage : Str → Bool
  | 'v' :: s =>
    match takeVersion s with
    | some (_, '-' :: '>' :: 'v' :: s) =>
      match takeVersion s with
      | some (_, rest) => rest = [] || rest = ['\n']
      | none => false
    | _ => false
  | _ => false

end Patterns

section Categories

/-- `category.rsplit(sep, 1)[-1]`, if the category has a colon of either kind. -/
def versionLabel (category : Str) : Option Str :=
  if ':' ∈ category then some (category.rtakeWhile (· ≠ ':'))
  else if '：' ∈ category then some (category.rtakeWhile (· ≠ '：'))
  else none

/-- The set `versions`, in the order of the rows. -/
def versionLabels (categories : List Str) : List Str := (categories.filterMap versionLabel).dedup

def allowedFeatureCategories : List Str :=
  ["孵化成熟特性".toList, "增强特性".toList, "新增特性".toList]

/-- `cat.split(":")[0].split("：")[0]`. -/
def shownPrefix (category : Str) : Str := (category.takeWhile (· ≠ ':')).takeWhile (· ≠ '：')

end Categories

/-- The entry of `catalog_by_id` that a row names, which must be there. -/
def catalogById (catalog : Catalog) (row : VersionRow) : Except Rejection CatalogItem :=
  match row.catalogId.bind (official catalog) with
  | some item => .ok item
  | none => .error (.raised (.exception "KeyError"
      (String.ofList (row.catalogId.getD "catalog_id".toList))))

section Main

def require (p : Bool) (e : Rejection) : Except Rejection Unit := if p then .ok () else .error e

def leadText (row : SheetRow) : Except Rejection Str :=
  match firstText row with
  | some text => .ok text
  | none => .error (.raised (.exception "AttributeError"
      "'NoneType' object has no attribute 'findall'"))

/-- `rows[i]`. -/
def rowAt (rows : List SheetRow) (i : ℕ) : Except Rejection SheetRow :=
  match rows[i]? with
  | some row => .ok row
  | none => .error (.raised (.exception "IndexError" "list index out of range"))

def expectedNames (catalog : Catalog) (rows : List VersionRow) : Except Rejection (List Str) := do
  let items ← rows.mapM (catalogById catalog)
  return (items.insertionSort fun a b => versionKey b.version ≤ versionKey a.version).map
    CatalogItem.name

def shownNames (rows : List SheetRow) : Except Rejection (List Str) :=
  rows.mapM fun row =>
    match row with
    | _ :: cell :: _ => .ok (cellText cell)
    | _ => .error (.raised (.exception "IndexError" "list index out of range"))

/-- A row of the feature section shows no category or an allowed one. -/
def verifyFeatureRow (row : SheetRow) : Except Rejection Unit :=
  let cat := (firstText row).getD []
  require (cat = [] ∨ shownPrefix cat ∈ allowedFeatureCategories) (.featureCategory cat)

/-- A row of the risk section that shows a category has a description. -/
def verifyRiskRow (row : SheetRow) : Except Rejection Unit :=
  require ((firstText row).getD [] = [] ∨ (row[2]?.map cellText).getD [] ≠ []) .noDescription

/-- The requirements on the first sheet; the index of the risk section is returned. -/
def verifyVersionSheet (rows : List SheetRow) : Except Rejection ℕ := do
  require (5 ≤ rows.length) .noHierarchy
  require ((← leadText (← rowAt rows 1)) = "关键特性分析".toList) .noHierarchy
  let title ← leadText (← rowAt rows 0)
  require ("Release Note/ChangeLog解读".toList <:+: title) .noTitle
  let versions := versionLabels ((rows.drop 3).filterMap firstText)
  let expectedCount := if 1 < (titleVersions title).dedup.length then 2 else 1
  require (expectedCount ≤ versions.length) (.notCovering versions)
  let riskHeaderIndex := rows.findIdx fun row => firstText row = some "关键变更风险分析".toList
  require (riskHeaderIndex + 2 < rows.length) .noRisks
  ((rows.drop 3).take (riskHeaderIndex - 3)).forM verifyFeatureRow
  (rows.drop (riskHeaderIndex + 2)).forM verifyRiskRow
  return riskHeaderIndex

/-- A row of the second sheet starts with nothing or a range of versions. -/
def verifyChangeRow (row : SheetRow) : Except Rejection Unit := do
  let first ← leadText row
  require (first = [] ∨ isStage first) (.stage first)

def verifyChangeSheet (rows : List SheetRow) : Except Rejection Unit := do
  let headers := (← rowAt rows 0).map cellText
  require (["版本变更阶段".toList, "分析结论".toList, "详细说明".toList, "补充说明".toList].all
    fun h => h ∈ headers) .noHeaders
  (rows.drop 1).forM verifyChangeRow

/-- A feature row of the analysis names one of the three categories. -/
def verifyCategoryGroup (row : VersionRow) : Except Rejection Unit :=
  let group := row.categoryGroup.getD []
  require (categoryPrefix group ∈ allowedFeatureCategories) (.categoryGroup group)

/-- The requirements that compare the sheets with the run directory. -/
def verifyRunDir (workbook : Workbook) (riskHeaderIndex : ℕ) (facts : List Gates.Row)
    (catalog : Catalog) (analysis : Analysis) : Except Rejection Unit := do
  require (workbook.changeRows.length - 1 = facts.length)
    (.changeCount (workbook.changeRows.length - 1) facts.length)
  let catalogCount := (catalog.map fun v => v.features.length).sum
  let features := analysis.versionAnalysis.filter fun row => !row.isRisk
  let risks := analysis.versionAnalysis.filter fun row => row.isRisk
  require (catalogCount ≤ features.length + analysis.catalogOmissions.length)
    (.coverage features.length analysis.catalogOmissions.length catalogCount)
  features.forM verifyCategoryGroup
  let featureNames ← expectedNames catalog
    (features.insertionSort fun a b => a.rank ≤ b.rank)
  let riskNames ← expectedNames catalog risks
  require ((← shownNames ((workbook.versionRows.drop 3).take (riskHeaderIndex - 3))) = featureNames)
    .featureNames
  require ((← shownNames (workbook.versionRows.drop (riskHeaderIndex + 2))) = riskNames) .riskNames

/-- `verify_report.main` on a workbook and its run directory. Both sheets are parsed first. -/
def verifyReport (workbook : Workbook) (facts : List Gates.Row) (catalog : Catalog)
    (analysis : Analysis) : Except Rejection Unit := do
  require (workbook.texts.all fun t => t.all isXmlChar)
    (.raised (.exception "ParseError" "not well-formed (invalid token)"))
  let riskHeaderIndex ← verifyVersionSheet workbook.versionRows
  verifyChangeSheet workbook.changeRows
  verifyRunDir workbook riskHeaderIndex facts catalog analysis

end Main

end K8sLearn.Report
