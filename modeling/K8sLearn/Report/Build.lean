import Mathlib.Data.List.Sort
import K8sLearn.Gates.Release
import K8sLearn.Lib.PyValue

/-! # Building the report

`write_xlsx` lays out two sheets: the analysis of a version range, with a section of
features and a section of risks, and one row for each feature-gate change. A sheet is
kept here as the cells of its rows, each cell as the escaped texts of its `t` elements;
heights, widths, merges and styles carry no text and are left out.
-/

namespace K8sLearn.Report

section Xml

/-- `xml.sax.saxutils.escape`. -/
def escape (s : Str) : Str :=
  s.flatMap fun c =>
    if c = '&' then "&amp;".toList
    else if c = '<' then "&lt;".toList
    else if c = '>' then "&gt;".toList
    else [c]

abbrev Cell := List Str

abbrev SheetRow := List Cell

def inlineCell (value : Str) : Cell := [escape value]

def boolCell (_ : Bool) : Cell := []

def richCell (runs : List Str) : Cell := runs.map escape

end Xml

structure CatalogItem where
  catalogId : Str
  name : Str
  version : Str

structure CatalogVersion where
  features : List CatalogItem
  risks : List CatalogItem

abbrev Catalog := List CatalogVersion

/-- A row of `version_analysis`; a missing key is `none`. -/
structure VersionRow where
  catalogId : Option Str
  category : Option Str
  categoryGroup : Option Str
  currentProblem : Option Str
  enhancement : Option Str
  featureSummary : Option Str
  valueDomain : Option Str
  valueAnalysis : Option Str

/-- A row of the analysis of feature changes; a missing key is `none`. -/
structure ChangeText where
  id : Option Str
  conclusion : Option Str
  checkMethod : Option Str
  sources : Option (List Str)
  details : Option Str
  notes : Option Str

structure Analysis where
  versionAnalysis : List VersionRow
  featureChanges : List ChangeText
  /-- The catalog ids of the omissions listed. -/
  catalogOmissions : List Str

structure Config where
  fromVersion : Str
  toVersion : Str

structure Workbook where
  versionRows : List SheetRow
  changeRows : List SheetRow

def versionHeaders : List Str :=
  ["分类".toList, "特性名称".toList, "特性功能介绍".toList, "特性价值领域".toList, "特性功能价值分析".toList]

def riskHeaders : List Str :=
  ["分类".toList, "变更名称".toList, "风险详细描述".toList, "风险涉及领域".toList, "技术or商业影响".toList]

def changeHeaders : List Str :=
  ["版本变更阶段".toList, "变更类型".toList, "特性名称".toList, "特性阶段变化".toList, "默认值变化".toList,
    "默认值锁定".toList, "是否兼容".toList, "兼容分析".toList, "分析结论".toList, "排查方法".toList,
    "参考资料".toList, "详细说明".toList, "建议开启？".toList, "补充说明".toList]

section Keys

/-- `version_key`: the numbers in a version, for ASCII digits. -/
def versionKey (version : Str) : List ℕ :=
  match (Str.runs Char.isDigit version).map fun r => (Str.toNat r).getD 0 with
  | [] => [0]
  | key => key

/-- The entry of an id in `catalog_index`, where a later one replaces an earlier one. -/
def official (catalog : Catalog) (id : Str) : Option CatalogItem :=
  (catalog.flatMap fun v => v.features ++ v.risks).reverse.find? fun item => item.catalogId = id

def categoryPrefix (categoryGroup : Str) : Str :=
  if ':' ∈ categoryGroup then categoryGroup.takeWhile (· ≠ ':')
  else if '：' ∈ categoryGroup then categoryGroup.takeWhile (· ≠ '：')
  else categoryGroup

/-- `category_order.get(prefix, 3)`. -/
def categoryOrder (name : Str) : ℕ :=
  if name = "孵化成熟特性".toList then 0
  else if name = "增强特性".toList then 1
  else if name = "新增特性".toList then 2
  else 3

/-- `item.get("category") in ("弃用与移除", "关键变更风险")`. -/
def VersionRow.isRisk (row : VersionRow) : Bool :=
  row.category = some "弃用与移除".toList ∨ row.category = some "关键变更风险".toList

/-- The place of a row's category in the order of categories. -/
def VersionRow.rank (row : VersionRow) : ℕ :=
  categoryOrder (categoryPrefix (row.categoryGroup.getD []))

end Keys

/-- `a or b` on strings. -/
def orElse (a b : Str) : Str := if a = [] then b else a

section Version

/-- A row with the official name and version put in. -/
structure Item where
  row : VersionRow
  featureName : Str
  version : Str

def officialItem (catalog : Catalog) (row : VersionRow) : Except PyError Item :=
  match official catalog (row.catalogId.getD []) with
  | some item => .ok ⟨row, item.name, item.version⟩
  | none => .error (.exception "ValueError"
      ("version analysis row has no official release-blog catalog entry: " ++
        String.ofList (orElse (row.catalogId.getD []) "<missing>".toList)))

/-- Two stable sorts: by category, then by version, the newest first. -/
def sortFeatures (features : List Item) : List Item :=
  (features.insertionSort fun a b => a.row.rank ≤ b.row.rank).insertionSort fun a b =>
    versionKey b.version ≤ versionKey a.version

def sortRisks (risks : List Item) : List Item :=
  risks.insertionSort fun a b => versionKey b.version ≤ versionKey a.version

def featureCategory (item : Item) : Str :=
  orElse (item.row.categoryGroup.getD []) ("孵化成熟特性:".toList ++ item.version)

def featureCells (item : Item) : SheetRow :=
  let problem := item.row.currentProblem.getD []
  let enhancement := orElse (item.row.enhancement.getD []) (item.row.featureSummary.getD [])
  [inlineCell (featureCategory item), inlineCell item.featureName,
    richCell ["现状：".toList, problem ++ "\n".toList, "本特性增强：".toList, enhancement],
    inlineCell (item.row.valueDomain.getD []), inlineCell (item.row.valueAnalysis.getD [])]

def riskCategory (item : Item) : Str :=
  orElse (item.row.categoryGroup.getD []) ("特性剔除:".toList ++ item.version)

def VersionRow.riskDescription (row : VersionRow) : Str :=
  orElse (orElse (row.featureSummary.getD []) (row.enhancement.getD [])) (row.currentProblem.getD [])

def riskCells (item : Item) : SheetRow :=
  [inlineCell (riskCategory item), inlineCell item.featureName, inlineCell item.row.riskDescription,
    inlineCell (item.row.valueDomain.getD []), inlineCell (item.row.valueAnalysis.getD [])]

def title (config : Config) : Str :=
  "kubernetes v".toList ++ config.fromVersion ++ "-v".toList ++ config.toVersion ++
    " Release Note/ChangeLog解读".toList

/-- The rows of the first sheet; the blank row between the sections is not written. -/
def versionLayout (analysis : Analysis) (catalog : Catalog) (config : Config) :
    Except PyError (List SheetRow) := do
  let items ← analysis.versionAnalysis.mapM (officialItem catalog)
  let features := sortFeatures (items.filter fun item => !item.row.isRisk)
  let risks := sortRisks (items.filter fun item => item.row.isRisk)
  return [[inlineCell (title config)], [inlineCell "关键特性分析".toList],
      versionHeaders.map inlineCell] ++ features.map featureCells ++
    ([inlineCell "关键变更风险分析".toList] :: riskHeaders.map inlineCell :: risks.map riskCells)

end Version

section Changes

open K8sLearn.Gates (State Row)

/-- `compact_state` on rendered values; an absent state renders as nothing. -/
def compactState (locked : Bool) (left right : Str) : Str :=
  if locked ∧ left = [] ∧ right = "false".toList then []
  else if locked ∧ left = "false".toList ∧ right = "false".toList then []
  else if left = right then (if right = [] then [] else "->".toList ++ right)
  else left ++ "->".toList ++ right

/-- `display_change_type`, where the gate is still there afterwards. -/
def displayChangeType (before : Option State) (after : State) : Str :=
  if after.stage = "Deprecated" then "Deprecated".toList
  else if before = none then "Added".toList
  else "Changed".toList

def directSource (values : List Str) : Str :=
  match values.find? fun v => "kep.k8s.io/".toList <:+: v with
  | some v => Str.replace "http://".toList "https://".toList v
  | none =>
    match values.find? fun v =>
        "kubernetes.io/".toList <:+: v ∧ ¬ "raw.githubusercontent.com".toList <:+: v with
    | some v => v
    | none =>
      match values.find? fun v => "CHANGELOG".toList <:+: v with
      | some v => v
      | none => values.headD []

def versionRangeLabel (priorVersion toVersion : Str) : Str :=
  "v".toList ++ priorVersion ++ "->v".toList ++ toVersion

def recommendation (before : Option State) (after : State) : Str :=
  if after.stage = "Deprecated" then "关闭".toList
  else if after.default ∧ (before.all fun b => !b.default) then "开启".toList
  else []

/-- The notes, cut to their first sentence when they are long. -/
def shortNotes (notes : Str) : Str :=
  let notes := Str.strip notes
  if 90 < notes.length then Str.strip (notes.takeWhile (· ≠ '。')) ++ "。".toList else notes

def changeText (analysis : Analysis) (fact : Row) : Option ChangeText :=
  analysis.featureChanges.reverse.find? fun text => text.id = some fact.id.toList

/-- The texts around the compatibility flag. -/
def changeCells (analysis : Analysis) (fact : Row) : SheetRow :=
  let text := changeText analysis fact
  let compatText :=
    if fact.after.default then "开关状态不变，无影响".toList else "特性默认关闭，无影响".toList
  let state (render : State → String) := fun locked =>
    compactState locked ((fact.before.map render).getD "").toList (render fact.after).toList
  let head := [
    versionRangeLabel fact.priorVersion.toList fact.toVersion.toList,
    orElse fact.changeType.text.toList (displayChangeType fact.before fact.after),
    fact.featureName.toList,
    orElse fact.stageChange.toList (state State.stage false),
    orElse fact.defaultChange.toList (state (fun s => Gates.boolText s.default) false),
    orElse fact.lockChange.toList (state (fun s => Gates.boolText s.locked) true)]
  let tail :=
    if fact.compatible then [compatText, [], [], [], [], [], []]
    else [[], (text.bind ChangeText.conclusion).getD [], (text.bind ChangeText.checkMethod).getD [],
      directSource ((text.bind ChangeText.sources).getD []), (text.bind ChangeText.details).getD [],
      recommendation fact.before fact.after, shortNotes ((text.bind ChangeText.notes).getD [])]
  head.map inlineCell ++ [boolCell fact.compatible] ++ tail.map inlineCell

def changeLayout (facts : List Row) (analysis : Analysis) : List SheetRow :=
  changeHeaders.map inlineCell :: facts.map (changeCells analysis)

end Changes

def writeXlsx (analysis : Analysis) (facts : List Gates.Row) (catalog : Catalog) (config : Config) :
    Except PyError Workbook := do
  return ⟨← versionLayout analysis catalog config, changeLayout facts analysis⟩

end K8sLearn.Report
