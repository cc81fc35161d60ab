import K8sLearn.Blog.Headings
import K8sLearn.Blog.Sync
import K8sLearn.Lib.Pattern
import K8sLearn.Lib.Scan
import K8sLearn.Papers.Search

/-! # The catalog of a release blog

`catalog` goes through the headings of a blog. A heading of the third level in a section of
features is a feature, with the texts of the paragraphs whose heading contains its name or is
contained in it; one in a section of risks is a risk. The characters beyond ASCII, case mapping,
entities and the digest of the ids are parameters.
-/

namespace K8sLearn.Blog

open Papers (dropWord matchesLetter)

/-- What the extraction uses of Python's text and of `hashlib`. -/
structure BlogTables extends TextTables where
  /-- `str.casefold` of one character. -/
  fold : Char → Str
  unescape : Str → Str
  /-- The first twelve digits of the digest of a name. -/
  digest : Str → Str

section Sections

def featureSections : List Str :=
  ["Spotlight on key updates", "Features graduating to Stable",
    "Highlights of features graduating to Stable", "New features in Beta",
    "Highlights of features graduating to Beta", "New features in Alpha",
    "Highlights of new features in Alpha", "Featured enhancements of Kubernetes v1.37",
    "Breaking changes in Kubernetes v1.37"].map String.toList

def riskSections : List Str :=
  ["Deprecations, removals and community updates", "Deprecations removals, and community updates",
    "Graduations, deprecations, and removals in 1.32",
    "Graduations, deprecations, and removals in 1.33",
    "Graduations, deprecations, and removals in 1.34",
    "Graduations, deprecations, and removals in 1.35",
    "Graduations, deprecations, and removals in 1.36",
    "Deprecations and removals for Kubernetes v1.37", "Ongoing major changes"].map String.toList

def stopSections : List Str :=
  ["Release notes", "Availability", "Release team", "Release Team"].map String.toList

end Sections

section Text

variable (t : BlogTables)

/-- `s.casefold()`. -/
def casefold (s : Str) : Str := s.flatMap t.fold

/-- `re.sub(r"^(Stable|Beta|Alpha):\s*", "", heading, flags=re.I)`. -/
def stripStage (heading : Str) : Str :=
  match ["stable:".toList, "beta:".toList, "alpha:".toList].findSome? (dropWord · heading) with
  | some rest => rest.dropWhile Str.isSpace
  | none => heading

/-- `name.casefold() in heading.casefold() or heading.casefold() in name.casefold()`. -/
def underHeading (name heading : Str) : Bool :=
  casefold t name <:+: casefold t heading || casefold t heading <:+: casefold t name

/-- `(\d+)` at the beginning, and what follows. -/
def digitsAt (s : Str) : Option (Str × Str) :=
  let digits := s.takeWhile t.isDigit
  if digits = [] then none else some (digits, s.drop digits.length)

/-- `#\s*` at the beginning, if it is there. -/
def dropHash : Str → Str
  | '#' :: s => s.dropWhile Str.isSpace
  | s => s

/-- `[s]?` at the beginning, if it is there. -/
def dropPlural : Str → Str
  | c :: s => if matchesLetter 's' c then s else c :: s
  | [] => []

/-- `KEP[s]?[-\s]*(?:#\s*)?(\d+)|#\s*(\d+)` at the beginning: the number and what follows. -/
def kepAt (s : Str) : Option (Str × Str) :=
  match dropWord "kep".toList s with
  | some rest =>
    digitsAt t (dropHash ((dropPlural rest).dropWhile fun c => c = '-' || Str.isSpace c))
  | none => if s.head? = some '#' then digitsAt t (dropHash s) else none

/-- `[\w/]`. -/
def isSigChar (c : Char) : Bool := t.isWord c || c = '/'

/-- The text after `SIG\s+`, where it goes on with a name. -/
def sigAt (s : Str) : Option Str :=
  (dropWord "sig".toList s).bind fun rest =>
    let name := rest.dropWhile Str.isSpace
    if rest.head?.any Str.isSpace && name.head?.any (isSigChar t) then some name else none

/-- The text after `\s*(?:and|/)\s*SIG\s+[\w/]+`. -/
def secondSig (s : Str) : Option Str :=
  (["and".toList, "/".toList].findSome? (dropWord · (s.dropWhile Str.isSpace))).bind fun rest =>
    (sigAt t (rest.dropWhile Str.isSpace)).map fun name => name.dropWhile (isSigChar t)

/-- `SIG\s+[\w/]+\s*(?:and|/)\s*SIG\s+[\w/]+|SIG\s+[\w/]+` at the beginning. The first name is taken
as long as a second one follows. -/
def sigsAt (s : Str) : Option Str :=
  (sigAt t s).map fun name =>
    let run := name.takeWhile (isSigChar t)
    let second := (List.range run.length).reverse.findSome? fun n =>
      secondSig t (name.drop (n + 1))
    s.take (s.length - (second.getD (name.drop run.length)).length)

/-- `deprecat|remov|retire|final call|no longer|prohibit|restrict|cannot`, in any case. -/
def isRiskHeading (heading : Str) : Bool :=
  ["deprecat".toList, "remov".toList, "retire".toList, "final call".toList, "no longer".toList,
    "prohibit".toList, "restrict".toList, "cannot".toList].any fun w =>
      (Scan.search (dropWord w) heading).isSome

/-- `\bga\b|graduate.*stable|goes.*ga|reach.*ga`. -/
def gaPatterns : List Pattern :=
  let anything : Pattern := [.many fun c => c ≠ '\n']
  [[.boundary] ++ Pattern.text "ga" ++ [.boundary],
    Pattern.text "graduate" ++ anything ++ Pattern.text "stable",
    Pattern.text "goes" ++ anything ++ Pattern.text "ga",
    Pattern.text "reach" ++ anything ++ Pattern.text "ga"]

def classifyFeature (sec heading blogText : Str) : Category :=
  let stage := if ':' ∈ heading then t.lower (heading.takeWhile fun c => c ≠ ':') else []
  let combined := t.lower (heading ++ ' ' :: blogText)
  if sec = "Features graduating to Stable".toList ∨ stage = "stable".toList then .mature
  else if sec = "New features in Beta".toList ∨ stage = "beta".toList then .enhanced
  else if sec = "New features in Alpha".toList ∨ stage = "alpha".toList then .new
  else if gaPatterns.any fun r => Pattern.search t.toCharTables r combined then .mature
  else if "beta".toList <:+: combined then .enhanced
  else if "alpha".toList <:+: combined then .new
  else .mature

end Text

section Entries

structure SubFeature where
  kepId : Str
  kepUrl : Str
  sig : Str
deriving DecidableEq

structure CatalogFeature where
  version : Str
  name : Str
  category : Category
  sec : Str
  source : Str
  subFeatures : List SubFeature
  blogText : Str
  catalogId : Str
deriving DecidableEq

structure Risk where
  version : Str
  name : Str
  sec : Str
  source : Str
  blogText : Str
  catalogId : Str
deriving DecidableEq

variable (t : BlogTables) (version url : Str) (paragraphs : List (Str × Str))

def addKeps (subFeatures : List SubFeature) (text : Str) : List SubFeature :=
  (Scan.scan (fun _ s => kepAt t s) 0 true text).foldl (fun subFeatures kepId =>
    if kepId ∈ subFeatures.map SubFeature.kepId then subFeatures
    else subFeatures ++ [⟨kepId, "https://kep.k8s.io/".toList ++ kepId,
      (Scan.search (sigsAt t) text).getD []⟩]) subFeatures

def extractKepList (heading : Str) : List SubFeature :=
  paragraphs.foldl (fun subFeatures para =>
    if underHeading t heading para.1 then addKeps t subFeatures para.2 else subFeatures) []

def featureText (name : Str) : Str :=
  paragraphs.foldl (fun blogText para =>
    if underHeading t name para.1 then blogText ++ ' ' :: para.2 else blogText) []

def catalogId (kind : String) (name : Str) : Str :=
  "release-blog:".toList ++ version ++ ':' :: kind.toList ++ ':' :: t.digest name

def feature (sec heading : Str) : CatalogFeature :=
  let name := stripStage heading
  let blogText := featureText t paragraphs name
  { version, name, sec, blogText
    category := classifyFeature t sec heading blogText
    source := url
    subFeatures := extractKepList t paragraphs name
    catalogId := catalogId t version "feature" name }

/-- The `blog_text` of a risk: of the first paragraph under its heading, or of the first whose
heading has a long word of it. -/
def riskText (heading : Str) : Str :=
  let first := (paragraphs.find? fun para => underHeading t heading para.1).map fun para =>
    para.2.take 2000
  let words := (Str.splitSpaces (casefold t heading)).filter fun w => 4 < w.length
  match first with
  | some (c :: text) => c :: text
  | _ => ((paragraphs.find? fun para => Str.containsAny words (casefold t para.1)).map fun para =>
      para.2.take 2000).getD []

def risk (sec heading : Str) : Risk :=
  { version, sec
    name := heading
    source := url
    blogText := riskText t paragraphs heading
    catalogId := catalogId t version "risk" heading }

end Entries

section Loop

inductive EntryKind
  | feature
  | risk
deriving DecidableEq

structure CatalogState where
  sec : Str
  riskSubsection : Bool
  features : List CatalogFeature
  risks : List Risk
  seen : List (EntryKind × Str)

variable (t : BlogTables) (version url : Str) (paragraphs : List (Str × Str))

def sectionOf (heading : Str) : Str := if heading ∈ stopSections then [] else heading

def addFeature (st : CatalogState) (heading : Str) : CatalogState :=
  let key := (EntryKind.feature, casefold t (stripStage heading))
  if key ∈ st.seen then st
  else { st with
    features := st.features ++ [feature t version url paragraphs st.sec heading]
    seen := key :: st.seen }

def addRisk (st : CatalogState) (heading : Str) : CatalogState :=
  let key := (EntryKind.risk, casefold t heading)
  if key ∈ st.seen then st
  else { st with
    risks := st.risks ++ [risk t version url paragraphs st.sec heading]
    seen := key :: st.seen }

def headingStep (st : CatalogState) (entry : Level × Str) : CatalogState :=
  let heading := normalizeHeading entry.2
  if entry.1 = .h2 then { st with sec := sectionOf heading, riskSubsection := false }
  else if entry.1 = .h3 ∧ heading ∈ riskSections then { st with riskSubsection := true }
  else if st.sec ∈ featureSections ∧ entry.1 = .h3 then
    addFeature t version url paragraphs st heading
  else if (st.sec ∈ riskSections ∨ st.riskSubsection) ∧ isRiskHeading heading then
    addRisk t version url paragraphs st heading
  else st

def catalogLoop (headings : List (Level × Str)) (st : CatalogState) : CatalogState :=
  headings.foldl (headingStep t version url paragraphs) st

/-- What `catalog` makes of the headings and the paragraphs. -/
def catalogOf (headings : List (Level × Str)) : List CatalogFeature × List Risk :=
  let st := catalogLoop t version url paragraphs headings ⟨[], false, [], [], []⟩
  (st.features, st.risks)

def catalog (events : List Event) : List CatalogFeature × List Risk :=
  let parser := HeadingParser.feed t.unescape events
  catalogOf t version url parser.paragraphs parser.headings

end Loop

end K8sLearn.Blog
