import K8sLearn.Lib.Collect
import K8sLearn.Lib.Text
import Mathlib.Data.Prod.Lex

/-! # Papers and their duplicates

A paper comes from one of four sources, with a DOI or without. `_dedupe` merges papers in
two passes, first those with the same DOI (or, without one, the same normalized title),
then those with the same normalized title. Each pass keeps the preferred paper of a pair
and fills its gaps from the other. Python's Unicode tables are a parameter.
-/

namespace K8sLearn.Papers

structure Paper where
  source : Str
  sourceId : Str
  doi : Option Str
  title : Str
  abstract : Str
  year : Option ℤ
  journal : Option Str
  authors : List Str
  institutions : List Str
  concepts : List Str
  citedByCount : ℤ
  isOa : Bool
  landingPageUrl : Option Str
  pdfUrl : Option Str
  deriving DecidableEq

/-- The characters that `normalize` keeps. -/
def isPlain (c : Char) : Bool :=
  ('a' ≤ c && c ≤ 'z') || ('0' ≤ c && c ≤ '9') || ('\u4e00' ≤ c && c ≤ '\u9fff')

/-- Python's tables for `unicodedata.normalize("NFKC", s)` and `s.lower()`. Lower case loses no
character, the characters that `normalize` keeps are in lower case, and white space has none of
them. -/
structure Unicode where
  nfkc : Str → Str
  lower : Str → Str
  eq_nil_of_lower : ∀ s, lower s = [] → s = []
  lower_plain : ∀ s, (∀ c ∈ s, isPlain c = true ∨ c = ' ') → lower s = s
  not_plain_of_space : ∀ s, (∀ c ∈ s, Str.isSpace c = true) →
    ∀ c ∈ lower (nfkc s), isPlain c = false

/-- Whether `https?://\S+` matches at the beginning. -/
def startsUrl (s : Str) : Bool :=
  ["http://".toList, "https://".toList].any fun scheme =>
    scheme <+: s && (s.drop scheme.length).head?.any fun c => !Str.isSpace c

def replaceUrlsFrom : Bool → Str → Str
  | _, [] => []
  | true, c :: s => if Str.isSpace c then c :: replaceUrlsFrom false s else replaceUrlsFrom true s
  | false, c :: s =>
    if startsUrl (c :: s) then ' ' :: replaceUrlsFrom true s else c :: replaceUrlsFrom false s

/-- `re.sub(r"https?://\S+", " ", s)`. -/
def replaceUrls (s : Str) : Str := replaceUrlsFrom false s

/-- `a or b` on optional texts. -/
def orElse (a b : Option Str) : Option Str :=
  match a with
  | some (c :: s) => some (c :: s)
  | _ => b

/-- `a or b` on lists. -/
def orList {α : Type*} (a b : List α) : List α := if a.isEmpty then b else a

section Dedupe

variable (u : Unicode)

def normalize (text : Str) : Str :=
  let text := u.lower (u.nfkc text)
  let text := replaceUrls text
  let text := Str.replaceRuns (fun c => !isPlain c) " ".toList text
  Str.join " ".toList (Str.splitSpaces text)

def sourcePriority (p : Paper) : ℕ :=
  if p.source = "arxiv".toList then 3
  else if p.source = "openalex".toList then 2
  else if p.source = "crossref".toList then 1
  else 0

def present (s : Option Str) : Bool := s.any fun s => !s.isEmpty

/-- The tuple that `_preferred` compares. -/
def preferenceKey (p : Paper) : ℕ ×ₗ Bool ×ₗ Bool ×ₗ ℤ :=
  toLex (sourcePriority p, toLex (!p.abstract.isEmpty, toLex (present p.doi, p.citedByCount)))

def preferred (left right : Paper) : Paper × Paper :=
  if preferenceKey left < preferenceKey right then (right, left) else (left, right)

def merge (existing paper : Paper) : Paper :=
  let winner := (preferred existing paper).1
  let other := (preferred existing paper).2
  { winner with
    abstract := orList winner.abstract other.abstract
    journal := orElse winner.journal
      (if winner.source ≠ "arxiv".toList then other.journal else none)
    authors := orList winner.authors other.authors
    institutions := orList winner.institutions other.institutions
    concepts := orList winner.concepts other.concepts
    citedByCount := max winner.citedByCount other.citedByCount
    isOa := winner.isOa || other.isOa
    landingPageUrl := orElse winner.landingPageUrl other.landingPageUrl
    pdfUrl := orElse winner.pdfUrl other.pdfUrl }

/-- The key of the first pass; a paper whose key is empty is passed over. -/
def doiKey (p : Paper) : Option Str :=
  let key := u.lower ((orElse p.doi (some (normalize u p.title))).getD [])
  if key.isEmpty then none else some key

def titleKey (p : Paper) : Option Str :=
  let key := normalize u p.title
  if key.isEmpty then none else some key

def dedupe (papers : List Paper) : List Paper :=
  let seen := (collect (doiKey u) merge papers).map Prod.snd
  (collect (titleKey u) merge seen).map Prod.snd

end Dedupe

end K8sLearn.Papers
