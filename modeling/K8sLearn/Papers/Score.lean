import Mathlib.Algebra.Order.Ring.Rat
import Mathlib.Data.List.Sort
import Mathlib.Data.Rat.Floor
import K8sLearn.Lib.Rounding
import K8sLearn.Papers.Paper

/-! # Relevance

`score` compares a query with a paper by shared tokens, by their order in the title, by
`SequenceMatcher` and by phrases; `search_local` ranks the local papers by it. Scores are
exact here. The tables of Python that these functions consult are a parameter.
-/

namespace K8sLearn.Papers

open Rounding

structure Runtime extends Unicode where
  nfkc_ascii : ∀ s, Str.isAscii s = true → nfkc s = s
  /-- `\w` on one character. -/
  isWord : Char → Bool
  /-- `SequenceMatcher(None, a, b).ratio()`. -/
  ratio : Str → Str → ℚ
  ratio_nonneg : ∀ a b, 0 ≤ ratio a b

def isEnglish (c : Char) : Bool := ('a' ≤ c && c ≤ 'z') || ('0' ≤ c && c ≤ '9')

def isChinese (c : Char) : Bool := '\u4e00' ≤ c && c ≤ '\u9fff'

/-- `re.findall(r"[a-z0-9]{2,}", s)`. -/
def englishWords (s : Str) : List Str := (Str.runs isEnglish s).filter fun w => 2 ≤ w.length

def bigrams (run : Str) : List Str :=
  (List.range (run.length - 1)).map fun i => (run.drop i).take 2

section Tokens

variable (u : Unicode)

/-- `tokens`, a set, as a list without repetitions. -/
def tokens (text : Str) : List Str :=
  let normalized := normalize u text
  (englishWords normalized ++ (Str.runs isChinese normalized).flatMap bigrams).dedup

/-- `_ordered_tokens`: the matches of `[a-z0-9]{2,}|[\u4e00-\u9fff]+` from left to right. -/
def orderedTokens (text : Str) : List Str :=
  let normalized := normalize u text
  let parts := normalized.splitBy fun a b =>
    (isEnglish a && isEnglish b) || (isChinese a && isChinese b)
  parts.flatMap fun part =>
    if part.all isChinese then bigrams part
    else if part.all isEnglish && 2 ≤ part.length then [part]
    else []

/-- The loop of `ordered_title_match`: the positions found, from a cursor on. -/
def matchPositions (titleTokens : List Str) : List Str → ℕ → List ℕ
  | [], _ => []
  | q :: queryTokens, cursor =>
    match (titleTokens.drop cursor).findIdx? (· = q) with
    | none => matchPositions titleTokens queryTokens cursor
    | some i => (cursor + i) :: matchPositions titleTokens queryTokens (cursor + i + 1)

def orderedTitleMatch (query title : Str) : ℚ :=
  let queryTokens := orderedTokens u query
  let titleTokens := orderedTokens u title
  if queryTokens = [] ∨ titleTokens = [] then 0
  else
    match matchPositions titleTokens queryTokens 0 with
    | first :: second :: rest =>
      let positions := first :: second :: rest
      let span := positions.getLastD 0 - first + 1
      min 1 (positions.length / (max 1 span : ℕ))
    | _ => 0

end Tokens

section Score

variable (rt : Runtime)

/-- The share of the tokens `q` that are among the tokens `t`. -/
def overlapOf (q t : List Str) : ℚ :=
  (q.filter fun w => t.contains w).length / (max 1 q.length : ℕ)

def score (query : Str) (paper : Paper) : ℚ :=
  let u := rt.toUnicode
  let q := normalize u query
  let qTokens := tokens u q
  let title := normalize u paper.title
  let body := normalize u (Str.join " ".toList [paper.title, paper.abstract,
    Str.join " ".toList paper.authors, Str.join " ".toList paper.concepts])
  let queryEnglish := englishWords q
  if q.any isChinese && !queryEnglish.isEmpty &&
      !(queryEnglish.any fun w => (englishWords body).contains w) then 0
  else
    let overlap := overlapOf qTokens (tokens u body)
    let titleOverlap := overlapOf qTokens (tokens u title)
    let fuzzy := if q ≠ [] then rt.ratio q title else 0
    let exactPhrase := if q ≠ [] ∧ q <:+: title then 1 else 0
    let ordered := orderedTitleMatch u q title
    let pre := if 3 ≤ queryEnglish.length ∧
      (englishWords title).take queryEnglish.length = queryEnglish then 1 else 0
    min 1 (35 / 100 * titleOverlap + 20 / 100 * overlap + 20 / 100 * fuzzy +
      15 / 100 * ordered + 5 / 100 * exactPhrase + 5 / 100 * pre)

/-- `round(value, 4)`. -/
def roundScore (value : ℚ) : ℚ := roundHalfEven (value * 10000) / 10000

/-- The least score that counts as a match. -/
def threshold : ℚ := 28 / 100

/-- A sort by a key, largest first, that keeps the order of equals. -/
def sortDescending {α β : Type*} [LinearOrder β] (key : α → β) (l : List α) : List α :=
  l.insertionSort fun a b => key b ≤ key a

def searchLocal (query : Str) (papers : List Paper) (topK : ℕ) : List (Paper × ℚ) :=
  let ranked := sortDescending (fun item : Paper × ℚ => toLex (item.2, item.1.citedByCount))
    (papers.map fun p => (p, score rt query p))
  ((ranked.take topK).filter fun item => threshold ≤ item.2).map fun item =>
    (item.1, roundScore item.2)

end Score

end K8sLearn.Papers
