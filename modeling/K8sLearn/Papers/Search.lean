import K8sLearn.Papers.Dedupe
import K8sLearn.Papers.Score

/-! # Searching for papers

`PaperService.search` looks for variants of a query in the local store and, online, at
OpenAlex, Crossref and arXiv, merges what they return, drops records that are no papers and
ranks the rest. The bounds on the year go to OpenAlex only, so a known year outside of them
comes through from any other source.
-/

namespace K8sLearn.Papers

section Query

def isAsciiLetter (c : Char) : Bool := ('a' ≤ c && c ≤ 'z') || ('A' ≤ c && c ≤ 'Z')

def isWordPart (c : Char) : Bool := isAsciiLetter c || ('0' ≤ c && c ≤ '9') || c = '-'

/-- `re.findall(r"[A-Za-z][A-Za-z0-9-]{1,}", s)`: a match begins at the first letter of a run. -/
def asciiWords (s : Str) : List Str :=
  ((Str.runs isWordPart s).map fun r => r.dropWhile fun c => !isAsciiLetter c).filter fun w =>
    2 ≤ w.length

/-- Whether `c` matches the lower-case letter `l` under `re.I`. -/
def matchesLetter (l c : Char) : Bool :=
  c.toLower = l || (l = 's' && c = '\u017f') || (l = 'k' && c = '\u212a') ||
    (l = 'i' && (c = '\u0130' || c = '\u0131'))

def dropWord : Str → Str → Option Str
  | [], s => some s
  | _ :: _, [] => none
  | l :: w, c :: s => if matchesLetter l c then dropWord w s else none

/-- Whether `\s+r-?cnn\b` matches at the beginning. -/
def startsRcnn (isWord : Char → Bool) (s : Str) : Bool :=
  match s with
  | [] => false
  | c :: _ =>
    Str.isSpace c &&
      ["rcnn".toList, "r-cnn".toList].any fun w =>
        (dropWord w (s.dropWhile Str.isSpace)).any fun rest => !rest.head?.any isWord

/-- `re.search(r"\b(mask|faster|fast|cascade|dynamic)\s+r-?cnn\b", s, re.I)`, after a character
that is part of a word or not. -/
def looksLikeSpecificRcnnTitle (isWord : Char → Bool) : Bool → Str → Bool
  | _, [] => false
  | inWord, c :: s =>
    (!inWord && ["mask".toList, "faster".toList, "fast".toList, "cascade".toList,
        "dynamic".toList].any fun w => (dropWord w (c :: s)).any (startsRcnn isWord)) ||
      looksLikeSpecificRcnnTitle isWord (isWord c) s

def aliases (specific : Bool) : List (Str × Str) :=
  [("cnn".toList, "CNN convolutional neural network".toList),
    ("rag".toList, "RAG retrieval augmented generation".toList),
    ("llm".toList, "LLM large language model".toList),
    ("gru".toList, "GRU gated recurrent unit".toList),
    ("lstm".toList, "LSTM long short term memory".toList)] ++
  if specific then []
  else [("r-cnn".toList, "R-CNN region based convolutional neural network".toList),
    ("rcnn".toList, "R-CNN region based convolutional neural network".toList)]

def prepareQuery (rt : Runtime) (query : Str) : Str :=
  let text := Str.replaceAll ["相关论文".toList, "论文".toList, "文献".toList, "相关".toList,
    "检索".toList, "搜索".toList, "查找".toList, "请找".toList, "请搜索".toList, "有关".toList,
    "关于".toList] " ".toList (Str.strip query)
  let text := Str.strip (Str.collapseSpaces text)
  let queryTokens := (asciiWords text).map rt.lower
  let additions := ((aliases (looksLikeSpecificRcnnTitle rt.isWord false text)).filter fun entry =>
    queryTokens.contains entry.1).map Prod.snd
  if additions = [] then text else Str.strip (Str.join " ".toList (text :: additions))

/-- `query_variants`: the two texts, without blanks and repetitions. -/
def queryVariants (query effectiveQuery : Str) : List Str :=
  [Str.strip query, Str.strip effectiveQuery].foldl
    (fun variants value =>
      if value ≠ [] ∧ !variants.contains value then variants ++ [value] else variants) []

end Query

section Search

variable (rt : Runtime)

def isQualityCandidate (paper : Paper) : Bool :=
  let title := Str.strip paper.title
  let lowerTitle := rt.lower title
  let lowerDoi := rt.lower (paper.doi.getD [])
  let crossref := paper.source = "crossref".toList
  let asciiChars := title.countP fun c => c.toNat < 128
  if ["figure ".toList, "table ".toList, "appendix ".toList, "supplementary ".toList].any
      fun w => w <+: lowerTitle then false
  else if Str.containsAny ["/fig-".toList, "/figure-".toList, "/table-".toList,
      "/supp-".toList] lowerDoi then false
  else if crossref && !(!paper.abstract.isEmpty || present paper.journal ||
      paper.year.any (· ≠ 0)) then false
  else if crossref && title ≠ [] && (asciiChars : ℚ) / title.length < 65 / 100 &&
      paper.abstract.isEmpty then false
  else true

/-- `max(score(query, paper) for query in queries)`; an empty list of queries raises. -/
def bestScore (queries : List Str) (paper : Paper) : Option ℚ :=
  (queries.map fun query => score rt query paper).max?

structure Hit where
  paper : Paper
  score : ℚ

/-- What a call meets: the rows of the store, the cache by the text its key is made of, and the
answers of the three providers, where a failed request has none. -/
structure World where
  store : List Paper
  cached : Str → Option (List Hit)
  openalex : Str → ℕ → Option ℤ → Option ℤ → Option (List Paper)
  crossref : Str → ℕ → Option (List Paper)
  arxiv : Str → ℕ → Option (List Paper)

def listLocalPapers (store : List Paper) : List Paper :=
  (sortDescending Paper.citedByCount store).take 500

structure Request where
  query : Str
  topK : ℕ
  yearFrom : Option ℤ
  yearTo : Option ℤ
  online : Bool

def yearText : Option ℤ → Str
  | none => "None".toList
  | some y => Str.ofInt y

def cacheText (r : Request) (effectiveQuery : Str) : Str :=
  Str.join "|".toList [r.query, effectiveQuery, Str.ofInt r.topK, yearText r.yearFrom,
    yearText r.yearTo, (if r.online then "True" else "False").toList]

def remotePapers (w : World) (r : Request) (variant : Str) : List Paper :=
  ((w.openalex variant (r.topK * 2) r.yearFrom r.yearTo) ::
    (if 2 ≤ (asciiWords variant).length then
      [w.crossref variant (r.topK * 2), w.arxiv variant (r.topK * 2)] else [])).flatMap
    fun result => result.getD []

def gather (w : World) (r : Request) (variants : List Str) : List Paper :=
  let localPapers := variants.flatMap fun variant =>
    (searchLocal rt variant (listLocalPapers w.store) (r.topK * 2)).map Prod.fst
  if r.online then dedupe rt.toUnicode (localPapers ++ variants.flatMap (remotePapers w r))
  else localPapers

/-- The best candidates among the papers. No variant at all raises, once there is a candidate. -/
def rank (variants : List Str) (topK : ℕ) (papers : List Paper) : Option (List Hit) :=
  let candidates := (dedupe rt.toUnicode papers).filter (isQualityCandidate rt)
  (candidates.mapM fun paper => (bestScore rt variants paper).map fun s => (paper, s)).map
    fun scored =>
      let ranked := sortDescending (fun item : Paper × ℚ =>
        toLex (item.2, toLex (sourcePriority item.1, item.1.citedByCount))) scored
      ((ranked.take topK).filter fun item => threshold ≤ item.2).map fun item =>
        ⟨item.1, roundScore item.2⟩

structure Outcome where
  payload : List Hit
  cacheHit : Bool
  saved : List Paper

def search (w : World) (r : Request) : Option Outcome :=
  let effectiveQuery := prepareQuery rt r.query
  match w.cached (cacheText r effectiveQuery) with
  | some payload => some ⟨payload, true, []⟩
  | none =>
    let variants := queryVariants r.query effectiveQuery
    let papers := gather rt w r variants
    (rank rt variants r.topK papers).map fun payload =>
      ⟨payload, false, if r.online then papers else []⟩

end Search

end K8sLearn.Papers
