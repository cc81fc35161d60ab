import Mathlib.Data.Finset.Card
import Mathlib.Algebra.Order.Ring.Unbundled.Rat
import K8sLearn.Lib.Pattern
import K8sLearn.Lib.Scan
import K8sLearn.Lib.TopK

/-! # Agentic retrieval

`AgenticRAG.answer` classifies a question by rules, retrieves once, adds a second hop for
bridge and multi-hop questions, and rewrites the question and retrieves again while its
confidence is low or the evidence conflicts. Rounds are merged by the best score of each
passage. The retriever is a parameter, and so are Python's case mapping and the rounding of
floating-point operations.
-/

namespace K8sLearn.Rag

structure Document where
  id : Str
  title : Str
  sentences : List Str
deriving DecidableEq

def Document.text (d : Document) : Str := Str.join [' '] d.sentences

/-- A passage of the corpus with its score for a query. -/
structure RetrievedDoc where
  doc : Document
  score : ℚ
deriving DecidableEq

namespace RetrievedDoc

def id (d : RetrievedDoc) : Str := d.doc.id

def title (d : RetrievedDoc) : Str := d.doc.title

def text (d : RetrievedDoc) : Str := d.doc.text

def sentences (d : RetrievedDoc) : List Str := d.doc.sentences

end RetrievedDoc

/-- The arguments of `HybridRetriever.search` besides the query. -/
structure SearchArgs where
  k : ℕ
  useBm25 : Bool
  useDense : Bool
  rerank : Bool
  recallK : ℕ

/-- A deterministic retriever: at most `k` distinct passages of a corpus in which the ids are
unique, with any scores. -/
structure Retriever where
  corpus : List Document
  search : Str → SearchArgs → List RetrievedDoc
  unique_ids : (corpus.map Document.id).Nodup
  from_corpus : ∀ query args, ∀ d ∈ search query args, d.doc ∈ corpus
  distinct : ∀ query args, ((search query args).map RetrievedDoc.id).Nodup
  length_le : ∀ query args, (search query args).length ≤ args.k

section Text

def isUpper (c : Char) : Bool := 'A' ≤ c && c ≤ 'Z'

def isLetter (c : Char) : Bool := isUpper c || ('a' ≤ c && c ≤ 'z')

/-- `[A-Z][a-zA-Z]+` at the beginning: the word and what follows. -/
def capWord : Str → Option (Str × Str)
  | c :: s =>
    if isUpper c && s.head?.any isLetter then
      some (c :: s.takeWhile isLetter, s.dropWhile isLetter)
    else none
  | [] => none

/-- `(?:[-\s][A-Z][a-zA-Z]+)*` at the beginning, for at most a number of words. -/
def capWords : ℕ → Str → Str × Str
  | n + 1, c :: s =>
    if c = '-' || Str.isSpace c then
      match capWord s with
      | some (word, r) => (c :: word ++ (capWords n r).1, (capWords n r).2)
      | none => ([], c :: s)
    else ([], c :: s)
  | _, s => ([], s)

/-- A match of `_CAP_RE` at the beginning. -/
def capSpan (s : Str) : Option (Str × Str) :=
  (capWord s).map fun w => (w.1 ++ (capWords w.2.length w.2).1, (capWords w.2.length w.2).2)

/-- `_CAP_RE.findall`. -/
def capSpans (s : Str) : List Str := Scan.scan (fun _ s => capSpan s) 0 true s

def stop : List Str :=
  ["the", "a", "an", "of", "in", "on", "at", "to", "for", "and", "or", "is", "was", "were", "are",
    "be", "by", "with", "from", "as", "that", "this", "it", "its", "which", "who", "whom", "whose",
    "what", "when", "where", "why", "how", "many", "much", "did", "do", "does", "has", "have",
    "had", "been", "being", "first", "last", "most", "same", "also", "both", "not"].map
      String.toList

def anyIn (words : List String) (s : Str) : Bool := Str.containsAny (words.map String.toList) s

variable (t : TextTables)

/-- `set(re.findall(r"\w+", s.lower())) - _STOP`. -/
def contentWords (s : Str) : Finset Str :=
  ((Str.runs t.isWord (t.lower s)).filter fun w => w ∉ stop).toFinset

def wordPattern (w : String) : Pattern := [.boundary] ++ Pattern.text w ++ [.boundary]

/-- `.*`. -/
def anything : Pattern := [.many fun c => c ≠ '\n']

def isYesnoQuestion (question : Str) : Bool :=
  let q := t.lower (Str.strip question)
  (['?'] <:+ q && anyIn ["same ", "different", "same?", "similar", "also a"] q) ||
    ["was", "were", "is", "are", "did", "do", "does"].any fun w =>
      Pattern.search t.toCharTables (wordPattern w ++ anything ++ wordPattern "same") q

inductive QuestionType where
  | yesno
  | comparison
  | multihop
  | bridge
deriving DecidableEq

def classify (question : Str) : QuestionType :=
  let q := t.lower question
  let ents := (capSpans question).filter fun e => t.lower e ∉ stop
  if isYesnoQuestion t question then .yesno
  else if 2 ≤ ents.length &&
      anyIn [" than ", " versus ", " or ", " compared", " same ", " both "] q then .comparison
  else if Pattern.search t.toCharTables (wordPattern "of" ++ anything ++ wordPattern "of") q ||
      Pattern.search t.toCharTables (wordPattern "that") q || anyIn ["whose"] q then .multihop
  else .bridge

/-- `_extract_bridge_entity`: the first span of best score in the first five passages. -/
def extractBridgeEntity (question : Str) (docs : List RetrievedDoc) : Option Str :=
  let spans := (docs.take 5).flatMap fun d => d.sentences.flatMap fun s =>
    ((capSpans s).filter fun c => t.lower c ∉ stop).map fun c =>
      (c, (contentWords t question ∩ contentWords t s).card +
        if t.lower c <:+: t.lower question then 0 else 2)
  (spans.foldl (fun best span =>
    match best with
    | none => some span
    | some b => if b.2 < span.2 then some span else some b) none).map Prod.fst

def extractTarget (question : Str) : Str :=
  let q := t.lower question
  if anyIn ["where", "home", "born", "city", "country", "located"] q then "born location".toList
  else if anyIn ["when", "year", "date"] q then "year".toList
  else if anyIn ["directed"] q then "director".toList
  else if anyIn ["wrote", "author", "written"] q then "author".toList
  else if anyIn ["singer", "sang", "song", "voiced"] q then "singer".toList
  else if anyIn ["founded"] q then "founder".toList
  else []

def pointTwo : ℚ := 3602879701896397 / 2 ^ 54

def confThreshold : ℚ := 8106479329266893 / 2 ^ 54

/-- `_confidence`, where `fl` rounds to the nearest float. -/
def confidence (fl : ℚ → ℚ) (question : Str) (docs : List RetrievedDoc) : ℚ :=
  match docs with
  | [] => 0
  | d :: rest =>
    let qTokens := contentWords t question
    let topOverlap := (docs.take 3).foldl
      (fun m d => max m (qTokens ∩ contentWords t d.text).card) 0
    let base := min (fl (topOverlap / max 1 qTokens.card)) 1
    let gap := match rest with
      | [] => 0
      | e :: _ => fl (d.score - e.score)
    fl (base + min (max gap 0) pointTwo)

def detectConflict (docs : List RetrievedDoc) (qtype : QuestionType) : Bool :=
  let blob := t.lower (Str.join [' '] ((docs.take 3).flatMap RetrievedDoc.sentences))
  qtype = .yesno && docs ≠ [] && anyIn [" same ", " both ", " also "] blob &&
    anyIn [" not ", " different ", " never "] blob

def rewrite (question : Str) (docs : List RetrievedDoc) : Str :=
  let ents := (docs.take 3).flatMap fun d => (capSpans d.text).filter fun c =>
    t.lower c ∉ stop && !(t.lower c <:+: t.lower question)
  Str.strip (question ++ [' '] ++ Str.join [' '] (firsts (fun e => e) (ents.take 2)))

end Text

section Answer

def merge (docsA docsB : List RetrievedDoc) (k : ℕ) : List RetrievedDoc :=
  TopK.topK RetrievedDoc.id RetrievedDoc.score k (docsA ++ docsB)

/-- The passages, the number of rounds and the queries of a run. -/
structure Progress where
  docs : List RetrievedDoc
  rounds : ℕ
  queryVariants : List Str

variable (t : TextTables) (fl : ℚ → ℚ) (r : Retriever) (k recallK : ℕ) (question : Str)

def agentSearch (query : Str) : List RetrievedDoc :=
  r.search query { k, useBm25 := true, useDense := true, rerank := true, recallK }

/-- The first round, and the second hop of bridge and multi-hop questions. -/
def decompose : Progress :=
  let docs := agentSearch r k recallK question
  let first : Progress := ⟨docs, 1, [question]⟩
  if classify t question = .multihop || classify t question = .bridge then
    match extractBridgeEntity t question docs with
    | some bridge =>
      let nextQ := Str.strip (bridge ++ [' '] ++ extractTarget t question)
      ⟨merge docs (agentSearch r k recallK nextQ) (2 * k), 2, [question, nextQ]⟩
    | none => first
  else first

def sufficient (docs : List RetrievedDoc) : Bool :=
  confThreshold ≤ confidence t fl question docs && !detectConflict t docs (classify t question)

def reflectOnce (p : Progress) : Progress :=
  let nextQ := rewrite t question p.docs
  ⟨merge p.docs (agentSearch r k recallK nextQ) k, p.rounds + 1, p.queryVariants ++ [nextQ]⟩

/-- The loop of the reflection, with the number of rounds left. -/
def reflect : ℕ → Progress → Progress
  | 0, p => p
  | n + 1, p =>
    if sufficient t fl question p.docs then p
    else reflect n (reflectOnce t r k recallK question p)

/-- `AgenticRAG.answer`, without the extracted answer and the log. -/
def answer (maxIters : ℕ) : Progress :=
  reflect t fl r k recallK question maxIters (decompose t r k recallK question)

end Answer

section Pipelines

def runHybrid (r : Retriever) (question : Str) (k recallK : ℕ) : List RetrievedDoc :=
  r.search question { k, useBm25 := true, useDense := true, rerank := true, recallK }

def runAgentic (t : TextTables) (fl : ℚ → ℚ) (r : Retriever) (question : Str) (k maxIters : ℕ) :
    Progress :=
  answer t fl r k 20 question maxIters

def contextRecall (retrievedTitles : List Str) (goldTitles : Finset Str) : ℚ :=
  if goldTitles = ∅ then 0
  else (retrievedTitles.toFinset ∩ goldTitles).card / goldTitles.card

end Pipelines

end K8sLearn.Rag
