import Mathlib.Data.Char
import Mathlib.Data.List.Lex
import K8sLearn.Lib.Pattern
import K8sLearn.Papers.Search
import K8sLearn.Pilot.Wording

/-! # The six intent handlers

Each handler of the rule worker searches for papers or looks one up, writes an answer with
the language model or without it, and returns the answer with citations and evidence.
-/

namespace K8sLearn.Pilot

open Papers (Paper Hit dropWord matchesLetter)

inductive Prompt where
  | paperQa (title question abstract : Str) (chunks : List Str)
  | compare (question : Str) (left right : Paper)
  | concept (question concept : Str) (papers : List Hit)

/-- What the handlers of one round meet outside. -/
structure Tools extends TextTables where
  /-- `str` of a score. -/
  showFloat : ℚ → Str
  /-- The tool `search_papers`, for the call at this position of a handler. -/
  search : ℕ → Str → ℕ → Except PyError (List Hit × Bool)
  /-- The tool `get_paper`. -/
  getPaper : Str → Except PyError (Option Paper)
  /-- The tool `ensure_fulltext`; its result goes into the trace. -/
  ensureFulltext : Str → Except PyError Unit
  /-- The texts that `_retrieve_chunks` returns. -/
  retrieveChunks : Paper → Str → Except PyError (List Str)
  /-- `llm_service.generate`. -/
  generate : Prompt → Option Str

section Text

def replaceAnyFrom (words : List Str) (new : Str) : ℕ → Str → Str
  | _, [] => []
  | n + 1, _ :: s => replaceAnyFrom words new n s
  | 0, c :: s =>
    match words.find? (· <+: c :: s) with
    | some w => new ++ replaceAnyFrom words new (w.length - 1) s
    | none => c :: replaceAnyFrom words new 0 s

/-- `re.sub("(w1|w2|...)", new, s)` for nonempty words. -/
def replaceAny (words : List Str) (new s : Str) : Str := replaceAnyFrom words new 0 s

def findMatch (matchAt : Str → Option Str) : Str → Option Str
  | [] => matchAt []
  | c :: s => (matchAt (c :: s)).or (findMatch matchAt s)

/-- `[-._;()/:A-Z0-9]` under `re.I`. -/
def isDoiChar (c : Char) : Bool :=
  "-._;()/:0123456789".toList.contains c ||
    "abcdefghijklmnopqrstuvwxyz".toList.any fun l => matchesLetter l c

/-- `10\.\d{4,9}/[-._;()/:A-Z0-9]+` at the beginning of a text. -/
def doiAt (u : CharTables) (s : Str) : Option Str :=
  if "10.".toList <+: s then
    let digits := (s.drop 3).takeWhile u.isDigit
    let rest := s.drop (3 + digits.length)
    let name := (rest.drop 1).takeWhile isDoiChar
    if 4 ≤ digits.length ∧ digits.length ≤ 9 ∧ rest.head? = some '/' ∧ name ≠ [] then
      some ("10.".toList ++ digits ++ '/' :: name)
    else none
  else none

/-- `https?://openalex\.org/\w+` at the beginning of a text. -/
def openalexAt (u : CharTables) (s : Str) : Option Str :=
  ["https://openalex.org/".toList, "http://openalex.org/".toList].findSome? fun w =>
    (dropWord w s).bind fun rest =>
      let name := rest.takeWhile u.isWord
      if name = [] then none else some (s.take (s.length - rest.length + name.length))

def extractIdentifier (u : CharTables) (query : Str) : Option Str :=
  match findMatch (doiAt u) query with
  | some doi => some (doi.reverse.dropWhile (".,;".toList.contains ·)).reverse
  | none => findMatch (openalexAt u) query

/-- How many characters `\s*(?:和|与|以及|vs\.?|VS|对比|比较)\s*` matches at the beginning. -/
def separatorLength (s : Str) : Option ℕ :=
  let t := s.dropWhile Str.isSpace
  (["和".toList, "与".toList, "以及".toList, "vs.".toList, "vs".toList, "VS".toList, "对比".toList,
    "比较".toList].find? (· <+: t)).map fun w =>
      s.length - ((t.drop w.length).dropWhile Str.isSpace).length

/-- Splitting at separators, `left` times at most, with the part read so far. The first argument
counts the characters of the last separator still to be passed over. -/
def splitFrom : ℕ → ℕ → Str → Str → List Str
  | _, _, part, [] => [part]
  | skip + 1, left, part, _ :: s => splitFrom skip left part s
  | 0, 0, part, c :: s => splitFrom 0 0 (part ++ [c]) s
  | 0, left + 1, part, c :: s =>
    match separatorLength (c :: s) with
    | some n => part :: splitFrom (n - 1) left [] s
    | none => splitFrom 0 (left + 1) (part ++ [c]) s

def comparedParts (query : Str) : List Str :=
  ((splitFrom 0 2 [] query).map Str.strip).filter fun p => 3 < p.length

/-- `s or default`. -/
def orText (s : Option Str) (default : Str) : Str :=
  match s with
  | some (c :: s) => c :: s
  | _ => default

/-- `str(year or default)`. -/
def orYear (year : Option ℤ) (default : Str) : Str :=
  match year with
  | some y => if y = 0 then default else Str.ofInt y
  | none => default

end Text

/-- `paper.model_dump(mode="json")`, as far as it is read from the evidence. -/
def dump (paper : Paper) : Evidence where
  sourceId := some paper.sourceId
  title := some paper.title
  doi := paper.doi
  landingPageUrl := paper.landingPageUrl
  pdfUrl := paper.pdfUrl
  abstract := some paper.abstract

def citation (paper : Paper) (evidence : Str) : Citation where
  paperId := paper.sourceId
  title := paper.title
  doi := paper.doi
  url := Papers.orElse paper.landingPageUrl paper.pdfUrl
  evidence := evidence

namespace Handler

variable (t : Tools) (query : Str)

def search : Except PyError HandlerResult := do
  let (payload, cacheHit) ← t.search 0 query 8
  let citations := (payload.take 5).map fun item =>
    citation item.paper ("检索相关度 ".toList ++ t.showFloat item.score)
  let evidence := (payload.take 5).map fun item => dump item.paper
  match payload with
  | [] =>
    return ⟨"没有找到足够相关的公开论文。请尝试输入更短的标题片段、英文关键词、DOI 或作者名。".toList,
      [], 0, cacheHit, evidence⟩
  | best :: _ =>
    let lines := "我找到以下较相关的论文：".toList :: (payload.take 5).mapIdx fun index item =>
      Str.ofInt (index + 1) ++ ". ".toList ++ item.paper.title ++ "（".toList ++
        orYear item.paper.year "年份未知".toList ++ "，相关度 ".toList ++ t.showFloat item.score ++
        "）".toList
    return ⟨Str.join "\n".toList lines, citations, min (99 / 100) (55 / 100 + best.score * (4 / 10)),
      cacheHit, evidence⟩

/-- The paper that `_detail` describes, and whether it comes from the cache. -/
def detailPaper : Except PyError (Option Paper × Bool) :=
  match extractIdentifier t.toCharTables query with
  | some (c :: identifier) => do
    let paper ← t.getPaper (c :: identifier)
    return (paper, false)
  | _ => do
    let (payload, cacheHit) ← t.search 0 query 3
    return (payload.head?.map Hit.paper, cacheHit)

def detailAnswer (paper : Paper) : Str :=
  "论文：".toList ++ paper.title ++
    "\n作者：".toList ++ orText (Str.join "、".toList paper.authors) "公开元数据未提供".toList ++
    "\n期刊：".toList ++ orText paper.journal "公开元数据未提供".toList ++
    "\n年份：".toList ++ orYear paper.year "未知".toList ++
    "\nDOI：".toList ++ orText paper.doi "未找到".toList ++
    "\n引用数（OpenAlex）：".toList ++ Str.ofInt paper.citedByCount ++
    "\n开放获取：".toList ++ (if paper.isOa then "是" else "未标记为开放获取").toList ++
    "\n原文/数据库链接：".toList ++
      orText (Papers.orElse paper.pdfUrl paper.landingPageUrl) "无".toList

def detail : Except PyError HandlerResult := do
  let (paper, cacheHit) ← detailPaper t query
  match paper with
  | none =>
    return ⟨"没有找到可以核验的论文详情。请提供 DOI、完整标题或更有辨识度的标题片段。".toList,
      [], 0, cacheHit, []⟩
  | some paper =>
    return ⟨detailAnswer paper, [citation paper "结构化元数据".toList], 95 / 100, cacheHit,
      [dump paper]⟩

/-- The chunks of a paper that `_qa` uses, where the question asks for details. -/
def qaChunks (best : Paper) : Except PyError (List Str) :=
  if wantsDeepAnalysis query then do
    t.ensureFulltext best.sourceId
    t.retrieveChunks best query
  else return []

def qaAnswer (best : Paper) (evidence : Str) (chunks : List Str) : Str :=
  let body := orText (t.generate (.paperQa best.title query evidence chunks))
    (summarizeCn t.lower best.title evidence query chunks)
  "基于公开摘要和元数据，最相关论文是《".toList ++ best.title ++ "》。\n\n中文归纳：".toList ++ body ++
    if best.abstract = [] then
      "\n\n说明：当前没有获取到开放摘要，因此不能可靠补充方法细节。".toList
    else "\n\n原文摘要（用于核验）：".toList ++ evidence.take 1200

def qa : Except PyError HandlerResult := do
  let searchQuery := replaceAny ["是什么".toList, "提出了什么".toList, "使用了什么".toList,
    "解决了什么".toList, "如何".toList, "请问".toList, "介绍一下".toList] " ".toList query
  let (payload, cacheHit) ← t.search 0 (Str.strip searchQuery) 5
  match payload with
  | [] =>
    return ⟨"当前公开数据不足以确认这个问题。请提供论文 DOI、标题片段，或先搜索目标论文。".toList,
      [], 0, cacheHit, []⟩
  | hit :: _ =>
    let best := hit.paper
    let evidence := orText best.abstract "该数据源未返回摘要，当前只能确认结构化元数据。".toList
    let chunks ← qaChunks t query best
    let citations := citation best (evidence.take 300) ::
      (chunks.take 3).map fun text => citation best (text.take 350)
    -- the text of a chunk stands in its evidence too, under a key that is not read
    let allEvidence := dump best :: (chunks.take 3).map fun _ =>
      ⟨none, some best.title, best.doi, none, none, none⟩
    return ⟨qaAnswer t query best evidence chunks, citations,
      min (92 / 100) (1 / 2 + hit.score * (45 / 100) + if chunks = [] then 0 else 5 / 100),
      cacheHit, allEvidence⟩

def compareTable (left right : Paper) : Str :=
  let row (name : Str) (f : Paper → Str) :=
    "| ".toList ++ name ++ " | ".toList ++ f left ++ " | ".toList ++ f right ++ " |\n".toList
  "论文对比（基于公开元数据与摘要）：\n\n".toList ++ "| 维度 | 论文一 | 论文二 |\n|---|---|---|\n".toList ++
    row "标题".toList Paper.title ++
    row "年份".toList (fun p => orYear p.year "未知".toList) ++
    row "期刊/来源".toList (fun p => orText p.journal "未知".toList) ++
    row "DOI".toList (fun p => orText p.doi "未知".toList) ++
    "\n当前比较主要覆盖可核验的结构化字段；摘要缺失时不会臆测方法差异。".toList

def compare : Except PyError HandlerResult :=
  match comparedParts query with
  | part₁ :: part₂ :: _ => do
    let (payload, cacheHit) ← t.search 0 part₁ 1
    let (payload2, cacheHit2) ← t.search 1 part₂ 1
    let found := (payload ++ payload2).map Hit.paper
    match found with
    | left :: right :: _ =>
      let answer := orText (t.generate (.compare query left right)) (compareTable left right)
      return ⟨answer, found.map fun p => citation p "对比字段来源".toList, 85 / 100,
        cacheHit || cacheHit2, found.map dump⟩
    | _ =>
      return ⟨"至少有一篇论文没有找到足够可靠的公开记录，暂不生成对比结论。".toList, [], 0,
        cacheHit || cacheHit2, found.map dump⟩
  | _ =>
    return ⟨"请在问题中提供两篇论文的标题片段或 DOI，".toList ++
      "例如\"比较 Attention Is All You Need 和 BERT\"。".toList, [], 0, false, []⟩

def conceptQa : Except PyError HandlerResult := do
  let (concept, searchQuery) := extractConcept t.lower query
  let (payload, cacheHit) ← t.search 0 searchQuery 5
  let answer := orText (t.generate (.concept query concept payload)) (conceptFallback concept)
  let papers := (payload.take 3).map Hit.paper
  let citations := papers.map fun p =>
    citation p ((orText p.abstract (concept ++ " 相关论文".toList)).take 350)
  let answer :=
    if citations = [] then answer
    else answer ++ "\n\n参考论文证据：\n".toList ++ Str.join "\n".toList (citations.map fun c =>
      "- ".toList ++ c.title ++ "（DOI：".toList ++ orText c.doi "无".toList ++ "）".toList)
  return ⟨answer, citations, if citations = [] then 68 / 100 else 82 / 100, cacheHit,
    papers.map dump⟩

def trend : Except PyError HandlerResult := do
  let topic := Str.strip (replaceAny ["趋势".toList, "增长".toList, "年度".toList, "研究方向".toList,
    "分析".toList, "近几年".toList, "近五年".toList] " ".toList query)
  let (payload, cacheHit) ← t.search 0 topic 30
  let years : List (Str × ℕ) := payload.foldl
    (fun d item => upsert (· + ·) (orYear item.paper.year "未知".toList) 1 d) []
  if years = [] then
    return ⟨"没有找到足够论文，无法生成趋势统计。".toList, [], 0, cacheHit, []⟩
  let summary := "按当前检索返回样本统计的年度分布：\n".toList ++
    Str.join "\n".toList ((years.mergeSort fun a b => a.1 ≤ b.1).map fun entry =>
      "- ".toList ++ entry.1 ++ "：".toList ++ Str.ofInt entry.2 ++ " 篇".toList) ++
    "\n\n说明：这是基于当前检索样本的探索性统计，不等同于完整学科产出统计。".toList
  let papers := (payload.take 5).map Hit.paper
  return ⟨summary, papers.map fun p => citation p "趋势样本".toList, 3 / 4, cacheHit,
    papers.map dump⟩

end Handler

/-- The handler that `run_rule` calls for an intent. -/
def ruleHandler (t : Tools) (intent : Intent) (query : Str) : Except PyError HandlerResult :=
  match intent with
  | .paperSearch => Handler.search t query
  | .paperDetail => Handler.detail t query
  | .evidenceQa => Handler.qa t query
  | .conceptQa => Handler.conceptQa t query
  | .compare => Handler.compare t query
  | .trend => Handler.trend t query

end K8sLearn.Pilot
