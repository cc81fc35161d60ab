import K8sLearn.Lib.PyValue

/-! # The worker agent

A question is routed to one of six intents by its words. The rule worker searches with
the question itself on the first iteration and with a broadened one on a retry; the
six handlers, which call the paper tools, are a parameter. So is Python's case mapping.
-/

namespace K8sLearn.Pilot

/-- The intents `classify` tells apart. -/
inductive Intent where
  | paperSearch | paperDetail | evidenceQa | conceptQa | compare | trend
  deriving DecidableEq

structure Citation where
  paperId : Str
  title : Str
  doi : Option Str
  url : Option Str
  evidence : Str
  deriving DecidableEq

/-- The fields of a paper dictionary that worker and judge read; a missing key is `none`. -/
structure Evidence where
  sourceId : Option Str
  title : Option Str
  doi : Option Str
  landingPageUrl : Option Str
  pdfUrl : Option Str
  abstract : Option Str
  deriving DecidableEq

structure WorkerDraft where
  answer : Str
  intent : Intent
  confidence : ℚ
  citations : List Citation
  cacheHit : Bool
  evidence : List Evidence
  deriving DecidableEq

/-- The five values an intent handler returns. -/
structure HandlerResult where
  answer : Str
  citations : List Citation
  confidence : ℚ
  cacheHit : Bool
  evidence : List Evidence

section Classify

variable (lower : Str → Str)

def isConceptQuestion (query : Str) : Bool :=
  let conceptHit := Str.containsAny ["cnn".toList, "convolutional neural network".toList,
    "rag".toList, "llm".toList, "transformer".toList, "bert".toList, "lstm".toList,
    "gru".toList] (lower query)
  let detailHit := Str.containsAny ["原理".toList, "机制".toList, "结构".toList, "详细".toList,
    "介绍".toList, "是什么".toList, "分析".toList, "讲解".toList] query
  let paperHit := Str.containsAny ["attention is all you need".toList,
    "deep residual learning".toList, "bert pre-training".toList, "这篇论文".toList] (lower query)
  conceptHit && detailHit && !paperHit

def classify (query : Str) : Intent :=
  if Str.containsAny ["趋势".toList, "增长".toList, "年度".toList, "研究方向".toList,
    "trend".toList] query then .trend
  else if Str.containsAny ["比较".toList, "对比".toList, "区别".toList, "compare".toList] query then
    .compare
  else if Str.containsAny ["作者".toList, "期刊".toList, "doi".toList, "DOI".toList, "发表".toList,
    "年份".toList] query then .paperDetail
  else if isConceptQuestion lower query then .conceptQa
  else if Str.containsAny ["是什么".toList, "提出".toList, "方法".toList, "数据集".toList,
    "解决".toList, "如何".toList, "贡献".toList, "原理".toList, "详细".toList, "机制".toList,
    "结构".toList] query then .evidenceQa
  else .paperSearch

end Classify

/-- The search words of `run_rule`: the question, broadened on a retry with feedback. -/
def searchQuery (query feedback : Str) (iteration : ℕ) : Str :=
  if 1 < iteration ∧ feedback ≠ [] then
    Str.strip <| Str.collapseSpaces <| Str.replaceAll ["请".toList, "详细".toList, "介绍".toList,
      "的".toList, "是".toList, "什么".toList, "提出".toList, "了".toList, "方法".toList,
      "原理".toList, "分析".toList, "这篇论文".toList] " ".toList query
  else query

def runRule (lower : Str → Str) (handler : Intent → Str → Except PyError HandlerResult)
    (query feedback : Str) (iteration : ℕ) : Except PyError WorkerDraft := do
  let intent := classify lower query
  let r ← handler intent (searchQuery query feedback iteration)
  return ⟨r.answer, intent, r.confidence, r.citations, r.cacheHit, r.evidence⟩

end K8sLearn.Pilot
