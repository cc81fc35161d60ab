import K8sLearn.Pilot.Worker

/-! # The judge agent

The judge asks the language model about the intents that need understanding and falls
back on rules: an answer long enough, citations whose DOIs occur in the evidence, a
refusal where there is no evidence, and an answer that shares a word with the question.
-/

namespace K8sLearn.Pilot

inductive Verdict where
  | pass | reject
  deriving DecidableEq

structure JudgeVerdict where
  verdict : Verdict
  issues : List Str
  feedback : Str
  confidence : PyFloat
  deriving DecidableEq

def refusalMarkers : List Str :=
  ["没有找到".toList, "不足以确认".toList, "未找到".toList, "暂不".toList, "当前公开数据不足".toList]

section Rules

variable (lower : Str → Str)

/-- `doi.lower().replace("https://doi.org/", "")`. -/
def normalizeDoi (doi : Str) : Str := Str.replace "https://doi.org/".toList [] (lower doi)

/-- `_extract_evidence_dois`; an empty DOI counts as none. -/
def extractEvidenceDois (evidence : List Evidence) : List Str :=
  (evidence.filterMap fun item => item.doi.filter fun doi => !doi.isEmpty).map (normalizeDoi lower)

def fabricated (draft : WorkerDraft) : List Str :=
  (draft.citations.filterMap fun c => c.doi.filter fun doi => !doi.isEmpty).filter fun doi =>
    let normalized := normalizeDoi lower doi
    !normalized.isEmpty && !decide (normalized ∈ extractEvidenceDois lower draft.evidence)

/-- The question without the words that only state its intent. -/
def contentOf (question : Str) : Str :=
  Str.replaceAll ["请".toList, "详细".toList, "介绍".toList, "原理".toList, "分析".toList,
    "是什么".toList, "怎么样".toList, "如何".toList, "比较".toList, "对比".toList, "区别".toList,
    "查询".toList, "搜索".toList, "查找".toList, "关于".toList, "有关".toList, "方法".toList,
    "机制".toList, "结构".toList, "逐步".toList, "为什么".toList, "讲解".toList] [] question

/-- The ASCII words of the question with more than three letters, in lower case. -/
def questionEnglishWords (question : Str) : List Str :=
  (((Str.splitSpaces question).filter fun w => 3 < w.length && Str.isAscii w).map lower).dedup

/-- The pairs of neighbouring Chinese characters of the question's content words. -/
def questionChineseWords (question : Str) : List Str :=
  ((Str.runs (fun c => '\u4e00' ≤ c && c ≤ '\u9fff') (contentOf question)).flatMap fun run =>
    (List.range (run.length - 1)).map fun i => (run.drop i).take 2).dedup

def matched (question answer : Str) : ℕ :=
  (questionEnglishWords lower question).countP (fun w => w <:+: lower answer) +
    (questionChineseWords question).countP (fun w => w <:+: answer)

/-- What the rules object to in an answer that is long enough. -/
def ruleIssues (question : Str) (draft : WorkerDraft) : List Str :=
  let bad := fabricated lower draft
  let hasEvidence := !draft.citations.isEmpty || 0 < draft.evidence.length
  let hasRefusal := Str.containsAny refusalMarkers draft.answer
  let hasWords := !(questionEnglishWords lower question).isEmpty ||
    !(questionChineseWords question).isEmpty
  (if bad ≠ [] then
    ["引用的 DOI 不在检索证据中: ".toList ++ Str.join ", ".toList (bad.take 3)] else []) ++
  (if !hasEvidence && !hasRefusal then ["没有检索到证据，但答案未明确拒答".toList] else []) ++
  (if hasWords && hasEvidence && matched lower question draft.answer = 0 then
    ["答案可能没有直接回答用户问题".toList] else [])

def evaluateWithRules (question : Str) (draft : WorkerDraft) : JudgeVerdict :=
  if (Str.strip draft.answer).length < 10 then
    ⟨.reject, ["答案过短或为空".toList], "答案内容过短，请补充证据和分析。".toList,
      .finite (9 / 10)⟩
  else
    let issues := ruleIssues lower question draft
    if issues ≠ [] then
      ⟨.reject, issues, "请检查以下问题并重新生成：".toList ++ Str.join "；".toList issues,
        .finite (7 / 10)⟩
    else ⟨.pass, [], [], .finite (8 / 10)⟩

/-- `evaluate`, over the verdict the language model gives, if it gives one. -/
def evaluate (evaluateWithLlm : Str → WorkerDraft → Except PyError (Option JudgeVerdict))
    (question : Str) (draft : WorkerDraft) : Except PyError JudgeVerdict := do
  if draft.intent ∈ [Intent.evidenceQa, .conceptQa, .compare] then
    if let some llmVerdict ← evaluateWithLlm question draft then
      return llmVerdict
  return evaluateWithRules lower question draft

end Rules

end K8sLearn.Pilot
