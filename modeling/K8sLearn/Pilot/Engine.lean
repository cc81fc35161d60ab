import K8sLearn.Lib.Encoding
import K8sLearn.Lib.Loop
import K8sLearn.Pilot.Judge

/-! # The worker and judge loop

`run` lets the worker draft an answer and the judge review it, three times at most. A
rejection hands its feedback to the next iteration. The log lists the calls a run makes
to its two agents, also when a call raises. What comes from outside, the language model,
the paper tools and the intent handlers, may differ from one iteration to the next. At the
end the run is saved with its trace, which holds texts that the language model replied.
-/

namespace K8sLearn.Pilot

/-- What `json.loads` returns. -/
abbrev Json := PyValue Empty

/-- What a tool returns: the search tool a payload with a cache flag. -/
inductive ToolResult where
  | payload (papers : List Evidence) (cacheHit : Bool)
  | other

structure Services where
  /-- The parsed reply to the planning prompt for a question and a feedback. -/
  planReply : Str → Str → Except PyError (Option Json)
  /-- `registry.call`, for the tool call at this position of the plan. -/
  call : ℕ → Str → Json → Except PyError ToolResult
  /-- `generate_with_llm`. -/
  generateWithLlm : Str → List Evidence → Str → Option Str
  /-- The six intent handlers. -/
  handler : Intent → Str → Except PyError HandlerResult
  /-- `_evaluate_with_llm`. -/
  evaluateWithLlm : Str → WorkerDraft → Except PyError (Option JudgeVerdict)

section Plan

/-- `type(v).__name__`. -/
def Json.typeName : Json → String := PyValue.typeName Empty.elim

/-- `key in v`. -/
def Json.contains (key : Str) : Json → Except PyError Bool
  | .str s => .ok (key <:+: s)
  | .list vs | .tuple vs => .ok (vs.any fun | .str s => s = key | _ => false)
  | .dict _ items => .ok (PyValue.lookup key items).isSome
  | v => .error (.exception "TypeError"
      ("argument of type '" ++ Json.typeName v ++ "' is not iterable"))

/-- `v.get(key, default)`. -/
def Json.get (v : Json) (key : Str) (default : Json) : Except PyError Json :=
  match v with
  | .dict _ items => .ok ((PyValue.lookup key items).getD default)
  | v => .error (.exception "AttributeError"
      ("'" ++ Json.typeName v ++ "' object has no attribute 'get'"))

/-- What `for x in v` runs through; a value without a length raises. -/
def Json.items : Json → Except PyError (List Json)
  | .str s => .ok (s.map fun c => .str [c])
  | .list vs | .tuple vs => .ok vs
  | .dict _ items => .ok (items.map Prod.fst)
  | v => .error (.exception "TypeError" ("object of type '" ++ Json.typeName v ++ "' has no len()"))

def planWithLlm (s : Services) (question feedback : Str) : Except PyError (Option Json) := do
  match ← s.planReply question feedback with
  | some plan =>
    if plan.truthy then
      if ← plan.contains "tool_calls".toList then return some plan
    return none
  | none => return none

/-- The tool a planned call names, if it is registered; looking it up hashes the name. -/
def registeredTool : Json → Except PyError (Option Str)
  | .str name =>
    .ok (if ["search_papers".toList, "get_paper".toList, "ensure_fulltext".toList].contains name
      then some name else none)
  | .list (_ :: _) => .error (.exception "TypeError" "unhashable type: 'list'")
  | .dict _ (_ :: _) => .error (.exception "TypeError" "unhashable type: 'dict'")
  | _ => .ok none

def normalizeEvidence : ToolResult → List Evidence
  | .payload papers _ => papers
  | .other => []

def extractCacheHit : ToolResult → Bool
  | .payload _ cacheHit => cacheHit
  | .other => false

/-- The loop over the planned calls, from position `i` on; a tool's `Exception` is dropped. -/
def callTools (s : Services) : ℕ → List Json → List Evidence → Bool →
    Except PyError (List Evidence × Bool)
  | _, [], evidence, cacheHit => .ok (evidence, cacheHit)
  | i, call :: calls, evidence, cacheHit => do
    let name ← call.get "name".toList (.str [])
    let args ← call.get "arguments".toList (.dict none [])
    match ← registeredTool name with
    | none => callTools s (i + 1) calls evidence cacheHit
    | some tool =>
      match s.call i tool args with
      | .ok r =>
        callTools s (i + 1) calls (evidence ++ normalizeEvidence r) (cacheHit || extractCacheHit r)
      | .error (.exception _ _) => callTools s (i + 1) calls evidence cacheHit
      | .error e => .error e

/-- `a or b` on optional strings. -/
def orElseEmpty (a b : Option Str) : Option Str :=
  match a with
  | some (c :: s) => some (c :: s)
  | _ => b

def citationFromEvidence (paper : Evidence) : Citation where
  paperId := paper.sourceId.getD []
  title := paper.title.getD []
  doi := paper.doi
  url := orElseEmpty paper.landingPageUrl paper.pdfUrl
  evidence := ((orElseEmpty paper.abstract paper.title).getD []).take 350

/-- `_run_worker_llm`; no draft means that the rule path takes over. -/
def runWorkerLlm (s : Services) (query : Str) (intent : Intent) (feedback : Str)
    (iteration : ℕ) : Except PyError (Option WorkerDraft) := do
  match ← planWithLlm s query (if 1 < iteration then feedback else []) with
  | none => return none
  | some plan =>
    let calls ← (← plan.get "tool_calls".toList (.list [])).items
    if calls.isEmpty then return none
    let (evidence, cacheHit) ← callTools s 0 calls [] false
    if evidence.isEmpty then
      return some ⟨"当前公开数据不足以确认这个问题。请提供论文 DOI、标题片段，或先搜索目标论文。".toList,
        intent, 0, [], cacheHit, evidence⟩
    match s.generateWithLlm query evidence feedback with
    | some (c :: answer) =>
      return some ⟨c :: answer, intent, min (95 / 100) (1 / 2 + evidence.length * (8 / 100)),
        (evidence.take 5).map citationFromEvidence, cacheHit, evidence⟩
    | _ => return none

end Plan

def rewrite (query : Str) : Str :=
  Str.collapseSpaces (Str.strip (query.map fun c => if c = '"' ∨ c = '\'' then ' ' else c))

inductive WorkerPath where
  | llm | rule
  deriving DecidableEq

/-- A call to one of the two agents, with what came back. -/
inductive Event where
  | worker (path : WorkerPath) (iteration : ℕ) (feedback : Str)
      (result : Except PyError (Option WorkerDraft))
  | judged (iteration : ℕ) (draft : WorkerDraft) (result : Except PyError JudgeVerdict)

/-- The variables of `run` that its loop changes, with the log of calls. -/
structure LoopState where
  iteration : ℕ
  draft : Option WorkerDraft
  verdict : Option JudgeVerdict
  feedback : Str
  log : List Event

/-- `AgentResponse`, less trace and latency. -/
structure AgentResponse where
  answer : Str
  intent : Intent
  confidence : ℚ
  citations : List Citation
  cacheHit : Bool
  iterations : ℕ
  judgeVerdict : Verdict

def maxIterations : ℕ := 3

def llmIntents : List Intent := [.conceptQa, .evidenceQa, .compare]

/-- `intent in LLM_INTENTS and llm_ready`. -/
def useLlm (intent : Intent) (llmReady : Bool) : Bool := intent ∈ llmIntents && llmReady

section Trace

/-- What a planned call leaves in the trace: its arguments, or the error. -/
def callTexts (s : Services) (i : ℕ) (call : Json) : List Json :=
  match (call.get "name".toList (.str [])).bind registeredTool,
    call.get "arguments".toList (.dict none []) with
  | .ok (some tool), .ok args =>
    match s.call i tool args with
    | .ok _ => [args]
    | .error (.exception _ message) => [.str message.toList]
    | .error _ => []
  | _, _ => []

def planTexts (s : Services) : Json → List Json
  | .dict _ items =>
    (PyValue.lookup "intent".toList items).getD .none ::
      (PyValue.lookup "reasoning".toList items).getD (.str []) ::
      match Json.items ((PyValue.lookup "tool_calls".toList items).getD (.list [])) with
      | .ok calls => calls.zipIdx.flatMap fun c => callTexts s c.2 c.1
      | .error _ => []
  | _ => []

/-- What a call to an agent leaves in the trace, less numbers, fixed texts and parts of the
question. -/
def Event.texts (env : ℕ → Services) (query : Str) : Event → List Json
  | .worker .llm k feedback _ =>
    .str feedback :: match planWithLlm (env k) query (if 1 < k then feedback else []) with
      | .ok (some plan) => planTexts (env k) plan
      | _ => []
  | .worker .rule _ feedback _ => [.str feedback]
  | .judged _ draft (.ok verdict) =>
    .str (draft.answer.take 200) :: .str verdict.feedback :: verdict.issues.map .str
  | .judged _ draft (.error _) => [.str (draft.answer.take 200)]

/-- `save_run`: a text that cannot be encoded is refused. -/
def saveRun (query answer : Str) (trace : List Json) : Except PyError Unit :=
  if Str.encodable query && Str.encodable answer && trace.all PyValue.encodable then .ok ()
  else .error Str.encodeError

end Trace

section Run

variable (lower : Str → Str) (env : ℕ → Services) (llmReady : Bool) (query : Str)

/-- The language-model worker, where it is eligible. It overwrites the draft. -/
def llmStage (k : ℕ) (s : LoopState) : Flow PyError LoopState :=
  let intent := classify lower query
  if useLlm intent llmReady then
    let r := runWorkerLlm (env k) query intent s.feedback k
    let s := { s with log := s.log ++ [.worker .llm k s.feedback r] }
    match r with
    | .ok draft => .next { s with draft }
    | .error e => .raised e s
  else .next s

def ruleStage (k : ℕ) (s : LoopState) : Flow PyError LoopState :=
  match s.draft with
  | some _ => .next s
  | none =>
    let r := runRule lower (env k).handler query s.feedback k
    let s := { s with log := s.log ++ [.worker .rule k s.feedback (some <$> r)] }
    match r with
    | .ok draft => .next { s with draft := some draft }
    | .error e => .raised e s

def judgeStage (k : ℕ) (s : LoopState) : Flow PyError LoopState :=
  match s.draft with
  | none => .raised (.exception "AttributeError" "'NoneType' object has no attribute 'intent'") s
  | some draft =>
    let r := evaluate lower (env k).evaluateWithLlm query draft
    let s := { s with log := s.log ++ [.judged k draft r] }
    match r with
    | .error e => .raised e s
    | .ok verdict =>
      let s := { s with verdict := some verdict }
      if verdict.verdict = .pass then .brk s else .next { s with feedback := verdict.feedback }

def pass (k : ℕ) (s : LoopState) : Flow PyError LoopState :=
  ((llmStage lower env llmReady query k { s with iteration := k }).bind
    (ruleStage lower env query k)).bind (judgeStage lower env query k)

/-- The loop of `run`, on the rewritten question. -/
def loop : Flow PyError LoopState :=
  Flow.forEach (pass lower env llmReady query) (List.range' 1 maxIterations)
    ⟨0, none, none, [], []⟩

/-- `run`: the response, or what was raised, and the calls made. -/
def run : Except PyError AgentResponse × List Event :=
  match loop lower env llmReady (rewrite query) with
  | .raised e s => (.error e, s.log)
  | .next s | .brk s =>
    match s.draft with
    | none =>
      (.error (.exception "AttributeError" "'NoneType' object has no attribute 'intent'"), s.log)
    | some d =>
      let trace := .str (rewrite query) :: s.log.flatMap (Event.texts env (rewrite query))
      (do
        saveRun query d.answer trace
        return ⟨d.answer, d.intent, d.confidence, d.citations, d.cacheHit, s.iteration,
          (s.verdict.map JudgeVerdict.verdict).getD .pass⟩, s.log)

end Run

end K8sLearn.Pilot
