import Mathlib.Algebra.Order.Ring.Unbundled.Rat
import Mathlib.Data.Char
import Mathlib.Data.List.Lex
import Mathlib.Data.List.Sort
import K8sLearn.Discovery.Rules
import K8sLearn.Lib.Collect

/-! # The agents and their blackboard

Every agent runs a loop of rounds on a shared blackboard: it observes, reasons, acts and
learns, and stops early when it observes nothing, has no plan, or raises. Publishing a list
appends it to what is on the board. The reconnaissance agent collects the source files of five
modules, the scanner publishes the hits of its rules, and the semantic analyst turns hits into
hypotheses, asking a language model about guards.
-/

namespace K8sLearn.Discovery

section Loop

variable {B O P R : Type*}

/-- The four hooks of `Agent`. An agent has no plan, or its reasoning raises, where `reason`
is `none`. -/
structure Agent (B O P R : Type*) where
  observe : B → Option O
  reason : B → O → Option P
  act : B → P → B × R
  learn : B → R → B

def Agent.round (a : Agent B O P R) (b : B) : Option B :=
  (a.observe b).bind fun obs => (a.reason b obs).map fun plan =>
    a.learn (a.act b plan).1 (a.act b plan).2

def Agent.run (a : Agent B O P R) : ℕ → B → B
  | 0, b => b
  | n + 1, b => match a.round b with
    | none => b
    | some b' => a.run n b'

end Loop

/-- A path below the root of the code base, as its components. -/
abbrev Path := List Str

/-- The files and directories below the root; the text is none for what cannot be read. -/
structure CodeBase where
  entries : List (Path × Option Str)
  nodup : (entries.map Prod.fst).Nodup

/-- `(root / path).read_text(errors="ignore")`. -/
def CodeBase.read (cb : CodeBase) (p : Path) : Option Str :=
  (cb.entries.find? fun e => e.1 = p).bind Prod.snd

structure SurfaceFile where
  module : String
  path : Path
deriving DecidableEq

structure Candidate where
  rule : String
  cwe : String
  name : String
  module : String
  file : Path
  line : ℕ
  snippet : Str
  context : Str
deriving DecidableEq

structure Guard where
  guarded : Bool
  confidence : ℚ
  reason : Str
deriving DecidableEq

structure Hypothesis where
  cwe : String
  rule : String
  file : Path
  line : ℕ
  module : String
  snippet : Str
  guard : Guard
  reachability : List String
  differential : List String
  confidence : ℚ
  pocType : String
deriving DecidableEq

structure LearnedPattern where
  name : Str
  cwe : String
  pocType : String
deriving DecidableEq

abbrev Key := String × Path × ℕ

def Candidate.key (c : Candidate) : Key := (c.rule, c.file, c.line)

def Hypothesis.key (h : Hypothesis) : Key := (h.rule, h.file, h.line)

/-- The blackboard, the file `hypotheses.json` of its directory, and the number of questions
that were put to the model. -/
structure Board where
  apiSurface : List SurfaceFile
  sastCandidates : List Candidate
  hypotheses : List Hypothesis
  learnedPatterns : List LearnedPattern
  feedbackRound : ℕ
  hypothesesJson : Option (List Hypothesis)
  asked : ℕ
deriving DecidableEq

def Board.empty : Board := ⟨[], [], [], [], 0, none, 0⟩

section Recon

/-- A component of a glob: a text in which each gap stands for any characters, or `**`. -/
inductive Glob where
  | name (parts : List Str)
  | anyDepth

/-- Whether the parts are in the text in this order, the last of them at its end. -/
def gapped : List Str → Str → Bool
  | [], s => s = []
  | [part], s => part <:+ s
  | part :: parts, s =>
    s.tails.any fun t => part <+: t && gapped parts (t.drop part.length)

def Glob.fits : List Str → Str → Bool
  | [], s => s = []
  | [part], s => s = part
  | part :: parts, s => part <+: s && gapped parts (s.drop part.length)

def globMatches : List Glob → Path → Bool
  | [], p => p = []
  | .name parts :: g, c :: p => Glob.fits parts c && globMatches g p
  | .name _ :: _, [] => false
  | .anyDepth :: g, p => p.tails.any (globMatches g)

def dir (s : String) : Glob := .name [s.toList]

def moduleGlobs : List (String × List Glob) :=
  let cc : Glob := .name [[], ".cc".toList]
  [("端侧推理内核", [dir "tensorflow", dir "lite", dir "kernels", cc]),
   ("编译器·XLA算子", [dir "tensorflow", dir "compiler", .anyDepth, cc]),
   ("核心内核", [dir "tensorflow", dir "core", dir "kernels", cc]),
   ("图像编解码", [dir "tensorflow", dir "core", dir "lib", .name [[], []],
      .name [[], "io".toList, ".cc".toList]]),
   ("音频算子", [dir "tensorflow", dir "core", dir "ops", dir "audio_ops.cc"])]

def fileName (p : Path) : Str := (p.getLast?).getD []

/-- The filters on the name: no test, and `.cc` as the suffix, which a name that only
consists of it does not have. -/
def isImpl (p : Path) : Bool :=
  !("_test".toList <:+: fileName p) && ".cc".toList <:+ fileName p && 3 < (fileName p).length

/-- The surface that `ReconAgent._reason` collects. -/
def apiSurface (cb : CodeBase) : List SurfaceFile :=
  moduleGlobs.flatMap fun m =>
    (((cb.entries.map Prod.fst).filter (globMatches m.2)).insertionSort (· ≤ ·)).filter isImpl
      |>.map fun p => ⟨m.1, p⟩

/-- `ReconAgent._sca` reads every `WORKSPACE` below `third_party` and raises on the first that
it cannot read. -/
def scaReadable (cb : CodeBase) : Bool :=
  cb.entries.all fun e =>
    !(globMatches [dir "third_party", .anyDepth, dir "WORKSPACE"] e.1) || e.2.isSome

def reconAgent (cb : CodeBase) : Agent Board Unit (List SurfaceFile) Unit where
  observe b := if b.apiSurface = [] then some () else none
  reason _ _ := if scaReadable cb then some (apiSurface cb) else none
  act b plan := ({ b with apiSurface := b.apiSurface ++ plan }, ())
  learn b _ := b

end Recon

section Scanner

variable (u : CharTables)

/-- The hits in a file: line by line, and in the order of the rules. -/
def scanFile (module : String) (file : Path) (text : Str) : List Candidate :=
  let lines := Str.splitLines text
  (lines.zipIdx 1).flatMap fun l => ((rules u).filter fun rule =>
    matchesLine u rule l.1 lines l.2).map fun rule =>
    { rule := rule.id, cwe := rule.cwe, name := rule.name, module, file, line := l.2
      snippet := (Str.strip l.1).take 160, context := context lines l.2 }

/-- The candidates of `SASTScanner._act`. -/
def scan (cb : CodeBase) (targets : List SurfaceFile) : List Candidate :=
  targets.flatMap fun t => ((cb.read t.path).map (scanFile u t.module t.path)).getD []

def sastScanner (cb : CodeBase) :
    Agent Board (List SurfaceFile) (List SurfaceFile) (List Candidate) where
  observe b := if b.apiSurface = [] then none else some b.apiSurface
  reason _ api := some (firsts SurfaceFile.path api)
  act b targets :=
    let candidates := scan u cb targets
    ({ b with sastCandidates := b.sastCandidates ++ candidates }, candidates)
  learn b _ := b

end Scanner

section Analyst

variable (u : CharTables)

/-- The ASCII lower case. No word that is looked for has a letter that is the lower case of
another character. -/
def lower (s : Str) : Str := s.map Char.toLower

def heuristicGuard (ctx : Str) : Guard :=
  let guards := ["ENSURE", "OP_REQUIRES", "!= 0", "> 0", "!= nullptr", "if (", "CHECK(", "DCHECK",
    "TF_LITE_ENSURE"]
  let found := guards.filter fun g => g.toList <:+: ctx
  if found = [] then ⟨false, 7 / 10, "启发式: 未发现守卫关键字".toList⟩
  else ⟨true, 1 / 2, "启发式: 发现守卫关键字 [".toList ++
    Str.join ", ".toList (found.map fun g => '\'' :: g.toList ++ ['\'']) ++ [']']⟩

/-- `LLMClient.judge_guard`: the answer to the question with this number, or the heuristic
where there is no model or its answer holds no JSON object. -/
def judgeGuard (chat : ℕ → Str → Str → Option Guard) (n : ℕ) (ctx expr : Str) : Guard :=
  (chat n ctx expr).getD (heuristicGuard ctx)

def funcContext (src : List Str) (line : ℕ) : Str := numbered src (line - 20) (line + 5)

def reachability (ctx : Str) : List String :=
  let hits := [("resize_tensor_input", "可动态修改输入维度绕过 Prepare 守卫"),
    ("jit_compile", "通过 tf.function+jit_compile 触发 XLA 路径"),
    ("GetInput", "可选输入可能返回 nullptr"), ("Interpreter", "端侧推理解释器可达"),
    ("tf.function", "图模式可达")].filter fun e => lower e.1.toList <:+: lower ctx
  if hits = [] then ["默认公共 API 可达（待 PoC 证实）"] else hits.map Prod.snd

/-- `GUARD_ABS.search`. -/
def hasAbs (ln : Str) : Bool :=
  Pattern.search u ([.boundary] ++ Pattern.text "abs" ++ Pattern.spaces ++ Pattern.text "(") ln ||
    "std::abs".toList <:+: ln

def differential (c : Candidate) (src : List Str) : List String :=
  let hasInt32 := src.any fun ln => "int32".toList <:+: lower ln
  let hasInt64 := src.any fun ln => "int64".toList <:+: lower ln || "TensorShape".toList <:+: ln
  let txt := Str.join ['\n'] src
  (if hasInt32 && hasInt64 then ["位宽差分: 同文件 int32 与 int64/TensorShape 混用"] else []) ++
  (if src.any (hasAbs u) && c.rule ∈ ["R4", "R5", "R6"] then
    ["守卫差分: 同文件有 abs() 守卫但候选处缺失"] else []) ++
  (if "BuildFromBuffer".toList <:+: txt && "VerifyAndBuildFromBuffer".toList <:+: txt then
    ["验证路径差分: BuildFromBuffer vs VerifyAndBuildFromBuffer 双路径"] else [])

def score (guard : Guard) (reach diff : List String) : ℚ :=
  min (3 / 10 + (if guard.guarded then 0 else 3 / 10) + (if reach = [] then 0 else 1 / 5) +
    (if diff = [] then 0 else 1 / 5)) 1

def pocType (c : Candidate) : String :=
  (([("R1", "除零FPE"), ("R2", "空指针NPE"), ("R3", "零维DoS"), ("R4", "整数溢出"),
    ("R5", "越界写"), ("R7", "验证缺失")].lookup c.rule).getD "通用")

/-- `AnalystSemantic._reason`: the first 200 candidates of six rules. -/
def focused (cands : List Candidate) : List Candidate :=
  (firsts Candidate.key
    (cands.filter fun c => c.rule ∈ ["R1", "R2", "R3", "R4", "R5", "R7"])).take 200

/-- The hypothesis of a candidate in a file, when its confidence is high enough. -/
def hypothesis (guard : Guard) (c : Candidate) (src : List Str) : Option Hypothesis :=
  let reach := reachability (funcContext src c.line)
  let diff := differential u c src
  let conf := score guard reach diff
  if 3 / 5 ≤ conf then
    some { cwe := c.cwe, rule := c.rule, file := c.file, line := c.line, module := c.module
           snippet := c.snippet, guard, reachability := reach, differential := diff
           confidence := conf, pocType := pocType c }
  else none

/-- The loop of `AnalystSemantic._act`, with the number of questions asked before. -/
def judgeAll (cb : CodeBase) (chat : ℕ → Str → Str → Option Guard) :
    ℕ → List Candidate → ℕ × List Hypothesis
  | n, [] => (n, [])
  | n, c :: cs =>
    match cb.read c.file with
    | none => judgeAll cb chat n cs
    | some text =>
      let src := Str.splitLines text
      let guard := judgeGuard chat n (funcContext src c.line) c.snippet
      let rest := judgeAll cb chat (n + 1) cs
      (rest.1, (hypothesis u guard c src).toList ++ rest.2)

def learnedPattern (h : Hypothesis) : LearnedPattern where
  name := h.rule.toList ++ ['@'] ++ Str.join ['/'] h.file ++ [':'] ++ Nat.toDigits 10 h.line
  cwe := h.cwe
  pocType := h.pocType

def analystSemantic (cb : CodeBase) (chat : ℕ → Str → Str → Option Guard) :
    Agent Board (List Candidate) (List Candidate) (List Hypothesis) where
  observe b := if b.sastCandidates = [] then none else some b.sastCandidates
  reason _ cands := some (focused cands)
  act b cands :=
    let judged := judgeAll u cb chat b.asked cands
    let hypotheses := judged.2.insertionSort fun h h' => h'.confidence ≤ h.confidence
    ({ b with hypotheses := b.hypotheses ++ hypotheses, hypothesesJson := some hypotheses
              asked := judged.1 }, hypotheses)
  learn b result := { b with learnedPatterns := b.learnedPatterns ++ result.map learnedPattern }

end Analyst

def coordinatorRun (u : CharTables) (cb : CodeBase) (chat : ℕ → Str → Str → Option Guard) : Board :=
  let b := (reconAgent cb).run 2 Board.empty
  let b := (sastScanner u cb).run 2 b
  let b := (analystSemantic u cb chat).run 2 b
  if b.learnedPatterns = [] then b
  else
    let b := { b with feedbackRound := b.feedbackRound + 1 }
    if b.feedbackRound ≤ 2 then (sastScanner u cb).run 2 b else b

end K8sLearn.Discovery
