import K8sLearn.Pilot.Engine

/-! # What the language model replies

A reply is a text. `parseJsonResponse` takes a JSON value out of it: the whole text, a
fenced block, or what stands between the first and the last brace. The planner and the
judge read fields of that value, and each access may raise. Python's JSON decoder and
its number conversions are parameters.
-/

namespace K8sLearn.Pilot

section Parse

/-- The body up to the first closing brace that a fence follows, from a text within it. -/
def fencedBody : Str → Option Str
  | [] => none
  | c :: s =>
    if c = '}' && "```".toList.isPrefixOf (s.dropWhile Str.isSpace) then some [c]
    else (fencedBody s).map (c :: ·)

def fencedAfter (s : Str) : Option Str :=
  match s.dropWhile Str.isSpace with
  | '{' :: body => (fencedBody body).map ('{' :: ·)
  | _ => none

/-- Group 1 of `` re.search(r"```(?:json)?\s*(\{.*?\})\s*```", s, re.DOTALL) ``. -/
def fenced : Str → Option Str
  | [] => none
  | c :: s =>
    let here :=
      if "```json".toList.isPrefixOf (c :: s) then
        (fencedAfter (s.drop 6)).or (fencedAfter (s.drop 2))
      else if "```".toList.isPrefixOf (c :: s) then fencedAfter (s.drop 2)
      else none
    here.or (fenced s)

/-- `re.search(r"\{.*\}", s, re.DOTALL)`: from the first opening to the last closing brace. -/
def braced (s : Str) : Option Str :=
  match s.dropWhile (· ≠ '{') with
  | [] => none
  | _ :: body =>
    match body.reverse.dropWhile (· ≠ '}') with
    | [] => none
    | r => some ('{' :: r.reverse)

variable (loads : Str → Except PyError Json)

/-- `json.loads(s)`, where a `JSONDecodeError` goes on with the next way to read the text. -/
def loadsOr (s : Str) (next : Except PyError (Option Json)) : Except PyError (Option Json) :=
  match loads s with
  | .ok v => .ok (some v)
  | .error (.exception "JSONDecodeError" _) => next
  | .error e => .error e

def parseJsonResponse (text : Str) : Except PyError (Option Json) :=
  if text.isEmpty then .ok none
  else
    loadsOr loads (Str.strip text) <|
      let rest := match braced text with
        | some s => loadsOr loads s (.ok none)
        | none => .ok none
      match fenced text with
      | some s => loadsOr loads s rest
      | none => rest

end Parse

/-- The parts of Python that read a reply. -/
structure Decoder where
  /-- `json.loads`. -/
  loads : Str → Except PyError Json
  /-- `str(v)` of a value that is no string. -/
  repr : Json → Str
  /-- `float(s)` of a string, if it spells a number. -/
  parseFloat : Str → Option PyFloat
  /-- `float(n)` of an integer, if it is in range. -/
  floatOfInt : ℤ → Option PyFloat

/-- `str(v)`. -/
def Json.toStr (py : Decoder) : Json → Str
  | .str s => s
  | v => py.repr v

/-- `float(v)`. -/
def Json.toFloat (py : Decoder) : Json → Except PyError PyFloat
  | .float x => .ok x
  | .bool b => .ok (.finite (if b then 1 else 0))
  | .int n =>
    match py.floatOfInt n with
    | some x => .ok x
    | none => .error (.exception "OverflowError" "int too large to convert to float")
  | .str s =>
    match py.parseFloat s with
    | some x => .ok x
    | none => .error (.exception "ValueError" "could not convert string to float")
  | v => .error (.exception "TypeError"
      ("float() argument must be a string or a real number, not '" ++ Json.typeName v ++ "'"))

/-- `v[key]` for a string key. -/
def Json.getItem (key : Str) : Json → Except PyError Json
  | .dict _ items =>
    match PyValue.lookup key items with
    | some v => .ok v
    | none => .error (.exception "KeyError" (String.ofList key))
  | .str _ => .error (.exception "TypeError" "string indices must be integers, not 'str'")
  | .list _ => .error (.exception "TypeError" "list indices must be integers or slices, not str")
  | .tuple _ => .error (.exception "TypeError" "tuple indices must be integers or slices, not str")
  | v => .error (.exception "TypeError" ("'" ++ Json.typeName v ++ "' object is not subscriptable"))

/-- What `data.get("issues", []) if isinstance(data.get("issues"), list) else []` gives. -/
def Json.listOrEmpty : Json → List Json
  | .list vs => vs
  | _ => []

/-- The strings of a `list[str]` field, which takes no other value. -/
def Json.strings : List Json → Option (List Str)
  | [] => some []
  | .str s :: vs => (Json.strings vs).map (s :: ·)
  | _ :: _ => none

section Judge

variable (py : Decoder) (lower : Str → Str)

/-- `str(v).strip().lower()`, as one of the two verdicts. -/
def verdictOf (v : Json) : Option Verdict :=
  let verdictStr := lower (Str.strip (v.toStr py))
  if verdictStr = "pass".toList then some .pass
  else if verdictStr = "reject".toList then some .reject
  else none

/-- The verdict that `_evaluate_with_llm` builds from a value with a `verdict` field. -/
def judgeVerdict (data : Json) : Except PyError (Option JudgeVerdict) := do
  match verdictOf py lower (← data.getItem "verdict".toList) with
  | none => return none
  | some verdict =>
    let issues := (← data.get "issues".toList .none).listOrEmpty
    let feedback := (← data.get "feedback".toList (.str [])).toStr py
    let confidence ← (← data.get "confidence".toList (.float (.finite (1 / 2)))).toFloat py
    match Json.strings issues with
    | some issues => return some ⟨verdict, issues, feedback, confidence⟩
    | none => throw (.exception "ValidationError" "validation error for JudgeVerdict")

/-- `_evaluate_with_llm`, on what the language model generates for the judging prompt. -/
def evaluateReply (raw : Option Str) : Except PyError (Option JudgeVerdict) := do
  match raw with
  | none => return none
  | some text =>
    match ← parseJsonResponse py.loads text with
    | none => return none
    | some data =>
      if data.truthy then
        if ← data.contains "verdict".toList then judgeVerdict py lower data
        else return none
      else return none

end Judge

/-- What the language model generates for the planning prompt of a question and a feedback,
and for the judging prompt of a question and a draft. -/
structure Generations where
  plan : Str → Str → Option Str
  judge : Str → WorkerDraft → Option Str

def planReplyOf (py : Decoder) : Option Str → Except PyError (Option Json)
  | none => .ok none
  | some text => parseJsonResponse py.loads text

def Services.reading (py : Decoder) (lower : Str → Str) (llm : Generations) (s : Services) :
    Services where
  planReply question feedback := planReplyOf py (llm.plan question feedback)
  call := s.call
  generateWithLlm := s.generateWithLlm
  handler := s.handler
  evaluateWithLlm question draft := evaluateReply py lower (llm.judge question draft)

end K8sLearn.Pilot
