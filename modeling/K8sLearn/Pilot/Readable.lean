import K8sLearn.Pilot.Reply

/-! # Which replies can be read

The planner and the judge guard against a reply that is no JSON and against a missing
field, not against a value of another type. A plan is readable when every access that
`callTools` makes to it succeeds, a verdict when its fields convert. What the trace keeps
of either must have an encoding.
-/

namespace K8sLearn.Pilot

section Readable

def Json.Filled : Json → Prop
  | .list vs => vs ≠ []
  | .dict _ items => items ≠ []
  | _ => False

def ReadableCall : Json → Prop
  | .dict _ items => ∀ name, PyValue.lookup "name".toList items = some name → ¬ Json.Filled name
  | _ => False

/-- A value in which `key` is found or missed without raising, and if it is found, it is a
field whose object satisfies `p`. -/
def Readable (key : Str) (p : List (Json × Json) → Json → Prop) : Json → Prop
  | .none => True
  | .bool b => b = false
  | .int n => n = 0
  | .float x => x = .finite 0
  | .str s => ¬ key <:+: s
  | .list vs | .tuple vs => .str key ∉ vs
  | .dict _ items => ∀ v, PyValue.lookup key items = some v → p items v

/-- A value the planner takes for a plan, or leaves alone, without raising. -/
def ReadablePlan : Json → Prop :=
  Readable "tool_calls".toList fun _ v =>
    ∃ calls, Json.items v = .ok calls ∧ ∀ call ∈ calls, ReadableCall call

/-- A value that `float` converts. -/
def Numeric (py : Decoder) : Json → Prop
  | .bool _ | .float _ => True
  | .int n => py.floatOfInt n ≠ none
  | .str s => py.parseFloat s ≠ none
  | _ => False

/-- The fields of a pass or a rejection: issues that are all strings, if they are a list,
and a confidence that converts, if there is one. -/
structure ReadableFields (py : Decoder) (items : List (Json × Json)) : Prop where
  issues : ∀ vs, PyValue.lookup "issues".toList items = some (.list vs) → ∀ v ∈ vs, ∃ s, v = .str s
  confidence : ∀ v, PyValue.lookup "confidence".toList items = some v → Numeric py v

/-- A value the judge takes for a verdict, or leaves alone, without raising. -/
def ReadableVerdict (py : Decoder) (lower : Str → Str) : Json → Prop :=
  Readable "verdict".toList fun items v => verdictOf py lower v = none ∨ ReadableFields py items

def SavedPlan : Json → Prop
  | .dict _ items => (PyValue.lookup "tool_calls".toList items).isSome →
    ∀ key ∈ ["intent".toList, "reasoning".toList], ∀ w, PyValue.lookup key items = some w →
      PyValue.encodable w = true
  | _ => True

/-- The texts of a pass or a rejection can be encoded. -/
structure SavedFields (py : Decoder) (items : List (Json × Json)) : Prop where
  issues : ∀ vs, PyValue.lookup "issues".toList items = some (.list vs) →
    ∀ v ∈ vs, PyValue.encodable v = true
  feedback : ∀ v, PyValue.lookup "feedback".toList items = some v →
    Str.encodable (Json.toStr py v) = true

def SavedVerdict (py : Decoder) (lower : Str → Str) : Json → Prop
  | .dict _ items => ∀ v, PyValue.lookup "verdict".toList items = some v →
    verdictOf py lower v ≠ none → SavedFields py items
  | _ => True

/-- A text that parses without raising, to a value with property `p` if it gives one. -/
def Reads (py : Decoder) (p : Json → Prop) (text : Str) : Prop :=
  ∃ r, parseJsonResponse py.loads text = .ok r ∧ ∀ v, r = some v → p v

theorem exists_of_not_reads {py : Decoder} {p q : Json → Prop} {text : Str} {r : Option Json}
    (h : ¬ Reads py (fun v => p v ∧ q v) text) (hparse : parseJsonResponse py.loads text = .ok r)
    (hp : ∀ v, r = some v → p v) : ∃ v, r = some v ∧ ¬ q v := by
  by_contra! hq
  exact h ⟨r, hparse, fun v hv => ⟨hp v hv, hq v hv⟩⟩

end Readable

section Calls

variable {s : Services}

theorem registeredTool_ok_iff (name : Json) :
    (∃ tool, registeredTool name = .ok tool) ↔ ¬ name.Filled := by
  cases name with
  | list vs => cases vs <;> simp [registeredTool, Json.Filled]
  | dict sub items => cases items <;> simp [registeredTool, Json.Filled]
  | _ => simp [registeredTool, Json.Filled]

theorem registeredTool_name_ok_iff (sub : Option String) (items : List (Json × Json)) :
    (∃ tool, registeredTool ((PyValue.lookup "name".toList items).getD (.str [])) = .ok tool) ↔
      ReadableCall (.dict sub items) := by
  rw [registeredTool_ok_iff, ReadableCall]
  cases PyValue.lookup "name".toList items with
  | none => simp [Json.Filled]
  | some name => simp

/-- Tools raise subclasses of `Exception` only. -/
def QuietCalls (s : Services) : Prop :=
  ∀ i tool args e, s.call i tool args = .error e → ∃ cls message, e = .exception cls message

theorem callTools_ok_iff (hs : QuietCalls s) (i : ℕ) (calls : List Json)
    (evidence : List Evidence) (cacheHit : Bool) :
    (∃ r, callTools s i calls evidence cacheHit = .ok r) ↔ ∀ call ∈ calls, ReadableCall call := by
  induction calls generalizing i evidence cacheHit with
  | nil => simp [callTools]
  | cons call calls ih =>
    rw [List.forall_mem_cons]
    cases call with
    | dict sub items =>
      have hcall := registeredTool_name_ok_iff sub items
      simp only [callTools, Json.get, bind, Except.bind]
      cases hr : registeredTool ((PyValue.lookup "name".toList items).getD (.str [])) with
      | error e =>
        rw [hr] at hcall
        simpa using fun h => absurd h (by simpa using hcall)
      | ok tool =>
        have hread : ReadableCall (.dict sub items) := hcall.mp ⟨tool, hr⟩
        simp only [hread, true_and]
        -- a registered tool may raise, which the loop drops; every other way goes on
        cases tool with
        | none => exact ih _ _ _
        | some tool =>
          dsimp only
          cases hc : s.call i tool ((PyValue.lookup "arguments".toList items).getD
              (.dict none [])) with
          | ok r => exact ih _ _ _
          | error e =>
            obtain ⟨cls, message, rfl⟩ := hs _ _ _ _ hc
            exact ih _ _ _
    | _ => simp [callTools, Json.get, ReadableCall, bind, Except.bind]

end Calls

section Guarded

variable {β : Type} {key : Str} {f : Json → Except PyError (Option β)}

/-- The guard both agents put before a parsed reply. -/
def guarded (key : Str) (f : Json → Except PyError (Option β)) (v : Json) :
    Except PyError (Option β) := do
  if v.truthy then
    if ← v.contains key then f v else return none
  else return none

theorem any_str_iff (key : Str) (vs : List Json) :
    (vs.any fun | .str s => decide (s = key) | _ => false) = true ↔ .str key ∈ vs := by
  rw [List.any_eq_true]
  constructor
  · rintro ⟨v, hv, h⟩
    cases v with
    | str s =>
      obtain rfl : s = key := by simpa using h
      exact hv
    | _ => simp at h
  · intro h
    exact ⟨_, h, by simp⟩

section Cases

variable (key f)

theorem guarded_of_falsy {v : Json} (h : v.truthy = false) : guarded key f v = .ok none := by
  simp [guarded, h, pure, Except.pure]

theorem guarded_of_error {v : Json} {e : PyError} (h : v.truthy = true)
    (he : v.contains key = .error e) : guarded key f v = .error e := by
  simp [guarded, h, he, bind, Except.bind]

theorem guarded_of_contains {v : Json} {b : Bool} (h : v.truthy = true)
    (hb : v.contains key = .ok b) : guarded key f v = if b then f v else .ok none := by
  simp [guarded, h, hb, bind, Except.bind, pure, Except.pure]

end Cases

theorem guarded_ok_iff_not {v : Json} {b : Bool} (hf : ∀ d, f v ≠ .ok d)
    (hb : v.contains key = .ok b) (hfalsy : v.truthy = false → b = false) :
    (∃ d, guarded key f v = .ok d) ↔ b = false := by
  cases ht : v.truthy with
  | false => simp [guarded_of_falsy key f ht, hfalsy ht]
  | true =>
    rw [guarded_of_contains key f ht hb]
    cases b with
    | false => simp
    | true => simpa using hf

theorem guarded_ok_iff (hkey : key ≠ []) (p : List (Json × Json) → Json → Prop)
    (hdict : ∀ sub items v, PyValue.lookup key items = some v →
      ((∃ d, f (.dict sub items) = .ok d) ↔ p items v))
    (hother : ∀ v, (∀ sub items, v ≠ .dict sub items) → ∀ d, f v ≠ .ok d) (v : Json) :
    (∃ d, guarded key f v = .ok d) ↔ Readable key p v := by
  cases v with
  | none => simp [guarded_of_falsy key f (v := .none) rfl, Readable]
  | bool b =>
    cases b with
    | false => simp [guarded_of_falsy key f (v := .bool false) rfl, Readable]
    | true => simp [guarded_of_error key f (v := .bool true) rfl rfl, Readable]
  | int n =>
    obtain rfl | hn := eq_or_ne n 0
    · simp [guarded_of_falsy key f (v := .int 0) rfl, Readable]
    · simp [guarded_of_error key f (v := .int n) (by simp [PyValue.truthy, hn]) rfl, Readable, hn]
  | float x =>
    obtain rfl | hx := eq_or_ne x (.finite 0)
    · simp [guarded_of_falsy key f (v := .float (.finite 0)) rfl, Readable]
    · simp [guarded_of_error key f (v := .float x) (by simp [PyValue.truthy, hx]) rfl, Readable, hx]
  | str s =>
    rw [guarded_ok_iff_not (hother _ (by simp)) rfl]
    · simp [Readable]
    · intro hs
      obtain rfl : s = [] := by simpa [PyValue.truthy] using hs
      simpa using hkey
  | list vs =>
    rw [guarded_ok_iff_not (hother _ (by simp)) rfl]
    · rw [Readable, ← any_str_iff, Bool.not_eq_true]
      exact Iff.rfl
    · intro hvs
      obtain rfl : vs = [] := by simpa [PyValue.truthy] using hvs
      rfl
  | tuple vs =>
    rw [guarded_ok_iff_not (hother _ (by simp)) rfl]
    · rw [Readable, ← any_str_iff, Bool.not_eq_true]
      exact Iff.rfl
    · intro hvs
      obtain rfl : vs = [] := by simpa [PyValue.truthy] using hvs
      rfl
  | dict sub items =>
    cases hl : PyValue.lookup key items with
    | none =>
      have hc : Json.contains key (.dict sub items) = .ok false := by simp [Json.contains, hl]
      cases ht : PyValue.truthy (.dict sub items : Json) with
      | false => simp [guarded_of_falsy key f ht, Readable, hl]
      | true => simp [guarded_of_contains key f ht hc, Readable, hl]
    | some v =>
      have hc : Json.contains key (.dict sub items) = .ok true := by simp [Json.contains, hl]
      have ht : PyValue.truthy (.dict sub items : Json) = true := by
        cases items with
        | nil => cases hl
        | cons item items => rfl
      rw [guarded_of_contains key f ht hc]
      simpa [Readable, hl] using hdict sub items v hl
  | object x => exact x.elim

end Guarded

section Plan

variable {s : Services}

def runPlan (s : Services) (query : Str) (intent : Intent) (feedback : Str) (plan : Json) :
    Except PyError (Option WorkerDraft) := do
  let calls ← (← plan.get "tool_calls".toList (.list [])).items
  if calls.isEmpty then return none
  let (evidence, cacheHit) ← callTools s 0 calls [] false
  if evidence.isEmpty then
    return some ⟨"当前公开数据不足以确认这个问题。请提供论文 DOI、标题片段，或先搜索目标论文。".toList,
      intent, 0, [], cacheHit, evidence⟩
  match s.generateWithLlm query evidence feedback with
  | some (c :: answer) =>
    return some ⟨c :: answer, intent, min (95 / 100) (1 / 2 + evidence.length * (8 / 100)),
      (evidence.take 5).map citationFromEvidence, cacheHit, evidence⟩
  | _ => return none

variable {query : Str} {intent : Intent} {feedback : Str} {k : ℕ}

theorem runWorkerLlm_eq_guarded {v : Json}
    (h : s.planReply query (if 1 < k then feedback else []) = .ok (some v)) :
    runWorkerLlm s query intent feedback k =
      guarded "tool_calls".toList (runPlan s query intent feedback) v := by
  simp only [runWorkerLlm, planWithLlm, h, guarded, bind, Except.bind]
  cases v.truthy with
  | false => rfl
  | true =>
    cases v.contains "tool_calls".toList with
    | error e => rfl
    | ok b => cases b <;> rfl

theorem runPlan_ok_iff (hs : QuietCalls s) (sub : Option String) {items : List (Json × Json)}
    {v : Json} (hv : PyValue.lookup "tool_calls".toList items = some v) :
    (∃ d, runPlan s query intent feedback (.dict sub items) = .ok d) ↔
      ∃ calls, Json.items v = .ok calls ∧ ∀ call ∈ calls, ReadableCall call := by
  simp only [runPlan, Json.get, hv, Option.getD_some, bind, Except.bind]
  cases hi : Json.items v with
  | error e => simp
  | ok calls =>
    simp only [Except.ok.injEq, exists_eq_left']
    rw [← callTools_ok_iff hs 0 calls [] false]
    cases calls with
    | nil => simp [callTools, pure, Except.pure]
    | cons call calls =>
      simp only [List.isEmpty_cons, Bool.false_eq_true, if_false]
      cases callTools s 0 (call :: calls) [] false with
      | error e => simp
      | ok r =>
        obtain ⟨evidence, cacheHit⟩ := r
        simp only [Except.ok.injEq, exists_eq', iff_true]
        split_ifs
        · exact ⟨_, rfl⟩
        · split <;> exact ⟨_, rfl⟩

variable (query intent feedback k) in
theorem runWorkerLlm_ok_iff (hs : QuietCalls s) :
    (∃ d, runWorkerLlm s query intent feedback k = .ok d) ↔
      ∃ r, s.planReply query (if 1 < k then feedback else []) = .ok r ∧
        ∀ v, r = some v → ReadablePlan v := by
  cases hr : s.planReply query (if 1 < k then feedback else []) with
  | error e => simp [runWorkerLlm, planWithLlm, hr, bind, Except.bind]
  | ok r =>
    cases r with
    | none => simp [runWorkerLlm, planWithLlm, hr, bind, Except.bind, pure, Except.pure]
    | some v =>
      rw [runWorkerLlm_eq_guarded hr]
      simp only [Except.ok.injEq, exists_eq_left', Option.some.injEq, forall_eq']
      apply guarded_ok_iff (by decide)
      · intro sub items v hv
        exact runPlan_ok_iff hs sub hv
      · intro v hv d
        cases v with
        | dict sub items => exact absurd rfl (hv sub items)
        | _ => simp [runPlan, Json.get, bind, Except.bind]

end Plan

section Verdict

variable {py : Decoder} {lower : Str → Str}

theorem toFloat_ok_iff (v : Json) : (∃ x, v.toFloat py = .ok x) ↔ Numeric py v := by
  cases v with
  | int n =>
    simp only [Json.toFloat, Numeric]
    cases py.floatOfInt n <;> simp
  | str s =>
    simp only [Json.toFloat, Numeric]
    cases py.parseFloat s <;> simp
  | _ => simp [Json.toFloat, Numeric]

theorem strings_isSome_iff (vs : List Json) :
    (Json.strings vs).isSome ↔ ∀ v ∈ vs, ∃ s, v = .str s := by
  induction vs with
  | nil => simp [Json.strings]
  | cons v vs ih => cases v <;> simp [Json.strings, ih]

variable (py) in
theorem toFloat_confidence_ok_iff (items : List (Json × Json)) :
    (∃ x, Json.toFloat py ((PyValue.lookup "confidence".toList items).getD
      (.float (.finite (1 / 2)))) = .ok x) ↔
      ∀ v, PyValue.lookup "confidence".toList items = some v → Numeric py v := by
  rw [toFloat_ok_iff]
  cases PyValue.lookup "confidence".toList items with
  | none => simp [Numeric]
  | some v => simp

theorem strings_issues_isSome_iff (items : List (Json × Json)) :
    (Json.strings (Json.listOrEmpty ((PyValue.lookup "issues".toList items).getD .none))).isSome ↔
      ∀ vs, PyValue.lookup "issues".toList items = some (.list vs) → ∀ v ∈ vs, ∃ s, v = .str s := by
  rw [strings_isSome_iff]
  cases PyValue.lookup "issues".toList items with
  | none => simp [Json.listOrEmpty]
  | some v => cases v <;> simp [Json.listOrEmpty]

/-- A verdict is built exactly when it is neither a pass nor a rejection or its fields are
readable. -/
theorem judgeVerdict_ok_iff (sub : Option String) {items : List (Json × Json)} {v : Json}
    (hv : PyValue.lookup "verdict".toList items = some v) :
    (∃ d, judgeVerdict py lower (.dict sub items) = .ok d) ↔
      verdictOf py lower v = none ∨ ReadableFields py items := by
  have hconf := toFloat_confidence_ok_iff py items
  have hissues := strings_issues_isSome_iff items
  simp only [judgeVerdict, Json.getItem, hv, Json.get, bind, Except.bind]
  cases hd : verdictOf py lower v with
  | none => simp [pure, Except.pure]
  | some verdict =>
    simp only [reduceCtorEq, false_or]
    cases hf : Json.toFloat py ((PyValue.lookup "confidence".toList items).getD
        (.float (.finite (1 / 2)))) with
    | error e =>
      constructor
      · rintro ⟨d, hd⟩
        cases hd
      · intro h
        obtain ⟨x, hx⟩ := hconf.mpr h.confidence
        rw [hf] at hx
        cases hx
    | ok x =>
      cases hs : Json.strings
          (Json.listOrEmpty ((PyValue.lookup "issues".toList items).getD .none)) with
      | none =>
        constructor
        · rintro ⟨d, hd⟩
          cases hd
        · intro h
          have hsome := hissues.mpr h.issues
          rw [hs] at hsome
          cases hsome
      | some issues =>
        constructor
        · intro _
          exact ⟨hissues.mp (by rw [hs]; rfl), hconf.mp ⟨x, hf⟩⟩
        · intro _
          exact ⟨_, rfl⟩

theorem evaluateReply_ok_iff (text : Str) :
    (∃ d, evaluateReply py lower (some text) = .ok d) ↔
      Reads py (ReadableVerdict py lower) text := by
  rw [Reads]
  cases hr : parseJsonResponse py.loads text with
  | error e => simp [evaluateReply, hr, bind, Except.bind]
  | ok r =>
    cases r with
    | none => simp [evaluateReply, hr, bind, Except.bind, pure, Except.pure]
    | some v =>
      have h : evaluateReply py lower (some text) =
          guarded "verdict".toList (judgeVerdict py lower) v := by
        simp only [evaluateReply, hr, bind, Except.bind]
        rfl
      rw [h]
      simp only [Except.ok.injEq, exists_eq_left', Option.some.injEq, forall_eq']
      apply guarded_ok_iff (by decide)
      · intro sub items v hv
        exact judgeVerdict_ok_iff sub hv
      · intro v hv d
        cases v with
        | dict sub items => exact absurd rfl (hv sub items)
        | _ => simp [judgeVerdict, Json.getItem, bind, Except.bind]

end Verdict

end K8sLearn.Pilot
