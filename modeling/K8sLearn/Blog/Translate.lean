import K8sLearn.Lib.Breaker
import K8sLearn.Lib.Collect
import K8sLearn.Lib.Interleaving
import K8sLearn.Lib.Text
import Mathlib.Data.List.DropRight

/-! # Translating in threads

The threads that write the rows of a report translate through one service. They share a cache and a
circuit breaker, each under a lock of its own, and what they do in between interleaves in any order.
The breaker is open exactly after two recorded failures in a row or a failed probe, and then only
the calls that were past it still ask the service. The cache holds what the service has returned.
-/

namespace K8sLearn.Translate

open Interleaving Str

def maxFailures : ℕ := 2

def maxCacheSize : ℕ := 500

/-- What the threads record, in order: a request for a text, or for that of the probe, and what
happens to the breaker. -/
inductive Event
  | requested (text : Option Str)
  | success
  | failure
  | unreachable
  | reset
  deriving DecidableEq

/-- The globals of the module, with what has been recorded. -/
structure Shared where
  disabled : Bool
  failures : ℕ
  cache : List (Str × Str)
  log : List Event

/-- A call: of `translate_to_chinese` with a stripped text, or of `probe_translate`. -/
inductive Task
  | translate (text : Str)
  | probe
  deriving DecidableEq

/-- Where a call is: before it looks at the breaker, before it looks in the cache, before it makes
its request, waiting for a response, before it records a success, before it caches the result,
before it records a failure, at its end, or left by an exception. -/
inductive Phase
  | check
  | ready
  | asking
  | waiting
  | succeeded (result : Str)
  | storing (result : Str)
  | failed
  | ended (result : Option Str)
  | raised
  deriving DecidableEq

structure Call where
  task : Task
  phase : Phase

structure Circuit where
  shared : Shared
  calls : List Call

/-- What comes of a request: the joined texts of the parts of the response, an error that the call
catches, or another one. -/
inductive Response
  | translated (joined : Str)
  | caught
  | uncaught

/-- A thread begins a call, the call at a place goes on, the service responds to it, or the breaker
is reset. -/
inductive Action
  | translate (text : Str)
  | probe
  | step (place : ℕ)
  | respond (place : ℕ) (response : Response)
  | reset

section Steps

/-- Whether a text is returned as it is: it is short, or in Chinese. -/
def needsNone (text : Str) : Bool :=
  text.length < 3 || 3 ≤ text.countP fun c => '\u4e00' ≤ c && c ≤ '\u9fff'

/-- `"".join(...).strip() or text`. -/
def resultOf (text joined : Str) : Str :=
  if strip joined = [] then text else strip joined

def cachePut (cache : List (Str × Str)) (text result : Str) : List (Str × Str) :=
  if cache.length < maxCacheSize then upsert (fun _ r => r) text result cache else cache

def recordFailure (sh : Shared) : Shared :=
  { sh with
    failures := sh.failures + 1
    disabled := sh.disabled || maxFailures ≤ sh.failures + 1
    log := sh.log ++ [.failure] }

def recordSuccess (sh : Shared) : Shared :=
  { sh with failures := 0, log := sh.log ++ [.success] }

/-- The next step of a call that waits for nothing. -/
def goOn (sh : Shared) : Task → Phase → Option (Shared × Phase)
  | .translate text, .check => some (sh, if sh.disabled then .ended (some text) else .ready)
  | .translate text, .ready =>
    -- another thread may cache the text between the lookup and the request
    match sh.cache.lookup text with
    | some result => some (sh, .ended (some result))
    | none => some (sh, .asking)
  | .translate text, .asking =>
    some ({ sh with log := sh.log ++ [.requested (some text)] }, .waiting)
  | .translate _, .succeeded result => some (recordSuccess sh, .storing result)
  | .translate text, .storing result =>
    some ({ sh with cache := cachePut sh.cache text result }, .ended (some result))
  | .translate text, .failed => some (recordFailure sh, .ended (some text))
  | .probe, .check => some (sh, if sh.disabled then .ended none else .asking)
  | .probe, .asking => some ({ sh with log := sh.log ++ [.requested none] }, .waiting)
  | .probe, .succeeded _ => some (recordSuccess sh, .ended none)
  | .probe, .failed =>
    some ({ sh with disabled := true, log := sh.log ++ [.unreachable] }, .ended none)
  | _, _ => none

def afterResponse : Task → Response → Phase
  | .translate text, .translated joined => .succeeded (resultOf text joined)
  | .probe, .translated _ => .succeeded []
  | _, .caught => .failed
  | _, .uncaught => .raised

/-- Where `translate_to_chinese` begins with a text. -/
def begin (text : Str) : Call :=
  let text := strip text
  ⟨.translate text, if needsNone text then .ended (some text) else .check⟩

def advance (s : Circuit) : Action → Option Circuit
  | .translate text => some { s with calls := s.calls ++ [begin text] }
  | .probe => some { s with calls := s.calls ++ [⟨.probe, .check⟩] }
  | .step place =>
    match s.calls[place]? with
    | none => none
    | some c => (goOn s.shared c.task c.phase).map fun r =>
        ⟨r.1, s.calls.set place { c with phase := r.2 }⟩
  | .respond place response =>
    match s.calls[place]? with
    | none => none
    | some c =>
      if c.phase = .waiting then
        some { s with calls := s.calls.set place { c with phase := afterResponse c.task response } }
      else none
  | .reset => some { s with shared := { s.shared with
      disabled := false
      failures := 0
      log := s.shared.log ++ [.reset] } }

def Circuit.start : Circuit := ⟨⟨false, 0, [], []⟩, []⟩

end Steps

section Cases

/-- The text that a call asks for, and returns where it gets no translation. -/
def Task.own : Task → Option Str
  | .translate text => some text
  | .probe => none

/-- The call is past the breaker and has not made its request yet. -/
def Phase.past : Phase → Bool
  | .ready | .asking => true
  | _ => false

variable {s s' : Circuit} {a : Action} {sh sh' : Shared} {task : Task} {phase phase' : Phase}

theorem advance_cases (h : advance s a = some s') :
    (∃ c : Call, (c.phase = .check ∨ ∃ t, c = ⟨.translate t, .ended (some t)⟩) ∧ a ≠ .reset ∧
      s' = { s with calls := s.calls ++ [c] }) ∨
    (∃ place c sh phase, a = .step place ∧ s.calls[place]? = some c ∧
      goOn s.shared c.task c.phase = some (sh, phase) ∧
        s' = ⟨sh, s.calls.set place { c with phase := phase }⟩) ∨
    (∃ place response c, a = .respond place response ∧ s.calls[place]? = some c ∧
      c.phase = .waiting ∧ s' = { s with
        calls := s.calls.set place { c with phase := afterResponse c.task response } }) ∨
    (a = .reset ∧ s' = { s with shared := { s.shared with
      disabled := false, failures := 0, log := s.shared.log ++ [.reset] } }) := by
  cases a with
  | translate text =>
    obtain rfl := Option.some.inj h
    refine Or.inl ⟨begin text, ?_, Action.noConfusion, rfl⟩
    unfold begin
    dsimp only
    split_ifs
    · exact Or.inr ⟨_, rfl⟩
    · exact Or.inl rfl
  | probe =>
    obtain rfl := Option.some.inj h
    exact Or.inl ⟨_, Or.inl rfl, Action.noConfusion, rfl⟩
  | step place =>
    rw [advance] at h
    cases hc : s.calls[place]? with
    | none =>
      rw [hc] at h
      cases h
    | some c =>
      rw [hc] at h
      obtain ⟨⟨sh, phase⟩, hgo, rfl⟩ := Option.map_eq_some_iff.mp h
      exact Or.inr (Or.inl ⟨place, c, sh, phase, rfl, hc, hgo, rfl⟩)
  | respond place response =>
    rw [advance] at h
    cases hc : s.calls[place]? with
    | none =>
      rw [hc] at h
      cases h
    | some c =>
      simp only [hc] at h
      split_ifs at h with hphase
      obtain rfl := Option.some.inj h
      exact Or.inr (Or.inr (Or.inl ⟨place, response, c, rfl, hc, hphase, rfl⟩))
  | reset =>
    obtain rfl := Option.some.inj h
    exact Or.inr (Or.inr (Or.inr ⟨rfl, rfl⟩))

/-- What a step of a call is: a look at the breaker, a lookup, a request, or an entry in the
globals after it. -/
theorem goOn_cases (h : goOn sh task phase = some (sh', phase')) :
    (sh' = sh ∧ phase = .check ∧ (phase' = .ended task.own ∨ sh.disabled = false ∧
      (phase' = .ready ∨ task = .probe ∧ phase' = .asking))) ∨
    (sh' = sh ∧ phase = .ready ∧ ∃ text, task = .translate text ∧
      ((∃ result, sh.cache.lookup text = some result ∧ phase' = .ended (some result)) ∨
        sh.cache.lookup text = none ∧ phase' = .asking)) ∨
    (phase = .asking ∧ phase' = .waiting ∧
      sh' = { sh with log := sh.log ++ [.requested task.own] }) ∨
    (phase.past = false ∧ phase'.past = false ∧ phase ≠ .check ∧
      (sh' = recordSuccess sh ∨ sh' = recordFailure sh ∨
      sh' = { sh with disabled := true, log := sh.log ++ [.unreachable] } ∨
        ∃ text result, task = .translate text ∧ phase = .storing result ∧
          sh' = { sh with cache := cachePut sh.cache text result })) := by
  cases task with
  | translate text =>
    cases phase with
    | check =>
      obtain ⟨rfl, rfl⟩ := Prod.mk.inj (Option.some.inj h)
      refine Or.inl ⟨rfl, rfl, ?_⟩
      cases hd : sh.disabled with
      | false => exact Or.inr ⟨rfl, Or.inl rfl⟩
      | true => exact Or.inl rfl
    | ready =>
      rw [goOn] at h
      cases hcache : sh.cache.lookup text with
      | some result =>
        rw [hcache] at h
        obtain ⟨rfl, rfl⟩ := Prod.mk.inj (Option.some.inj h)
        exact Or.inr (Or.inl ⟨rfl, rfl, text, rfl, Or.inl ⟨result, hcache, rfl⟩⟩)
      | none =>
        rw [hcache] at h
        obtain ⟨rfl, rfl⟩ := Prod.mk.inj (Option.some.inj h)
        exact Or.inr (Or.inl ⟨rfl, rfl, text, rfl, Or.inr ⟨hcache, rfl⟩⟩)
    | asking =>
      obtain ⟨rfl, rfl⟩ := Prod.mk.inj (Option.some.inj h)
      exact Or.inr (Or.inr (Or.inl ⟨rfl, rfl, rfl⟩))
    | succeeded result =>
      obtain ⟨rfl, rfl⟩ := Prod.mk.inj (Option.some.inj h)
      exact Or.inr (Or.inr (Or.inr ⟨rfl, rfl, Phase.noConfusion, Or.inl rfl⟩))
    | storing result =>
      obtain ⟨rfl, rfl⟩ := Prod.mk.inj (Option.some.inj h)
      exact Or.inr (Or.inr (Or.inr ⟨rfl, rfl, Phase.noConfusion,
        Or.inr (Or.inr (Or.inr ⟨text, result, rfl, rfl, rfl⟩))⟩))
    | failed =>
      obtain ⟨rfl, rfl⟩ := Prod.mk.inj (Option.some.inj h)
      exact Or.inr (Or.inr (Or.inr ⟨rfl, rfl, Phase.noConfusion, Or.inr (Or.inl rfl)⟩))
    | waiting | ended _ | raised => cases h
  | probe =>
    cases phase with
    | check =>
      obtain ⟨rfl, rfl⟩ := Prod.mk.inj (Option.some.inj h)
      refine Or.inl ⟨rfl, rfl, ?_⟩
      cases hd : sh.disabled with
      | false => exact Or.inr ⟨rfl, Or.inr ⟨rfl, rfl⟩⟩
      | true => exact Or.inl rfl
    | asking =>
      obtain ⟨rfl, rfl⟩ := Prod.mk.inj (Option.some.inj h)
      exact Or.inr (Or.inr (Or.inl ⟨rfl, rfl, rfl⟩))
    | succeeded result =>
      obtain ⟨rfl, rfl⟩ := Prod.mk.inj (Option.some.inj h)
      exact Or.inr (Or.inr (Or.inr ⟨rfl, rfl, Phase.noConfusion, Or.inl rfl⟩))
    | failed =>
      obtain ⟨rfl, rfl⟩ := Prod.mk.inj (Option.some.inj h)
      exact Or.inr (Or.inr (Or.inr ⟨rfl, rfl, Phase.noConfusion, Or.inr (Or.inr (Or.inl rfl))⟩))
    | ready | waiting | storing _ | ended _ | raised => cases h

end Cases

section Breaker

variable {s s' : Circuit} {a : Action} {sh : Shared}

def sinceReset (log : List Event) : List Event := log.rtakeWhile fun e => e ≠ .reset

def Event.outcome : Event → Option Bool
  | .success => some true
  | .failure => some false
  | _ => none

def outcomes (log : List Event) : List Bool := (sinceReset log).filterMap Event.outcome

theorem sinceReset_concat {log : List Event} {e : Event} :
    sinceReset (log ++ [e]) = if e = .reset then [] else sinceReset log ++ [e] := by
  rw [sinceReset, List.rtakeWhile_concat]
  by_cases h : e = .reset <;> simp [h, sinceReset]

/-- The globals are those of a breaker that has recorded these outcomes. -/
structure Counted (sh : Shared) : Prop where
  failures : sh.failures = (Breaker.after maxFailures (outcomes sh.log)).failures
  disabled : sh.disabled = ((Breaker.after maxFailures (outcomes sh.log)).isOpen ||
    decide (Event.unreachable ∈ sinceReset sh.log))

theorem Counted.recordSuccess (h : Counted sh) : Counted (recordSuccess sh) := by
  have hout : outcomes (sh.log ++ [.success]) = outcomes sh.log ++ [true] := by
    rw [outcomes, sinceReset_concat, if_neg (by decide), List.filterMap_append]
    rfl
  constructor
  · rw [Translate.recordSuccess, hout, Breaker.after_concat]
    rfl
  · rw [Translate.recordSuccess, hout, Breaker.after_concat, sinceReset_concat,
      if_neg (by decide), h.disabled]
    simp [Breaker.record]

theorem Counted.recordFailure (h : Counted sh) : Counted (recordFailure sh) := by
  have hout : outcomes (sh.log ++ [.failure]) = outcomes sh.log ++ [false] := by
    rw [outcomes, sinceReset_concat, if_neg (by decide), List.filterMap_append]
    rfl
  constructor
  · rw [Translate.recordFailure, hout, Breaker.after_concat, h.failures]
    rfl
  · rw [Translate.recordFailure, hout, Breaker.after_concat, sinceReset_concat,
      if_neg (by decide), h.disabled, h.failures]
    simp only [Breaker.record, Bool.false_eq_true, if_false, List.mem_append, List.mem_singleton,
      reduceCtorEq, or_false]
    rw [Bool.or_assoc, Bool.or_assoc, Bool.or_comm (decide (maxFailures ≤ _))]

theorem Counted.concat (h : Counted sh) {e : Event} (hreset : e ≠ .reset)
    (hout : e.outcome = none) :
    Counted { sh with
      disabled := sh.disabled || decide (e = .unreachable), log := sh.log ++ [e] } := by
  have heq : outcomes (sh.log ++ [e]) = outcomes sh.log := by
    rw [outcomes, sinceReset_concat, if_neg hreset, List.filterMap_append,
      List.filterMap_cons_none hout, List.filterMap_nil, List.append_nil, outcomes]
  constructor
  · rw [heq]
    exact h.failures
  · rw [heq, sinceReset_concat, if_neg hreset, h.disabled]
    simp only [List.mem_append, List.mem_singleton, Bool.decide_or, Bool.or_assoc, eq_comm]

theorem Counted.goOn (h : Counted sh) {sh' : Shared} {task : Task} {phase phase' : Phase}
    (hgo : goOn sh task phase = some (sh', phase')) : Counted sh' := by
  rcases goOn_cases hgo with ⟨rfl, -⟩ | ⟨rfl, -⟩ | ⟨-, -, rfl⟩ |
    ⟨-, -, -, rfl | rfl | rfl | ⟨text, result, -, -, rfl⟩⟩
  · exact h
  · exact h
  · simpa using h.concat (e := .requested task.own) Event.noConfusion rfl
  · exact h.recordSuccess
  · exact h.recordFailure
  · simpa using h.concat (e := .unreachable) (by decide) rfl
  · exact ⟨h.failures, h.disabled⟩

theorem counted_advance (h : Counted s.shared) (hs : advance s a = some s') :
    Counted s'.shared := by
  rcases advance_cases hs with ⟨c, -, -, rfl⟩ | ⟨place, c, sh, phase, -, -, hgo, rfl⟩ |
    ⟨place, response, c, -, -, -, rfl⟩ | ⟨-, rfl⟩
  · exact h
  · exact h.goOn hgo
  · exact h
  · constructor
    · dsimp only
      rw [outcomes, sinceReset_concat, if_pos rfl]
      rfl
    · dsimp only
      rw [outcomes, sinceReset_concat, if_pos rfl]
      rfl

end Breaker

section Open

variable {s s' s₁ : Circuit} {a : Action}

def sent (s : Circuit) : ℕ :=
  s.shared.log.countP fun e => match e with
    | .requested _ => true
    | _ => false

/-- The number of calls that are past the breaker and have not yet made their request. -/
def passed (s : Circuit) : ℕ := s.calls.countP fun c => c.phase.past

/-- Since a state with an open breaker no more requests were made than calls had passed it, and the
calls that have begun since go no further. -/
structure Opened (s s₁ : Circuit) : Prop where
  disabled : s₁.shared.disabled = true
  sent : sent s₁ + passed s₁ ≤ sent s + passed s
  length : s.calls.length ≤ s₁.calls.length
  late : ∀ k ≥ s.calls.length, ∀ c, s₁.calls[k]? = some c →
    c.phase = .check ∨ c.phase = .ended c.task.own

theorem countP_set {calls : List Call} {place : ℕ} {c : Call} (p : Call → Bool) (c' : Call)
    (hc : calls[place]? = some c) :
    (calls.set place c').countP p + (p c).toNat = calls.countP p + (p c').toNat := by
  obtain ⟨hlt, hget⟩ := List.getElem?_eq_some_iff.mp hc
  have hpos : (p c).toNat ≤ calls.countP p := by
    cases hp : p c with
    | false => exact Nat.zero_le _
    | true => exact List.countP_pos_iff.mpr ⟨c, List.mem_of_getElem? hc, hp⟩
  have htoNat : ∀ b : Bool, (if b = true then 1 else 0) = b.toNat := by decide
  rw [List.countP_set hlt, hget, htoNat, htoNat]
  omega

theorem past_afterResponse (task : Task) (response : Response) :
    (afterResponse task response).past = false := by
  cases task <;> cases response <;> rfl

theorem goOn_of_disabled {sh sh' : Shared} {task : Task} {phase phase' : Phase}
    (hd : sh.disabled = true) (hphase : phase = .check ∨ phase = .ended task.own)
    (hgo : goOn sh task phase = some (sh', phase')) : phase' = .ended task.own := by
  rcases hphase with rfl | rfl
  · cases task with
    | translate text =>
      rw [goOn, hd] at hgo
      exact (Prod.mk.inj (Option.some.inj hgo)).2.symm
    | probe =>
      rw [goOn, hd] at hgo
      exact (Prod.mk.inj (Option.some.inj hgo)).2.symm
  · cases task <;> cases hgo

/-- A step of a call behind an open breaker makes a request only if the call was past it. -/
theorem sent_goOn {sh sh' : Shared} {task : Task} {phase phase' : Phase}
    (hd : sh.disabled = true) (hgo : goOn sh task phase = some (sh', phase'))
    (calls calls' : List Call) : sh'.disabled = true ∧
      sent ⟨sh', calls'⟩ + phase'.past.toNat ≤ sent ⟨sh, calls⟩ + phase.past.toNat := by
  rcases goOn_cases hgo with ⟨rfl, rfl, rfl | ⟨hclosed, -⟩⟩ |
    ⟨rfl, rfl, text, -, ⟨result, -, rfl⟩ | ⟨-, rfl⟩⟩ | ⟨rfl, rfl, rfl⟩ |
    ⟨hpast, hpast', -, rfl | rfl | rfl | ⟨text, result, -, -, rfl⟩⟩
  · exact ⟨hd, le_rfl⟩
  · rw [hd] at hclosed
    cases hclosed
  · exact ⟨hd, Nat.le_add_right _ _⟩
  · exact ⟨hd, le_rfl⟩
  · exact ⟨hd, by simp [sent, Phase.past]⟩
  · exact ⟨hd, by simp [sent, recordSuccess, hpast, hpast']⟩
  · exact ⟨by simp [recordFailure, hd], by simp [sent, recordFailure, hpast, hpast']⟩
  · exact ⟨rfl, by simp [sent, hpast, hpast']⟩
  · exact ⟨hd, by simp [sent, hpast, hpast']⟩

theorem Opened.advance (h : Opened s s₁) (ha : a ≠ .reset) (hs : advance s₁ a = some s') :
    Opened s s' := by
  have hsent := h.sent
  have hset : ∀ sh {place c} (phase : Phase), s₁.calls[place]? = some c →
      passed ⟨sh, s₁.calls.set place { c with phase := phase }⟩ + c.phase.past.toNat =
        passed s₁ + phase.past.toNat :=
    fun sh place c phase hc => countP_set (fun c => c.phase.past) { c with phase := phase } hc
  rcases advance_cases hs with ⟨c, hc, -, rfl⟩ | ⟨place, c, sh, phase, -, hc, hgo, rfl⟩ |
    ⟨place, response, c, -, hc, hphase, rfl⟩ | ⟨rfl, -⟩
  · constructor
    · exact h.disabled
    · have hphase : c.phase.past = false := by
        rcases hc with hc | ⟨t, rfl⟩
        · rw [hc]
          rfl
        · rfl
      have hpassed : passed { s₁ with calls := s₁.calls ++ [c] } = passed s₁ := by
        simp [passed, hphase]
      rw [hpassed]
      exact hsent
    · rw [List.length_append]
      exact Nat.le_add_right_of_le h.length
    · intro k hk c' hc'
      rw [List.getElem?_append] at hc'
      split_ifs at hc' with hlt
      · exact h.late k hk c' hc'
      · obtain rfl := List.mem_singleton.mp (List.mem_of_getElem? hc')
        rcases hc with hc | ⟨t, rfl⟩
        · exact Or.inl hc
        · exact Or.inr rfl
  · obtain ⟨hd, hle⟩ := sent_goOn h.disabled hgo s₁.calls
      (s₁.calls.set place { c with phase := phase })
    constructor
    · exact hd
    · have hpassed := hset sh phase hc
      change _ ≤ Translate.sent s₁ + _ at hle
      omega
    · rw [List.length_set]
      exact h.length
    · intro k hk c' hc'
      rw [List.getElem?_set] at hc'
      split_ifs at hc' with heq hlt
      · subst heq
        obtain rfl := Option.some.inj hc'
        exact Or.inr (goOn_of_disabled h.disabled (h.late _ hk c hc) hgo)
      · exact h.late k hk c' hc'
  · constructor
    · exact h.disabled
    · have hpassed := hset s₁.shared (afterResponse c.task response) hc
      rw [past_afterResponse, Bool.toNat_false] at hpassed
      change Translate.sent s₁ + _ ≤ _
      omega
    · rw [List.length_set]
      exact h.length
    · intro k hk c' hc'
      rw [List.getElem?_set] at hc'
      split_ifs at hc' with heq hlt
      · subst heq
        rcases h.late _ hk c hc with hcheck | hended
        · rw [hphase] at hcheck
          cases hcheck
        · rw [hphase] at hended
          cases hended
      · exact h.late k hk c' hc'
  · exact absurd rfl ha

end Open

section Cache

variable {s s' : Circuit} {a : Action} {past actions : List Action} {text result : Str}

/-- The service has returned this translation to a call with the text. -/
def Answered (actions : List Action) (s : Circuit) (text result : Str) : Prop :=
  ∃ place joined, Action.respond place (.translated joined) ∈ actions ∧
    (s.calls[place]?).map Call.task = some (.translate text) ∧ result = resultOf text joined

def Phase.Holds (got : Str → Prop) (text : Str) : Phase → Prop
  | .succeeded result => got result
  | .storing result => got result
  | .ended result => ∃ r, result = some r ∧ (r = text ∨ got r)
  | _ => True

/-- What holds of the cache and the calls in every state of a run. -/
structure Sound (past : List Action) (s : Circuit) : Prop where
  nodup : (s.shared.cache.map Prod.fst).Nodup
  length : s.shared.cache.length ≤ maxCacheSize
  cache : ∀ e ∈ s.shared.cache, Answered past s e.1 e.2
  calls : ∀ c ∈ s.calls, ∀ text, c.task = .translate text →
    c.phase.Holds (Answered past s text) text

theorem Phase.Holds.mono {got got' : Str → Prop} {phase : Phase} (hgot : ∀ r, got r → got' r)
    (h : phase.Holds got text) : phase.Holds got' text := by
  cases phase with
  | succeeded r => exact hgot r h
  | storing r => exact hgot r h
  | ended r =>
    obtain ⟨r', hr, h⟩ := h
    exact ⟨r', hr, h.imp_right (hgot r')⟩
  | check | ready | asking | waiting | failed | raised => trivial

theorem task_advance (hs : advance s a = some s') {place : ℕ} {task : Task}
    (h : (s.calls[place]?).map Call.task = some task) :
    (s'.calls[place]?).map Call.task = some task := by
  have hset : ∀ {i c} {phase : Phase}, s.calls[i]? = some c →
      ((s.calls.set i { c with phase := phase })[place]?).map Call.task = some task := by
    intro i c phase hc
    rw [List.getElem?_set]
    split_ifs with heq hlt
    · subst heq
      rwa [hc] at h
    · subst heq
      rw [List.getElem?_eq_none (Nat.not_lt.mp hlt)] at h
      cases h
    · exact h
  rcases advance_cases hs with ⟨c, -, -, rfl⟩ | ⟨i, c, sh, phase, -, hc, -, rfl⟩ |
    ⟨i, response, c, -, hc, -, rfl⟩ | ⟨-, rfl⟩
  · obtain ⟨c', hc', hc''⟩ := Option.map_eq_some_iff.mp h
    obtain ⟨hlt, -⟩ := List.getElem?_eq_some_iff.mp hc'
    rwa [List.getElem?_append_left hlt]
  · exact hset hc
  · exact hset hc
  · exact h

theorem Answered.advance (h : Answered past s text result) (hs : advance s a = some s') :
    Answered (past ++ [a]) s' text result := by
  obtain ⟨place, joined, hmem, htask, rfl⟩ := h
  exact ⟨place, joined, List.mem_append_left _ hmem, task_advance hs htask, rfl⟩

theorem cachePut_cases (cache : List (Str × Str)) (text result : Str) :
    cachePut cache text result = cache ∨
      cache.length < maxCacheSize ∧
        cachePut cache text result = upsert (fun _ r => r) text result cache := by
  unfold cachePut
  split_ifs with h
  · exact Or.inr ⟨h, rfl⟩
  · exact Or.inl rfl

theorem holds_goOn {sh sh' : Shared} {task : Task} {phase phase' : Phase} {got : Str → Prop}
    (htask : task = .translate text) (hgo : goOn sh task phase = some (sh', phase'))
    (hcache : ∀ r, sh.cache.lookup text = some r → got r) (h : phase.Holds got text) :
    phase'.Holds got text := by
  subst htask
  cases phase with
  | check =>
    obtain ⟨rfl, rfl⟩ := Prod.mk.inj (Option.some.inj hgo)
    split_ifs
    · exact ⟨text, rfl, Or.inl rfl⟩
    · trivial
  | ready =>
    rw [goOn] at hgo
    cases hlookup : sh.cache.lookup text with
    | some r =>
      rw [hlookup] at hgo
      obtain ⟨rfl, rfl⟩ := Prod.mk.inj (Option.some.inj hgo)
      exact ⟨r, rfl, Or.inr (hcache r hlookup)⟩
    | none =>
      rw [hlookup] at hgo
      obtain ⟨rfl, rfl⟩ := Prod.mk.inj (Option.some.inj hgo)
      trivial
  | asking =>
    obtain ⟨rfl, rfl⟩ := Prod.mk.inj (Option.some.inj hgo)
    trivial
  | succeeded r =>
    obtain ⟨rfl, rfl⟩ := Prod.mk.inj (Option.some.inj hgo)
    exact h
  | storing r =>
    obtain ⟨rfl, rfl⟩ := Prod.mk.inj (Option.some.inj hgo)
    exact ⟨r, rfl, Or.inr h⟩
  | failed =>
    obtain ⟨rfl, rfl⟩ := Prod.mk.inj (Option.some.inj hgo)
    exact ⟨text, rfl, Or.inl rfl⟩
  | waiting | ended _ | raised => cases hgo

theorem cache_goOn {sh sh' : Shared} {task : Task} {phase phase' : Phase}
    (hgo : goOn sh task phase = some (sh', phase')) : sh'.cache = sh.cache ∨
      ∃ text result, task = .translate text ∧ phase = .storing result ∧
        sh'.cache = cachePut sh.cache text result := by
  rcases goOn_cases hgo with ⟨rfl, -⟩ | ⟨rfl, -⟩ | ⟨-, -, rfl⟩ |
    ⟨-, -, -, rfl | rfl | rfl | ⟨text, result, htask, hphase, rfl⟩⟩
  · exact Or.inl rfl
  · exact Or.inl rfl
  · exact Or.inl rfl
  · exact Or.inl rfl
  · exact Or.inl rfl
  · exact Or.inl rfl
  · exact Or.inr ⟨text, result, htask, hphase, rfl⟩

theorem holds_afterResponse {task : Task} {response : Response} {got : Str → Prop}
    (htask : task = .translate text)
    (h : ∀ joined, response = .translated joined → got (resultOf text joined)) :
    (afterResponse task response).Holds got text := by
  subst htask
  cases response with
  | translated joined => exact h joined rfl
  | caught | uncaught => trivial

theorem Sound.advance (h : Sound past s) (hs : advance s a = some s') :
    Sound (past ++ [a]) s' := by
  have hcache : ∀ e ∈ s.shared.cache, Answered (past ++ [a]) s' e.1 e.2 :=
    fun e he => (h.cache e he).advance hs
  have hcalls : ∀ c ∈ s.calls, ∀ text, c.task = .translate text →
      c.phase.Holds (Answered (past ++ [a]) s' text) text :=
    fun c hc text htask => (h.calls c hc text htask).mono fun r hr => hr.advance hs
  rcases advance_cases hs with ⟨c, hc, -, rfl⟩ | ⟨place, c, sh, phase, -, hc, hgo, rfl⟩ |
    ⟨place, response, c, rfl, hc, hphase, rfl⟩ | ⟨-, rfl⟩
  · refine ⟨h.nodup, h.length, hcache, fun c' hc' => ?_⟩
    rcases List.mem_append.mp hc' with hc' | hc'
    · exact hcalls c' hc'
    · rw [List.mem_singleton.mp hc']
      rintro text htask
      rcases hc with hphase | ⟨t, rfl⟩
      · rw [hphase]
        trivial
      · obtain rfl := Task.translate.inj htask
        exact ⟨t, rfl, Or.inl rfl⟩
  · have hmem := List.mem_of_getElem? hc
    have hnew : ∀ c' ∈ s.calls.set place { c with phase := phase }, ∀ text,
        c'.task = .translate text → c'.phase.Holds (Answered (past ++ [a])
          ⟨sh, s.calls.set place { c with phase := phase }⟩ text) text := by
      rintro c' hc' text htask
      rcases List.mem_or_eq_of_mem_set hc' with hc' | rfl
      · exact hcalls c' hc' text htask
      · refine holds_goOn htask hgo (fun r hr => ?_) (hcalls c hmem text htask)
        obtain ⟨l, l', hl, -⟩ := List.lookup_eq_some_iff.mp hr
        exact hcache (text, r) (by simp [hl])
    rcases cache_goOn hgo with heq | ⟨text, result, htask, hphase, heq⟩
    · exact ⟨by rw [heq]; exact h.nodup, by rw [heq]; exact h.length, by rw [heq]; exact hcache,
        hnew⟩
    · rcases cachePut_cases s.shared.cache text result with hput | ⟨hlt, hput⟩
      · rw [hput] at heq
        exact ⟨by rw [heq]; exact h.nodup, by rw [heq]; exact h.length, by rw [heq]; exact hcache,
          hnew⟩
      · rw [hput] at heq
        refine ⟨?_, ?_, fun e he => ?_, hnew⟩
        · rw [heq]
          exact nodup_keys_upsert h.nodup
        · rw [heq]
          exact (length_upsert_le _ _ _ _).trans hlt
        · rw [heq] at he
          have hgot := hcalls c hmem text htask
          rw [hphase] at hgot
          rcases mem_upsert he with he | rfl | ⟨_, _, rfl⟩
          · exact hcache e he
          · exact hgot
          · exact hgot
  · refine ⟨h.nodup, h.length, hcache, fun c' hc' text htask => ?_⟩
    rcases List.mem_or_eq_of_mem_set hc' with hc' | rfl
    · exact hcalls c' hc' text htask
    · have htask : c.task = .translate text := htask
      have hget : (s.calls[place]?).map Call.task = some (.translate text) := by
        rw [hc, Option.map_some, htask]
      refine holds_afterResponse htask fun joined hjoined => ?_
      subst hjoined
      exact ⟨place, joined, List.mem_append_right _ (List.mem_singleton_self _),
        task_advance hs hget, rfl⟩
  · exact ⟨h.nodup, h.length, hcache, hcalls⟩

/-- The number of calls that have looked a text up in vain and have not yet made their request. -/
def asking (text : Str) (s : Circuit) : ℕ :=
  s.calls.countP fun c => c.task = .translate text ∧ c.phase = .asking

/-- The call has not looked in the cache yet, or has ended. -/
def Phase.Quiet : Phase → Prop
  | .check | .ready | .ended _ => True
  | _ => False

/-- A text in the cache stays there, and only the calls that have missed it before still ask for
it. -/
structure Known (text : Str) (s s₁ : Circuit) : Prop where
  mem : text ∈ s₁.shared.cache.map Prod.fst
  requests : s₁.shared.log.count (.requested (some text)) + asking text s₁ ≤
    s.shared.log.count (.requested (some text)) + asking text s
  quiet : ∀ k : ℕ, (∀ c, s.calls[k]? = some c → c.phase = .check ∨ c.phase = .ready) →
    ∀ c, s₁.calls[k]? = some c → c.task = .translate text → c.phase.Quiet

theorem mem_keys_goOn {sh sh' : Shared} {task : Task} {phase phase' : Phase}
    (hgo : goOn sh task phase = some (sh', phase')) (h : text ∈ sh.cache.map Prod.fst) :
    text ∈ sh'.cache.map Prod.fst := by
  rcases cache_goOn hgo with heq | ⟨t, result, -, -, heq⟩
  · rwa [heq]
  · rcases cachePut_cases sh.cache t result with hput | ⟨-, hput⟩
    · rwa [heq, hput]
    · rw [heq, hput, mem_keys_upsert]
      exact Or.inr h

theorem exists_lookup_of_mem {cache : List (Str × Str)} (h : text ∈ cache.map Prod.fst) :
    ∃ r, cache.lookup text = some r := by
  cases hlookup : cache.lookup text with
  | some r => exact ⟨r, rfl⟩
  | none =>
    obtain ⟨e, he, rfl⟩ := List.mem_map.mp h
    have hall := List.lookup_eq_none_iff.mp hlookup e he
    simp at hall

theorem count_goOn {sh sh' : Shared} {task : Task} {phase phase' : Phase}
    (hgo : goOn sh task phase = some (sh', phase')) (h : text ∈ sh.cache.map Prod.fst) :
    sh'.log.count (.requested (some text)) +
        (decide (task = .translate text ∧ phase' = .asking)).toNat ≤
      sh.log.count (.requested (some text)) +
        (decide (task = .translate text ∧ phase = .asking)).toNat := by
  rcases goOn_cases hgo with ⟨rfl, rfl, rfl | ⟨-, rfl | ⟨rfl, rfl⟩⟩⟩ |
    ⟨rfl, rfl, t, rfl, ⟨result, -, rfl⟩ | ⟨hnone, rfl⟩⟩ | ⟨rfl, rfl, rfl⟩ |
    ⟨-, hpast', -, rfl | rfl | rfl | ⟨t, result, -, -, rfl⟩⟩
  · simp
  · simp
  · simp
  · simp
  · have hne : t ≠ text := by
      rintro rfl
      obtain ⟨r, hr⟩ := exists_lookup_of_mem h
      rw [hr] at hnone
      cases hnone
    simp [hne]
  · cases task with
    | translate t =>
      by_cases heq : t = text <;> simp [Task.own, heq, List.count_append]
    | probe => simp [Task.own, List.count_append]
  all_goals
    have hne : phase' ≠ .asking := by
      rintro rfl
      cases hpast'
    simp [recordSuccess, recordFailure, hne, List.count_append]

theorem quiet_goOn {sh sh' : Shared} {phase phase' : Phase}
    (hgo : goOn sh (.translate text) phase = some (sh', phase'))
    (h : text ∈ sh.cache.map Prod.fst) (hphase : phase.Quiet) : phase'.Quiet := by
  cases phase with
  | check =>
    obtain ⟨rfl, rfl⟩ := Prod.mk.inj (Option.some.inj hgo)
    split_ifs <;> trivial
  | ready =>
    obtain ⟨r, hr⟩ := exists_lookup_of_mem h
    rw [goOn, hr] at hgo
    obtain ⟨rfl, rfl⟩ := Prod.mk.inj (Option.some.inj hgo)
    trivial
  | ended r => cases hgo
  | asking | waiting | succeeded r | storing r | failed | raised => exact hphase.elim

theorem Known.advance {s₁ : Circuit} (h : Known text s s₁) (hs : advance s₁ a = some s') :
    Known text s s' := by
  have hrequests := h.requests
  have hset : ∀ sh {place} {c : Call} (phase : Phase), s₁.calls[place]? = some c →
      asking text ⟨sh, s₁.calls.set place { c with phase := phase }⟩ +
          (decide (c.task = .translate text ∧ c.phase = .asking)).toNat =
        asking text s₁ + (decide (c.task = .translate text ∧ phase = .asking)).toNat :=
    fun sh place c phase hc => countP_set _ _ hc
  rcases advance_cases hs with ⟨c, hc, -, rfl⟩ | ⟨place, c, sh, phase, -, hc, hgo, rfl⟩ |
    ⟨place, response, c, -, hc, hphase, rfl⟩ | ⟨-, rfl⟩
  · have hne : c.phase ≠ .asking := by
      rcases hc with hc | ⟨t, rfl⟩
      · rw [hc]
        exact Phase.noConfusion
      · exact Phase.noConfusion
    refine ⟨h.mem, ?_, fun k hk c' hc' htask => ?_⟩
    · have hasking : asking text { s₁ with calls := s₁.calls ++ [c] } = asking text s₁ := by
        simp [asking, hne]
      rw [hasking]
      exact hrequests
    · rw [List.getElem?_append] at hc'
      split_ifs at hc' with hlt
      · exact h.quiet k hk c' hc' htask
      · obtain rfl := List.mem_singleton.mp (List.mem_of_getElem? hc')
        rcases hc with hc | ⟨t, rfl⟩
        · rw [hc]
          trivial
        · trivial
  · refine ⟨mem_keys_goOn hgo h.mem, ?_, fun k hk c' hc' htask => ?_⟩
    · have hcount := count_goOn hgo h.mem
      have hasking := hset sh phase hc
      dsimp only
      omega
    · rw [List.getElem?_set] at hc'
      split_ifs at hc' with heq hlt
      · subst heq
        obtain rfl := Option.some.inj hc'
        have htask : c.task = .translate text := htask
        rw [htask] at hgo
        exact quiet_goOn hgo h.mem (h.quiet _ hk c hc htask)
      · exact h.quiet k hk c' hc' htask
  · refine ⟨h.mem, ?_, fun k hk c' hc' htask => ?_⟩
    · have hasking := hset s₁.shared (afterResponse c.task response) hc
      have hne : afterResponse c.task response ≠ .asking := by
        intro heq
        have hpast := past_afterResponse c.task response
        rw [heq] at hpast
        cases hpast
      simp only [hne, hphase, and_false, decide_false, Bool.toNat_false, reduceCtorEq] at hasking
      dsimp only
      omega
    · rw [List.getElem?_set] at hc'
      split_ifs at hc' with heq hlt
      · subst heq
        obtain rfl := Option.some.inj hc'
        have hquiet := h.quiet _ hk c hc htask
        rw [hphase] at hquiet
        exact hquiet.elim
      · exact h.quiet k hk c' hc' htask
  · refine ⟨h.mem, ?_, h.quiet⟩
    rw [List.count_append]
    exact hrequests

end Cache

section Runs

variable {s s' : Circuit} {actions later : List Action}

/-- In every interleaving the breaker is open exactly if, since the last reset, two failures in a
row were recorded or a probe failed. Until the next reset no more requests are made then than calls
were past it, and calls that begin later end with their own texts. -/
theorem breaker_run (h : run advance .start actions = some s) :
    (s.shared.disabled = true ↔
      List.replicate maxFailures false <:+: outcomes s.shared.log ∨
        Event.unreachable ∈ sinceReset s.shared.log) ∧
    (s.shared.disabled = true → Action.reset ∉ later → run advance s later = some s' →
      s'.shared.disabled = true ∧ sent s' ≤ sent s + passed s ∧
        ∀ k ≥ s.calls.length, ∀ c, s'.calls[k]? = some c →
          c.phase = .check ∨ c.phase = .ended c.task.own) := by
  have hcounted : Counted s.shared :=
    @history_run _ _ advance .start s actions (fun _ s => Counted s.shared) ⟨rfl, rfl⟩
      (fun h hs => counted_advance h hs) h
  constructor
  · rw [hcounted.disabled, Bool.or_eq_true, decide_eq_true_iff,
      Breaker.isOpen_iff (show 0 < maxFailures by decide)]
  · rintro hopen hreset hlater
    have hopened : Opened s s' := by
      refine @history_run _ _ advance s s' later (fun past s₁ => Action.reset ∉ past → Opened s s₁)
        ?_ ?_ hlater hreset
      · rintro -
        refine ⟨hopen, le_rfl, le_rfl, fun k hk c hc => ?_⟩
        rw [List.getElem?_eq_none hk] at hc
        cases hc
      · rintro past s₁ a s₂ ih hs hnot
        obtain ⟨hpast, ha⟩ := not_or.mp (mt List.mem_append.mpr hnot)
        exact (ih hpast).advance (fun heq => ha (heq ▸ List.mem_singleton_self a)) hs
    exact ⟨hopened.disabled, (Nat.le_add_right _ _).trans hopened.sent, hopened.late⟩

/-- The requests of two calls fail, and the response to a third one comes after that. -/
def twoFailures : List Action :=
  [.translate "node swap".toList, .translate "pod levels".toList, .translate "job index".toList,
    .step 0, .step 1, .step 2, .step 0, .step 1, .step 2, .step 0, .step 1, .step 2,
    .respond 0 .caught, .respond 1 .caught, .step 0, .step 1, .respond 2 (.translated "任务索引".toList),
    .step 2, .step 2]

def afterFailures : Circuit := (run advance .start twoFailures).getD .start

theorem breaker_run_twoFailures : run advance .start twoFailures = some afterFailures ∧
    ∃ s', run advance afterFailures [.translate "cpu quota".toList, .step 3] = some s' ∧
      s'.shared.disabled = true ∧ sent s' ≤ sent afterFailures + passed afterFailures := by
  have h : run advance .start twoFailures = some afterFailures := rfl
  have hlater : run advance afterFailures [.translate "cpu quota".toList, .step 3] = some _ := rfl
  have hlate := (breaker_run h).2 (by decide +kernel) (by rintro (_ | ⟨_, _ | ⟨_, ⟨⟩⟩⟩)) hlater
  exact ⟨h, _, hlater, hlate.1, hlate.2.1⟩

/-- In every interleaving the cache has at most 500 texts, each with a translation that the service
returned for it. A call ends with its own text or such a translation. A text in the cache stays
there, only the calls that have missed it before still ask for it, and a call that looks it up later
does not. -/
theorem cache_run (h : run advance .start actions = some s) :
    (s.shared.cache.map Prod.fst).Nodup ∧ s.shared.cache.length ≤ maxCacheSize ∧
    (∀ e ∈ s.shared.cache, Answered actions s e.1 e.2) ∧
    (∀ text result, ⟨.translate text, .ended result⟩ ∈ s.calls →
      ∃ r, result = some r ∧ (r = text ∨ Answered actions s text r)) ∧
    ∀ text ∈ s.shared.cache.map Prod.fst, run advance s later = some s' →
      text ∈ s'.shared.cache.map Prod.fst ∧
        s'.shared.log.count (.requested (some text)) + asking text s' ≤
          s.shared.log.count (.requested (some text)) + asking text s ∧
        ∀ k : ℕ, (∀ c, s.calls[k]? = some c → c.phase = .check ∨ c.phase = .ready) →
          ∀ c, s'.calls[k]? = some c → c.task = .translate text → c.phase.Quiet := by
  have hsound : Sound actions s := by
    refine history_run ?_ (fun h hs => h.advance hs) h
    exact ⟨List.nodup_nil, Nat.zero_le _, List.forall_mem_nil _, List.forall_mem_nil _⟩
  refine ⟨hsound.nodup, hsound.length, hsound.cache, fun text result hmem => ?_, ?_⟩
  · exact hsound.calls _ hmem text rfl
  · rintro text htext hlater
    have hstart : Known text s s := by
      refine ⟨htext, le_rfl, fun k hk c hc _ => ?_⟩
      rcases hk c hc with hphase | hphase <;> rw [hphase] <;> trivial
    have hknown : Known text s s' :=
      @history_run _ _ advance s s' later (fun _ s₁ => Known text s s₁) hstart
        (fun h hs => h.advance hs) hlater
    exact ⟨hknown.mem, hknown.requests, hknown.quiet⟩

/-- A call for the text of the third one, which is cached by then. -/
theorem cache_run_twoFailures : ∃ s', run advance afterFailures
      [.reset, .translate "job index".toList, .step 3, .step 3] = some s' ∧
    s'.shared.log.count (.requested (some "job index".toList)) + asking "job index".toList s' ≤
      afterFailures.shared.log.count (.requested (some "job index".toList)) +
        asking "job index".toList afterFailures := by
  have h : run advance .start twoFailures = some afterFailures := rfl
  have hlater : run advance afterFailures
    [.reset, .translate "job index".toList, .step 3, .step 3] = some _ := rfl
  have hknown := (cache_run h).2.2.2.2 "job index".toList (by decide +kernel) hlater
  exact ⟨_, hlater, hknown.2.1⟩

end Runs

end K8sLearn.Translate
