import Mathlib.Algebra.BigOperators.Fin
import K8sLearn.Lib.Checked
import K8sLearn.Lib.Interleaving
import K8sLearn.Pilot.Reply

/-! # Concurrent requests of a benchmark

Tasks send one request each, as many at a time as a semaphore lets through, and book what they
get in shared lists and counters. The sections under the lock await nothing, so that each is one
step, and the steps of the tasks interleave in any order. A reply is booked in three lists, and a
lookup in it may raise between two of them. The summary that is printed at the end adds the token
counts up, whatever the server sent as one.
-/

namespace K8sLearn.Benchmark

open Interleaving Pilot

/-- What a request meets: the reply, none where posting or decoding raises, and the time it took. -/
structure Outcome where
  reply : Option Json
  elapsed : ℚ

inductive Phase where
  | queued
  | posted
  | recording
  | failing
  | finishing
  | done
  deriving DecidableEq

/-- The semaphore, the shared lists and counters, and where the tasks are. -/
structure Bench (n : ℕ) where
  phase : Fin n → Phase
  free : ℕ
  latencies : List ℚ
  tokens : List Json
  promptTokens : List Json
  successCount : ℕ
  failCount : ℕ
  totalCount : ℕ

/-- `result["usage"][key]`. -/
def usageItem (key : String) (v : Json) : Except PyError Json :=
  (v.getItem "usage".toList).bind fun usage => usage.getItem key.toList

section Model

variable {n : ℕ}

def Bench.start (n concurrent : ℕ) : Bench n :=
  { phase := fun _ => .queued, free := concurrent, latencies := [], tokens := []
    promptTokens := [], successCount := 0, failCount := 0, totalCount := 0 }

def Bench.goTo (s : Bench n) (i : Fin n) (p : Phase) : Bench n :=
  { s with phase := Function.update s.phase i p }

def afterReply : Option Json → Phase
  | none => .failing
  | some v => match v.contains "choices".toList with
    | .ok true => .recording
    | _ => .failing

/-- The section that books a reply, and where it leads. -/
def Bench.record (s : Bench n) (elapsed : ℚ) (v : Json) : Bench n × Phase :=
  let s := { s with latencies := s.latencies ++ [elapsed] }
  match usageItem "completion_tokens" v with
  | .error _ => (s, .failing)
  | .ok completion =>
    let s := { s with tokens := s.tokens ++ [completion] }
    match usageItem "prompt_tokens" v with
    | .error _ => (s, .failing)
    | .ok prompt =>
      ({ s with promptTokens := s.promptTokens ++ [prompt], successCount := s.successCount + 1 },
        .finishing)

/-- What `run_strategy` takes over into its `Result`. -/
structure Result where
  totalRequests : ℕ
  successful : ℕ
  failed : ℕ
  latencies : List ℚ
  completionTokens : List Json
  promptTokens : List Json

def Bench.result (s : Bench n) : Result :=
  { totalRequests := s.totalCount, successful := s.successCount, failed := s.failCount
    latencies := s.latencies, completionTokens := s.tokens, promptTokens := s.promptTokens }

/-- `sum(tokens)` so far; of a float only that it is one. -/
inductive Total where
  | int (m : ℤ)
  | float

/-- `float(m)` does not raise: `m` is below `2 ^ 1024 - 2 ^ 970` and rounds to a finite double. -/
def fitsFloat (m : ℤ) : Bool := m.natAbs < (2 ^ 54 - 1) * (2 ^ 194) ^ 5

def Total.typeName : Total → String
  | .int _ => "int"
  | .float => "float"

def tooLarge : PyError := .exception "OverflowError" "int too large to convert to float"

def Total.toFloat : Total → Except PyError Unit
  | .int m => if fitsFloat m then .ok () else .error tooLarge
  | .float => .ok ()

def Total.addInt (k : ℤ) : Total → Except PyError Total
  | .int m => .ok (.int (m + k))
  | .float => if fitsFloat k then .ok .float else .error tooLarge

/-- `total + v`. -/
def Total.add (total : Total) : Json → Except PyError Total
  | .int k => total.addInt k
  | .bool b => total.addInt b.toInt
  | .float _ => total.toFloat.map fun _ => .float
  | v => .error (.exception "TypeError" ("unsupported operand type(s) for +: '" ++ total.typeName ++
      "' and '" ++ Json.typeName v ++ "'"))

/-- `sum(tokens)`, from what is added up already. -/
def Total.sum (total : Total) (tokens : List Json) : Except PyError Total :=
  tokens.foldlM Total.add total

/-- What the printed summary raises, if anything: the mean of the latencies and the entry at 95%
of their number are there. -/
def summary (totalTime : ℚ) (r : Result) : Except PyError Unit :=
  if r.latencies = [] then .ok ()
  else ((Total.int 0).sum r.completionTokens).bind fun total => total.toFloat.bind fun _ =>
    if totalTime = 0 then .error (.exception "ZeroDivisionError" "float division by zero")
    else .ok ()

/-- What `run_strategy` returns after its tasks have left this state. -/
def runStrategy (totalTime : ℚ) (s : Bench n) : Except PyError Result :=
  (summary totalTime s.result).map fun _ => s.result

variable (world : Fin n → Outcome)

/-- One step of a task of `send_request`; none where it waits or is done. -/
def advance (s : Bench n) (i : Fin n) : Option (Bench n) :=
  match s.phase i with
  | .queued => if 0 < s.free then some ({ s with free := s.free - 1 }.goTo i .posted) else none
  | .posted => some (s.goTo i (afterReply (world i).reply))
  | .recording => (world i).reply.map fun v =>
    (s.record (world i).elapsed v).1.goTo i (s.record (world i).elapsed v).2
  | .failing => some ({ s with failCount := s.failCount + 1 }.goTo i .finishing)
  | .finishing => some ({ s with totalCount := s.totalCount + 1, free := s.free + 1 }.goTo i .done)
  | .done => none

/-- The tasks take steps in the order of a schedule. -/
def run (s : Bench n) (schedule : List (Fin n)) : Option (Bench n) :=
  Interleaving.run (advance world) s schedule

end Model

section Parts

/-- Whether the reply is booked, as far as the lookups succeed. -/
def hasChoices (reply : Option Json) : Bool := afterReply reply = .recording

def hasUsage (key : String) (reply : Option Json) : Bool :=
  reply.any fun v => (usageItem key v).isOk

def complete (reply : Option Json) : Bool :=
  hasChoices reply && hasUsage "completion_tokens" reply && hasUsage "prompt_tokens" reply

theorem complete_le (reply : Option Json) : (complete reply).toNat ≤ (hasChoices reply).toNat := by
  rw [complete, Bool.and_assoc]
  cases hasChoices reply
  · exact Nat.le_refl 0
  · exact Bool.toNat_le _

theorem complete_eq_iff (reply : Option Json) :
    (complete reply).toNat = (hasChoices reply).toNat ↔ (hasChoices reply = true →
      hasUsage "completion_tokens" reply = true ∧ hasUsage "prompt_tokens" reply = true) := by
  rw [complete, Bool.and_assoc]
  cases hasChoices reply with
  | false => simp
  | true => simp [Bool.toNat_eq_one]

inductive Counter where
  | latencies
  | tokens
  | promptTokens
  | success
  | fail
  | total

def Bench.amount {n : ℕ} (s : Bench n) : Counter → ℕ
  | .latencies => s.latencies.length
  | .tokens => s.tokens.length
  | .promptTokens => s.promptTokens.length
  | .success => s.successCount
  | .fail => s.failCount
  | .total => s.totalCount

/-- A task has left the section that books its reply. -/
def Phase.booked : Phase → Bool
  | .failing | .finishing | .done => true
  | _ => false

def Phase.counted : Phase → Bool
  | .finishing | .done => true
  | _ => false

def part (reply : Option Json) (p : Phase) : Counter → Bool
  | .latencies => p.booked && hasChoices reply
  | .tokens => p.booked && hasChoices reply && hasUsage "completion_tokens" reply
  | .promptTokens => p.counted && complete reply
  | .success => p.counted && complete reply
  | .fail => p.counted && !complete reply
  | .total => p = .done

def Phase.holds : Phase → Bool
  | .queued | .done => false
  | _ => true

def Phase.left : Phase → ℕ
  | .queued => 5
  | .posted => 4
  | .recording => 3
  | .failing => 2
  | .finishing => 1
  | .done => 0

def Fits (reply : Option Json) : Phase → Prop
  | .recording => hasChoices reply = true
  | .failing => complete reply = false
  | _ => True

variable {n : ℕ} {world : Fin n → Outcome} {s s' : Bench n} {i : Fin n}

theorem afterReply_cases (reply : Option Json) :
    afterReply reply = .recording ∨ afterReply reply = .failing := by
  unfold afterReply
  split
  · exact Or.inr rfl
  · split
    · exact Or.inl rfl
    · exact Or.inr rfl

/-- The section that books a reply keeps the phases and the semaphore, and adds what the lookups
give. -/
theorem record_eq {v : Json} (hreply : (world i).reply = some v)
    (hchoices : hasChoices (world i).reply = true) (elapsed : ℚ) :
    (s.record elapsed v).1.phase = s.phase ∧ (s.record elapsed v).1.free = s.free ∧
      Fits (world i).reply (s.record elapsed v).2 ∧
      (∀ c, (s.record elapsed v).1.amount c =
        s.amount c + (part (world i).reply (s.record elapsed v).2 c).toNat) ∧
      (s.record elapsed v).2.holds = true ∧ (s.record elapsed v).2.left < 3 := by
  have husage : ∀ key, hasUsage key (world i).reply = (usageItem key v).isOk := fun key => by
    rw [hreply, hasUsage, Option.any_some]
  unfold Bench.record
  cases hc : usageItem "completion_tokens" v with
  | error e =>
    have hcomplete : complete (world i).reply = false := by
      simp [complete, husage, hc, Except.isOk, Except.toBool]
    refine ⟨rfl, rfl, hcomplete, fun c => ?_, rfl, (by decide : 2 < 3)⟩
    cases c <;> simp [Bench.amount, part, Phase.booked, Phase.counted, hchoices, husage, hc,
      Except.isOk, Except.toBool]
  | ok completion =>
    cases hp : usageItem "prompt_tokens" v with
    | error e =>
      have hcomplete : complete (world i).reply = false := by
        simp [complete, husage, hp, Except.isOk, Except.toBool]
      refine ⟨rfl, rfl, hcomplete, fun c => ?_, rfl, (by decide : 2 < 3)⟩
      cases c <;> simp [Bench.amount, part, Phase.booked, Phase.counted, hchoices, husage, hc,
        Except.isOk, Except.toBool]
    | ok prompt =>
      have hcomplete : complete (world i).reply = true := by
        simp [complete, husage, hchoices, hc, hp, Except.isOk, Except.toBool]
      refine ⟨rfl, rfl, trivial, fun c => ?_, rfl, (by decide : 1 < 3)⟩
      cases c <;> simp [Bench.amount, part, Phase.booked, Phase.counted, hchoices, husage, hc,
        hcomplete, Except.isOk, Except.toBool]

theorem advance_eq (hfits : Fits (world i).reply (s.phase i)) (h : advance world s i = some s') :
    ∃ p, s'.phase = Function.update s.phase i p ∧ Fits (world i).reply p ∧
      (∀ c, s'.amount c + (part (world i).reply (s.phase i) c).toNat =
        s.amount c + (part (world i).reply p c).toNat) ∧
      s'.free + p.holds.toNat = s.free + (s.phase i).holds.toNat ∧ p.left < (s.phase i).left := by
  unfold advance at h
  cases hp : s.phase i with
  | queued =>
    rw [hp] at h
    dsimp only at h
    split_ifs at h with hfree
    obtain rfl := Option.some.inj h
    refine ⟨.posted, rfl, trivial, fun c => ?_, ?_, by decide⟩
    · cases c <;> rfl
    · change s.free - 1 + 1 = s.free + 0
      omega
  | posted =>
    rw [hp] at h
    obtain rfl := Option.some.inj h
    rcases afterReply_cases (world i).reply with hafter | hafter
    · have hchoices : hasChoices (world i).reply = true := decide_eq_true hafter
      rw [hafter]
      refine ⟨.recording, rfl, hchoices, fun c => ?_, rfl, by decide⟩
      cases c <;> rfl
    · have hchoices : hasChoices (world i).reply = false := by
        rw [hasChoices, hafter]
        rfl
      have hcomplete : complete (world i).reply = false := by rw [complete, hchoices]; rfl
      rw [hafter]
      refine ⟨.failing, rfl, hcomplete, fun c => ?_, rfl, by decide⟩
      cases c <;> simp [Bench.amount, part, Phase.booked, Phase.counted, hchoices, Bench.goTo]
  | recording =>
    rw [hp] at h hfits
    obtain ⟨v, hreply, rfl⟩ := Option.map_eq_some_iff.mp h
    obtain ⟨hphase, hfree, hfits', hamount, hholds, hleft⟩ :=
      record_eq (s := s) hreply hfits (world i).elapsed
    refine ⟨_, by rw [Bench.goTo, hphase], hfits', fun c => ?_, ?_, hleft⟩
    · have hnone : (part (world i).reply .recording c).toNat = 0 := by cases c <;> rfl
      rw [hnone, Nat.add_zero, ← hamount]
      cases c <;> rfl
    · rw [hholds, Bench.goTo, hfree]
      rfl
  | failing =>
    rw [hp] at h hfits
    obtain rfl := Option.some.inj h
    refine ⟨.finishing, rfl, trivial, fun c => ?_, ?_, by decide⟩
    · have hincomplete : complete (world i).reply = false := hfits
      cases c <;> simp [Bench.amount, part, Phase.booked, Phase.counted, hincomplete, Bench.goTo]
    · rfl
  | finishing =>
    rw [hp] at h
    obtain rfl := Option.some.inj h
    refine ⟨.done, rfl, trivial, fun c => ?_, ?_, by decide⟩
    · cases c <;> simp [Bench.amount, part, Phase.booked, Phase.counted, Bench.goTo]
    · rfl
  | done =>
    rw [hp] at h
    cases h

end Parts

section Runs

variable {n concurrent : ℕ} {world : Fin n → Outcome} {s s' : Bench n} {schedule : List (Fin n)}

/-- The lists and counters hold what the tasks have added, and the semaphore counts its
holders. -/
structure Booked (world : Fin n → Outcome) (concurrent : ℕ) (s : Bench n) : Prop where
  fits : ∀ i, Fits (world i).reply (s.phase i)
  amount_eq : ∀ c, s.amount c = ∑ i, (part (world i).reply (s.phase i) c).toNat
  free_add : s.free + ∑ i, (s.phase i).holds.toNat = concurrent

theorem booked_start (world : Fin n → Outcome) (concurrent : ℕ) :
    Booked world concurrent (Bench.start n concurrent) where
  fits _ := trivial
  amount_eq c := by cases c <;> simp [Bench.start, Bench.amount, part, Phase.booked, Phase.counted]
  free_add := by simp [Bench.start, Phase.holds]

def Bench.left (s : Bench n) : ℕ := ∑ i, (s.phase i).left

theorem Booked.advance (hs : Booked world concurrent s) {i : Fin n}
    (h : advance world s i = some s') : Booked world concurrent s' ∧ s'.left < s.left := by
  obtain ⟨p, hphase, hfits, hamount, hfree, hleft⟩ := advance_eq (hs.fits i) h
  refine ⟨⟨fun j => ?_, fun c => ?_, ?_⟩, ?_⟩
  · rw [hphase]
    rcases eq_or_ne j i with rfl | hj
    · rwa [Function.update_self]
    · rw [Function.update_of_ne hj]
      exact hs.fits j
  · have hsum := sum_update_add (fun j q => (part (world j).reply q c).toNat) s.phase i p
    have hstep := hamount c
    rw [hs.amount_eq c] at hstep
    rw [hphase]
    omega
  · have hsum := sum_update_add (fun _ q => (Phase.holds q).toNat) s.phase i p
    have hold := hs.free_add
    rw [hphase]
    omega
  · have hsum := sum_update_add (fun _ q => Phase.left q) s.phase i p
    rw [Bench.left, Bench.left, hphase]
    omega

theorem Booked.run (hs : Booked world concurrent s) (h : run world s schedule = some s') :
    Booked world concurrent s' ∧ schedule.length + s'.left ≤ s.left :=
  invariant_run (fun hs h => hs.advance h) hs h

theorem Booked.exists_advance (hs : Booked world concurrent s) (hc : 0 < concurrent)
    (hdone : ∃ i, s.phase i ≠ .done) : ∃ i s', Benchmark.advance world s i = some s' := by
  by_cases hhold : ∃ i, (s.phase i).holds = true
  · obtain ⟨i, hi⟩ := hhold
    refine ⟨i, ?_⟩
    have hfits := hs.fits i
    unfold Benchmark.advance
    cases hp : s.phase i with
    | queued => simp [hp, Phase.holds] at hi
    | done => simp [hp, Phase.holds] at hi
    | recording =>
      rw [hp] at hfits
      cases hreply : (world i).reply with
      | none => simp [Fits, hasChoices, hreply, afterReply] at hfits
      | some v => exact ⟨_, rfl⟩
    | posted => exact ⟨_, rfl⟩
    | failing => exact ⟨_, rfl⟩
    | finishing => exact ⟨_, rfl⟩
  · push Not at hhold
    obtain ⟨i, hi⟩ := hdone
    have hfree : s.free = concurrent := by
      have hzero : ∑ j, (s.phase j).holds.toNat = 0 :=
        Finset.sum_eq_zero fun j _ => by simp [Bool.eq_false_iff.mpr (hhold j)]
      have hold := hs.free_add
      omega
    have hqueued : s.phase i = .queued := by
      have hnot := hhold i
      cases hp : s.phase i <;> simp_all [Phase.holds]
    refine ⟨i, Bench.goTo { s with free := s.free - 1 } i .posted, ?_⟩
    rw [Benchmark.advance, hqueued]
    exact if_pos (hfree ▸ hc)

end Runs

section Sum

def floatable : Json → Bool
  | .int k => fitsFloat k
  | .bool b => fitsFloat b.toInt
  | .float _ => true
  | _ => false

/-- The counts are numbers that can be added up to a float: integers exactly, but from the first
float on the sum so far and every further integer has to fit. -/
def addsUp (m : ℤ) : List Json → Bool
  | [] => fitsFloat m
  | .int k :: vs => addsUp (m + k) vs
  | .bool b :: vs => addsUp (m + b.toInt) vs
  | .float _ :: vs => fitsFloat m && vs.all floatable
  | _ :: _ => false

theorem toFloat_int_eq_ok_iff (m : ℤ) :
    (Total.int m).toFloat = .ok () ↔ fitsFloat m = true := by
  rw [Total.toFloat]
  cases fitsFloat m <;> simp

theorem add_float_eq (v : Json) :
    (∃ e, Total.float.add v = .error e) ∧ floatable v = false ∨
      Total.float.add v = .ok .float ∧ floatable v = true := by
  cases v with
  | int k =>
    simp only [Total.add, Total.addInt, floatable]
    cases fitsFloat k <;> simp
  | bool b =>
    simp only [Total.add, Total.addInt, floatable]
    cases fitsFloat b.toInt <;> simp
  | float x => exact Or.inr ⟨rfl, rfl⟩
  | none | str | list | tuple | dict | object => exact Or.inl ⟨⟨_, rfl⟩, rfl⟩

theorem sum_float_eq_ok_iff (tokens : List Json) :
    (∃ total, Total.float.sum tokens = .ok total ∧ total.toFloat = .ok ()) ↔
      tokens.all floatable = true := by
  induction tokens with
  | nil => exact ⟨fun _ => rfl, fun _ => ⟨.float, rfl, rfl⟩⟩
  | cons v vs ih =>
    rw [Total.sum, List.foldlM_cons, List.all_cons]
    rcases add_float_eq v with ⟨⟨e, he⟩, hv⟩ | ⟨he, hv⟩
    · rw [he, hv]
      exact ⟨fun ⟨_, h, _⟩ => (by cases h), nofun⟩
    · rw [he, hv, Bool.true_and]
      exact ih

theorem sum_eq_ok_iff (m : ℤ) (tokens : List Json) :
    (∃ total, (Total.int m).sum tokens = .ok total ∧ total.toFloat = .ok ()) ↔
      addsUp m tokens = true := by
  induction tokens generalizing m with
  | nil =>
    rw [addsUp, ← toFloat_int_eq_ok_iff]
    constructor
    · rintro ⟨total, h, hfloat⟩
      obtain rfl := Except.ok.inj h
      exact hfloat
    · exact fun hfloat => ⟨_, rfl, hfloat⟩
  | cons v vs ih =>
    rw [Total.sum, List.foldlM_cons]
    cases v with
    | int k => exact ih (m + k)
    | bool b => exact ih (m + b.toInt)
    | float x =>
      rw [addsUp, Bool.and_eq_true, ← sum_float_eq_ok_iff, ← toFloat_int_eq_ok_iff]
      cases hm : (Total.int m).toFloat with
      | error e =>
        rw [Total.add, hm]
        exact ⟨fun ⟨_, h, _⟩ => (by cases h), fun h => (by cases h.1)⟩
      | ok u =>
        rw [Total.add, hm]
        exact ⟨fun h => ⟨rfl, h⟩, fun h => h.2⟩
    | none | str | list | tuple | dict | object =>
      exact ⟨fun ⟨_, h, _⟩ => (by cases h), nofun⟩

/-- The summary is printed exactly if nothing was booked, or the total time is not zero and the
token counts add up. -/
theorem summary_eq_ok_iff (totalTime : ℚ) (r : Result) :
    summary totalTime r = .ok () ↔
      r.latencies ≠ [] → totalTime ≠ 0 ∧ addsUp 0 r.completionTokens = true := by
  rw [summary, ← sum_eq_ok_iff]
  by_cases hnil : r.latencies = []
  · rw [if_pos hnil]
    exact ⟨fun _ h => absurd hnil h, fun _ => rfl⟩
  · rw [if_neg hnil, Checked.bind_eq_ok]
    simp only [Checked.bind_eq_ok]
    constructor
    · rintro ⟨total, hsum, ⟨⟩, hfloat, htime⟩ -
      split_ifs at htime with hzero
      exact ⟨hzero, total, hsum, hfloat⟩
    · intro h
      obtain ⟨hzero, total, hsum, hfloat⟩ := h hnil
      exact ⟨total, hsum, (), hfloat, if_neg hzero⟩

end Sum

section Order

variable {n : ℕ} {world : Fin n → Outcome} {s s' : Bench n} {i : Fin n} {k : ℕ}
  {schedule : List (Fin n)}

/-- The tasks in the order of their third steps, in which the replies are booked. -/
def bookings (schedule : List (Fin n)) : List (Fin n) :=
  schedule.zipIdx.filterMap fun (i, k) =>
    if (schedule.take k).count i = 2 then some i else none

def completionTokens (reply : Option Json) : Option Json :=
  if hasChoices reply then reply.bind fun v => (usageItem "completion_tokens" v).toOption else none

def bookedCounts (world : Fin n → Outcome) (schedule : List (Fin n)) : List Json :=
  (bookings schedule).filterMap fun i => completionTokens (world i).reply

theorem bookings_concat (schedule : List (Fin n)) (i : Fin n) :
    bookings (schedule ++ [i]) =
      bookings schedule ++ if schedule.count i = 2 then [i] else [] := by
  have hold : ∀ x ∈ schedule.zipIdx,
      (if ((schedule ++ [i]).take x.2).count x.1 = 2 then some x.1 else none) =
        if (schedule.take x.2).count x.1 = 2 then some x.1 else none := by
    rintro ⟨j, k⟩ hx
    have hk : k < schedule.length := by
      obtain ⟨-, hk, -⟩ := List.mem_zipIdx hx
      omega
    rw [List.take_append_of_le_length hk.le]
  rw [bookings, List.zipIdx_append, List.filterMap_append, List.filterMap_congr hold, bookings]
  refine congrArg _ ?_
  simp only [List.zipIdx_singleton, Nat.zero_add, List.filterMap_cons, List.filterMap_nil,
    List.take_left]
  split_ifs <;> rfl

def AtStep (reply : Option Json) (k : ℕ) : Phase → Prop
  | .queued => k = 0
  | .posted => k = 1
  | .recording => k = 2 ∧ hasChoices reply = true
  | _ => 2 ≤ k ∧ (k = 2 → hasChoices reply = false)

theorem record_tokens {v : Json} (hreply : (world i).reply = some v)
    (hchoices : hasChoices (world i).reply = true) (elapsed : ℚ) :
    (s.record elapsed v).1.tokens = s.tokens ++ (completionTokens (world i).reply).toList ∧
      (s.record elapsed v).1.phase = s.phase ∧ ∀ reply, AtStep reply 3 (s.record elapsed v).2 := by
  have hlate : ∀ reply, AtStep reply 3 .failing ∧ AtStep reply 3 .finishing := by
    simp [AtStep]
  rw [completionTokens, if_pos hchoices, hreply, Option.bind_some]
  unfold Bench.record
  cases usageItem "completion_tokens" v with
  | error e => exact ⟨(List.append_nil _).symm, rfl, fun reply => (hlate reply).1⟩
  | ok completion =>
    cases usageItem "prompt_tokens" v with
    | error e => exact ⟨rfl, rfl, fun reply => (hlate reply).1⟩
    | ok prompt => exact ⟨rfl, rfl, fun reply => (hlate reply).2⟩

theorem advance_tokens (hat : AtStep (world i).reply k (s.phase i))
    (h : advance world s i = some s') :
    AtStep (world i).reply (k + 1) (s'.phase i) ∧ (∀ j ≠ i, s'.phase j = s.phase j) ∧
      s'.tokens = s.tokens ++ if k = 2 then (completionTokens (world i).reply).toList else [] := by
  have hothers : ∀ (s : Bench n) p, ∀ j ≠ i, (s.goTo i p).phase j = s.phase j :=
    fun s p j hj => Function.update_of_ne hj _ _
  have hself : ∀ (s : Bench n) p, (s.goTo i p).phase i = p :=
    fun s p => Function.update_self _ _ _
  unfold advance at h
  cases hp : s.phase i with
  | queued =>
    rw [hp] at h hat
    obtain rfl : k = 0 := hat
    dsimp only at h
    split_ifs at h with hfree
    obtain rfl := Option.some.inj h
    exact ⟨by rw [hself]; rfl, fun j hj => hothers _ _ j hj, (List.append_nil _).symm⟩
  | posted =>
    rw [hp] at h hat
    obtain rfl : k = 1 := hat
    obtain rfl := Option.some.inj h
    refine ⟨?_, fun j hj => hothers _ _ j hj, (List.append_nil _).symm⟩
    rw [hself]
    rcases afterReply_cases (world i).reply with hafter | hafter
    · rw [hafter]
      exact ⟨rfl, decide_eq_true hafter⟩
    · rw [hafter]
      refine ⟨le_rfl, fun _ => ?_⟩
      rw [hasChoices, hafter]
      rfl
  | recording =>
    rw [hp] at h hat
    obtain ⟨rfl, hchoices⟩ := hat
    obtain ⟨v, hreply, rfl⟩ := Option.map_eq_some_iff.mp h
    obtain ⟨htokens, hphase, hlate⟩ := record_tokens (s := s) hreply hchoices (world i).elapsed
    refine ⟨by rw [hself]; exact hlate _, fun j hj => ?_, htokens⟩
    rw [hothers _ _ j hj, hphase]
  | failing | finishing =>
    rw [hp] at h hat
    obtain rfl := Option.some.inj h
    refine ⟨?_, fun j hj => hothers _ _ j hj, ?_⟩
    · rw [hself]
      exact ⟨by have := hat.1; omega, fun hk => absurd hat.1 (by omega)⟩
    · split_ifs with hk
      · rw [completionTokens, hat.2 hk, if_neg Bool.false_ne_true]
        exact (List.append_nil _).symm
      · exact (List.append_nil _).symm
  | done =>
    rw [hp] at h
    cases h

/-- The steps of the tasks in the past of a state, and the counts in the order of the third. -/
structure Ordered (world : Fin n → Outcome) (past : List (Fin n)) (s : Bench n) : Prop where
  atStep : ∀ i, AtStep (world i).reply (past.count i) (s.phase i)
  tokens_eq : s.tokens = bookedCounts world past

theorem Ordered.advance {past : List (Fin n)} (hs : Ordered world past s)
    (h : advance world s i = some s') : Ordered world (past ++ [i]) s' := by
  obtain ⟨hself, hothers, hnew⟩ := advance_tokens (hs.atStep i) h
  constructor
  · intro j
    rcases eq_or_ne j i with rfl | hj
    · rw [List.count_append, List.count_singleton_self]
      exact hself
    · rw [List.count_append, List.count_singleton, if_neg (by simpa using hj.symm), Nat.add_zero,
        hothers j hj]
      exact hs.atStep j
  · rw [hnew, hs.tokens_eq, bookedCounts, bookedCounts, bookings_concat, List.filterMap_append]
    refine congrArg _ ?_
    split_ifs
    · cases hc : completionTokens (world i).reply <;> simp [hc]
    · rfl

theorem Ordered.run {concurrent : ℕ} (h : run world (.start n concurrent) schedule = some s) :
    Ordered world schedule s := by
  have hstart : Ordered world [] (.start n concurrent) := ⟨fun _ => rfl, rfl⟩
  exact history_run hstart (fun hs h => hs.advance h) h

end Order

section Results

variable {n : ℕ} (world : Fin n → Outcome) (concurrent : ℕ)

variable {world concurrent} in
theorem Booked.amount_done {s : Bench n} (hs : Booked world concurrent s)
    (hdone : ∀ i, s.phase i = .done) (c : Counter) :
    s.amount c = ∑ i, (part (world i).reply .done c).toNat := by
  rw [hs.amount_eq c]
  simp only [hdone]

variable {world concurrent} in
theorem Booked.latencies_length {s : Bench n} (hs : Booked world concurrent s)
    (hdone : ∀ i, s.phase i = .done) :
    s.result.latencies.length = ∑ i, (hasChoices (world i).reply).toNat :=
  hs.amount_done hdone .latencies

variable {world concurrent} in
theorem Booked.counted {s : Bench n} (hs : Booked world concurrent s)
    (hdone : ∀ i, s.phase i = .done) :
    s.result.successful + s.result.failed = s.result.totalRequests ∧
      s.result.totalRequests = n := by
  have hsuccess : s.successCount = ∑ i, (complete (world i).reply).toNat :=
    hs.amount_done hdone .success
  have hfail : s.failCount = ∑ i, (!complete (world i).reply).toNat := hs.amount_done hdone .fail
  have htotal : s.totalCount = n := by
    rw [show s.totalCount = ∑ i : Fin n, 1 from hs.amount_done hdone .total]
    simp
  refine ⟨?_, htotal⟩
  change s.successCount + s.failCount = s.totalCount
  rw [htotal, hsuccess, hfail, ← Finset.sum_add_distrib]
  have hone : ∀ b : Bool, b.toNat + (!b).toNat = 1 := by decide
  simp [hone]

variable {world concurrent} in
theorem Booked.lengths_iff {s : Bench n} (hs : Booked world concurrent s)
    (hdone : ∀ i, s.phase i = .done) :
    (s.result.latencies.length = s.result.successful ∧
        s.result.completionTokens.length = s.result.successful ∧
        s.result.promptTokens.length = s.result.successful) ↔
      ∀ i, hasChoices (world i).reply = true →
        hasUsage "completion_tokens" (world i).reply = true ∧
          hasUsage "prompt_tokens" (world i).reply = true := by
  have hlatencies : s.latencies.length = ∑ i, (hasChoices (world i).reply).toNat :=
    hs.latencies_length hdone
  have htokens : s.tokens.length = ∑ i, (hasChoices (world i).reply &&
      hasUsage "completion_tokens" (world i).reply).toNat := hs.amount_done hdone .tokens
  have hprompt : s.promptTokens.length = ∑ i, (complete (world i).reply).toNat :=
    hs.amount_done hdone .promptTokens
  have hsuccess : s.successCount = ∑ i, (complete (world i).reply).toNat :=
    hs.amount_done hdone .success
  constructor
  · rintro ⟨hlat, -, -⟩ i
    have heq : ∑ i, (complete (world i).reply).toNat = ∑ i, (hasChoices (world i).reply).toNat :=
      hsuccess.symm.trans (hlat.symm.trans hlatencies)
    exact (complete_eq_iff _).mp
      ((Finset.sum_eq_sum_iff_of_le fun i _ => complete_le _).mp heq i (Finset.mem_univ i))
  · intro hall
    have hchoices : ∑ i, (hasChoices (world i).reply).toNat = s.successCount :=
      (Finset.sum_congr rfl fun i _ => ((complete_eq_iff _).mpr (hall i)).symm).trans hsuccess.symm
    have hboth : ∀ i, (hasChoices (world i).reply &&
        hasUsage "completion_tokens" (world i).reply) = hasChoices (world i).reply := by
      intro i
      cases hch : hasChoices (world i).reply with
      | false => rfl
      | true => rw [(hall i hch).1, Bool.and_true]
    refine ⟨hlatencies.trans hchoices, htokens.trans ?_, hprompt.trans hsuccess.symm⟩
    simp only [hboth]
    exact hchoices

theorem exists_complete_run (hc : 0 < concurrent) {schedule : List (Fin n)} {s : Bench n}
    (h : run world (.start n concurrent) schedule = some s) :
    ∃ rest s', run world s rest = some s' ∧ ∀ i, s'.phase i = .done :=
  exists_run (fun hs h => Booked.advance hs h)
    (fun hs hdone => hs.exists_advance hc (not_forall.mp hdone))
    ((booked_start world concurrent).run h).1

/-- In every completed run each request is counted once, as a success or as a failure. The
result is returned with three lists as long as the number of successes exactly if every reply
with choices has both token counts and, unless there is no such reply, the total time is not zero
and the counts add up in the order in which they are booked. -/
theorem result_consistent_iff {schedule : List (Fin n)} {s : Bench n} (totalTime : ℚ)
    (h : run world (.start n concurrent) schedule = some s) (hdone : ∀ i, s.phase i = .done) :
    (s.result.successful + s.result.failed = s.result.totalRequests ∧
      s.result.totalRequests = n) ∧
    ((∃ result, runStrategy totalTime s = .ok result ∧
        result.successful + result.failed = result.totalRequests ∧ result.totalRequests = n ∧
        result.latencies.length = result.successful ∧
        result.completionTokens.length = result.successful ∧
        result.promptTokens.length = result.successful) ↔
      (∀ i, hasChoices (world i).reply = true →
        hasUsage "completion_tokens" (world i).reply = true ∧
          hasUsage "prompt_tokens" (world i).reply = true) ∧
      ((∃ i, hasChoices (world i).reply = true) →
        totalTime ≠ 0 ∧ addsUp 0 (bookedCounts world schedule) = true)) := by
  obtain ⟨hbooked, -⟩ := (booked_start world concurrent).run h
  have hcounted := hbooked.counted hdone
  refine ⟨hcounted, ?_⟩
  have hreturned : ∀ result, runStrategy totalTime s = .ok result ↔
      summary totalTime s.result = .ok () ∧ result = s.result := by
    intro result
    rw [runStrategy]
    cases summary totalTime s.result with
    | error e => simp [Except.map]
    | ok u => simp [Except.map, eq_comm]
  have hnil : s.result.latencies ≠ [] ↔ ∃ i, hasChoices (world i).reply = true := by
    rw [← List.length_pos_iff, hbooked.latencies_length hdone, Finset.sum_pos_iff]
    simp [Nat.pos_iff_ne_zero]
  have htokens : s.result.completionTokens = bookedCounts world schedule :=
    (Ordered.run h).tokens_eq
  rw [← hbooked.lengths_iff hdone, ← hnil, ← htokens, ← summary_eq_ok_iff]
  constructor
  · rintro ⟨result, hr, -, -, hlengths⟩
    obtain ⟨hsummary, rfl⟩ := (hreturned result).mp hr
    exact ⟨hlengths, hsummary⟩
  · rintro ⟨hlengths, hsummary⟩
    exact ⟨_, (hreturned _).mpr ⟨hsummary, rfl⟩, hcounted.1, hcounted.2, hlengths⟩

/-- Two requests, of which the second gets a reply without usage. -/
def twoReplies : Fin 2 → Outcome :=
  let counts : Json := .dict none [(.str "completion_tokens".toList, .int 7),
    (.str "prompt_tokens".toList, .int 3)]
  ![⟨some (.dict none [(.str "choices".toList, .list []), (.str "usage".toList, counts)]), 1⟩,
    ⟨some (.dict none [(.str "choices".toList, .list [])]), 2⟩]

/-- The second request is counted as a failure, but its latency stays in the list. -/
theorem twoReplies_skewed :
    ∃ s result, run twoReplies (.start 2 2) [0, 1, 1, 0, 1, 0, 1, 0, 1] = some s ∧
      (∀ i, s.phase i = .done) ∧ runStrategy 2 s = .ok result ∧ result.latencies = [2, 1] ∧
      result.completionTokens.length = 1 ∧ result.promptTokens.length = 1 ∧
      result.successful = 1 ∧ result.failed = 1 ∧ result.totalRequests = 2 :=
  ⟨_, _, rfl, by decide, rfl, rfl, rfl, rfl, rfl, rfl, rfl⟩

/-- Booked as a success, a count of `null` is no summand. -/
example : summary 2 ⟨1, 1, 0, [1], [.none], [.int 3]⟩ = .error (.exception "TypeError"
    "unsupported operand type(s) for +: 'int' and 'NoneType'") := by
  rfl

theorem result_consistent_iff_twoReplies :
    ∃ s, run twoReplies (.start 2 2) [0, 1, 1, 0, 1, 0, 1, 0, 1] = some s ∧
      s.result.successful + s.result.failed = s.result.totalRequests ∧
      ¬ ∀ i, hasChoices (twoReplies i).reply = true →
        hasUsage "completion_tokens" (twoReplies i).reply = true ∧
          hasUsage "prompt_tokens" (twoReplies i).reply = true := by
  obtain ⟨s, hrun, hdone⟩ : ∃ s, run twoReplies (.start 2 2) [0, 1, 1, 0, 1, 0, 1, 0, 1] = some s ∧
      ∀ i, s.phase i = .done := ⟨_, rfl, by decide⟩
  obtain ⟨⟨hsum, -⟩, -⟩ := result_consistent_iff twoReplies 2 2 hrun hdone
  refine ⟨s, hrun, hsum, fun hall => ?_⟩
  exact absurd (hall 1) (by decide)

end Results

end K8sLearn.Benchmark
