import Mathlib.Algebra.Order.Field.Basic
import Mathlib.Data.Int.Cast.Lemmas
import Mathlib.Data.List.Induction
import Mathlib.Tactic.Linarith
import K8sLearn.Lib.Rounding

/-! # The memory-pressure trigger

`exportOnAlert` runs at every tick of a timer. It keeps the usage at the last export and
the time of the last alert: an export needs a given increase over the last exported
usage, and ten minutes without an alert forget that usage. Usage and limit are 64-bit
integers; ratios are exact in an ordered field, where the source computes in floating
point.
-/

namespace K8sLearn.Pprof

open Rounding

/-- `MemoryPressureConfig`, less the timer's interval. -/
structure MemoryPressureConfig (R : Type*) where
  alertMem : Int64
  alertPercent : R
  memoryIncrement : R

structure TriggerState where
  lastAlertTime : ℤ
  lastExportMemory : Int64

/-- The state `Start` begins with: the zero time is the first of January of the year one. -/
def TriggerState.initial : TriggerState := ⟨-62135596800 * 10 ^ 9, 0⟩

/-- What one tick reads: usage and limit, unless reading fails, and the clock. -/
structure Tick where
  reading : Option (Int64 × Int64)
  now : ℤ

/-- What one tick does besides moving times. -/
structure Effect where
  exported : Bool
  reset : Bool

def alertResetTimeout : ℤ := 10 * 60 * 10 ^ 9

/-- `Time.Sub` of two clock values, the monotonic readings in nanoseconds that it compares. It
saturates at the largest durations. -/
def timeSub (t u : ℤ) : ℤ := clamp (-2 ^ 63) (2 ^ 63 - 1) (t - u)

def fixClockJump (now lastAlertTime : ℤ) : ℤ :=
  if timeSub now lastAlertTime < 0 then now else lastAlertTime

variable {R : Type*} [Field R] [LinearOrder R]

def isOnAlert (m : MemoryPressureConfig R) (memInUsage memLimit : Int64) : Bool :=
  if 0 < m.alertMem then memLimit - memInUsage < m.alertMem
  else m.alertPercent < (memInUsage.toInt : R) / (memLimit.toInt : R)

def isMemoryOnAlert (m : MemoryPressureConfig R) (t : Tick) : Bool × Int64 × Int64 :=
  match t.reading with
  | none => (false, 0, 0)
  | some (memInUsage, memLimit) => (isOnAlert m memInUsage memLimit, memInUsage, memLimit)

def shouldExport (m : MemoryPressureConfig R) (memInUsage memLimit lastExportMemory : Int64) :
    Bool :=
  if lastExportMemory = 0 then true
  else m.memoryIncrement ≤ ((memInUsage - lastExportMemory).toInt : R) / (memLimit.toInt : R)

def exportOnAlert (m : MemoryPressureConfig R) (state : TriggerState) (t : Tick) :
    TriggerState × Effect :=
  let (alert, memInUsage, memLimit) := isMemoryOnAlert m t
  if !alert then
    if state.lastExportMemory ≠ 0 then
      let lastAlertTime := fixClockJump t.now state.lastAlertTime
      if alertResetTimeout ≤ timeSub t.now lastAlertTime then
        (⟨lastAlertTime, 0⟩, ⟨false, true⟩)
      else (⟨lastAlertTime, state.lastExportMemory⟩, ⟨false, false⟩)
    else (state, ⟨false, false⟩)
  else if !shouldExport m memInUsage memLimit state.lastExportMemory then
    (⟨t.now, state.lastExportMemory⟩, ⟨false, false⟩)
  else (⟨t.now, memInUsage⟩, ⟨true, false⟩)

def runTicks (m : MemoryPressureConfig R) (s : TriggerState) (ticks : List Tick) : TriggerState :=
  ticks.foldl (fun s t => (exportOnAlert m s t).1) s

def effects (m : MemoryPressureConfig R) : TriggerState → List Tick → List Effect
  | _, [] => []
  | s, t :: ts => (exportOnAlert m s t).2 :: effects m (exportOnAlert m s t).1 ts

def OnAlert (m : MemoryPressureConfig R) (t : Tick) : Prop := (isMemoryOnAlert m t).1 = true

section Step

theorem timeSub_neg_iff (t u : ℤ) : timeSub t u < 0 ↔ t < u := by
  have h : timeSub t u = min (max (t - u) (-2 ^ 63)) (2 ^ 63 - 1) := rfl
  rw [h]
  omega

theorem timeout_le_timeSub_iff (t u : ℤ) :
    alertResetTimeout ≤ timeSub t u ↔ u + alertResetTimeout ≤ t := by
  have h : timeSub t u = min (max (t - u) (-2 ^ 63)) (2 ^ 63 - 1) := rfl
  rw [h, alertResetTimeout]
  omega

theorem exportOnAlert_cases (m : MemoryPressureConfig R) (s : TriggerState) (t : Tick) :
    (¬ OnAlert m t ∧ s.lastExportMemory = 0 ∧ exportOnAlert m s t = (s, ⟨false, false⟩)) ∨
    (¬ OnAlert m t ∧ s.lastExportMemory ≠ 0 ∧ s.lastAlertTime + alertResetTimeout ≤ t.now ∧
      exportOnAlert m s t = (⟨s.lastAlertTime, 0⟩, ⟨false, true⟩)) ∨
    (¬ OnAlert m t ∧ s.lastExportMemory ≠ 0 ∧ ∃ time, (time = s.lastAlertTime ∨ time = t.now) ∧
      exportOnAlert m s t = (⟨time, s.lastExportMemory⟩, ⟨false, false⟩)) ∨
    (∃ usage limit, t.reading = some (usage, limit) ∧ OnAlert m t ∧
      shouldExport m usage limit s.lastExportMemory = true ∧
      exportOnAlert m s t = (⟨t.now, usage⟩, ⟨true, false⟩)) ∨
    (OnAlert m t ∧ exportOnAlert m s t = (⟨t.now, s.lastExportMemory⟩, ⟨false, false⟩)) := by
  have hOn : OnAlert m t ↔ (isMemoryOnAlert m t).1 = true := Iff.rfl
  unfold exportOnAlert
  by_cases ha : OnAlert m t
  · obtain ⟨usage, limit, hr⟩ : ∃ usage limit, t.reading = some (usage, limit) := by
      cases hr : t.reading with
      | none => simp [OnAlert, isMemoryOnAlert, hr] at ha
      | some r => exact ⟨r.1, r.2, rfl⟩
    have hm : isMemoryOnAlert m t = (true, usage, limit) := by
      rw [hOn] at ha
      simp only [isMemoryOnAlert, hr] at ha ⊢
      rw [ha]
    simp only [hm, Bool.not_true, Bool.false_eq_true, if_false]
    cases he : shouldExport m usage limit s.lastExportMemory with
    | true => exact Or.inr (Or.inr (Or.inr (Or.inl ⟨usage, limit, hr, ha, he, by simp⟩)))
    | false => exact Or.inr (Or.inr (Or.inr (Or.inr ⟨ha, by simp⟩)))
  · have hm : (isMemoryOnAlert m t).1 = false := Bool.eq_false_iff.mpr fun h => ha (hOn.mpr h)
    generalize isMemoryOnAlert m t = r at hm
    obtain ⟨alert, usage, limit⟩ := r
    obtain rfl : alert = false := hm
    simp only [Bool.not_false, if_true]
    by_cases h0 : s.lastExportMemory = 0
    · exact Or.inl ⟨ha, h0, by simp [h0]⟩
    · rw [if_pos h0]
      by_cases hjump : t.now < s.lastAlertTime
      · -- after a repaired jump no time has passed
        have hfix : fixClockJump t.now s.lastAlertTime = t.now := by
          rw [fixClockJump, if_pos ((timeSub_neg_iff _ _).mpr hjump)]
        have hnot : ¬ alertResetTimeout ≤ timeSub t.now t.now := by
          rw [timeout_le_timeSub_iff, alertResetTimeout]
          omega
        rw [hfix, if_neg hnot]
        exact Or.inr (Or.inr (Or.inl ⟨ha, h0, t.now, Or.inr rfl, rfl⟩))
      · have hfix : fixClockJump t.now s.lastAlertTime = s.lastAlertTime := by
          rw [fixClockJump, if_neg (fun h => hjump ((timeSub_neg_iff _ _).mp h))]
        rw [hfix]
        split_ifs with hreset
        · exact Or.inr (Or.inl ⟨ha, h0, (timeout_le_timeSub_iff _ _).mp hreset, rfl⟩)
        · exact Or.inr (Or.inr (Or.inl ⟨ha, h0, _, Or.inl rfl, rfl⟩))

end Step

section Run

variable {m : MemoryPressureConfig R} {s : TriggerState}

theorem runTicks_append (ticks : List Tick) (t : Tick) :
    runTicks m s (ticks ++ [t]) = (exportOnAlert m (runTicks m s ticks) t).1 := by
  rw [runTicks, List.foldl_append]
  rfl

theorem effects_append (s : TriggerState) (ticks : List Tick) (t : Tick) :
    effects m s (ticks ++ [t]) =
      effects m s ticks ++ [(exportOnAlert m (runTicks m s ticks) t).2] := by
  induction ticks generalizing s with
  | nil => rfl
  | cons u ticks ih =>
    rw [List.cons_append, effects, effects, ih, List.cons_append]
    rfl

/-- The time of the last alert is the clock of some tick since the last alert. -/
def AlertTimed (m : MemoryPressureConfig R) (past : List Tick) (s : TriggerState) : Prop :=
  s.lastExportMemory ≠ 0 → ∃ pre u post, past = pre ++ u :: post ∧
    (∀ v ∈ post, ¬ OnAlert m v) ∧ (∃ v ∈ pre ++ [u], OnAlert m v) ∧ u.now = s.lastAlertTime

theorem AlertTimed.exportOnAlert {past : List Tick} (h : AlertTimed m past s) (t : Tick) :
    AlertTimed m (past ++ [t]) (exportOnAlert m s t).1 := by
  intro hne
  obtain ⟨-, h0, he⟩ | ⟨-, -, -, he⟩ | ⟨ha, h0, time, htime, he⟩ | ⟨usage, limit, -, ha, -, he⟩ |
      ⟨ha, he⟩ := exportOnAlert_cases m s t <;> rw [he] at hne ⊢
  · exact absurd h0 hne
  · exact absurd rfl hne
  · obtain ⟨pre, u, post, rfl, hpost, hpre, hu⟩ := h h0
    rcases htime with rfl | rfl
    · refine ⟨pre, u, post ++ [t], by simp, ?_, hpre, hu⟩
      intro v hv
      rcases List.mem_append.mp hv with hv | hv
      · exact hpost v hv
      · rw [List.mem_singleton.mp hv]
        exact ha
    · obtain ⟨v, hv, hva⟩ := hpre
      refine ⟨pre ++ u :: post, t, [], rfl, by simp, ⟨v, ?_, hva⟩, rfl⟩
      rcases List.mem_append.mp hv with hv | hv
      · simp [hv]
      · simp [List.mem_singleton.mp hv]
  · exact ⟨past, t, [], rfl, by simp, ⟨t, by simp, ha⟩, rfl⟩
  · exact ⟨past, t, [], rfl, by simp, ⟨t, by simp, ha⟩, rfl⟩

theorem alertTimed_runTicks (past : List Tick) :
    AlertTimed m past (runTicks m .initial past) := by
  induction past using List.reverseRecOn with
  | nil => exact fun h => absurd rfl h
  | append_singleton past t ih =>
    rw [runTicks_append]
    exact ih.exportOnAlert t

/-- Every successful reading has the limit `L` and a positive usage within it. -/
def ReadingsWithin (L : Int64) (ticks : List Tick) : Prop :=
  ∀ t ∈ ticks, ∀ usage limit, t.reading = some (usage, limit) →
    limit = L ∧ 0 < usage ∧ usage ≤ L

variable {L : Int64}

theorem ReadingsWithin.append {a b : List Tick} (h : ReadingsWithin L (a ++ b)) :
    ReadingsWithin L a ∧ ReadingsWithin L b :=
  ⟨fun t ht => h t (by simp [ht]), fun t ht => h t (by simp [ht])⟩

theorem lastExportMemory_mem (hL : 0 < L) {ticks : List Tick} (h : ReadingsWithin L ticks) :
    0 ≤ (runTicks m .initial ticks).lastExportMemory ∧
      (runTicks m .initial ticks).lastExportMemory ≤ L := by
  induction ticks using List.reverseRecOn with
  | nil => exact ⟨Int64.le_refl 0, Int64.le_of_lt hL⟩
  | append_singleton ticks t ih =>
    obtain ⟨hpast, ht⟩ := h.append
    have ih := ih hpast
    rw [runTicks_append]
    obtain ⟨-, -, he⟩ | ⟨-, -, -, he⟩ | ⟨-, -, time, -, he⟩ | ⟨usage, limit, hr, -, -, he⟩ |
        ⟨-, he⟩ := exportOnAlert_cases m (runTicks m .initial ticks) t <;> rw [he]
    · exact ih
    · exact ⟨Int64.le_refl 0, Int64.le_of_lt hL⟩
    · exact ih
    · obtain ⟨-, hu, hul⟩ := ht t (by simp) usage limit hr
      exact ⟨Int64.le_of_lt hu, hul⟩
    · exact ih

variable [IsStrictOrderedRing R]

/-- Without overflow an export needs the configured share of the limit more than the last. -/
theorem add_le_of_shouldExport {usage last : Int64} (hL : 0 < L) (hu : 0 < usage) (hl : 0 ≤ last)
    (h0 : last ≠ 0) (h : shouldExport m usage L last = true) :
    (last.toInt : R) + m.memoryIncrement * (L.toInt : R) ≤ (usage.toInt : R) := by
  have hL' : (0 : R) < (L.toInt : R) := by
    exact_mod_cast (Int64.lt_iff_toInt_lt.mp hL)
  have hu' : 0 < usage.toInt := Int64.lt_iff_toInt_lt.mp hu
  have hl' : 0 ≤ last.toInt := Int64.le_iff_toInt_le.mp hl
  have hsub : (usage - last).toInt = usage.toInt - last.toInt := by
    have h₁ := usage.toInt_lt
    have h₂ := last.toInt_lt
    rw [Int64.toInt_sub]
    exact Int.bmod_eq_of_le (by omega) (by omega)
  rw [shouldExport, if_neg h0, decide_eq_true_eq, le_div_iff₀ hL', hsub] at h
  push_cast at h
  linarith

/-- After `n` exports without a reset the last exported usage has grown `n - 1` times. -/
structure Grown (m : MemoryPressureConfig R) (L : Int64) (n : ℕ) (s : TriggerState) : Prop where
  nonneg : 0 ≤ s.lastExportMemory
  le_limit : s.lastExportMemory ≤ L
  grown : n = 0 ∨
    ((n : R) - 1) * (m.memoryIncrement * (L.toInt : R)) < (s.lastExportMemory.toInt : R)

theorem Grown.exportOnAlert (hinc : 0 < m.memoryIncrement) (hL : 0 < L) {n : ℕ}
    (h : Grown m L n s) {t : Tick} (ht : ReadingsWithin L [t])
    (hreset : (exportOnAlert m s t).2.reset = false) :
    Grown m L (n + if (exportOnAlert m s t).2.exported then 1 else 0) (exportOnAlert m s t).1 := by
  have hL' : (0 : R) < (L.toInt : R) := by exact_mod_cast (Int64.lt_iff_toInt_lt.mp hL)
  have hstep : 0 < m.memoryIncrement * (L.toInt : R) := mul_pos hinc hL'
  obtain ⟨-, -, he⟩ | ⟨-, -, -, he⟩ | ⟨-, -, time, -, he⟩ | ⟨usage, limit, hr, -, hs, he⟩ |
      ⟨-, he⟩ := exportOnAlert_cases m s t <;> rw [he] at hreset ⊢
  · exact h
  · cases hreset
  · exact ⟨h.nonneg, h.le_limit, h.grown⟩
  · obtain ⟨rfl, hu, hul⟩ := ht t (by simp) usage limit hr
    have hu' : (0 : R) < (usage.toInt : R) := by exact_mod_cast (Int64.lt_iff_toInt_lt.mp hu)
    refine ⟨Int64.le_of_lt hu, hul, Or.inr ?_⟩
    rw [if_pos rfl]
    push_cast
    by_cases h0 : s.lastExportMemory = 0
    · -- the first export of the stretch
      have hn : n = 0 := by
        by_contra hn
        have hn1 : (1 : R) ≤ n := by exact_mod_cast Nat.one_le_iff_ne_zero.mpr hn
        have hlt := h.grown.resolve_left hn
        rw [h0, Int64.toInt_zero, Int.cast_zero] at hlt
        exact absurd hlt (not_lt.mpr (mul_nonneg (by linarith) hstep.le))
      subst hn
      simpa using hu'
    · have hgap := add_le_of_shouldExport hL hu h.nonneg h0 hs
      rcases h.grown with rfl | hlt
      · simpa using hu'
      · nlinarith
  · exact ⟨h.nonneg, h.le_limit, h.grown⟩

theorem grown_runTicks (hinc : 0 < m.memoryIncrement) (hL : 0 < L) (h0 : 0 ≤ s.lastExportMemory)
    (h1 : s.lastExportMemory ≤ L) {stretch : List Tick} (hread : ReadingsWithin L stretch)
    (hreset : ∀ e ∈ effects m s stretch, e.reset = false) :
    Grown m L ((effects m s stretch).countP Effect.exported) (runTicks m s stretch) := by
  induction stretch using List.reverseRecOn with
  | nil => exact ⟨h0, h1, Or.inl rfl⟩
  | append_singleton stretch t ih =>
    obtain ⟨hpast, ht⟩ := hread.append
    rw [effects_append] at hreset ⊢
    have ih := ih hpast fun e he => hreset e (by simp [he])
    rw [runTicks_append, List.countP_append, List.countP_singleton]
    exact ih.exportOnAlert hinc hL ht (hreset _ (by simp))

theorem exported_le (hinc : 0 < m.memoryIncrement) (hL : 0 < L) {n : ℕ} (h : Grown m L n s) :
    (n : R) ≤ 1 + 1 / m.memoryIncrement := by
  have hL' : (0 : R) < (L.toInt : R) := by exact_mod_cast (Int64.lt_iff_toInt_lt.mp hL)
  rcases h.grown with rfl | hlt
  · rw [Nat.cast_zero]
    positivity
  · have hle : (s.lastExportMemory.toInt : R) ≤ (L.toInt : R) := by
      exact_mod_cast Int64.le_iff_toInt_le.mp h.le_limit
    have hmul : ((n : R) - 1) * m.memoryIncrement * (L.toInt : R) < 1 * (L.toInt : R) := by
      rw [mul_assoc, one_mul]
      exact lt_of_lt_of_le hlt hle
    have hlt' := (lt_div_iff₀ hinc).mpr (lt_of_mul_lt_mul_right hmul hL'.le)
    linarith

end Run

/-- The trigger is rate limited: in every stretch of a run without a reset the number of exports
is bounded, and a reset comes only at a tick without an alert, at least ten minutes after some
tick that is not before the last alert. -/
theorem exportOnAlert_rate_limited [IsStrictOrderedRing R] (m : MemoryPressureConfig R)
    (hinc : 0 < m.memoryIncrement) (L : Int64) (hL : 0 < L) (ticks : List Tick)
    (hread : ReadingsWithin L ticks) :
    (∀ before stretch after, ticks = before ++ (stretch ++ after) →
      (∀ e ∈ effects m (runTicks m .initial before) stretch, e.reset = false) →
      ((effects m (runTicks m .initial before) stretch).countP Effect.exported : R) ≤
        1 + 1 / m.memoryIncrement) ∧
    ∀ past t future, ticks = past ++ t :: future →
      (exportOnAlert m (runTicks m .initial past) t).2.reset = true →
      ¬ OnAlert m t ∧ ∃ pre u post, past = pre ++ u :: post ∧ (∀ v ∈ post, ¬ OnAlert m v) ∧
        (∃ v ∈ pre ++ [u], OnAlert m v) ∧ u.now + alertResetTimeout ≤ t.now := by
  constructor
  · rintro before stretch after rfl hreset
    obtain ⟨hbefore, hrest⟩ := hread.append
    obtain ⟨h0, h1⟩ := lastExportMemory_mem (m := m) hL hbefore
    exact exported_le hinc hL (grown_runTicks hinc hL h0 h1 hrest.append.1 hreset)
  · rintro past t future - hreset
    obtain ⟨-, -, he⟩ | ⟨ha, h0, htime, he⟩ | ⟨-, -, time, -, he⟩ | ⟨usage, limit, -, -, -, he⟩ |
        ⟨-, he⟩ := exportOnAlert_cases m (runTicks m .initial past) t <;> rw [he] at hreset
    · cases hreset
    · obtain ⟨pre, u, post, hpast, hpost, hpre, hu⟩ := alertTimed_runTicks past h0
      exact ⟨ha, pre, u, post, hpast, hpost, hpre, hu ▸ htime⟩
    · cases hreset
    · cases hreset
    · cases hreset

/-- An alert above half of the limit, and a tenth of it between exports. -/
def halfFull : MemoryPressureConfig ℚ := ⟨0, 1 / 2, 1 / 10⟩

/-- Two alerts, and a quiet tick eleven minutes later. -/
def alerts : List Tick := [⟨some (60, 100), 0⟩, ⟨some (75, 100), 10 ^ 9⟩]

def quiet : Tick := ⟨some (40, 100), 11 * 60 * 10 ^ 9 + 1⟩

theorem exportOnAlert_rate_limited_alerts :
    ((effects halfFull .initial alerts).countP Effect.exported : ℚ) ≤ 1 + 1 / (1 / 10) ∧
      (effects halfFull .initial alerts).countP Effect.exported = 2 ∧
      (exportOnAlert halfFull (runTicks halfFull .initial alerts) quiet).2.reset = true ∧
      ∃ u ∈ alerts, u.now + alertResetTimeout ≤ quiet.now := by
  have hread : ReadingsWithin 100 (alerts ++ [quiet]) := by
    rintro t ht usage limit hr
    simp only [alerts, quiet, List.cons_append, List.nil_append, List.mem_cons, List.not_mem_nil,
      or_false] at ht
    rcases ht with rfl | rfl | rfl <;> cases hr <;> decide
  have hreset :
      (exportOnAlert halfFull (runTicks halfFull .initial alerts) quiet).2.reset = true := by
    decide +kernel
  have h := exportOnAlert_rate_limited halfFull (by norm_num [halfFull]) 100 (by decide) _ hread
  refine ⟨h.1 [] alerts [quiet] rfl (by decide +kernel), by decide +kernel, hreset, ?_⟩
  obtain ⟨-, pre, u, post, hpast, -, -, hu⟩ := h.2 alerts quiet [] rfl hreset
  exact ⟨u, by rw [hpast]; simp, hu⟩

end K8sLearn.Pprof
