import K8sLearn.Lib.EarlyExit
import K8sLearn.Transformer.Generate

/-! # When generation stops

The loop of `generate` stops when all tokens of one step are the end token. A sequence that ended
before goes on, so that sequences which end at different steps do not stop it. The loop is compared
with the run that never stops, for every behaviour of the next token.
-/

namespace K8sLearn.Transformer

section Loop

variable {ι τ : Type*} (next : ι → List τ → Option τ) (isEos : τ → Bool)

def step (batch : List (ι × List τ)) : Option (List ((ι × List τ) × τ)) :=
  batch.mapM fun a => (next a.1 a.2).map fun token => ((a.1, a.2 ++ [token]), token)

/-- The loop of `generate` for any behaviour of the next token. -/
def generateWith : ℕ → List (ι × List τ) → Option (List (ι × List τ))
  | 0, batch => some batch
  | n + 1, batch => (step next batch).bind fun r =>
    if r.all fun a => isEos a.2 then some (r.map Prod.fst) else generateWith n (r.map Prod.fst)

/-- The run that does not stop, after a number of steps. -/
def rounds : ℕ → List (ι × List τ) → Option (List (ι × List τ)) :=
  runFor fun batch => (step next batch).map (List.map Prod.fst)

/-- Every sequence has generated the end token. -/
def finished (batch : List (ι × List τ)) : Bool := batch.all fun a => a.2.tail.any isEos

/-- Every sequence has generated the end token just now. -/
def endsNow (batch : List (ι × List τ)) : Bool := batch.all fun a => a.2.getLast?.any isEos

variable {next isEos} {batch b : List (ι × List τ)} {k m n : ℕ}

theorem step_eq {r : List ((ι × List τ) × τ)} (h : step next batch = some r) :
    List.Forall₂ (fun a c => c.1 = (a.1, a.2 ++ [c.2])) batch r := by
  refine (Lists.forall₂_of_mapM h).imp fun a c hac => ?_
  obtain ⟨token, -, rfl⟩ := Option.map_eq_some_iff.mp hac
  rfl

theorem all_isEos_eq {r : List ((ι × List τ) × τ)} (h : step next batch = some r) :
    (r.all fun a => isEos a.2) = endsNow isEos (r.map Prod.fst) := by
  rw [endsNow, List.all_map, Bool.eq_iff_iff, List.all_eq_true, List.all_eq_true]
  refine forall₂_congr fun c hc => ?_
  obtain ⟨a, -, ha⟩ := (Lists.exists_mem_of_forall₂ (step_eq h)).1 c hc
  simp [ha]

theorem generateWith_eq (n : ℕ) (batch : List (ι × List τ)) :
    generateWith next isEos n batch =
      rounds next (firstStep (fun k => (rounds next k batch).any (endsNow isEos)) n) batch := by
  unfold rounds
  rw [← runUntil_eq]
  induction n generalizing batch with
  | zero => rfl
  | succ n ih =>
    rw [generateWith, runUntil]
    cases hstep : step next batch with
    | none => rfl
    | some r =>
      rw [Option.bind_some, Option.map_some, Option.bind_some, all_isEos_eq hstep, ih]

theorem length_of_rounds (h : rounds next k batch = some b) (hm : ∀ a ∈ batch, a.2.length = m) :
    ∀ a ∈ b, a.2.length = m + k := by
  induction k generalizing batch m with
  | zero =>
    obtain rfl : batch = b := Option.some.inj h
    exact hm
  | succ k ih =>
    obtain ⟨b₁, hb₁, h⟩ := Option.bind_eq_some_iff.mp h
    obtain ⟨r, hr, rfl⟩ := Option.map_eq_some_iff.mp hb₁
    have hlen : ∀ a ∈ r.map Prod.fst, a.2.length = m + 1 := by
      intro a ha
      obtain ⟨c, hc, rfl⟩ := List.mem_map.mp ha
      obtain ⟨a, ha, hac⟩ := (Lists.exists_mem_of_forall₂ (step_eq hr)).1 c hc
      rw [hac, List.length_append, hm a ha, List.length_singleton]
    intro a ha
    rw [ih h hlen a ha]
    omega

theorem finished_of_endsNow (hlen : ∀ a ∈ b, 2 ≤ a.2.length) (h : endsNow isEos b = true) :
    finished isEos b = true := by
  refine List.all_eq_true.mpr fun a ha => ?_
  have hlast := List.all_eq_true.mp h a ha
  have h2 := hlen a ha
  obtain ⟨token, htoken, heos⟩ : ∃ token, a.2.getLast? = some token ∧ isEos token = true := by
    cases hl : a.2.getLast? with
    | none => simp [hl] at hlast
    | some token => exact ⟨token, rfl, by simpa [hl] using hlast⟩
  refine List.any_eq_true.mpr ⟨token, ?_, heos⟩
  cases htgt : a.2 with
  | nil => simp [htgt] at h2
  | cons c tgt =>
    rw [htgt] at htoken h2
    cases tgt with
    | nil => simp at h2
    | cons d tgt =>
      rw [List.getLast?_cons_cons] at htoken
      exact List.mem_of_getLast? htoken

variable (next isEos) in
/-- The first step after which every sequence has ended, or the last step. -/
def allDone (maxLen : ℕ) (start : List (ι × List τ)) : ℕ :=
  firstStep (fun k => (rounds next k start).any (finished isEos)) maxLen

/-- The loop returns when all sequences have ended, exactly if they all end in that very step
or it is the last one. -/
theorem generateWith_eq_rounds_iff {start : List (ι × List τ)}
    (hstart : ∀ a ∈ start, a.2.length = 1) (maxLen : ℕ) :
    generateWith next isEos maxLen start = rounds next (allDone next isEos maxLen start) start ↔
      (allDone next isEos maxLen start < maxLen →
        (rounds next (allDone next isEos maxLen start) start).any (endsNow isEos) = true) := by
  rw [generateWith_eq]
  -- an end of all is a state in which all have ended
  have hmono : ∀ k, 1 ≤ k → (rounds next k start).any (endsNow isEos) = true →
      (rounds next k start).any (finished isEos) = true := by
    intro k hk hends
    cases hb : rounds next k start with
    | none => simp [hb] at hends
    | some b =>
      rw [hb] at hends
      have hlen := length_of_rounds hb hstart
      exact finished_of_endsNow (fun a ha => by rw [hlen a ha]; omega) hends
  have hle : allDone next isEos maxLen start ≤
      firstStep (fun k => (rounds next k start).any (endsNow isEos)) maxLen := firstStep_mono hmono
  constructor
  · intro heq hlt
    obtain ⟨hpos, hdone⟩ := firstStep_holds hlt
    cases hb : rounds next (allDone next isEos maxLen start) start with
    | none =>
      rw [allDone] at hb
      simp [hb] at hdone
    | some b =>
      rw [hb] at heq
      rcases hle.eq_or_lt with hsame | hlater
      · obtain ⟨-, hends⟩ := firstStep_holds (hsame ▸ hlt)
        rwa [← hsame, hb] at hends
      · -- a later batch has longer targets, so that none is in this one
        refine List.all_eq_true.mpr fun a ha => ?_
        have h₁ := length_of_rounds hb hstart a ha
        have h₂ := length_of_rounds heq hstart a ha
        omega
  · intro hends
    have hmax : allDone next isEos maxLen start ≤ maxLen := firstStep_le _ _
    rcases hmax.lt_or_eq with hlt | heq
    · have hpos : 1 ≤ allDone next isEos maxLen start := (firstStep_holds hlt).1
      rw [le_antisymm (le_of_firstStep hpos (hends hlt) hlt.le) hle]
    · have hlast := heq.symm.le.trans hle
      rw [le_antisymm (firstStep_le _ _) hlast, heq]

end Loop

section Transformer

variable {K : Type*} [Field K] [LinearOrder K] (fn : Numerics K) {cfg : Config} (w : Weights K cfg)

theorem generateLoop_eq (temperature : K) (eosId n : ℕ)
    (batch : List (Encoded K × List (Fin cfg.tgtVocab))) :
    generateLoop fn w temperature eosId n batch =
      generateWith (generateToken fn w temperature) (fun token => token.val = eosId) n batch := by
  induction n generalizing batch with
  | zero => rfl
  | succ n ih =>
    rw [generateLoop, generateWith, step]
    congr 1
    ext r
    simp only [ih]

/-- The loop of `generate` is that of its next token. For every behaviour of the next token it
returns when all sequences have ended, exactly if they all end in that very step or it is the
last one. -/
theorem generate_stops_iff (temperature : K) (eosId : ℕ) {ι τ : Type*}
    (next : ι → List τ → Option τ) (isEos : τ → Bool) (srcs : List ι) (bos : τ) (maxLen : ℕ) :
    (∀ start, generateLoop fn w temperature eosId maxLen start =
      generateWith (generateToken fn w temperature) (fun token => token.val = eosId) maxLen start) ∧
    let start := srcs.map fun e => (e, [bos])
    generateWith next isEos maxLen start = rounds next (allDone next isEos maxLen start) start ↔
      (allDone next isEos maxLen start < maxLen →
        (rounds next (allDone next isEos maxLen start) start).any (endsNow isEos) = true) := by
  refine ⟨generateLoop_eq fn w temperature eosId maxLen, generateWith_eq_rounds_iff ?_ maxLen⟩
  intro a ha
  obtain ⟨e, -, rfl⟩ := List.mem_map.mp ha
  rfl

/-- Two sequences that end at the first and at the second step. -/
def staggered (e : ℕ) (tgt : List ℕ) : Option ℕ := some (if tgt.length = e then 2 else 3)

theorem staggered_goes_on :
    let start : List (ℕ × List ℕ) := [(1, [1]), (2, [1])]
    rounds staggered 2 start = some [(1, [1, 2, 3]), (2, [1, 3, 2])] ∧
    allDone staggered (· = 2) 50 start = 2 ∧
    generateWith staggered (· = 2) 50 start ≠ rounds staggered 2 start ∧
    (generateWith staggered (· = 2) 50 start).any (fun b => b.all fun a => a.2.length = 51) := by
  decide +kernel

end Transformer

end K8sLearn.Transformer
