import K8sLearn.Pilot.Engine

/-! # When a rejected draft is replaced

A retry is real when the draft judged in an iteration comes from a worker call of that
iteration with the last verdict's feedback. With the language-model worker every
iteration overwrites the draft. Without it the first draft stays in its variable, the
rule worker is never called again, and the judge meets the draft it has rejected.
-/

namespace K8sLearn.Pilot

open K8sLearn.Flow

/-- Every draft judged after the first iteration answers the feedback before it. -/
def Fresh (log : List Event) : Prop :=
  ∀ k d r, 1 < k → .judged k d r ∈ log →
    ∃ d' v path, .judged (k - 1) d' (.ok v) ∈ log ∧
      .worker path k v.feedback (.ok (some d)) ∈ log

/-- The retries of a run: drafts are fresh, and none that was rejected comes back without
a worker call for it. -/
structure Retries (log : List Event) : Prop where
  fresh : Fresh log
  not_resubmitted : ∀ j k d v r, 1 ≤ j → j < k → .judged j d (.ok v) ∈ log → v.verdict ≠ .pass →
    .judged k d r ∈ log → ∃ path feedback, .worker path k feedback (.ok (some d)) ∈ log

theorem Fresh.retries {log : List Event} (h : Fresh log) : Retries log where
  fresh := h
  not_resubmitted := by
    intro j k d v r hj hjk _ _ hk
    obtain ⟨_, v', path, _, hw⟩ := h k d r (by omega) hk
    exact ⟨path, v'.feedback, hw⟩

theorem Fresh.append_worker {log : List Event} (h : Fresh log) (path : WorkerPath) (k : ℕ)
    (feedback : Str) (r : Except PyError (Option WorkerDraft)) :
    Fresh (log ++ [.worker path k feedback r]) := by
  intro j d r' hj hm
  have hm' : .judged j d r' ∈ log := by simpa using hm
  obtain ⟨d', v, p, hv, hw⟩ := h j d r' hj hm'
  exact ⟨d', v, p, List.mem_append_left _ hv, List.mem_append_left _ hw⟩

/-- The state in which iteration `k` begins. -/
structure Ready (k : ℕ) (s : LoopState) : Prop where
  fresh : Fresh s.log
  feedback : 1 < k → ∃ d v, .judged (k - 1) d (.ok v) ∈ s.log ∧ v.feedback = s.feedback

/-- A draft at hand comes from a call of iteration `k` with the current feedback. -/
def Drafted (k : ℕ) (s : LoopState) : Prop :=
  ∀ d, s.draft = some d → ∃ path, .worker path k s.feedback (.ok (some d)) ∈ s.log

theorem Ready.append_worker {k : ℕ} {s : LoopState} (h : Ready k s) (path : WorkerPath)
    (feedback : Str) (r : Except PyError (Option WorkerDraft)) (draft : Option WorkerDraft) :
    Ready k { s with draft, log := s.log ++ [.worker path k feedback r] } where
  fresh := h.fresh.append_worker path k feedback r
  feedback := by
    intro hk
    obtain ⟨d, v, hv, hf⟩ := h.feedback hk
    exact ⟨d, v, List.mem_append_left _ hv, hf⟩

variable {lower : Str → Str} {env : ℕ → Services} {llmReady : Bool} {query : Str}

theorem llmStage_sat {k : ℕ} {s : LoopState}
    (hl : useLlm (classify lower query) llmReady = true) (h : Ready k s) :
    (llmStage lower env llmReady query k s).Sat (fun s' => Ready k s' ∧ Drafted k s')
      (fun s' => Fresh s'.log) (fun s' => Fresh s'.log) := by
  simp only [llmStage, hl, if_true]
  cases hr : runWorkerLlm (env k) query (classify lower query) s.feedback k with
  | error e => exact h.fresh.append_worker _ _ _ _
  | ok draft =>
    constructor
    · exact h.append_worker _ _ _ _
    · rintro d rfl
      exact ⟨.llm, by simp⟩

theorem ruleStage_sat {k : ℕ} {s : LoopState} (h : Ready k s) (hd : Drafted k s) :
    (ruleStage lower env query k s).Sat (fun s' => Ready k s' ∧ Drafted k s')
      (fun s' => Fresh s'.log) (fun s' => Fresh s'.log) := by
  unfold ruleStage
  cases hs : s.draft with
  | some d => exact ⟨h, hd⟩
  | none =>
    cases hr : runRule lower (env k).handler query s.feedback k with
    | error e => exact h.fresh.append_worker _ _ _ _
    | ok draft =>
      constructor
      · exact h.append_worker _ _ _ _
      · rintro d ⟨⟩
        exact ⟨.rule, by simp [Functor.map, Except.map]⟩

theorem Ready.append_judged {k : ℕ} {s : LoopState} {d : WorkerDraft} (h : Ready k s)
    (hd : Drafted k s) (hs : s.draft = some d) (r : Except PyError JudgeVerdict) :
    Fresh (s.log ++ [.judged k d r]) := by
  intro j d' r' hj hm
  rcases List.mem_append.mp hm with hm | hm
  · obtain ⟨d₀, v, p, hv, hw⟩ := h.fresh j d' r' hj hm
    exact ⟨d₀, v, p, List.mem_append_left _ hv, List.mem_append_left _ hw⟩
  · obtain ⟨rfl, rfl, rfl⟩ : j = k ∧ d' = d ∧ r' = r := by simpa using hm
    obtain ⟨d₀, v, hv, hf⟩ := h.feedback hj
    obtain ⟨p, hw⟩ := hd d' hs
    exact ⟨d₀, v, p, List.mem_append_left _ hv, List.mem_append_left _ (hf ▸ hw)⟩

theorem judgeStage_sat {k : ℕ} {s : LoopState} (h : Ready k s) (hd : Drafted k s) :
    (judgeStage lower env query k s).Sat (Ready (k + 1)) (fun s' => Fresh s'.log)
      (fun s' => Fresh s'.log) := by
  cases hs : s.draft with
  | none =>
    simp only [judgeStage, hs]
    exact h.fresh
  | some d =>
    have hf := h.append_judged hd hs
    cases hr : evaluate lower (env k).evaluateWithLlm query d with
    | error e =>
      simp only [judgeStage, hs, hr]
      exact hf _
    | ok v =>
      simp only [judgeStage, hs, hr]
      split_ifs with hp
      · exact hf _
      · exact ⟨hf _, fun _ => ⟨d, v, by simp, rfl⟩⟩

theorem pass_sat {k : ℕ} {s : LoopState}
    (hl : useLlm (classify lower query) llmReady = true) (h : Ready k s) :
    (pass lower env llmReady query k s).Sat (Ready (k + 1)) (fun s' => Fresh s'.log)
      (fun s' => Fresh s'.log) := by
  have h' : Ready k { s with iteration := k } := ⟨h.fresh, h.feedback⟩
  have h₁ : ((llmStage lower env llmReady query k { s with iteration := k }).bind
      (ruleStage lower env query k)).Sat (fun s' => Ready k s' ∧ Drafted k s')
      (fun s' => Fresh s'.log) (fun s' => Fresh s'.log) := by
    apply (llmStage_sat hl h').bind
    rintro s' ⟨hs, hd⟩
    exact ruleStage_sat hs hd
  apply h₁.bind
  rintro s' ⟨hs, hd⟩
  exact judgeStage_sat hs hd

theorem ready_initial : Ready 1 ⟨0, none, none, [], []⟩ where
  fresh := by
    intro k d r _ hm
    cases hm
  feedback := by
    intro h
    omega

theorem loop_fresh (hl : useLlm (classify lower query) llmReady = true) :
    Fresh (loop lower env llmReady query).state.log := by
  have h : (loop lower env llmReady query).Sat
      (fun s => ∃ k n, [] = List.range' k n ∧ Ready k s) (fun s => Fresh s.log)
      (fun s => Fresh s.log) := by
    apply forEach_sat (I := fun l s => ∃ k n, l = List.range' k n ∧ Ready k s)
    · rintro a l s ⟨k, n, hn, hs⟩
      cases n with
      | zero => cases hn
      | succ n =>
        obtain ⟨rfl, rfl⟩ := List.cons.inj hn
        exact (pass_sat hl hs).mono fun s' hs' => ⟨a + 1, n, rfl, hs'⟩
    · exact ⟨1, maxIterations, rfl, ready_initial⟩
  apply h.state
  rintro s ⟨k, n, -, hs⟩
  exact hs.fresh

section Rule

variable (hl : useLlm (classify lower query) llmReady = false)

include hl

theorem pass_of_draft {k : ℕ} {s : LoopState} {d : WorkerDraft} (hd : s.draft = some d) :
    pass lower env llmReady query k s =
      judgeStage lower env query k { s with iteration := k } := by
  simp [pass, llmStage, hl, Flow.bind, ruleStage, hd]

theorem pass_first {d : WorkerDraft} (hr : runRule lower (env 1).handler query [] 1 = .ok d) :
    pass lower env llmReady query 1 ⟨0, none, none, [], []⟩ =
      judgeStage lower env query 1
        ⟨1, some d, none, [], [.worker .rule 1 [] (.ok (some d))]⟩ := by
  simp [pass, llmStage, hl, Flow.bind, ruleStage, hr, Functor.map, Except.map]

theorem pass_first_error {e : PyError}
    (hr : runRule lower (env 1).handler query [] 1 = .error e) :
    pass lower env llmReady query 1 ⟨0, none, none, [], []⟩ =
      .raised e ⟨1, none, none, [], [.worker .rule 1 [] (.error e)]⟩ := by
  simp [pass, llmStage, hl, Flow.bind, ruleStage, hr, Functor.map, Except.map]

end Rule

variable (lower env query) in
theorem judgeStage_of_draft (k : ℕ) {s : LoopState} {d : WorkerDraft} (hd : s.draft = some d) :
    (judgeStage lower env query k s).state.draft = some d ∧
      (judgeStage lower env query k s).state.log =
        s.log ++ [.judged k d (evaluate lower (env k).evaluateWithLlm query d)] := by
  cases hr : evaluate lower (env k).evaluateWithLlm query d with
  | error e =>
    simp only [judgeStage, hd, hr]
    exact ⟨rfl, rfl⟩
  | ok v =>
    simp only [judgeStage, hd, hr]
    split_ifs <;> exact ⟨rfl, rfl⟩

/-- The draft is `d`, no worker was called after the first iteration, and `e` happened. -/
structure Stale (d : WorkerDraft) (e : Event) (s : LoopState) : Prop where
  draft : s.draft = some d
  worker : ∀ path k feedback r, .worker path k feedback r ∈ s.log → k = 1
  event : e ∈ s.log

theorem pass_stale (hl : useLlm (classify lower query) llmReady = false) {d : WorkerDraft}
    {e e' : Event} {k : ℕ} {s : LoopState} (h : Stale d e s)
    (he : e' = e ∨ e' = .judged k d (evaluate lower (env k).evaluateWithLlm query d)) :
    (pass lower env llmReady query k s).Sat (Stale d e') (Stale d e')
      (Stale d e') := by
  have hd : ({ s with iteration := k } : LoopState).draft = some d := h.draft
  obtain ⟨hdraft, hlog⟩ := judgeStage_of_draft lower env query k hd
  rw [pass_of_draft hl h.draft, sat_self_iff]
  constructor
  · exact hdraft
  · intro path j feedback r hm
    rw [hlog] at hm
    exact h.worker path j feedback r (by simpa using hm)
  · rw [hlog]
    rcases he with rfl | rfl
    · exact List.mem_append_left _ h.event
    · simp

theorem loop_stale (hl : useLlm (classify lower query) llmReady = false) {d : WorkerDraft}
    {v : JudgeVerdict} (hr : runRule lower (env 1).handler query [] 1 = .ok d)
    (hv : evaluate lower (env 1).evaluateWithLlm query d = .ok v) (hp : v.verdict ≠ .pass) :
    ∃ r, Stale d (.judged 2 d r) (loop lower env llmReady query).state := by
  have h₁ : pass lower env llmReady query 1 ⟨0, none, none, [], []⟩ = .next
      ⟨1, some d, some v, v.feedback,
        [.worker .rule 1 [] (.ok (some d)), .judged 1 d (.ok v)]⟩ := by
    simp [pass_first hl hr, judgeStage, hv, hp]
  have hs : Stale d (.judged 1 d (.ok v)) ⟨1, some d, some v, v.feedback,
      [.worker .rule 1 [] (.ok (some d)), .judged 1 d (.ok v)]⟩ := by
    constructor
    · rfl
    · intro path k feedback r hm
      have hm' : (path = .rule ∧ k = 1 ∧ feedback = [] ∧ r = .ok (some d)) := by simpa using hm
      exact hm'.2.1
    · simp
  use evaluate lower (env 2).evaluateWithLlm query d
  apply sat_self_iff.mp
  have hloop : loop lower env llmReady query =
      (pass lower env llmReady query 1 ⟨0, none, none, [], []⟩).bind
        (forEach (pass lower env llmReady query) [2, 3]) := rfl
  rw [hloop, h₁]
  apply (pass_stale hl hs (.inr rfl)).bind
  intro s h
  exact forEach_sat (I := fun _ => Stale d _) (fun k _ s h => pass_stale hl h (.inl rfl)) h

theorem not_retries_of_rejected (hl : useLlm (classify lower query) llmReady = false)
    {d : WorkerDraft} {v : JudgeVerdict}
    (hr : runRule lower (env 1).handler query [] 1 = .ok d)
    (hv : evaluate lower (env 1).evaluateWithLlm query d = .ok v) (hp : v.verdict ≠ .pass) :
    ¬ Retries (loop lower env llmReady query).state.log := by
  intro h
  obtain ⟨r, hs⟩ := loop_stale hl hr hv hp
  obtain ⟨_, _, path, _, hw⟩ := h.fresh 2 d r (by omega) hs.event
  have := hs.worker path 2 _ _ hw
  omega

theorem loop_first (hl : useLlm (classify lower query) llmReady = false)
    (h : ∀ d v, runRule lower (env 1).handler query [] 1 = .ok d →
      evaluate lower (env 1).evaluateWithLlm query d = .ok v → v.verdict = .pass) :
    ∀ k d r, .judged k d r ∈ (loop lower env llmReady query).state.log → k = 1 := by
  have hs : (pass lower env llmReady query 1 ⟨0, none, none, [], []⟩).Sat (fun _ => False)
      (fun s => ∀ k d r, .judged k d r ∈ s.log → k = 1)
      (fun s => ∀ k d r, .judged k d r ∈ s.log → k = 1) := by
    cases hr : runRule lower (env 1).handler query [] 1 with
    | error e =>
      rw [pass_first_error hl hr]
      intro k d r hm
      simp at hm
    | ok d =>
      rw [pass_first hl hr]
      cases hv : evaluate lower (env 1).evaluateWithLlm query d with
      | error e =>
        simp only [judgeStage, hv]
        intro k d' r hm
        simp at hm
        exact hm.1
      | ok v =>
        simp only [judgeStage, hv, h d v hr hv, if_true]
        intro k d' r hm
        simp at hm
        exact hm.1
  have hloop : (loop lower env llmReady query).Sat (fun _ => False)
      (fun s => ∀ k d r, .judged k d r ∈ s.log → k = 1)
      (fun s => ∀ k d r, .judged k d r ∈ s.log → k = 1) := by
    apply hs.bind
    exact fun s h => h.elim
  exact hloop.state fun s h => h.elim

variable (lower env llmReady query)

theorem run_log : (run lower env llmReady query).2 =
    (loop lower env llmReady (rewrite query)).state.log := by
  unfold run
  cases loop lower env llmReady (rewrite query) with
  | raised e s => rfl
  | next s => cases hd : s.draft <;> simp [hd, state]
  | brk s => cases hd : s.draft <;> simp [hd, state]

/-- A run's retries are real exactly when the language-model worker is eligible, or the
first draft of the rule worker is not rejected. -/
theorem run_retries_iff :
    Retries (run lower env llmReady query).2 ↔
      useLlm (classify lower (rewrite query)) llmReady = true ∨
        ∀ d v, runRule lower (env 1).handler (rewrite query) [] 1 = .ok d →
          evaluate lower (env 1).evaluateWithLlm (rewrite query) d = .ok v → v.verdict = .pass := by
  rw [run_log]
  cases hl : useLlm (classify lower (rewrite query)) llmReady with
  | true => simpa using (loop_fresh hl).retries
  | false =>
    simp only [Bool.false_eq_true, false_or]
    constructor
    · intro h d v hr hv
      by_contra hp
      exact not_retries_of_rejected hl hr hv hp h
    · intro h
      apply Fresh.retries
      intro k d r hk hm
      have := loop_first hl h k d r hm
      omega

/-- No language model, and a search that finds one paper in every iteration. -/
def oneHit : Services where
  planReply _ _ := .ok none
  call _ _ _ := .ok .other
  generateWithLlm _ _ _ := none
  handler _ _ := .ok {
    answer := "我找到以下较相关的论文：\n1. Attention Is All You Need（2017，相关度 0.41）".toList
    citations :=
      [⟨"W1".toList, "Attention Is All You Need".toList, none, none, "检索相关度 0.41".toList⟩]
    confidence := 714 / 1000
    cacheHit := false
    evidence :=
      [⟨some "W1".toList, some "Attention Is All You Need".toList, none, none, none, some []⟩] }
  evaluateWithLlm _ _ := .ok none

/-- The hit shares no word with the question, so its draft is rejected, and judged again. -/
theorem run_resubmits_pruning :
    ¬ Retries (run (List.map Char.toLower) (fun _ => oneHit) false "graph pruning".toList).2 := by
  rw [run_log]
  have hl : useLlm (classify (List.map Char.toLower) (rewrite "graph pruning".toList)) false =
      false := by simp [useLlm]
  obtain ⟨d, v, hr, hv, hp⟩ : ∃ d v,
      runRule (List.map Char.toLower) oneHit.handler (rewrite "graph pruning".toList) [] 1 = .ok d ∧
      evaluate (List.map Char.toLower) oneHit.evaluateWithLlm (rewrite "graph pruning".toList) d =
        .ok v ∧ v.verdict ≠ .pass := ⟨_, _, rfl, rfl, by decide +kernel⟩
  exact @not_retries_of_rejected _ (fun _ => oneHit) _ _ hl d v hr hv hp

end K8sLearn.Pilot
