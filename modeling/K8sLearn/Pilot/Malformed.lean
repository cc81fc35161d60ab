import Mathlib.Data.Set.Basic
import K8sLearn.Pilot.Saved

/-! # Which replies escape a run

A run falls back where a reply gives no plan or no verdict. Replies that are readable and can
be saved, and only they, keep every run from raising, in its loop or when it is saved.
-/

namespace K8sLearn.Pilot

open K8sLearn.Flow (Sat forEach forEach_invariant sat_self_iff)

section Run

variable (lower : Str → Str) (env : ℕ → Services) (query : Str)

/-- What stays outside the replies: tools raise nothing but exceptions, and the handlers of
the rule worker return. -/
structure Quiet (s : Services) : Prop where
  calls : QuietCalls s
  handler : ∀ intent q, ∃ r, s.handler intent q = .ok r

/-- Where the language model gives no draft the rule worker does, and where it gives no
verdict the rules do. -/
structure FallsBack (log : List Event) : Prop where
  worker : ∀ k feedback, .worker .llm k feedback (.ok none) ∈ log →
    ∃ d, .worker .rule k feedback (.ok (some d)) ∈ log
  judge : ∀ k d r, .judged k d r ∈ log → (env k).evaluateWithLlm query d = .ok none →
    r = .ok (evaluateWithRules lower query d)

/-- The same in the middle of iteration `k`, whose draft may still be missing. -/
structure Pending (k : ℕ) (s : LoopState) : Prop where
  worker : ∀ j feedback, .worker .llm j feedback (.ok none) ∈ s.log →
    (∃ d, .worker .rule j feedback (.ok (some d)) ∈ s.log) ∨
      (j = k ∧ feedback = s.feedback ∧ s.draft = none)
  judge : ∀ j d r, .judged j d r ∈ s.log → (env j).evaluateWithLlm query d = .ok none →
    r = .ok (evaluateWithRules lower query d)

/-- A run that returns a response, having fallen back where it had to. -/
def Survives (out : Except PyError AgentResponse × List Event) : Prop :=
  (∃ response, out.1 = .ok response) ∧ FallsBack lower env query out.2

def Judged (s : LoopState) : Prop := FallsBack lower env query s.log ∧ ∃ d, s.draft = some d

variable {lower env query} {llmReady : Bool} {k : ℕ} {s : LoopState}

theorem llmStage_pending (h : FallsBack lower env query s.log)
    (hk : ∃ d, runWorkerLlm (env k) query (classify lower query) s.feedback k = .ok d) :
    (llmStage lower env llmReady query k s).Sat (Pending lower env query k)
      (Judged lower env query) (fun _ => False) := by
  obtain ⟨d, hd⟩ := hk
  simp only [llmStage, hd]
  split_ifs
  · constructor
    · intro j feedback hm
      rcases List.mem_append.mp hm with hm | hm
      · obtain ⟨d', hd'⟩ := h.worker j feedback hm
        exact .inl ⟨d', List.mem_append_left _ hd'⟩
      · obtain ⟨rfl, rfl, rfl⟩ : j = k ∧ feedback = s.feedback ∧ none = d := by simpa using hm
        exact .inr ⟨rfl, rfl, rfl⟩
    · intro j d' r hm
      exact h.judge j d' r (by simpa using hm)
  · exact ⟨fun j feedback hm => .inl (h.worker j feedback hm), h.judge⟩

theorem ruleStage_judged (h : Pending lower env query k s)
    (hk : ∀ intent q, ∃ r, (env k).handler intent q = .ok r) :
    (ruleStage lower env query k s).Sat (Judged lower env query) (Judged lower env query)
      (fun _ => False) := by
  unfold ruleStage
  cases hs : s.draft with
  | some d =>
    refine ⟨⟨?_, h.judge⟩, d, hs⟩
    intro j feedback hm
    rcases h.worker j feedback hm with hw | ⟨-, -, hn⟩
    · exact hw
    · rw [hs] at hn
      cases hn
  | none =>
    obtain ⟨r, hr⟩ := hk (classify lower query) (searchQuery query s.feedback k)
    simp only [runRule, hr, bind, Except.bind, pure, Except.pure]
    refine ⟨⟨?_, ?_⟩, _, rfl⟩
    · intro j feedback hm
      have hm' : .worker .llm j feedback (.ok none) ∈ s.log := by simpa using hm
      rcases h.worker j feedback hm' with ⟨d, hd⟩ | ⟨rfl, rfl, -⟩
      · exact ⟨d, List.mem_append_left _ hd⟩
      · exact ⟨_, List.mem_append_right _ (List.mem_singleton_self _)⟩
    · intro j d' r hm
      exact h.judge j d' r (by simpa using hm)

variable (lower) in
theorem evaluate_ok {f : Str → WorkerDraft → Except PyError (Option JudgeVerdict)}
    {d : WorkerDraft} {r : Option JudgeVerdict} (hr : f query d = .ok r) :
    ∃ v, evaluate lower f query d = .ok v ∧ (r = none → v = evaluateWithRules lower query d) := by
  simp only [evaluate, hr, bind, Except.bind]
  split_ifs
  · cases r with
    | none => exact ⟨_, rfl, fun _ => rfl⟩
    | some v => exact ⟨v, rfl, fun h => by cases h⟩
  · exact ⟨_, rfl, fun _ => rfl⟩

theorem judgeStage_judged (h : Judged lower env query s)
    (hk : ∀ d, ∃ v, (env k).evaluateWithLlm query d = .ok v) :
    (judgeStage lower env query k s).Sat (Judged lower env query) (Judged lower env query)
      (fun _ => False) := by
  obtain ⟨h, d, hd⟩ := h
  obtain ⟨r, hr⟩ := hk d
  obtain ⟨v, hv, hrules⟩ := evaluate_ok lower hr
  have hlog : FallsBack lower env query (s.log ++ [.judged k d (.ok v)]) := by
    constructor
    · intro j feedback hm
      obtain ⟨d', hd'⟩ := h.worker j feedback (by simpa using hm)
      exact ⟨d', List.mem_append_left _ hd'⟩
    · intro j d' r' hm hnone
      rcases List.mem_append.mp hm with hm | hm
      · exact h.judge j d' r' hm hnone
      · obtain ⟨rfl, rfl, rfl⟩ : j = k ∧ d' = d ∧ r' = .ok v := by simpa using hm
        rw [hr] at hnone
        rw [hrules (Except.ok.inj hnone)]
  simp only [judgeStage, hd, hv]
  split_ifs
  · exact ⟨hlog, d, rfl⟩
  · exact ⟨hlog, d, rfl⟩

section Loop

variable (hworker : ∀ k feedback, ∃ d,
    runWorkerLlm (env k) query (classify lower query) feedback k = .ok d)
  (hhandler : ∀ k intent q, ∃ r, (env k).handler intent q = .ok r)
  (hjudge : ∀ k d, ∃ v, (env k).evaluateWithLlm query d = .ok v)

include hworker hhandler hjudge

theorem pass_judged (llmReady : Bool) (k : ℕ) (h : FallsBack lower env query s.log) :
    (pass lower env llmReady query k s).Sat (Judged lower env query) (Judged lower env query)
      (fun _ => False) := by
  have hllm : (llmStage lower env llmReady query k { s with iteration := k }).Sat
      (Pending lower env query k) (Judged lower env query) (fun _ => False) :=
    llmStage_pending h (hworker k _)
  apply Sat.bind (P := Judged lower env query)
  · apply hllm.bind
    intro s' hs'
    exact ruleStage_judged hs' (hhandler k)
  · intro s' hs'
    exact judgeStage_judged hs' (hjudge k)

theorem loop_judged :
    (loop lower env llmReady query).Sat (Judged lower env query) (Judged lower env query)
      (fun _ => False) := by
  have hstep := fun (s : LoopState) k => pass_judged (s := s) hworker hhandler hjudge llmReady k
  apply (hstep ⟨0, none, none, [], []⟩ 1 ⟨by simp, by simp⟩).bind
  intro s hs
  exact forEach_invariant (fun k _ s hs => hstep s k hs.1) hs

end Loop

structure Writing (lower : Str → Str) (env : ℕ → Services) (query : Str) (s : LoopState) :
    Prop where
  feedback : Str.encodable s.feedback = true
  draft : ∀ d, s.draft = some d → d.Writable lower
  texts : ∀ e ∈ s.log, ∀ v ∈ e.texts env query, PyValue.encodable v = true

theorem Writing.append (h : Writing lower env query s) {e : Event}
    (he : ∀ v ∈ e.texts env query, PyValue.encodable v = true) :
    ∀ e' ∈ s.log ++ [e], ∀ v ∈ e'.texts env query, PyValue.encodable v = true := by
  intro e' he'
  rcases List.mem_append.mp he' with he' | he'
  · exact h.texts e' he'
  · rw [List.mem_singleton.mp he']
    exact he

theorem encodable_judged {d : WorkerDraft} {v : JudgeVerdict} (hd : d.Writable lower)
    (hv : v.Writable) : ∀ w ∈ (Event.judged k d (.ok v)).texts env query,
      PyValue.encodable w = true := by
  rw [Event.texts, List.forall_mem_cons, List.forall_mem_cons, List.forall_mem_map]
  refine ⟨?_, ?_, fun i hi => ?_⟩
  · rw [encodable_str]
    exact Str.encodable_take 200 hd.answer
  · rw [encodable_str]
    exact hv.2
  · rw [encodable_str]
    exact hv.1 i hi

section Written

variable (hclean : ∀ k, Clean (env k))
  (hplan : ∀ k feedback plan, (env k).planReply query feedback = .ok (some plan) → SavedPlan plan)
  (hverdict : ∀ k d v, (env k).evaluateWithLlm query d = .ok (some v) → v.Writable)

include hclean

include hplan in
theorem llmStage_writing (h : Writing lower env query s) :
    (llmStage lower env llmReady query k s).Sat (Writing lower env query)
      (Writing lower env query) (fun _ => True) := by
  have htexts : ∀ r, ∀ v ∈ (Event.worker .llm k s.feedback r).texts env query,
      PyValue.encodable v = true := by
    intro r
    rw [Event.texts, List.forall_mem_cons, encodable_str]
    refine ⟨h.feedback, ?_⟩
    split
    · rename_i plan hp
      obtain ⟨hreply, hcalls⟩ := of_planWithLlm hp
      exact encodable_planTexts (hclean k) (hplan k _ plan hreply) hcalls
    · exact List.forall_mem_nil _
  simp only [llmStage]
  split_ifs
  · cases hr : runWorkerLlm (env k) query (classify lower query) s.feedback k with
    | error e => trivial
    | ok draft =>
      refine ⟨h.feedback, ?_, h.append (htexts _)⟩
      rintro d rfl
      exact runWorkerLlm_writable (hclean k) hr
  · exact h

theorem ruleStage_writing (h : Writing lower env query s) :
    (ruleStage lower env query k s).Sat (Writing lower env query)
      (Writing lower env query) (fun _ => True) := by
  unfold ruleStage
  cases hs : s.draft with
  | some d => exact h
  | none =>
    cases hr : runRule lower (env k).handler query s.feedback k with
    | error e => trivial
    | ok draft =>
      refine ⟨h.feedback, ?_, h.append ?_⟩
      · rintro d ⟨⟩
        exact runRule_writable (hclean k) hr
      · intro v hv
        rw [List.mem_singleton.mp hv, encodable_str]
        exact h.feedback

omit hclean

include hverdict in
theorem evaluate_writable {d : WorkerDraft} {v : JudgeVerdict} (hd : d.Writable lower)
    (h : evaluate lower (env k).evaluateWithLlm query d = .ok v) : v.Writable := by
  unfold evaluate at h
  split_ifs at h
  · obtain ⟨r, hr, h⟩ := Checked.bind_eq_ok.mp h
    cases r with
    | none =>
      obtain rfl := Except.ok.inj h
      exact evaluateWithRules_writable hd
    | some w =>
      obtain rfl := Except.ok.inj h
      exact hverdict k d w hr
  · obtain rfl := Except.ok.inj h
    exact evaluateWithRules_writable hd

include hverdict in
theorem judgeStage_writing (h : Writing lower env query s) :
    (judgeStage lower env query k s).Sat (Writing lower env query)
      (Writing lower env query) (fun _ => True) := by
  cases hs : s.draft with
  | none =>
    simp only [judgeStage, hs]
    trivial
  | some d =>
    have hd := h.draft d hs
    cases hr : evaluate lower (env k).evaluateWithLlm query d with
    | error e =>
      simp only [judgeStage, hs, hr]
      trivial
    | ok v =>
      have hv := evaluate_writable hverdict hd hr
      have hlog : ∀ e ∈ s.log ++ [.judged k d (.ok v)], ∀ w ∈ e.texts env query,
          PyValue.encodable w = true := h.append (encodable_judged hd hv)
      simp only [judgeStage, hs, hr]
      split_ifs
      · exact ⟨h.feedback, by rintro d' ⟨⟩; exact hd, hlog⟩
      · exact ⟨hv.2, by rintro d' ⟨⟩; exact hd, hlog⟩

include hclean hplan hverdict in
theorem loop_writing : (loop lower env llmReady query).Sat (Writing lower env query)
    (Writing lower env query) (fun _ => True) := by
  refine forEach_invariant (fun k _ s hs => ?_)
    ⟨rfl, by rintro d ⟨⟩, List.forall_mem_nil _⟩
  have hs' : Writing lower env query { s with iteration := k } := ⟨hs.feedback, hs.draft, hs.texts⟩
  refine Sat.bind (P := Writing lower env query) ?_ fun s' h' => judgeStage_writing hverdict h'
  exact (llmStage_writing hclean hplan hs').bind fun s' h' => ruleStage_writing hclean h'

end Written

theorem encodable_rewrite {q : Str} (h : Str.encodable q = true) :
    Str.encodable (rewrite q) = true := by
  refine Str.encodable_collapseSpaces (Str.encodable_strip ?_)
  refine List.all_eq_true.mpr fun c hc => ?_
  obtain ⟨d, hd, rfl⟩ := List.mem_map.mp hc
  split_ifs
  · rfl
  · exact List.all_eq_true.mp h d hd

variable (lower env query llmReady) in
theorem run_survives (hquery : Str.encodable query = true)
    (h : (loop lower env llmReady (rewrite query)).Sat (Judged lower env (rewrite query))
      (Judged lower env (rewrite query)) (fun _ => False))
    (hw : (loop lower env llmReady (rewrite query)).Sat (Writing lower env (rewrite query))
      (Writing lower env (rewrite query)) (fun _ => True)) :
    Survives lower env (rewrite query) (run lower env llmReady query) := by
  have hsave : ∀ s d, s.draft = some d → Writing lower env (rewrite query) s →
      saveRun query d.answer (.str (rewrite query) ::
        s.log.flatMap (Event.texts env (rewrite query))) = .ok () := by
    intro s d hd hs
    have htrace : (PyValue.str (rewrite query) :: s.log.flatMap
        (Event.texts env (rewrite query)) : List Json).all PyValue.encodable = true := by
      rw [List.all_cons, encodable_str, encodable_rewrite hquery, Bool.true_and, List.all_eq_true]
      intro v hv
      obtain ⟨e, he, hv⟩ := List.mem_flatMap.mp hv
      exact hs.texts e he v hv
    rw [saveRun, hquery, (hs.draft d hd).answer, htrace]
    rfl
  unfold run
  cases hl : loop lower env llmReady (rewrite query) with
  | raised e s =>
    rw [hl] at h
    exact h.elim
  | next s =>
    rw [hl] at h hw
    obtain ⟨hlog, d, hd⟩ := h
    simp only [hd, hsave s d hd hw]
    exact ⟨⟨_, rfl⟩, hlog⟩
  | brk s =>
    rw [hl] at h hw
    obtain ⟨hlog, d, hd⟩ := h
    simp only [hd, hsave s d hd hw]
    exact ⟨⟨_, rfl⟩, hlog⟩

theorem run_of_text {e : Event} {v : Json}
    (he : e ∈ (loop lower env llmReady (rewrite query)).state.log)
    (hv : v ∈ e.texts env (rewrite query)) (hbad : PyValue.encodable v = false) :
    ∃ err, (run lower env llmReady query).1 = .error err := by
  have hsave : ∀ (s : LoopState) (answer : Str), e ∈ s.log →
      saveRun query answer (.str (rewrite query) ::
        s.log.flatMap (Event.texts env (rewrite query))) = .error Str.encodeError := by
    intro s answer hs
    have hmem : v ∈ (PyValue.str (rewrite query) :: s.log.flatMap
        (Event.texts env (rewrite query)) : List Json) :=
      List.mem_cons_of_mem _ (List.mem_flatMap.mpr ⟨e, hs, hv⟩)
    rw [saveRun, if_neg]
    rw [Bool.and_eq_true, List.all_eq_true]
    rintro ⟨-, hall⟩
    rw [hall v hmem] at hbad
    cases hbad
  unfold run
  cases hl : loop lower env llmReady (rewrite query) with
  | raised err s => exact ⟨err, rfl⟩
  | next s =>
    rw [hl] at he
    cases hd : s.draft with
    | none =>
      simp only [hd]
      exact ⟨_, rfl⟩
    | some d =>
      simp only [hd, hsave s d.answer he]
      exact ⟨_, rfl⟩
  | brk s =>
    rw [hl] at he
    cases hd : s.draft with
    | none =>
      simp only [hd]
      exact ⟨_, rfl⟩
    | some d =>
      simp only [hd, hsave s d.answer he]
      exact ⟨_, rfl⟩

section Logged

def Logged (e : Event) (s : LoopState) : Prop := e ∈ s.log

variable {e : Event}

theorem ruleStage_logged (h : Logged e s) : (ruleStage lower env query k s).Sat
    (Logged e) (Logged e) (Logged e) := by
  unfold ruleStage
  cases s.draft with
  | some d => exact h
  | none =>
    dsimp only
    cases runRule lower (env k).handler query s.feedback k with
    | error err => exact List.mem_append_left _ h
    | ok draft => exact List.mem_append_left _ h

theorem judgeStage_logged (h : Logged e s) : (judgeStage lower env query k s).Sat
    (Logged e) (Logged e) (Logged e) := by
  unfold judgeStage
  cases s.draft with
  | none => exact h
  | some d =>
    dsimp only
    cases evaluate lower (env k).evaluateWithLlm query d with
    | error err => exact List.mem_append_left _ h
    | ok verdict =>
      dsimp only
      split_ifs
      · exact List.mem_append_left _ h
      · exact List.mem_append_left _ h

theorem pass_logged (h : Logged e s) : (pass lower env llmReady query k s).Sat
    (Logged e) (Logged e) (Logged e) := by
  have hllm : (llmStage lower env llmReady query k { s with iteration := k }).Sat
      (Logged e) (Logged e) (Logged e) := by
    simp only [llmStage]
    split_ifs
    · cases runWorkerLlm (env k) query (classify lower query) s.feedback k with
      | error err => exact List.mem_append_left _ h
      | ok draft => exact List.mem_append_left _ h
    · exact h
  refine Sat.bind (P := Logged e) ?_ fun s' h' => judgeStage_logged h'
  exact hllm.bind fun s' h' => ruleStage_logged h'

theorem loop_logged (h : (pass lower env llmReady query 1 ⟨0, none, none, [], []⟩).Sat
    (Logged e) (Logged e) (Logged e)) :
    Logged e (loop lower env llmReady query).state := by
  apply sat_self_iff.mp
  have hloop : loop lower env llmReady query =
      (pass lower env llmReady query 1 ⟨0, none, none, [], []⟩).bind
        (forEach (pass lower env llmReady query) [2, 3]) := rfl
  rw [hloop]
  exact h.bind fun s hs => forEach_invariant (fun k _ s hs => pass_logged hs) hs

end Logged

theorem run_of_raised {e : PyError}
    (h : pass lower env llmReady (rewrite query) 1 ⟨0, none, none, [], []⟩ = .raised e s) :
    (run lower env llmReady query).1 = .error e := by
  have hloop : loop lower env llmReady (rewrite query) =
      (pass lower env llmReady (rewrite query) 1 ⟨0, none, none, [], []⟩).bind
        (forEach (pass lower env llmReady (rewrite query)) [2, 3]) := rfl
  simp only [run, hloop, h, Flow.bind]

end Run

section Replies

variable (py : Decoder) (lower : Str → Str) (plans judgements : Set Str)

/-- Every text generated for the two prompts is among the given ones. -/
structure RepliesIn (llm : Generations) : Prop where
  plan : ∀ question feedback text, llm.plan question feedback = some text → text ∈ plans
  judge : ∀ question draft text, llm.judge question draft = some text → text ∈ judgements

/-- Services that find nothing, with tools that refuse arguments that cannot be saved. -/
def silent : Services where
  planReply _ _ := .ok none
  call _ _ args := if PyValue.encodable args then .ok .other else .error Str.encodeError
  generateWithLlm _ _ _ := none
  handler _ _ := .ok ⟨[], [], 0, false, []⟩
  evaluateWithLlm _ _ := .ok none

theorem silent_quiet : Quiet silent where
  calls := by
    intro i tool args e h
    dsimp only [silent] at h
    split_ifs at h
    obtain rfl := Except.error.inj h
    exact ⟨_, _, rfl⟩
  handler := fun _ _ => ⟨_, rfl⟩

theorem silent_clean : Clean silent where
  args := by
    intro i tool args r h
    dsimp only [silent] at h
    split_ifs at h with hargs
    exact hargs
  message := by
    intro i tool args cls message h
    dsimp only [silent] at h
    split_ifs at h
    obtain ⟨-, rfl⟩ := PyError.exception.inj (Except.error.inj h)
    decide
  handler := by
    rintro intent q r ⟨⟩
    exact ⟨rfl, List.forall_mem_nil _⟩
  generated := by
    rintro q evidence feedback answer ⟨⟩

def comparison : Str := "compare".toList

theorem rewrite_comparison : rewrite comparison = comparison := by decide

theorem classify_comparison : classify lower comparison = .compare := by
  rw [classify, if_neg (by decide), if_pos (by decide)]

theorem quietCalls_reading {s : Services} (h : QuietCalls s) (llm : Generations) :
    QuietCalls (s.reading py lower llm) := h

theorem clean_reading {s : Services} (h : Clean s) (llm : Generations) :
    Clean (s.reading py lower llm) := ⟨h.args, h.message, h.handler, h.generated⟩

theorem run_comparison_of_plan {text : Str}
    (h : ¬ Reads py (fun v => ReadablePlan v ∧ SavedPlan v) text) :
    ∃ e, (run lower (fun _ => silent.reading py lower ⟨fun _ _ => some text, fun _ _ => none⟩) true
      comparison).1 = .error e := by
  let env : ℕ → Services := fun _ =>
    silent.reading py lower ⟨fun _ _ => some text, fun _ _ => none⟩
  have hworker := runWorkerLlm_ok_iff comparison .compare [] 1 (quietCalls_reading py lower
    silent_quiet.calls ⟨fun _ _ => some text, fun _ _ => none⟩)
  cases hr : runWorkerLlm (env 1) comparison .compare [] 1 with
  | error e =>
    use e
    apply run_of_raised (s := ⟨1, none, none, [], [.worker .llm 1 [] (.error e)]⟩)
    rw [rewrite_comparison]
    have hr' : runWorkerLlm (silent.reading py lower ⟨fun _ _ => some text, fun _ _ => none⟩)
        comparison .compare [] 1 = .error e := hr
    simp [pass, llmStage, classify_comparison, useLlm, llmIntents, hr', Flow.bind]
  | ok d =>
    obtain ⟨r, hparse, hread⟩ := hworker.mp ⟨d, hr⟩
    obtain ⟨plan, rfl, hsaved⟩ := exists_of_not_reads h hparse hread
    have hlogged : Logged (.worker .llm 1 [] (.ok d)) (loop lower env true comparison).state := by
      apply loop_logged
      have hllm : llmStage lower env true comparison 1 ⟨1, none, none, [], []⟩ =
          .next ⟨1, d, none, [], [.worker .llm 1 [] (.ok d)]⟩ := by
        simp [llmStage, classify_comparison, useLlm, llmIntents, hr]
      rw [pass, hllm]
      have hevent : Logged (.worker .llm 1 [] (.ok d))
          ⟨1, d, none, [], [.worker .llm 1 [] (.ok d)]⟩ := List.mem_singleton_self _
      have hrule : (ruleStage lower env comparison 1
          ⟨1, d, none, [], [.worker .llm 1 [] (.ok d)]⟩).Sat (Logged _) (Logged _) (Logged _) :=
        ruleStage_logged hevent
      exact hrule.bind fun s' h' => judgeStage_logged h'
    cases plan with
    | dict sub items =>
      simp only [SavedPlan, Classical.not_imp, not_forall] at hsaved
      obtain ⟨hcalls, key, hkey, w, hw, hbad⟩ := hsaved
      have hplan : planWithLlm (env 1) comparison [] = .ok (some (.dict sub items)) :=
        planWithLlm_dict hparse hcalls
      refine run_of_text (e := .worker .llm 1 [] (.ok d)) (v := w)
        (by rw [rewrite_comparison]; exact hlogged) ?_ (Bool.eq_false_iff.mpr hbad)
      rw [rewrite_comparison]
      have htexts : Event.texts env comparison (.worker .llm 1 [] (.ok d)) =
          .str [] :: planTexts (env 1) (.dict sub items) := by
        rw [Event.texts, if_neg (by decide), hplan]
      have hcases : key = "intent".toList ∨ key = "reasoning".toList := by
        rcases List.mem_cons.mp hkey with rfl | hkey
        · exact Or.inl rfl
        · exact Or.inr (List.mem_singleton.mp hkey)
      change w ∈ Event.texts env comparison (.worker .llm 1 [] (.ok d))
      rw [htexts, planTexts]
      rcases hcases with rfl | rfl
      · rw [hw]
        exact List.mem_cons_of_mem _ List.mem_cons_self
      · rw [hw]
        exact List.mem_cons_of_mem _ (List.mem_cons_of_mem _ List.mem_cons_self)
    | _ => exact absurd trivial hsaved

/-- An unreadable verdict ends a comparison after its first draft, and one that cannot be saved
at the end. -/
theorem run_comparison_of_judge {text : Str}
    (h : ¬ Reads py (fun v => ReadableVerdict py lower v ∧ SavedVerdict py lower v) text) :
    ∃ e, (run lower (fun _ => silent.reading py lower ⟨fun _ _ => none, fun _ _ => some text⟩) true
      comparison).1 = .error e := by
  let env : ℕ → Services := fun _ =>
    silent.reading py lower ⟨fun _ _ => none, fun _ _ => some text⟩
  let d : WorkerDraft := ⟨[], .compare, 0, [], false, []⟩
  let s₁ : LoopState := ⟨1, none, none, [], [.worker .llm 1 [] (.ok none)]⟩
  let s₂ : LoopState := ⟨1, some d, none, [], s₁.log ++ [.worker .rule 1 [] (.ok (some d))]⟩
  have hllm : llmStage lower env true comparison 1 ⟨1, none, none, [], []⟩ = .next s₁ := by
    simp only [llmStage, classify_comparison]
    rfl
  have hrule : ruleStage lower env comparison 1 s₁ = .next s₂ := by
    simp only [s₁, ruleStage, runRule, classify_comparison]
    rfl
  have hpass : pass lower env true comparison 1 ⟨0, none, none, [], []⟩ =
      judgeStage lower env comparison 1 s₂ := by
    rw [pass, hllm, Flow.bind, hrule]
    rfl
  cases hr : evaluateReply py lower (some text) with
  | error e =>
    use e
    have hraise : judgeStage lower env comparison 1 s₂ =
        .raised e { s₂ with log := s₂.log ++ [.judged 1 d (.error e)] } := by
      have heval : evaluate lower (env 1).evaluateWithLlm comparison d = .error e := by
        simp [evaluate, d, env, Services.reading, hr, bind, Except.bind]
      simp only [s₂, judgeStage, heval]
    apply run_of_raised
    rw [rewrite_comparison]
    exact hpass.trans hraise
  | ok r =>
    obtain ⟨o, hparse, hread⟩ := (evaluateReply_ok_iff text).mp ⟨r, hr⟩
    obtain ⟨data, rfl, hsaved⟩ := exists_of_not_reads h hparse hread
    obtain ⟨v, rfl, hbad⟩ := exists_of_not_savedVerdict hparse hsaved hr
    have heval : evaluate lower (env 1).evaluateWithLlm comparison d = .ok v := by
      simp [evaluate, d, env, Services.reading, hr, bind, Except.bind, pure, Except.pure]
    have hlogged : Logged (.judged 1 d (.ok v)) (loop lower env true comparison).state := by
      apply loop_logged
      rw [hpass]
      have hmem : Event.judged 1 d (.ok v) ∈ s₂.log ++ [.judged 1 d (.ok v)] := by simp
      simp only [s₂, judgeStage, heval]
      split_ifs
      · exact hmem
      · exact hmem
    obtain ⟨t, ht, hbad⟩ : ∃ t, t ∈ v.feedback :: v.issues ∧ Str.encodable t = false := by
      by_contra! hall
      have hgood : ∀ t ∈ v.feedback :: v.issues, Str.encodable t = true :=
        fun t ht => Bool.eq_true_of_not_eq_false (hall t ht)
      exact hbad ⟨fun i hi => hgood i (List.mem_cons_of_mem _ hi), hgood _ List.mem_cons_self⟩
    refine run_of_text (e := .judged 1 d (.ok v)) (v := .str t)
      (by rw [rewrite_comparison]; exact hlogged) ?_ (by rw [encodable_str, hbad])
    rw [Event.texts, ← List.map_cons]
    exact List.mem_cons_of_mem _ (List.mem_map_of_mem ht)

variable {py plans judgements} in
/-- The reply to a planning prompt, where there is one, is among the texts that read. -/
theorem exists_planReply {llm : Generations} (hllm : RepliesIn plans judgements llm)
    (hplans : ∀ text ∈ plans, Reads py (fun v => ReadablePlan v ∧ SavedPlan v) text)
    (s : Services) (question feedback : Str) :
    ∃ r, (s.reading py lower llm).planReply question feedback = .ok r ∧
      ∀ v, r = some v → ReadablePlan v ∧ SavedPlan v := by
  cases ht : llm.plan question feedback with
  | none => exact ⟨none, by simp [Services.reading, planReplyOf, ht], by simp⟩
  | some text =>
    obtain ⟨r, hr, hv⟩ := hplans text (hllm.plan _ _ _ ht)
    exact ⟨r, by simpa [Services.reading, planReplyOf, ht] using hr, hv⟩

variable {py lower plans judgements} in
theorem exists_evaluateWithLlm {llm : Generations} (hllm : RepliesIn plans judgements llm)
    (hjudgements : ∀ text ∈ judgements,
      Reads py (fun v => ReadableVerdict py lower v ∧ SavedVerdict py lower v) text)
    (s : Services) (question : Str) (d : WorkerDraft) :
    ∃ r, (s.reading py lower llm).evaluateWithLlm question d = .ok r ∧
      ∀ v, r = some v → v.Writable := by
  change ∃ r, evaluateReply py lower (llm.judge question d) = .ok r ∧ _
  cases ht : llm.judge question d with
  | none => exact ⟨none, rfl, by simp⟩
  | some text =>
    obtain ⟨o, ho, hv⟩ := hjudgements text (hllm.judge _ _ _ ht)
    obtain ⟨r, hr⟩ := (evaluateReply_ok_iff text).mpr ⟨o, ho, fun v h => (hv v h).1⟩
    refine ⟨r, hr, ?_⟩
    rintro v rfl
    exact writable_of_savedVerdict (fun data hdata =>
      (hv data (Except.ok.inj (ho.symm.trans hdata))).2) hr

/-- Over any sets of texts that the language model may reply with, every run on a question that
can be encoded survives exactly when every planning text reads as a plan and every judging text
as a verdict, and what the trace keeps of them can be encoded. -/
theorem run_survives_replies_iff :
    (∀ (env : ℕ → Services) (llm : ℕ → Generations) (llmReady : Bool) (query : Str),
      (∀ k, Quiet (env k)) → (∀ k, Clean (env k)) → Str.encodable query = true →
      (∀ k, RepliesIn plans judgements (llm k)) →
      Survives lower (fun k => (env k).reading py lower (llm k)) (rewrite query)
        (run lower (fun k => (env k).reading py lower (llm k)) llmReady query)) ↔
    (∀ text ∈ plans, Reads py (fun v => ReadablePlan v ∧ SavedPlan v) text) ∧
      ∀ text ∈ judgements,
        Reads py (fun v => ReadableVerdict py lower v ∧ SavedVerdict py lower v) text := by
  constructor
  · intro h
    have hcomparison : ∀ llm, RepliesIn plans judgements llm → ∃ response,
        (run lower (fun _ => silent.reading py lower llm) true comparison).1 = .ok response :=
      fun llm hllm => (h (fun _ => silent) (fun _ => llm) true comparison (fun _ => silent_quiet)
        (fun _ => silent_clean) (by decide) fun _ => hllm).1
    constructor
    · intro text htext
      by_contra hbad
      obtain ⟨e, he⟩ := run_comparison_of_plan py lower hbad
      obtain ⟨response, hr⟩ := hcomparison ⟨fun _ _ => some text, fun _ _ => none⟩
        ⟨by rintro _ _ _ ⟨⟩; exact htext, by rintro _ _ _ ⟨⟩⟩
      cases he.symm.trans hr
    · intro text htext
      by_contra hbad
      obtain ⟨e, he⟩ := run_comparison_of_judge py lower hbad
      obtain ⟨response, hr⟩ := hcomparison ⟨fun _ _ => none, fun _ _ => some text⟩
        ⟨by rintro _ _ _ ⟨⟩, by rintro _ _ _ ⟨⟩; exact htext⟩
      cases he.symm.trans hr
  · rintro ⟨hplans, hjudgements⟩ env llm llmReady query hquiet hclean hquery hllm
    have hplan := fun k => exists_planReply lower (hllm k) hplans (env k) (rewrite query)
    have hjudge := fun k => exists_evaluateWithLlm (hllm k) hjudgements (env k) (rewrite query)
    apply run_survives lower _ query llmReady hquery
    · apply loop_judged
      · intro k feedback
        rw [runWorkerLlm_ok_iff _ _ _ _ (quietCalls_reading py lower (hquiet k).calls (llm k))]
        obtain ⟨r, hr, hv⟩ := hplan k (if 1 < k then feedback else [])
        exact ⟨r, hr, fun v h => (hv v h).1⟩
      · intro k intent q
        exact (hquiet k).handler intent q
      · intro k d
        obtain ⟨r, hr, -⟩ := hjudge k d
        exact ⟨r, hr⟩
    · apply loop_writing (fun k => clean_reading py lower (hclean k) (llm k))
      · intro k feedback plan h
        obtain ⟨r, hr, hv⟩ := hplan k feedback
        exact (hv plan (Except.ok.inj (hr.symm.trans h))).2
      · intro k d v h
        obtain ⟨r, hr, hv⟩ := hjudge k d
        exact hv v (Except.ok.inj (hr.symm.trans h))

end Replies

/-- A plan whose only call is a tool's name instead of an object. -/
def bareCall : Str := "\x7b\"tool_calls\": [\"search_papers\"]\x7d".toList

/-- Python's decoder, on that plan and on small integers. -/
def bareCallDecoder : Decoder where
  loads s :=
    if s = bareCall then
      .ok (.dict none [(.str "tool_calls".toList, .list [.str "search_papers".toList])])
    else .error (.exception "JSONDecodeError" "Expecting value: line 1 column 1 (char 0)")
  repr _ := "None".toList
  parseFloat _ := none
  floatOfInt n := some (.finite n)

/-- The loop over the calls asks the name for its fields, and the run raises. -/
theorem run_raises_on_bare_call :
    Quiet silent ∧ Clean silent ∧ RepliesIn {bareCall} ∅ ⟨fun _ _ => some bareCall, fun _ _ => none⟩ ∧
      (run (List.map Char.toLower) (fun _ => silent.reading bareCallDecoder (List.map Char.toLower)
        ⟨fun _ _ => some bareCall, fun _ _ => none⟩) true comparison).1 =
      .error (.exception "AttributeError" "'str' object has no attribute 'get'") := by
  refine ⟨silent_quiet, silent_clean, ⟨by rintro _ _ _ ⟨⟩; rfl, by rintro _ _ _ ⟨⟩⟩, ?_⟩
  rfl

end K8sLearn.Pilot
