import K8sLearn.Lib.Checked
import K8sLearn.Pilot.Handlers
import K8sLearn.Pilot.Retry

/-! # Citations are taken from the evidence

Every way to draft an answer builds its citations from papers that it returns as evidence,
so the judge finds no cited DOI that is not there.
-/

namespace K8sLearn.Pilot

open K8sLearn.Flow
open Papers (Paper Hit)

def Cites (citations : List Citation) (evidence : List Evidence) : Prop :=
  ∀ c ∈ citations, ∀ doi ∈ c.doi, ∃ e ∈ evidence, e.doi = some doi

theorem fabricated_eq_nil (lower : Str → Str) {d : WorkerDraft}
    (h : Cites d.citations d.evidence) : fabricated lower d = [] := by
  rw [fabricated, List.filter_eq_nil_iff]
  intro doi hdoi
  obtain ⟨c, hc, hdoi⟩ := List.mem_filterMap.mp hdoi
  obtain ⟨hdoi, hne⟩ := Option.filter_eq_some_iff.mp hdoi
  obtain ⟨e, he, hedoi⟩ := h c hc doi hdoi
  have hmem : normalizeDoi lower doi ∈ extractEvidenceDois lower d.evidence := by
    apply List.mem_map_of_mem
    rw [List.mem_filterMap]
    exact ⟨e, he, by rw [hedoi, Option.filter_some, if_pos hne]⟩
  simp [hmem]

section Citations

variable {citations citations' : List Citation} {evidence evidence' : List Evidence}

theorem cites_nil : Cites [] evidence := List.forall_mem_nil _

theorem cites_map (papers : List Paper) (text : Paper → Str) :
    Cites (papers.map fun p => citation p (text p)) (papers.map dump) := by
  intro c hc doi hdoi
  obtain ⟨p, hp, rfl⟩ := List.mem_map.mp hc
  exact ⟨dump p, List.mem_map_of_mem hp, hdoi⟩

theorem cites_citationFromEvidence (evidence : List Evidence) (n : ℕ) :
    Cites ((evidence.take n).map citationFromEvidence) evidence := by
  intro c hc doi hdoi
  obtain ⟨e, he, rfl⟩ := List.mem_map.mp hc
  exact ⟨e, List.mem_of_mem_take he, hdoi⟩

end Citations

section Handlers

variable {t : Tools} {query : Str} {r : HandlerResult}

theorem search_cites (h : Handler.search t query = .ok r) : Cites r.citations r.evidence := by
  obtain ⟨⟨payload, cacheHit⟩, -, h⟩ := Checked.bind_eq_ok.mp h
  cases payload with
  | nil =>
    obtain rfl := Except.ok.inj h
    exact cites_nil
  | cons best payload =>
    obtain rfl := Except.ok.inj h
    intro c hc doi hdoi
    obtain ⟨item, hitem, rfl⟩ := List.mem_map.mp hc
    exact ⟨dump item.paper, List.mem_map_of_mem hitem, hdoi⟩

theorem detail_cites (h : Handler.detail t query = .ok r) : Cites r.citations r.evidence := by
  obtain ⟨⟨paper, cacheHit⟩, -, h⟩ := Checked.bind_eq_ok.mp h
  cases paper with
  | none =>
    obtain rfl := Except.ok.inj h
    exact cites_nil
  | some paper =>
    obtain rfl := Except.ok.inj h
    exact cites_map [paper] fun _ => "结构化元数据".toList

theorem qa_cites (h : Handler.qa t query = .ok r) : Cites r.citations r.evidence := by
  obtain ⟨⟨payload, cacheHit⟩, -, h⟩ := Checked.bind_eq_ok.mp h
  cases payload with
  | nil =>
    obtain rfl := Except.ok.inj h
    exact cites_nil
  | cons hit payload =>
    obtain ⟨chunks, -, h⟩ := Checked.bind_eq_ok.mp h
    obtain rfl := Except.ok.inj h
    -- all of them cite the best paper, which comes first in the evidence
    intro c hc doi hdoi
    refine ⟨dump hit.paper, List.mem_cons_self, ?_⟩
    rcases List.mem_cons.mp hc with rfl | hc
    · exact hdoi
    · obtain ⟨text, -, rfl⟩ := List.mem_map.mp hc
      exact hdoi

theorem compare_cites (h : Handler.compare t query = .ok r) : Cites r.citations r.evidence := by
  unfold Handler.compare at h
  split at h
  · obtain ⟨⟨payload, cacheHit⟩, -, h⟩ := Checked.bind_eq_ok.mp h
    obtain ⟨⟨payload2, cacheHit2⟩, -, h⟩ := Checked.bind_eq_ok.mp h
    dsimp only at h
    split at h
    · obtain rfl := Except.ok.inj h
      exact cites_map _ _
    · obtain rfl := Except.ok.inj h
      exact cites_nil
  · obtain rfl := Except.ok.inj h
    exact cites_nil

theorem conceptQa_cites (h : Handler.conceptQa t query = .ok r) :
    Cites r.citations r.evidence := by
  obtain ⟨⟨payload, cacheHit⟩, -, h⟩ := Checked.bind_eq_ok.mp h
  obtain rfl := Except.ok.inj h
  exact cites_map _ _

theorem trend_cites (h : Handler.trend t query = .ok r) : Cites r.citations r.evidence := by
  obtain ⟨⟨payload, cacheHit⟩, -, h⟩ := Checked.bind_eq_ok.mp h
  dsimp only at h
  split_ifs at h
  · obtain rfl := Except.ok.inj h
    exact cites_nil
  · obtain rfl := Except.ok.inj h
    exact cites_map _ _

theorem ruleHandler_cites {intent : Intent} (h : ruleHandler t intent query = .ok r) :
    Cites r.citations r.evidence := by
  cases intent with
  | paperSearch => exact search_cites h
  | paperDetail => exact detail_cites h
  | evidenceQa => exact qa_cites h
  | conceptQa => exact conceptQa_cites h
  | compare => exact compare_cites h
  | trend => exact trend_cites h

theorem runRule_cites {lower : Str → Str} {feedback : Str} {iteration : ℕ} {d : WorkerDraft}
    (h : runRule lower (ruleHandler t) query feedback iteration = .ok d) :
    Cites d.citations d.evidence := by
  obtain ⟨r, hr, h⟩ := Checked.bind_eq_ok.mp h
  obtain rfl := Except.ok.inj h
  exact ruleHandler_cites hr

end Handlers

theorem runWorkerLlm_cites {s : Services} {query feedback : Str} {intent : Intent} {iteration : ℕ}
    {d : WorkerDraft} (h : runWorkerLlm s query intent feedback iteration = .ok (some d)) :
    Cites d.citations d.evidence := by
  obtain ⟨plan, -, h⟩ := Checked.bind_eq_ok.mp h
  cases plan with
  | none => cases h
  | some plan =>
    obtain ⟨toolCalls, -, h⟩ := Checked.bind_eq_ok.mp h
    obtain ⟨calls, -, h⟩ := Checked.bind_eq_ok.mp h
    cases calls with
    | nil => cases h
    | cons call calls =>
      obtain ⟨⟨evidence, cacheHit⟩, -, h⟩ := Checked.bind_eq_ok.mp h
      cases evidence with
      | nil =>
        obtain rfl := Option.some.inj (Except.ok.inj h)
        exact cites_nil
      | cons e evidence =>
        simp only [List.isEmpty_cons, Bool.false_eq_true, if_false] at h
        split at h
        · obtain rfl := Option.some.inj (Except.ok.inj h)
          exact cites_citationFromEvidence _ 5
        · cases h

section Run

variable {lower : Str → Str} {env : ℕ → Services} {tools : ℕ → Tools} {llmReady : Bool}
  {query : Str} {k : ℕ} {s : LoopState}

/-- The draft at hand and all drafts judged so far cite their evidence. -/
structure Grounded (s : LoopState) : Prop where
  draft : ∀ d, s.draft = some d → Cites d.citations d.evidence
  judged : ∀ k d r, .judged k d r ∈ s.log → Cites d.citations d.evidence

theorem llmStage_grounded (h : Grounded s) :
    (llmStage lower env llmReady query k s).Sat Grounded Grounded Grounded := by
  simp only [llmStage]
  split_ifs
  · cases hr : runWorkerLlm (env k) query (classify lower query) s.feedback k with
    | error e => exact ⟨h.draft, fun j d r hm => h.judged j d r (by simpa using hm)⟩
    | ok draft =>
      refine ⟨?_, fun j d r hm => h.judged j d r (by simpa using hm)⟩
      rintro d rfl
      exact runWorkerLlm_cites hr
  · exact h

theorem ruleStage_grounded (hk : (env k).handler = ruleHandler (tools k)) (h : Grounded s) :
    (ruleStage lower env query k s).Sat Grounded Grounded Grounded := by
  unfold ruleStage
  cases hs : s.draft with
  | some d => exact h
  | none =>
    rw [hk]
    cases hr : runRule lower (ruleHandler (tools k)) query s.feedback k with
    | error e => exact ⟨by simp, fun j d r hm => h.judged j d r (by simpa using hm)⟩
    | ok draft =>
      refine ⟨?_, fun j d r hm => h.judged j d r (by simpa using hm)⟩
      rintro d ⟨⟩
      exact runRule_cites hr

theorem judgeStage_grounded (h : Grounded s) :
    (judgeStage lower env query k s).Sat Grounded Grounded Grounded := by
  cases hs : s.draft with
  | none =>
    simp only [judgeStage, hs]
    exact h
  | some d =>
    have hd := h.draft d hs
    have hjudged : ∀ r : Except PyError JudgeVerdict,
        ∀ j d' r', .judged j d' r' ∈ s.log ++ [.judged k d r] → Cites d'.citations d'.evidence := by
      intro r j d' r' hm
      rcases List.mem_append.mp hm with hm | hm
      · exact h.judged j d' r' hm
      · obtain ⟨-, rfl, -⟩ : j = k ∧ d' = d ∧ r' = r := by simpa using hm
        exact hd
    cases hr : evaluate lower (env k).evaluateWithLlm query d with
    | error e =>
      simp only [judgeStage, hs, hr]
      exact ⟨by rintro d' ⟨⟩; exact hd, hjudged _⟩
    | ok v =>
      simp only [judgeStage, hs, hr]
      split_ifs
      · exact ⟨by rintro d' ⟨⟩; exact hd, hjudged _⟩
      · exact ⟨by rintro d' ⟨⟩; exact hd, hjudged _⟩

theorem pass_grounded (hk : (env k).handler = ruleHandler (tools k)) (h : Grounded s) :
    (pass lower env llmReady query k s).Sat Grounded Grounded Grounded := by
  have h' : Grounded { s with iteration := k } := ⟨h.draft, h.judged⟩
  have hllm : (llmStage lower env llmReady query k { s with iteration := k }).Sat Grounded
    Grounded Grounded := llmStage_grounded h'
  refine Sat.bind (hllm.bind fun s' hs' => ?_) fun s' hs' => judgeStage_grounded hs'
  exact ruleStage_grounded hk hs'

variable (lower llmReady query) in
theorem run_cites (hk : ∀ k, (env k).handler = ruleHandler (tools k)) {k : ℕ} {d : WorkerDraft}
    {r : Except PyError JudgeVerdict} (h : .judged k d r ∈ (run lower env llmReady query).2) :
    Cites d.citations d.evidence := by
  have hloop : (loop lower env llmReady (rewrite query)).Sat Grounded Grounded Grounded :=
    forEach_invariant (fun j _ s hs => pass_grounded (hk j) hs) ⟨by simp, by simp⟩
  rw [run_log] at h
  exact (sat_self_iff.mp hloop).judged k d r h

end Run

/-- The drafts of the rule worker and of the language-model worker cite nothing but their
evidence, in every run of the agent too, and the judge finds no fabricated citation in them. -/
theorem worker_cites_evidence (lower : Str → Str) :
    (∀ t query feedback iteration d,
      runRule lower (ruleHandler t) query feedback iteration = .ok d →
        Cites d.citations d.evidence ∧ fabricated lower d = []) ∧
      (∀ s query intent feedback iteration d,
        runWorkerLlm s query intent feedback iteration = .ok (some d) →
          Cites d.citations d.evidence ∧ fabricated lower d = []) ∧
      ∀ env (tools : ℕ → Tools) llmReady query, (∀ k, (env k).handler = ruleHandler (tools k)) →
        ∀ k d r, .judged k d r ∈ (run lower env llmReady query).2 →
          Cites d.citations d.evidence ∧ fabricated lower d = [] := by
  refine ⟨?_, ?_, ?_⟩
  · intro t query feedback iteration d h
    have hd := runRule_cites h
    exact ⟨hd, fabricated_eq_nil lower hd⟩
  · intro s query intent feedback iteration d h
    have hd := runWorkerLlm_cites h
    exact ⟨hd, fabricated_eq_nil lower hd⟩
  · intro env tools llmReady query hk k d r h
    have hd := run_cites lower llmReady query hk h
    exact ⟨hd, fabricated_eq_nil lower hd⟩

/-- A search that finds one paper, without a language model. -/
def onePaper : Tools where
  toTextTables := .ascii
  showFloat _ := "0.41".toList
  search _ _ _ := .ok ([{
    paper :=
      { source := "openalex".toList
        sourceId := "W1".toList
        doi := none
        title := "Attention Is All You Need".toList
        abstract := []
        year := some 2017
        journal := none
        authors := []
        institutions := []
        concepts := []
        citedByCount := 0
        isOa := false
        landingPageUrl := none
        pdfUrl := none }
    score := 41 / 100 }], false)
  getPaper _ := .ok none
  ensureFulltext _ := .ok ()
  retrieveChunks _ _ := .ok []
  generate _ := none

theorem worker_cites_evidence_pruning :
    ∃ d, runRule (List.map Char.toLower) (ruleHandler onePaper) "graph pruning".toList [] 1 =
      .ok d ∧ d.citations.length = 1 ∧ fabricated (List.map Char.toLower) d = [] := by
  obtain ⟨d, hd, hlen⟩ : ∃ d, runRule (List.map Char.toLower) (ruleHandler onePaper)
      "graph pruning".toList [] 1 = .ok d ∧ d.citations.length = 1 := ⟨_, rfl, rfl⟩
  exact ⟨d, hd, hlen, ((worker_cites_evidence (List.map Char.toLower)).1 _ _ _ _ d hd).2⟩

end K8sLearn.Pilot
