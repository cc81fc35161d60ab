import K8sLearn.Lib.Spaces
import K8sLearn.Pilot.Grounded

/-! # Refusals of the worker

A handler that finds no paper writes its own refusal, and the judge knows refusals by a list of
markers. Every refusal over an empty result carries one of them, so the judge passes it. An
answer about a concept is no refusal: without papers the worker answers from the language model
or from general knowledge, and the judge objects to the missing evidence.
-/

namespace K8sLearn.Pilot

open Papers (Paper Hit)

/-- The objection to an answer without evidence that is no refusal. -/
def missingEvidence : Str := "没有检索到证据，但答案未明确拒答".toList

/-- The draft that `run_rule` makes of the result of a handler. -/
def HandlerResult.draft (r : HandlerResult) (intent : Intent) : WorkerDraft :=
  ⟨r.answer, intent, r.confidence, r.citations, r.cacheHit, r.evidence⟩

/-- The judge does not object to missing evidence where a handler returns none. -/
def HeardAsRefusals (lower : Str → Str) (t : Tools) : Prop :=
  ∀ question query intent r, ruleHandler t intent query = .ok r → r.citations = [] →
    r.evidence = [] →
    missingEvidence ∉ (evaluateWithRules lower question (r.draft intent)).issues

section Judge

variable {lower : Str → Str} {question : Str} {d : WorkerDraft}

theorem ruleIssues_of_no_evidence (hc : d.citations = []) (he : d.evidence = []) :
    ruleIssues lower question d =
      if Str.containsAny refusalMarkers d.answer then [] else [missingEvidence] := by
  have hbad : fabricated lower d = [] := by
    apply fabricated_eq_nil
    rw [hc]
    exact cites_nil
  rw [ruleIssues, hbad, hc, he]
  cases Str.containsAny refusalMarkers d.answer with
  | true => simp
  | false =>
    simp
    rfl

def Refuses (answer : Str) : Prop :=
  Str.containsAny refusalMarkers answer = true ∧ 10 ≤ (Str.strip answer).length

instance (answer : Str) : Decidable (Refuses answer) := inferInstanceAs (Decidable (_ ∧ _))

theorem evaluate_of_refuses (h : Refuses d.answer) (hc : d.citations = []) (he : d.evidence = []) :
    evaluateWithRules lower question d = ⟨.pass, [], [], .finite (8 / 10)⟩ := by
  rw [evaluateWithRules, if_neg h.2.not_gt, ruleIssues_of_no_evidence hc he, if_pos h.1]
  rfl

theorem missingEvidence_mem_iff (hc : d.citations = []) (he : d.evidence = []) :
    missingEvidence ∈ (evaluateWithRules lower question d).issues ↔
      10 ≤ (Str.strip d.answer).length ∧ Str.containsAny refusalMarkers d.answer = false := by
  rw [evaluateWithRules, ruleIssues_of_no_evidence hc he]
  by_cases hlen : (Str.strip d.answer).length < 10
  · rw [if_pos hlen]
    refine iff_of_false ?_ fun h => h.1.not_gt hlen
    decide +kernel
  · rw [if_neg hlen]
    cases hmarked : Str.containsAny refusalMarkers d.answer with
    | true => simp
    | false => simpa using hlen

end Judge

section Handlers

variable {t : Tools} {query : Str} {r : HandlerResult}

theorem search_refuses (h : Handler.search t query = .ok r) (hc : r.citations = []) :
    Refuses r.answer := by
  obtain ⟨⟨payload, cacheHit⟩, -, h⟩ := Checked.bind_eq_ok.mp h
  cases payload with
  | nil =>
    obtain rfl := Except.ok.inj h
    dsimp only
    repeat rw [String.toList_ofList]
    decide +kernel
  | cons best payload =>
    obtain rfl := Except.ok.inj h
    cases hc

theorem detail_refuses (h : Handler.detail t query = .ok r) (hc : r.citations = []) :
    Refuses r.answer := by
  obtain ⟨⟨paper, cacheHit⟩, -, h⟩ := Checked.bind_eq_ok.mp h
  cases paper with
  | none =>
    obtain rfl := Except.ok.inj h
    dsimp only
    repeat rw [String.toList_ofList]
    decide +kernel
  | some paper =>
    obtain rfl := Except.ok.inj h
    cases hc

theorem qa_refuses (h : Handler.qa t query = .ok r) (hc : r.citations = []) :
    Refuses r.answer := by
  obtain ⟨⟨payload, cacheHit⟩, -, h⟩ := Checked.bind_eq_ok.mp h
  cases payload with
  | nil =>
    obtain rfl := Except.ok.inj h
    dsimp only
    repeat rw [String.toList_ofList]
    decide +kernel
  | cons hit payload =>
    obtain ⟨chunks, -, h⟩ := Checked.bind_eq_ok.mp h
    obtain rfl := Except.ok.inj h
    cases hc

theorem compare_refuses (h : Handler.compare t query = .ok r) (hc : r.citations = [])
    (hparts : 2 ≤ (comparedParts query).length) : Refuses r.answer := by
  unfold Handler.compare at h
  split at h
  · obtain ⟨⟨payload, cacheHit⟩, -, h⟩ := Checked.bind_eq_ok.mp h
    obtain ⟨⟨payload2, cacheHit2⟩, -, h⟩ := Checked.bind_eq_ok.mp h
    dsimp only at h
    split at h
    · rename_i hfound
      obtain rfl := Except.ok.inj h
      dsimp only at hc
      rw [hfound] at hc
      cases hc
    · obtain rfl := Except.ok.inj h
      dsimp only
      repeat rw [String.toList_ofList]
      decide +kernel
  · rename_i hshort
    -- the request for two titles, which carries no marker
    rcases hp : comparedParts query with _ | ⟨part₁, _ | ⟨part₂, parts⟩⟩
    · rw [hp] at hparts
      exact absurd hparts (by decide)
    · rw [hp] at hparts
      exact absurd hparts (by simp)
    · exact absurd hp (hshort part₁ part₂ parts)

theorem trend_refuses (h : Handler.trend t query = .ok r) (hc : r.citations = []) :
    Refuses r.answer := by
  obtain ⟨⟨payload, cacheHit⟩, -, h⟩ := Checked.bind_eq_ok.mp h
  dsimp only at h
  split_ifs at h with hyears
  · obtain rfl := Except.ok.inj h
    dsimp only
    repeat rw [String.toList_ofList]
    decide +kernel
  · obtain rfl := Except.ok.inj h
    cases payload with
    | nil => exact absurd rfl hyears
    | cons item payload => cases hc

/-- Without papers the worker says of a concept what the language model or it itself knows. -/
theorem conceptQa_answer (h : Handler.conceptQa t query = .ok r) (hc : r.citations = []) :
    r.answer = orText (t.generate (.concept query (extractConcept t.lower query).1 []))
      (conceptFallback (extractConcept t.lower query).1) := by
  obtain ⟨⟨payload, cacheHit⟩, -, h⟩ := Checked.bind_eq_ok.mp h
  obtain rfl := Except.ok.inj h
  cases payload with
  | nil => rfl
  | cons item payload => cases hc

def markerChars : Str := ['找', '认', '暂', '公']

theorem unmarked_of_chars {answer : Str} (h : answer.all fun c => !markerChars.contains c) :
    Str.containsAny refusalMarkers answer = false := by
  rw [Str.containsAny, List.any_eq_false]
  intro marker hmarker hinfix
  have hchars : (refusalMarkers.all fun m => m.any markerChars.contains) = true := by
    unfold refusalMarkers
    repeat rw [String.toList_ofList]
    rfl
  obtain ⟨c, hcm, hc⟩ := List.any_eq_true.mp (List.all_eq_true.mp hchars marker hmarker)
  have hanswer : c ∈ answer := (of_decide_eq_true hinfix).subset hcm
  have hnot := List.all_eq_true.mp h c hanswer
  rw [hc] at hnot
  cases hnot

theorem conceptFallback_unmarked {concept : Str}
    (h : concept.all fun c => !markerChars.contains c) :
    Str.containsAny refusalMarkers (conceptFallback concept) = false := by
  apply unmarked_of_chars
  unfold conceptFallback
  split_ifs
  all_goals
    simp only [List.all_append, h, Bool.and_true]
    -- the kernel reads the characters of a literal faster where they are written out
    repeat rw [String.toList_ofList]
    decide +kernel

theorem le_length_strip_append {s : Str} {n : ℕ} (h : n ≤ s.countP fun c => !Str.isSpace c)
    (rest : Str) : n ≤ (Str.strip (s ++ rest)).length := by
  refine le_trans ?_ (Str.countP_le_length_strip _)
  rw [List.countP_append]
  exact h.trans (Nat.le_add_right _ _)

theorem conceptFallback_long (concept : Str) :
    10 ≤ (Str.strip (conceptFallback concept)).length := by
  unfold conceptFallback
  split_ifs
  all_goals simp only [List.append_assoc]
  case neg =>
    -- the concept itself counts for nothing here
    refine le_trans ?_ (Str.countP_le_length_strip _)
    simp only [List.countP_append]
    have hclose : 10 ≤ " 是当前系统识别到的技术主题。由于未接入足够专门证据，".toList.countP
        fun c => !Str.isSpace c := by
      rw [String.toList_ofList]
      decide +kernel
    omega
  all_goals
    apply le_length_strip_append
    rw [String.toList_ofList]
    decide +kernel

theorem extractConcept_chars (lower : Str → Str) (query : Str) :
    (extractConcept lower query).1.all fun c => !markerChars.contains c := by
  unfold extractConcept
  dsimp only
  split_ifs <;> dsimp only <;> decide +kernel

theorem orText_eq (s : Option Str) (default : Str) :
    orText s default = default ∧ (∀ text, s = some text → text = []) ∨
      ∃ text, s = some text ∧ text ≠ [] ∧ orText s default = text := by
  rcases s with _ | _ | ⟨c, text⟩
  · exact Or.inl ⟨rfl, by simp⟩
  · exact Or.inl ⟨rfl, fun _ h => (Option.some.inj h).symm⟩
  · exact Or.inr ⟨c :: text, rfl, List.cons_ne_nil c text, rfl⟩

/-- The judge misses the evidence of an answer about a concept, unless the language model itself
refuses or says too little. -/
theorem conceptQa_missingEvidence_iff {lower : Str → Str} {question : Str}
    (h : Handler.conceptQa t query = .ok r) (hc : r.citations = []) (he : r.evidence = []) :
    missingEvidence ∈ (evaluateWithRules lower question (r.draft .conceptQa)).issues ↔
      ∀ reply, t.generate (.concept query (extractConcept t.lower query).1 []) = some reply →
        reply ≠ [] → 10 ≤ (Str.strip reply).length ∧
          Str.containsAny refusalMarkers reply = false := by
  refine Iff.trans (missingEvidence_mem_iff hc he) ?_
  change 10 ≤ (Str.strip r.answer).length ∧ Str.containsAny refusalMarkers r.answer = false ↔ _
  rw [conceptQa_answer h hc]
  rcases orText_eq (t.generate (.concept query (extractConcept t.lower query).1 []))
      (conceptFallback (extractConcept t.lower query).1) with
    ⟨hfallback, hnone⟩ | ⟨text, hsome, hne, heq⟩
  · rw [hfallback]
    refine iff_of_true ⟨conceptFallback_long _, ?_⟩ fun reply hreply hne => ?_
    · exact conceptFallback_unmarked (extractConcept_chars t.lower query)
    · exact absurd (hnone reply hreply) hne
  · rw [heq]
    constructor
    · intro hjudged reply hreply _
      obtain rfl : text = reply := Option.some.inj (hsome.symm.trans hreply)
      exact hjudged
    · intro hall
      exact hall text hsome hne

/-- The request for two titles carries no marker: the judge objects to it as to a made-up answer. -/
theorem compare_clarification_objected {lower : Str → Str} {question : Str}
    (hparts : (comparedParts query).length < 2) (h : Handler.compare t query = .ok r) :
    missingEvidence ∈ (evaluateWithRules lower question (r.draft .compare)).issues := by
  unfold Handler.compare at h
  split at h
  · rename_i hp
    rw [hp] at hparts
    exact absurd hparts (by simp)
  · obtain rfl := Except.ok.inj h
    refine (missingEvidence_mem_iff rfl rfl).mpr ?_
    dsimp only [HandlerResult.draft]
    repeat rw [String.toList_ofList]
    decide +kernel

theorem runRule_eq_draft {lower : Str → Str} {feedback : Str} {iteration : ℕ} {d : WorkerDraft}
    (h : runRule lower (ruleHandler t) query feedback iteration = .ok d) :
    ∃ r, ruleHandler t (classify lower query) (searchQuery query feedback iteration) = .ok r ∧
      d = r.draft (classify lower query) := by
  obtain ⟨r, hr, h⟩ := Checked.bind_eq_ok.mp h
  exact ⟨r, hr, (Except.ok.inj h).symm⟩

/-- Where a handler returns neither citations nor evidence: a refusal of the handlers that look for
papers carries a marker, and the judge passes it; an answer about a concept is no refusal, and the
judge objects unless the language model itself refuses or says too little. -/
theorem ruleHandler_refuses (lower : Str → Str) (t : Tools) (question query : Str) (intent : Intent)
    (r : HandlerResult) (h : ruleHandler t intent query = .ok r) (hc : r.citations = [])
    (he : r.evidence = []) (hparts : intent = .compare → 2 ≤ (comparedParts query).length) :
    (intent ≠ .conceptQa → Str.containsAny refusalMarkers r.answer = true ∧
      evaluateWithRules lower question (r.draft intent) = ⟨.pass, [], [], .finite (8 / 10)⟩) ∧
    (intent = .conceptQa →
      (missingEvidence ∈ (evaluateWithRules lower question (r.draft intent)).issues ↔
        ∀ reply, t.generate (.concept query (extractConcept t.lower query).1 []) = some reply →
          reply ≠ [] → 10 ≤ (Str.strip reply).length ∧
            Str.containsAny refusalMarkers reply = false)) := by
  constructor
  · intro hintent
    have hrefuses : Refuses r.answer := by
      cases intent with
      | paperSearch => exact search_refuses h hc
      | paperDetail => exact detail_refuses h hc
      | evidenceQa => exact qa_refuses h hc
      | conceptQa => exact absurd rfl hintent
      | compare => exact compare_refuses h hc (hparts rfl)
      | trend => exact trend_refuses h hc
    exact ⟨hrefuses.1, evaluate_of_refuses hrefuses hc he⟩
  · rintro rfl
    exact conceptQa_missingEvidence_iff h hc he

/-- Searches that find nothing, without a language model. -/
def noPapers : Tools where
  toTextTables := .ascii
  showFloat _ := []
  search _ _ _ := .ok ([], false)
  getPaper _ := .ok none
  ensureFulltext _ := .ok ()
  retrieveChunks _ _ := .ok []
  generate _ := none

theorem ruleHandler_refuses_empty :
    (∃ r, ruleHandler noPapers .trend "趋势".toList = .ok r ∧
      evaluateWithRules (List.map Char.toLower) "近五年趋势".toList (r.draft .trend) =
        ⟨.pass, [], [], .finite (8 / 10)⟩) ∧
    ∃ r, ruleHandler noPapers .conceptQa "详细介绍 RAG".toList = .ok r ∧
      missingEvidence ∈ (evaluateWithRules (List.map Char.toLower) "详细介绍 RAG".toList
        (r.draft .conceptQa)).issues := by
  constructor
  · refine ⟨_, rfl, ?_⟩
    exact ((ruleHandler_refuses (List.map Char.toLower) noPapers "近五年趋势".toList "趋势".toList
      .trend _ rfl rfl rfl (fun h => nomatch h)).1 (by decide)).2
  · refine ⟨_, rfl, ?_⟩
    refine ((ruleHandler_refuses (List.map Char.toLower) noPapers "详细介绍 RAG".toList
      "详细介绍 RAG".toList .conceptQa _ rfl rfl rfl (fun h => nomatch h)).2 rfl).mpr ?_
    rintro reply ⟨⟩

/-- The answer about a concept that no paper was found for. -/
theorem not_heardAsRefusals : ¬ HeardAsRefusals (List.map Char.toLower) noPapers := by
  intro hheard
  obtain ⟨r, hr, hc, he⟩ : ∃ r, Handler.conceptQa noPapers "详细介绍 RAG".toList = .ok r ∧
      r.citations = [] ∧ r.evidence = [] := ⟨_, rfl, rfl, rfl⟩
  have hobjects : missingEvidence ∈ (evaluateWithRules (List.map Char.toLower)
      "详细介绍 RAG".toList (r.draft .conceptQa)).issues := by
    rw [conceptQa_missingEvidence_iff hr hc he]
    rintro reply ⟨⟩
  exact hheard "详细介绍 RAG".toList "详细介绍 RAG".toList .conceptQa r hr hc he hobjects

end Handlers

end K8sLearn.Pilot
