import K8sLearn.Pilot.Grounded
import K8sLearn.Pilot.Readable

/-! # What a run writes

The trace of a run holds the feedback and issues of the judge, the beginnings of the drafts
and what the planner replied. All of it can be encoded when the replies can be saved, as long
as the tools, the handlers and the generated answers give no other texts.
-/

namespace K8sLearn.Pilot

section Saving

/-- What the services give can be encoded. A tool call is saved with its arguments or its error
before it returns. -/
structure Clean (s : Services) : Prop where
  args : ∀ i tool args r, s.call i tool args = .ok r → PyValue.encodable args = true
  message : ∀ i tool args cls message, s.call i tool args = .error (.exception cls message) →
    Str.encodable message.toList = true
  handler : ∀ intent q r, s.handler intent q = .ok r →
    Str.encodable r.answer = true ∧ ∀ c ∈ r.citations, ∀ doi ∈ c.doi, Str.encodable doi = true
  generated : ∀ q evidence feedback answer, s.generateWithLlm q evidence feedback = some answer →
    Str.encodable answer = true

def JudgeVerdict.Writable (v : JudgeVerdict) : Prop :=
  (∀ i ∈ v.issues, Str.encodable i = true) ∧ Str.encodable v.feedback = true

/-- A draft that can be saved, with the DOIs that the rules may object to. -/
structure WorkerDraft.Writable (lower : Str → Str) (d : WorkerDraft) : Prop where
  answer : Str.encodable d.answer = true
  doi : ∀ doi ∈ fabricated lower d, Str.encodable doi = true

variable {s : Services} {query feedback : Str}

theorem encodable_str {t : Str} : PyValue.encodable (.str t : Json) = Str.encodable t := by
  rw [PyValue.encodable]

theorem encodable_callTexts (h : Clean s) (i : ℕ) (call : Json) :
    ∀ v ∈ callTexts s i call, PyValue.encodable v = true := by
  unfold callTexts
  split
  · rename_i tool args _ _
    cases hc : s.call i tool args with
    | ok r =>
      rintro v hv
      rw [List.mem_singleton.mp hv]
      exact h.args i tool args r hc
    | error e =>
      cases e with
      | exception cls message =>
        rintro v hv
        rw [List.mem_singleton.mp hv, encodable_str]
        exact h.message i tool args cls message hc
      | _ => exact List.forall_mem_nil _
  · exact List.forall_mem_nil _

theorem encodable_planTexts (h : Clean s) {plan : Json} (hplan : SavedPlan plan)
    (hcalls : plan.contains "tool_calls".toList = .ok true) :
    ∀ v ∈ planTexts s plan, PyValue.encodable v = true := by
  cases plan with
  | dict sub items =>
    have hsaved := hplan (Except.ok.inj hcalls)
    have hfield : ∀ key ∈ ["intent".toList, "reasoning".toList], ∀ default : Json,
        PyValue.encodable default = true →
          PyValue.encodable ((PyValue.lookup key items).getD default) = true := by
      intro key hkey default hdefault
      cases hw : PyValue.lookup key items with
      | none => exact hdefault
      | some w => exact hsaved key hkey w hw
    rw [planTexts, List.forall_mem_cons, List.forall_mem_cons]
    refine ⟨hfield _ (by simp) .none rfl, hfield _ (by simp) (.str []) rfl, ?_⟩
    split
    · intro v hv
      obtain ⟨c, -, hv⟩ := List.mem_flatMap.mp hv
      exact encodable_callTexts h c.2 c.1 v hv
    · exact List.forall_mem_nil _
  | _ => exact List.forall_mem_nil _

theorem of_planWithLlm {plan : Json} (h : planWithLlm s query feedback = .ok (some plan)) :
    s.planReply query feedback = .ok (some plan) ∧
      plan.contains "tool_calls".toList = .ok true := by
  obtain ⟨r, hr, h⟩ := Checked.bind_eq_ok.mp h
  cases r with
  | none => cases h
  | some v =>
    dsimp only at h
    split_ifs at h
    · obtain ⟨b, hb, h⟩ := Checked.bind_eq_ok.mp h
      cases b with
      | false => cases h
      | true =>
        obtain rfl := Option.some.inj (Except.ok.inj h)
        exact ⟨hr, hb⟩
    · cases h

theorem planWithLlm_dict {sub : Option String} {items : List (Json × Json)}
    (hr : s.planReply query feedback = .ok (some (.dict sub items)))
    (hcalls : (PyValue.lookup "tool_calls".toList items).isSome) :
    planWithLlm s query feedback = .ok (some (.dict sub items)) := by
  have htruthy : PyValue.truthy (.dict sub items : Json) = true := by
    cases items with
    | nil => cases hcalls
    | cons item items => rfl
  have hcontains : Json.contains "tool_calls".toList (.dict sub items) = .ok true :=
    congrArg Except.ok hcalls
  simp only [planWithLlm, hr, bind, Except.bind, htruthy, if_true, hcontains]
  rfl

/-- The language-model worker answers with a fixed or a generated text. -/
theorem runWorkerLlm_writable {lower : Str → Str} {intent : Intent} {k : ℕ} {d : WorkerDraft}
    (hs : Clean s) (h : runWorkerLlm s query intent feedback k = .ok (some d)) :
    d.Writable lower := by
  refine ⟨?_, by rw [fabricated_eq_nil lower (runWorkerLlm_cites h)]; exact List.forall_mem_nil _⟩
  obtain ⟨plan, -, h⟩ := Checked.bind_eq_ok.mp h
  cases plan with
  | none => cases h
  | some plan =>
    obtain ⟨toolCalls, -, h⟩ := Checked.bind_eq_ok.mp h
    obtain ⟨calls, -, h⟩ := Checked.bind_eq_ok.mp h
    cases calls with
    | nil => cases h
    | cons call calls =>
      obtain ⟨⟨evidence, cacheHit⟩, -, h⟩ := Checked.bind_eq_ok.mp h
      cases evidence with
      | nil =>
        have hfixed : Str.encodable
            "当前公开数据不足以确认这个问题。请提供论文 DOI、标题片段，或先搜索目标论文。".toList = true := by
          decide +kernel
        obtain rfl := Option.some.inj (Except.ok.inj h)
        exact hfixed
      | cons e evidence =>
        simp only [List.isEmpty_cons, Bool.false_eq_true, if_false] at h
        split at h
        · rename_i hgenerated
          obtain rfl := Option.some.inj (Except.ok.inj h)
          exact hs.generated _ _ _ _ hgenerated
        · cases h

theorem runRule_writable {lower : Str → Str} {k : ℕ} {d : WorkerDraft} (hs : Clean s)
    (h : runRule lower s.handler query feedback k = .ok d) : d.Writable lower := by
  obtain ⟨r, hr, h⟩ := Checked.bind_eq_ok.mp h
  obtain rfl := Except.ok.inj h
  obtain ⟨hanswer, hcitations⟩ := hs.handler _ _ r hr
  refine ⟨hanswer, fun doi hdoi => ?_⟩
  obtain ⟨c, hc, hdoi⟩ := List.mem_filterMap.mp (List.mem_filter.mp hdoi).1
  exact hcitations c hc doi (Option.filter_eq_some_iff.mp hdoi).1

theorem evaluateWithRules_writable {lower : Str → Str} {d : WorkerDraft} (h : d.Writable lower) :
    (evaluateWithRules lower query d).Writable := by
  have hissues : ∀ i ∈ ruleIssues lower query d, Str.encodable i = true := by
    intro i hi
    simp only [ruleIssues, List.mem_append] at hi
    rcases hi with (hi | hi) | hi
    · split_ifs at hi
      · rw [List.mem_singleton.mp hi, Str.encodable_append, Bool.and_eq_true]
        refine ⟨by decide, Str.encodable_join (by decide) fun doi hdoi => ?_⟩
        exact h.doi doi (List.mem_of_mem_take hdoi)
      · cases hi
    · split_ifs at hi
      · rw [List.mem_singleton.mp hi]
        decide
      · cases hi
    · split_ifs at hi
      · rw [List.mem_singleton.mp hi]
        decide
      · cases hi
  unfold evaluateWithRules
  dsimp only
  split_ifs
  · exact ⟨by decide, by decide⟩
  · refine ⟨hissues, ?_⟩
    dsimp only
    rw [Str.encodable_append, Bool.and_eq_true]
    exact ⟨by decide, Str.encodable_join (by decide) hissues⟩
  · exact ⟨List.forall_mem_nil _, rfl⟩

theorem strings_encodable {vs : List Json} {ss : List Str} (h : Json.strings vs = some ss) :
    (∀ s ∈ ss, Str.encodable s = true) ↔ ∀ v ∈ vs, PyValue.encodable v = true := by
  induction vs generalizing ss with
  | nil =>
    obtain rfl := Option.some.inj h
    exact iff_of_true (List.forall_mem_nil _) (List.forall_mem_nil _)
  | cons v vs ih =>
    cases v with
    | str t =>
      obtain ⟨ss, hss, rfl⟩ := Option.map_eq_some_iff.mp h
      rw [List.forall_mem_cons, List.forall_mem_cons, ih hss, encodable_str]
    | _ => cases h

variable {py : Decoder} {lower : Str → Str}

theorem judgeVerdict_writable_iff {sub : Option String} {items : List (Json × Json)}
    {v : JudgeVerdict} (h : judgeVerdict py lower (.dict sub items) = .ok (some v)) :
    v.Writable ↔ SavedFields py items := by
  obtain ⟨field, -, h⟩ := Checked.bind_eq_ok.mp h
  cases hverdict : verdictOf py lower field with
  | none =>
    rw [hverdict] at h
    cases h
  | some verdict =>
    rw [hverdict] at h
    simp only [Json.get, bind, Except.bind] at h
    cases hf : Json.toFloat py ((PyValue.lookup "confidence".toList items).getD
        (.float (.finite (1 / 2)))) with
    | error e =>
      rw [hf] at h
      cases h
    | ok x =>
      rw [hf] at h
      dsimp only at h
      cases hs : Json.strings
          (Json.listOrEmpty ((PyValue.lookup "issues".toList items).getD .none)) with
      | none =>
        rw [hs] at h
        cases h
      | some issues =>
        rw [hs] at h
        obtain rfl := Option.some.inj (Except.ok.inj h)
        have hissues := strings_encodable hs
        constructor
        · rintro ⟨hi, hfeedback⟩
          constructor
          · intro vs hvs
            rwa [hissues, hvs] at hi
          · intro w hw
            rwa [hw] at hfeedback
        · rintro ⟨hi, hfeedback⟩
          constructor
          · refine hissues.mpr ?_
            cases hvs : PyValue.lookup "issues".toList items with
            | none => exact List.forall_mem_nil _
            | some w =>
              cases w with
              | list vs => exact hi vs hvs
              | _ => exact List.forall_mem_nil _
          · cases hw : PyValue.lookup "feedback".toList items with
            | none => rfl
            | some w => exact hfeedback w hw

theorem of_evaluateReply {text : Str} {v : JudgeVerdict}
    (h : evaluateReply py lower (some text) = .ok (some v)) :
    ∃ data, parseJsonResponse py.loads text = .ok (some data) ∧
      judgeVerdict py lower data = .ok (some v) := by
  obtain ⟨r, hr, h⟩ := Checked.bind_eq_ok.mp h
  cases r with
  | none => cases h
  | some data =>
    dsimp only at h
    split_ifs at h
    · obtain ⟨b, -, h⟩ := Checked.bind_eq_ok.mp h
      cases b with
      | false => cases h
      | true => exact ⟨data, hr, h⟩
    · cases h

theorem writable_of_savedVerdict {text : Str} {v : JudgeVerdict}
    (hsaved : ∀ data, parseJsonResponse py.loads text = .ok (some data) →
      SavedVerdict py lower data)
    (h : evaluateReply py lower (some text) = .ok (some v)) : v.Writable := by
  obtain ⟨data, hparse, hv⟩ := of_evaluateReply h
  have hdata := hsaved data hparse
  cases data with
  | dict sub items =>
    refine (judgeVerdict_writable_iff hv).mpr ?_
    obtain ⟨field, hfield, hv⟩ := Checked.bind_eq_ok.mp hv
    rw [Json.getItem] at hfield
    cases hl : PyValue.lookup "verdict".toList items with
    | none =>
      rw [hl] at hfield
      cases hfield
    | some w =>
      rw [hl] at hfield
      obtain rfl := Except.ok.inj hfield
      refine hdata w hl fun hnone => ?_
      rw [hnone] at hv
      cases hv
  | _ => cases hv

theorem exists_of_not_savedVerdict {text : Str} {data : Json} {r : Option JudgeVerdict}
    (hparse : parseJsonResponse py.loads text = .ok (some data))
    (hsaved : ¬ SavedVerdict py lower data)
    (h : evaluateReply py lower (some text) = .ok r) : ∃ v, r = some v ∧ ¬ v.Writable := by
  cases data with
  | dict sub items =>
    simp only [SavedVerdict, not_forall, exists_prop] at hsaved
    obtain ⟨w, hw, hverdict, hbad⟩ := hsaved
    have hguard : evaluateReply py lower (some text) =
        guarded "verdict".toList (judgeVerdict py lower) (.dict sub items) := by
      simp only [evaluateReply, hparse, bind, Except.bind]
      rfl
    have htruthy : PyValue.truthy (.dict sub items : Json) = true := by
      cases items with
      | nil => cases hw
      | cons item items => rfl
    have hcontains : Json.contains "verdict".toList (.dict sub items) = .ok true :=
      congrArg Except.ok (by rw [hw]; rfl)
    rw [hguard, guarded_of_contains _ _ htruthy hcontains, if_pos rfl] at h
    cases r with
    | some v => exact ⟨v, rfl, fun hv => hbad ((judgeVerdict_writable_iff h).mp hv)⟩
    | none =>
      -- only a word other than the two verdicts gives none
      obtain ⟨verdict, hverdict⟩ := Option.ne_none_iff_exists'.mp hverdict
      simp only [judgeVerdict, Json.getItem, hw, bind, Except.bind, hverdict, Json.get] at h
      split at h
      · cases h
      · split at h
        · cases h
        · cases h
  | _ => exact absurd trivial hsaved

end Saving

end K8sLearn.Pilot
