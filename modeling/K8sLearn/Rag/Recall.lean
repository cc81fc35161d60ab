import Mathlib.Algebra.Order.Field.Rat
import K8sLearn.Rag.Agent

/-! # Recall of the agent and of its baseline

The second hop is merged at twice the number of places, so it loses no passage of the first
round. A reflective round is cut at `k` places by scores of different queries. What the first
round found stays covered through all rounds: it is still there, or all `k` places are taken
by passages that score no lower. So the agent recalls less than its baseline only when a
reflective round has cut off a gold passage in this way.
-/

namespace K8sLearn.Rag

section Rounds

variable (t : TextTables) (fl : ℚ → ℚ) (r : Retriever) (k recallK : ℕ) (question : Str)

/-- The passages of a run: distinct, and from the corpus. -/
structure Progress.Sound (p : Progress) : Prop where
  distinct : (p.docs.map RetrievedDoc.id).Nodup
  from_corpus : ∀ d ∈ p.docs, d.doc ∈ r.corpus

variable {r} in
theorem sound_merge {docs : List RetrievedDoc} (hdocs : ∀ d ∈ docs, d.doc ∈ r.corpus)
    (query : Str) (n rounds : ℕ) (queries : List Str) :
    Progress.Sound r ⟨merge docs (agentSearch r k recallK query) n, rounds, queries⟩ where
  distinct := TopK.nodup_topK _ _ _ _
  from_corpus d hd := by
    rcases List.mem_append.mp (TopK.mem_of_mem_topK hd) with h | h
    · exact hdocs d h
    · exact r.from_corpus _ _ d h

theorem sound_agentSearch (query : Str) (rounds : ℕ) (queries : List Str) :
    Progress.Sound r ⟨agentSearch r k recallK query, rounds, queries⟩ :=
  ⟨r.distinct _ _, r.from_corpus _ _⟩

theorem sound_decompose : (decompose t r k recallK question).Sound r := by
  have hfirst := sound_agentSearch r k recallK question
  unfold decompose
  dsimp only
  split_ifs
  · split
    · exact sound_merge _ _ (hfirst 1 []).from_corpus _ _ _ _
    · exact hfirst _ _
  · exact hfirst _ _

/-- The second hop loses no passage of the first round. -/
theorem exists_mem_decompose {d : RetrievedDoc} (hd : d ∈ agentSearch r k recallK question) :
    ∃ e ∈ (decompose t r k recallK question).docs, e.id = d.id ∧ d.score ≤ e.score := by
  unfold decompose
  dsimp only
  split_ifs
  · split
    · apply TopK.exists_mem_topK _ (List.mem_append_left _ hd)
      have h₁ : (agentSearch r k recallK question).length ≤ k := r.length_le _ _
      rename_i bridge _
      have h₂ := r.length_le (Str.strip (bridge ++ [' '] ++ extractTarget t question))
        { k, useBm25 := true, useDense := true, rerank := true, recallK }
      rw [List.length_append, two_mul]
      exact Nat.add_le_add h₁ h₂
    · exact ⟨d, hd, rfl, le_rfl⟩
  · exact ⟨d, hd, rfl, le_rfl⟩

theorem reflect_invariant {I : Progress → Prop}
    (hstep : ∀ p, I p → I (reflectOnce t r k recallK question p)) (n : ℕ) {p : Progress}
    (h : I p) : I (reflect t fl r k recallK question n p) := by
  induction n generalizing p with
  | zero => exact h
  | succ n ih =>
    rw [reflect]
    split_ifs
    · exact h
    · exact ih (hstep p h)

theorem sound_reflectOnce (p : Progress) (h : p.Sound r) :
    (reflectOnce t r k recallK question p).Sound r :=
  sound_merge k recallK h.from_corpus _ _ _ _

theorem sound_answer (n : ℕ) : (answer t fl r k recallK question n).Sound r :=
  reflect_invariant t fl r k recallK question (sound_reflectOnce t r k recallK question) n
    (sound_decompose t r k recallK question)

/-- A passage of the first round that the agent loses was cut off in a reflective round, and
all places are taken by passages that score no lower. -/
theorem answer_keeps {d : RetrievedDoc} (hd : d ∈ agentSearch r k recallK question) (n : ℕ) :
    (∃ e ∈ (answer t fl r k recallK question (n + 1)).docs, e.id = d.id ∧ d.score ≤ e.score) ∨
    (sufficient t fl question (decompose t r k recallK question).docs = false ∧
      (answer t fl r k recallK question (n + 1)).docs.length = k ∧
      ∀ e ∈ (answer t fl r k recallK question (n + 1)).docs, d.score ≤ e.score) := by
  have hfound := exists_mem_decompose t r k recallK question hd
  cases hs : sufficient t fl question (decompose t r k recallK question).docs with
  | true =>
    left
    rwa [answer, reflect, if_pos hs]
  | false =>
    -- the invariant carries soundness too, since a round only covers distinct passages
    have hcovered := reflect_invariant t fl r k recallK question
      (I := fun p => p.Sound r ∧
        TopK.Covered RetrievedDoc.id RetrievedDoc.score k d.score d.id p.docs)
      (fun p hp => ⟨sound_reflectOnce t r k recallK question p hp.1, hp.2.topK hp.1.distinct _⟩)
      (n + 1) ⟨sound_decompose t r k recallK question, Or.inl hfound⟩
    rcases hcovered.2 with h | ⟨hlen, hall⟩
    · exact Or.inl h
    · refine Or.inr ⟨rfl, le_antisymm ?_ hlen, hall⟩
      rw [answer, reflect, if_neg (by rw [hs]; decide)]
      exact reflect_invariant t fl r k recallK question (I := fun p => p.docs.length ≤ k)
        (fun _ _ => List.length_take_le _ _) n (List.length_take_le _ _)

end Rounds

section Recall

variable {r : Retriever}

theorem title_eq_of_id_eq {d e : RetrievedDoc} (hd : d.doc ∈ r.corpus) (he : e.doc ∈ r.corpus)
    (h : e.id = d.id) : e.title = d.title :=
  congrArg Document.title (List.inj_on_of_nodup_map r.unique_ids he hd h)

theorem contextRecall_le {titles titles' : List Str} {gold : Finset Str}
    (h : ∀ x ∈ titles, x ∈ gold → x ∈ titles') :
    contextRecall titles gold ≤ contextRecall titles' gold := by
  unfold contextRecall
  split_ifs
  · exact le_rfl
  · refine div_le_div_of_nonneg_right (Nat.cast_le.mpr (Finset.card_le_card ?_))
      (Nat.cast_nonneg _)
    intro x hx
    rw [Finset.mem_inter, List.mem_toFinset] at hx ⊢
    exact ⟨h x hx.1 hx.2, hx.2⟩

/-- With the default parameters, for every retriever, question and gold set: the second hop
loses no passage of the baseline; a passage that the agent loses was cut off in a reflective
round, in which case its ten passages all score no lower; and the recall is no lower than that
of the baseline unless a gold passage is lost in this way. -/
theorem runAgentic_recall (t : TextTables) (fl : ℚ → ℚ) (r : Retriever) (question : Str)
    (gold : Finset Str) :
    let baseline := runHybrid r question 10 20
    let decomposed := (decompose t r 10 20 question).docs
    let agentic := (runAgentic t fl r question 10 2).docs
    (∀ d ∈ baseline, ∃ e ∈ decomposed, e.id = d.id ∧ d.score ≤ e.score) ∧
    (∀ d ∈ baseline, (∃ e ∈ agentic, e.id = d.id ∧ d.score ≤ e.score) ∨
      (sufficient t fl question decomposed = false ∧ agentic.length = 10 ∧
        ∀ e ∈ agentic, d.score ≤ e.score)) ∧
    (contextRecall (baseline.map RetrievedDoc.title) gold ≤
        contextRecall (agentic.map RetrievedDoc.title) gold ∨
      (sufficient t fl question decomposed = false ∧ agentic.length = 10 ∧
        ∃ d ∈ baseline, d.title ∈ gold ∧ d.title ∉ agentic.map RetrievedDoc.title ∧
          ∀ e ∈ agentic, d.score ≤ e.score)) := by
  intro baseline decomposed agentic
  have hkeeps : ∀ d ∈ baseline, (∃ e ∈ agentic, e.id = d.id ∧ d.score ≤ e.score) ∨
      (sufficient t fl question decomposed = false ∧ agentic.length = 10 ∧
        ∀ e ∈ agentic, d.score ≤ e.score) :=
    fun d hd => answer_keeps t fl r 10 20 question hd 1
  refine ⟨fun d hd => exists_mem_decompose t r 10 20 question hd, hkeeps, ?_⟩
  by_cases hlost : ∃ d ∈ baseline, d.title ∈ gold ∧ d.title ∉ agentic.map RetrievedDoc.title
  · right
    obtain ⟨d, hd, hgold, hnot⟩ := hlost
    rcases hkeeps d hd with ⟨e, he, hid, -⟩ | ⟨hs, hlen, hall⟩
    · have hcorpus := (sound_answer t fl r 10 20 question 2).from_corpus e he
      have htitle := title_eq_of_id_eq (r.from_corpus _ _ d hd) hcorpus hid
      exact absurd (htitle ▸ List.mem_map_of_mem he) hnot
    · exact ⟨hs, hlen, d, hd, hgold, hnot, hall⟩
  · left
    apply contextRecall_le
    intro x hx hgold
    obtain ⟨d, hd, rfl⟩ := List.mem_map.mp hx
    by_contra hnot
    exact hlost ⟨d, hd, hgold, hnot⟩

/-- One passage for the question, and ten passages for every other query. -/
def shadowCorpus : List Document :=
  ⟨"g".toList, "Gold".toList, ["Paris lies far away.".toList]⟩ ::
    (List.range 10).map fun i =>
      ⟨Nat.toDigits 10 i, Nat.toDigits 10 i, ["Rome lies near.".toList]⟩

def shadowRetriever : Retriever where
  corpus := shadowCorpus
  search query args :=
    (if query = "are they the same?".toList then (shadowCorpus.take 1).map fun d => ⟨d, 0⟩
      else (shadowCorpus.drop 1).map fun d => ⟨d, 1⟩).take args.k
  unique_ids := by decide
  from_corpus query args d hd := by
    have hd' := List.mem_of_mem_take hd
    split_ifs at hd'
    · obtain ⟨doc, hdoc, rfl⟩ := List.mem_map.mp hd'
      exact List.mem_of_mem_take hdoc
    · obtain ⟨doc, hdoc, rfl⟩ := List.mem_map.mp hd'
      exact List.mem_of_mem_drop hdoc
  distinct query args := by
    refine List.Nodup.sublist ((List.take_sublist _ _).map _) ?_
    split_ifs <;> decide
  length_le query args := List.length_take_le _ _

/-- The first reflective round replaces the only gold passage. -/
theorem runAgentic_recall_lower :
    contextRecall (((runAgentic .ascii (fun x => x) shadowRetriever
        "are they the same?".toList 10 2).docs).map RetrievedDoc.title) {"Gold".toList} = 0 ∧
      contextRecall ((runHybrid shadowRetriever "are they the same?".toList 10 20).map
        RetrievedDoc.title) {"Gold".toList} = 1 := by
  decide +kernel

end Recall

end K8sLearn.Rag
