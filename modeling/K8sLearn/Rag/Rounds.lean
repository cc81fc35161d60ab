import K8sLearn.Rag.Recall

/-! # Rounds of retrieval

The agent merges what it retrieves round by round and forgets the scores of what a round cuts
off. As the number of places never grows, the rounds leave the passages of best score over
everything that was retrieved, as one cut of all of it would.
-/

namespace K8sLearn.Rag

def mergeRounds (docs : List RetrievedDoc) (rounds : List (ℕ × List RetrievedDoc)) :
    List RetrievedDoc :=
  rounds.foldl (fun docs round => merge docs round.2 round.1) docs

theorem mergeRounds_append (docs : List RetrievedDoc) (rounds : List (ℕ × List RetrievedDoc))
    (round : ℕ × List RetrievedDoc) :
    mergeRounds docs (rounds ++ [round]) = merge (mergeRounds docs rounds) round.2 round.1 := by
  rw [mergeRounds, List.foldl_append]
  rfl

section Merge

variable {docs : List RetrievedDoc} {rounds : List (ℕ × List RetrievedDoc)} {k : ℕ}

def retrieved (docs : List RetrievedDoc) (rounds : List (ℕ × List RetrievedDoc)) :
    List RetrievedDoc :=
  docs ++ rounds.flatMap Prod.snd

/-- What the rounds leave covers everything that was retrieved. The induction is on the rounds
from the last: the first merge covers the passages it meets, a later one keeps them covered. -/
theorem remains_mergeRounds (hk : (rounds.map Prod.fst).getLast? = some k)
    (hsizes : (rounds.map Prod.fst).Pairwise (· ≥ ·)) :
    TopK.Remains RetrievedDoc.id RetrievedDoc.score k (retrieved docs rounds)
      (mergeRounds docs rounds) := by
  induction rounds using List.reverseRecOn generalizing k with
  | nil => cases hk
  | append_singleton rounds round ih =>
    obtain ⟨size, found⟩ := round
    rw [List.map_append, List.map_singleton, List.getLast?_concat, Option.some.injEq] at hk
    subst hk
    rw [List.map_append, List.map_singleton, List.pairwise_append] at hsizes
    have hall : retrieved docs (rounds ++ [(size, found)]) = retrieved docs rounds ++ found := by
      simp [retrieved]
    rw [hall, mergeRounds_append]
    cases hlast : (rounds.map Prod.fst).getLast? with
    | none =>
      obtain rfl : rounds = [] := List.map_eq_nil_iff.mp (List.getLast?_eq_none_iff.mp hlast)
      rw [retrieved, List.flatMap_nil, List.append_nil]
      exact TopK.remains_topK (fun a ha => TopK.covered_topK _ ha) (List.Subset.refl _)
    | some last =>
      have hle : size ≤ last :=
        hsizes.2.2 last (List.mem_of_getLast? hlast) size (List.mem_singleton_self _)
      exact (ih hlast hsizes.1).topK hle found

/-- For rounds of no growing size, in which different passages have different best scores: what
remains are the passages of best score over everything that was retrieved, each once with that
score, in falling order. -/
theorem mergeRounds_isTop (docs : List RetrievedDoc) (rounds : List (ℕ × List RetrievedDoc))
    (k : ℕ) (hk : (rounds.map Prod.fst).getLast? = some k)
    (hsizes : (rounds.map Prod.fst).Pairwise (· ≥ ·))
    (hbest : TopK.DistinctBest RetrievedDoc.id RetrievedDoc.score (retrieved docs rounds)) :
    TopK.IsTop RetrievedDoc.id RetrievedDoc.score k (retrieved docs rounds)
      (mergeRounds docs rounds) :=
  (remains_mergeRounds hk hsizes).isTop hbest

def passage (id : String) (score : ℚ) : RetrievedDoc := ⟨⟨id.toList, id.toList, []⟩, score⟩

/-- A passage that the first merge cuts off comes back with a lower score. -/
def shadowRounds : List (ℕ × List RetrievedDoc) :=
  [(2, [passage "c" 5, passage "d" 4]), (1, [passage "a" 1, passage "d" 6])]

theorem mergeRounds_isTop_shadow :
    TopK.IsTop RetrievedDoc.id RetrievedDoc.score 1
      (retrieved [passage "a" 3, passage "b" 2] shadowRounds)
      (mergeRounds [passage "a" 3, passage "b" 2] shadowRounds) :=
  mergeRounds_isTop _ _ _ rfl (by decide) (by unfold TopK.DistinctBest TopK.IsBest; decide +kernel)

end Merge

section Answer

variable (t : TextTables) (fl : ℚ → ℚ) (r : Retriever) (k recallK : ℕ) (question : Str)

/-- The passages of a run are those its queries found, merged at no fewer than `k` places. -/
def Progress.IsMerge (p : Progress) : Prop :=
  ∃ hops : List (ℕ × Str), p.queryVariants = question :: hops.map Prod.snd ∧
    p.docs = mergeRounds (agentSearch r k recallK question)
      (hops.map fun hop => (hop.1, agentSearch r k recallK hop.2)) ∧
    (hops.map Prod.fst).Pairwise (· ≥ ·) ∧ ∀ size ∈ hops.map Prod.fst, k ≤ size

theorem isMerge_decompose : (decompose t r k recallK question).IsMerge r k recallK question := by
  unfold decompose
  dsimp only
  have hfirst : Progress.IsMerge r k recallK question
      ⟨agentSearch r k recallK question, 1, [question]⟩ :=
    ⟨[], rfl, rfl, List.Pairwise.nil, by simp⟩
  split_ifs
  · split
    · rename_i bridge _
      exact ⟨[(2 * k, Str.strip (bridge ++ [' '] ++ extractTarget t question))], rfl, rfl,
        List.pairwise_singleton _ _, by simp; omega⟩
    · exact hfirst
  · exact hfirst

theorem isMerge_reflectOnce {p : Progress} (h : p.IsMerge r k recallK question) :
    (reflectOnce t r k recallK question p).IsMerge r k recallK question := by
  obtain ⟨hops, hqueries, hdocs, hsizes, hk⟩ := h
  refine ⟨hops ++ [(k, rewrite t question p.docs)], ?_, ?_, ?_, ?_⟩
  · simp [reflectOnce, hqueries]
  · rw [List.map_append, List.map_singleton, mergeRounds_append, ← hdocs]
    rfl
  · rw [List.map_append, List.pairwise_append]
    refine ⟨hsizes, List.pairwise_singleton _ _, fun size hsize size' hsize' => ?_⟩
    rw [List.map_singleton, List.mem_singleton] at hsize'
    exact hsize' ▸ hk size hsize
  · intro size hsize
    rw [List.map_append, List.mem_append] at hsize
    rcases hsize with hsize | hsize
    · exact hk size hsize
    · rw [List.map_singleton, List.mem_singleton] at hsize
      exact hsize.ge

theorem isMerge_answer (n : ℕ) :
    (answer t fl r k recallK question n).IsMerge r k recallK question :=
  reflect_invariant t fl r k recallK question (I := Progress.IsMerge r k recallK question)
    (fun _ => isMerge_reflectOnce t r k recallK question) n
    (isMerge_decompose t r k recallK question)

end Answer

end K8sLearn.Rag
