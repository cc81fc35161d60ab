import K8sLearn.Lib.Overlap
import K8sLearn.Lib.Pattern
import K8sLearn.Lib.Spaces

/-! # Answer metrics

Answers are compared after normalization: lower case, no punctuation, no articles, single spaces.
The exact match compares the texts, and the F1 score the multisets of their words. A normalized
answer has no article left to remove, also where two words were an article apart.
-/

namespace K8sLearn.Rag

/-- Tables for which lowered characters and spaces stay as they are in every text, and no white
space is part of a word. -/
structure WordTables extends TextTables where
  lower_eq_self : ∀ s r : Str, (∀ c ∈ r, c ∈ lower s ∨ c = ' ') → lower r = r
  not_word_of_space : ∀ c, Str.isSpace c = true → toCharTables.isWord c = false

def punct : Str := "!\"#$%&'()*+,-./:;<=>?@[\\]^_`\x7b|\x7d~".toList

def isArticle (w : Str) : Bool :=
  w.map Char.toLower ∈ ["a".toList, "an".toList, "the".toList]

def subRun (run : Str) : Str := if isArticle run then [' '] else run

section Model

variable (t : WordTables)

def subArticlesFrom : Str → Str → Str
  | run, [] => subRun run
  | run, c :: s =>
    if t.isWord c then subArticlesFrom (run ++ [c]) s else subRun run ++ c :: subArticlesFrom [] s

/-- `_ARTICLES_RE.sub(" ", s)`. Between word boundaries an article is a whole run. -/
def subArticles (s : Str) : Str := subArticlesFrom t [] s

def normalizeAnswer (s : Str) : Str :=
  Str.squeeze (subArticles t ((t.lower s).filter fun c => c ∉ punct))

def exactMatch (pred gold : Str) : ℚ :=
  if normalizeAnswer t pred = normalizeAnswer t gold then 1 else 0

def tokens (s : Str) : List Str := Str.splitSpaces (normalizeAnswer t s)

def f1 (pred gold : Str) : ℚ :=
  let pTokens := tokens t pred
  let gTokens := tokens t gold
  if pTokens = [] ∨ gTokens = [] then if pTokens = gTokens then 1 else 0
  else
    let numSame := ((pTokens : Multiset Str) ∩ gTokens).card
    if numSame = 0 then 0
    else
      let precision : ℚ := numSame / pTokens.length
      let recallRate : ℚ := numSame / gTokens.length
      2 * precision * recallRate / (precision + recallRate)

end Model

section Articles

variable {t : WordTables} {run s x : Str} {c : Char}

variable (t) in
def Clean : Str → Str → Prop
  | run, [] => isArticle run = false
  | run, c :: s =>
    if t.isWord c = true then Clean (run ++ [c]) s else isArticle run = false ∧ Clean [] s

theorem clean_cons_word (hc : t.isWord c = true) :
    Clean t run (c :: s) ↔ Clean t (run ++ [c]) s := by
  rw [Clean, if_pos hc]

theorem clean_cons_gap (hc : t.isWord c = false) :
    Clean t run (c :: s) ↔ isArticle run = false ∧ Clean t [] s := by
  rw [Clean, if_neg (by simp [hc])]

theorem clean_append_word (hx : ∀ c ∈ x, t.isWord c = true) :
    Clean t run (x ++ s) ↔ Clean t (run ++ x) s := by
  induction x generalizing run with
  | nil => rw [List.nil_append, List.append_nil]
  | cons c x ih =>
    rw [List.cons_append, clean_cons_word (hx c List.mem_cons_self),
      ih fun d hd => hx d (List.mem_cons_of_mem _ hd), List.append_assoc, List.singleton_append]

theorem subArticlesFrom_of_clean (h : Clean t run s) : subArticlesFrom t run s = run ++ s := by
  induction s generalizing run with
  | nil =>
    rw [subArticlesFrom, subRun, h, List.append_nil]
    rfl
  | cons c s ih =>
    rw [subArticlesFrom]
    cases hc : t.isWord c with
    | true =>
      rw [if_pos rfl, ih ((clean_cons_word hc).mp h), List.append_assoc, List.singleton_append]
    | false =>
      obtain ⟨hrun, hs⟩ := (clean_cons_gap hc).mp h
      rw [if_neg Bool.false_ne_true, ih hs, subRun, hrun]
      rfl

theorem clean_subRun (hspace : t.isWord ' ' = false) (hrun : ∀ c ∈ run, t.isWord c = true)
    (hs : Clean t [] s ∧ ∀ c ∈ s.head?, t.isWord c = false) : Clean t [] (subRun run ++ s) := by
  have hnil : isArticle [] = false := by decide
  rw [subRun]
  cases hart : isArticle run with
  | true => exact (clean_cons_gap hspace).mpr ⟨hnil, hs.1⟩
  | false =>
    rw [if_neg Bool.false_ne_true, clean_append_word hrun, List.nil_append]
    cases s with
    | nil => exact hart
    | cons c s =>
      have hc := hs.2 c rfl
      exact (clean_cons_gap hc).mpr ⟨hart, ((clean_cons_gap hc).mp hs.1).2⟩

theorem clean_subArticlesFrom (hspace : t.isWord ' ' = false)
    (hrun : ∀ c ∈ run, t.isWord c = true) (s : Str) : Clean t [] (subArticlesFrom t run s) := by
  have hnil : isArticle [] = false := by decide
  induction s generalizing run with
  | nil =>
    have h := clean_subRun (s := []) hspace hrun ⟨hnil, by simp⟩
    rwa [List.append_nil] at h
  | cons c s ih =>
    rw [subArticlesFrom]
    cases hc : t.isWord c with
    | true =>
      rw [if_pos rfl]
      refine ih fun d hd => ?_
      rcases List.mem_append.mp hd with hd | hd
      · exact hrun d hd
      · rwa [List.mem_singleton.mp hd]
    | false =>
      rw [if_neg Bool.false_ne_true]
      refine clean_subRun hspace hrun ⟨(clean_cons_gap hc).mpr ⟨hnil, ih (by simp)⟩, ?_⟩
      rintro d ⟨⟩
      exact hc

theorem Clean.squeeze (h : Clean t run s)
    (hhead : run = [] ∨ ∀ c ∈ s.head?, Str.isSpace c = false) : Clean t run (Str.squeeze s) := by
  have hgap : ∀ {c}, Str.isSpace c = true → t.isWord c = false := t.not_word_of_space _
  induction s using Str.spaces_induction generalizing run with
  | nil => simpa using h
  | space c s hc ih =>
    obtain rfl : run = [] := hhead.resolve_right fun h => by simp [hc] at h
    rw [Str.squeeze_cons_space hc]
    exact ih ((clean_cons_gap (hgap hc)).mp h).2 (Or.inl rfl)
  | single c hc => rwa [Str.squeeze_singleton hc]
  | word c d s hc hd ih =>
    rw [Str.squeeze_cons_cons hc hd]
    have hdhead : ∀ e ∈ (d :: s).head?, Str.isSpace e = false := by simpa using hd
    cases hw : t.isWord c with
    | true => exact (clean_cons_word hw).mpr (ih ((clean_cons_word hw).mp h) (Or.inr hdhead))
    | false =>
      obtain ⟨hrun, hs⟩ := (clean_cons_gap hw).mp h
      exact (clean_cons_gap hw).mpr ⟨hrun, ih hs (Or.inl rfl)⟩
  | gap c d s hc hd ih =>
    rw [Str.squeeze_cons_cons_space hc hd]
    -- what follows the first character ends a run, before as after
    have hrest : ∀ {run}, Clean t run (d :: s) →
        Clean t run (if Str.squeeze s = [] then [] else ' ' :: Str.squeeze s) := by
      intro run h
      obtain ⟨hrun, hs⟩ := (clean_cons_gap (hgap hd)).mp h
      split_ifs
      · exact hrun
      · exact (clean_cons_gap (hgap (by decide))).mpr ⟨hrun, ih hs (Or.inl rfl)⟩
    cases hw : t.isWord c with
    | true => exact (clean_cons_word hw).mpr (hrest ((clean_cons_word hw).mp h))
    | false =>
      obtain ⟨hrun, hs⟩ := (clean_cons_gap hw).mp h
      exact (clean_cons_gap hw).mpr ⟨hrun, hrest hs⟩

theorem mem_subRun (h : c ∈ subRun run) : c ∈ run ∨ c = ' ' := by
  rw [subRun] at h
  split_ifs at h
  · exact Or.inr (List.mem_singleton.mp h)
  · exact Or.inl h

theorem mem_subArticlesFrom (h : c ∈ subArticlesFrom t run s) : c ∈ run ∨ c ∈ s ∨ c = ' ' := by
  induction s generalizing run with
  | nil => exact (mem_subRun h).imp_right Or.inr
  | cons d s ih =>
    rw [subArticlesFrom] at h
    split_ifs at h
    · have := ih h
      simp only [List.mem_append, List.mem_cons] at this ⊢
      tauto
    · rcases List.mem_append.mp h with h | h
      · exact (mem_subRun h).imp_right Or.inr
      · rcases List.mem_cons.mp h with rfl | h
        · exact Or.inr (Or.inl List.mem_cons_self)
        · have := ih h
          simp only [List.not_mem_nil, List.mem_cons, false_or] at this ⊢
          tauto

theorem mem_squeeze (h : c ∈ Str.squeeze s) : c ∈ s ∨ c = ' ' := by
  rcases Str.mem_join h with h | ⟨r, hr, hc⟩
  · exact Or.inr (List.mem_singleton.mp h)
  · exact Or.inl (Str.mem_of_mem_splitSpaces hr hc).1

end Articles

section Laws

variable (t : WordTables)

theorem not_word_space : t.isWord ' ' = false := t.not_word_of_space ' ' (by decide)

theorem mem_normalizeAnswer {t : WordTables} {s : Str} {c : Char} (h : c ∈ normalizeAnswer t s) :
    (c ∈ t.lower s ∧ c ∉ punct) ∨ c = ' ' := by
  rcases mem_squeeze h with h | h
  · rcases mem_subArticlesFrom h with h | h | h
    · cases h
    · exact Or.inl (by simpa using List.mem_filter.mp h)
    · exact Or.inr h
  · exact Or.inr h

theorem clean_normalizeAnswer (s : Str) : Clean t [] (normalizeAnswer t s) :=
  (clean_subArticlesFrom (not_word_space t) (by simp) _).squeeze (Or.inl rfl)

theorem normalizeAnswer_idem (s : Str) :
    normalizeAnswer t (normalizeAnswer t s) = normalizeAnswer t s := by
  have hlower : t.lower (normalizeAnswer t s) = normalizeAnswer t s :=
    t.lower_eq_self s _ fun c hc => (mem_normalizeAnswer hc).imp_left And.left
  have hpunct : (normalizeAnswer t s).filter (fun c => c ∉ punct) = normalizeAnswer t s := by
    refine List.filter_eq_self.mpr fun c hc => ?_
    rcases mem_normalizeAnswer hc with ⟨-, hc⟩ | rfl
    · exact decide_eq_true hc
    · decide
  have harticles : subArticles t (normalizeAnswer t s) = normalizeAnswer t s :=
    subArticlesFrom_of_clean (clean_normalizeAnswer t s)
  conv_lhs => rw [normalizeAnswer, hlower, hpunct, harticles]
  exact Str.squeeze_squeeze _

variable (pred gold : Str)

theorem f1_eq_overlap : f1 t pred gold =
    if tokens t pred = [] ∧ tokens t gold = [] then 1
    else overlap (tokens t pred : Multiset Str) (tokens t gold) := by
  unfold f1
  generalize tokens t pred = ps
  generalize tokens t gold = gs
  dsimp only
  by_cases hp : ps = []
  · subst hp
    by_cases hg : gs = []
    · simp [hg]
    · simp [hg, Ne.symm hg, overlap]
  · by_cases hg : gs = []
    · simp [hg, hp, overlap]
    · have hboth : ¬ (ps = [] ∧ gs = []) := fun h => hp h.1
      rw [if_neg (not_or.mpr ⟨hp, hg⟩), if_neg hboth]
      split_ifs with hm
      · rw [overlap, hm]
        simp
      · exact overlap_eq_harmonic hm

theorem f1_comm : f1 t pred gold = f1 t gold pred := by
  rw [f1_eq_overlap, f1_eq_overlap, overlap_comm]
  exact if_congr and_comm rfl rfl

theorem f1_mem_unit : 0 ≤ f1 t pred gold ∧ f1 t pred gold ≤ 1 := by
  rw [f1_eq_overlap]
  split_ifs
  · exact ⟨zero_le_one, le_rfl⟩
  · exact ⟨overlap_nonneg _ _, overlap_le_one _ _⟩

theorem f1_eq_one_iff :
    f1 t pred gold = 1 ↔ (tokens t pred : Multiset Str) = tokens t gold := by
  rw [f1_eq_overlap]
  split_ifs with h
  · rw [h.1, h.2]
    exact iff_of_true rfl rfl
  · by_cases hp : tokens t pred = []
    · have hg : (tokens t gold : Multiset Str) ≠ 0 := by
        rw [Ne, Multiset.coe_eq_zero]
        exact fun hg => h ⟨hp, hg⟩
      rw [overlap_comm, overlap_eq_one_iff hg, eq_comm]
    · exact overlap_eq_one_iff (by rwa [Ne, Multiset.coe_eq_zero])

theorem f1_of_exactMatch (h : exactMatch t pred gold = 1) : f1 t pred gold = 1 := by
  have heq : normalizeAnswer t pred = normalizeAnswer t gold := by
    by_contra hne
    rw [exactMatch, if_neg hne] at h
    exact zero_ne_one h
  rw [f1_eq_one_iff, tokens, tokens, heq]

/-- The laws of the answer metrics. -/
theorem metrics_laws :
    f1 t pred gold = f1 t gold pred ∧
    (0 ≤ f1 t pred gold ∧ f1 t pred gold ≤ 1) ∧
    (f1 t pred gold = 1 ↔ (tokens t pred : Multiset Str) = tokens t gold) ∧
    (exactMatch t pred gold = 1 → f1 t pred gold = 1) ∧
    normalizeAnswer t (normalizeAnswer t pred) = normalizeAnswer t pred ∧
    f1 t (normalizeAnswer t pred) gold = f1 t pred gold ∧
    exactMatch t (normalizeAnswer t pred) gold = exactMatch t pred gold := by
  have hidem := normalizeAnswer_idem t pred
  have htokens : tokens t (normalizeAnswer t pred) = tokens t pred := by
    rw [tokens, hidem, tokens]
  refine ⟨f1_comm t pred gold, f1_mem_unit t pred gold, f1_eq_one_iff t pred gold,
    f1_of_exactMatch t pred gold, hidem, ?_, ?_⟩
  · rw [f1, f1, htokens]
  · rw [exactMatch, exactMatch, hidem]

end Laws

theorem ascii_lower_eq_self (s r : Str) (hr : ∀ c ∈ r, c ∈ TextTables.ascii.lower s ∨ c = ' ') :
    TextTables.ascii.lower r = r := by
  refine (List.map_congr_left fun c hc => ?_).trans (List.map_id r)
  rcases hr c hc with h | rfl
  · obtain ⟨d, -, rfl⟩ := List.mem_map.mp h
    exact Str.toLower_toLower d
  · rfl

theorem ascii_not_word_of_space (c : Char) (hc : Str.isSpace c = true) :
    CharTables.ascii.isWord c = false := by
  simp only [Str.isSpace, Bool.or_eq_true, decide_eq_true_eq, Bool.and_eq_true] at hc
  rcases hc with hc | hc
  · revert c
    decide
  · have hlow : 0x2000 ≤ c.toNat := hc.1
    rw [CharTables.isWord, if_neg (by omega)]
    rfl

def WordTables.ascii : WordTables where
  toTextTables := .ascii
  lower_eq_self := ascii_lower_eq_self
  not_word_of_space := ascii_not_word_of_space

theorem metrics_laws_obama :
    0 ≤ f1 .ascii "The Obama-era, an  answer".toList "Barack Obama".toList ∧
      normalizeAnswer .ascii (normalizeAnswer .ascii "The Obama!".toList) =
        normalizeAnswer .ascii "The Obama!".toList :=
  ⟨(metrics_laws .ascii _ _).2.1.1, (metrics_laws .ascii _ "Barack Obama".toList).2.2.2.2.1⟩

example : f1 .ascii "Barack  Obama.".toList "the Obama".toList = 2 / 3 := by decide +kernel

end K8sLearn.Rag
