import K8sLearn.Blog.Catalog

/-! # Features and their own paragraphs

A feature takes the paragraphs of every section whose heading contains its name or is contained in
it. Its own section is always among them, so its texts, its KEPs and its category are its own
exactly where no other section with paragraphs is.
-/

namespace K8sLearn.Blog

open Papers (dropWord)

section Places

structure Place where
  before : List Section
  own : Section
  after : List Section

def placesFrom (before : List Section) : List Section → List Place
  | [] => []
  | s :: after => ⟨before, s, after⟩ :: placesFrom (before ++ [s]) after

variable {before after sections : List Section} {p : Place}

theorem mem_placesFrom :
    p ∈ placesFrom before sections ↔
      ∃ between, p.before = before ++ between ∧ sections = between ++ p.own :: p.after := by
  induction sections generalizing before with
  | nil => simp [placesFrom]
  | cons s sections ih =>
    rw [placesFrom, List.mem_cons, ih]
    constructor
    · rintro (rfl | ⟨between, hbefore, rfl⟩)
      · exact ⟨[], by simp, rfl⟩
      · exact ⟨s :: between, by simp [hbefore], rfl⟩
    · rintro ⟨between, hbefore, hsections⟩
      cases between with
      | nil =>
        obtain ⟨rfl, rfl⟩ := List.cons_eq_cons.mp hsections
        obtain ⟨b, own, after⟩ := p
        obtain rfl : b = before := by simpa using hbefore
        exact Or.inl rfl
      | cons s' between =>
        obtain ⟨rfl, rfl⟩ := List.cons_eq_cons.mp hsections
        exact Or.inr ⟨between, by simp [hbefore], rfl⟩

theorem mem_places : p ∈ placesFrom [] sections ↔ sections = p.before ++ p.own :: p.after := by
  rw [mem_placesFrom]
  constructor
  · rintro ⟨between, hbefore, rfl⟩
    rw [hbefore, List.nil_append]
  · intro h
    exact ⟨p.before, rfl, h⟩

end Places

section Listed

variable (t : BlogTables)

def sectionAfter (sec : Str) (before : List Section) : Str :=
  before.foldl (fun sec s => if s.level = .h2 then sectionOf s.heading else sec) sec

def Section.key (s : Section) : Str := casefold t (stripStage s.heading)

/-- Whether a heading is one of a feature, seen before or not. -/
def IsCandidate (sec : Str) (s : Section) : Prop :=
  s.level = .h3 ∧ s.heading ∉ riskSections ∧ sec ∈ featureSections

instance (sec : Str) (s : Section) : Decidable (IsCandidate sec s) :=
  inferInstanceAs (Decidable (_ ∧ _ ∧ _))

def candidateKeys (sec : Str) : List Section → List Str
  | [] => []
  | s :: rest =>
    (if IsCandidate sec s then [s.key t] else []) ++ candidateKeys (sectionAfter sec [s]) rest

def IsListed (before : List Section) (s : Section) : Prop :=
  IsCandidate (sectionAfter [] before) s ∧ s.key t ∉ candidateKeys t [] before

instance (before : List Section) (s : Section) : Decidable (IsListed t before s) :=
  inferInstanceAs (Decidable (_ ∧ _))

def listedFrom (before sections : List Section) : List Place :=
  (placesFrom before sections).filter fun p => IsListed t p.before p.own

theorem listedFrom_cons (before sections : List Section) (s : Section) :
    listedFrom t before (s :: sections) =
      (if IsListed t before s then [⟨before, s, sections⟩] else []) ++
        listedFrom t (before ++ [s]) sections := by
  rw [listedFrom, placesFrom, List.filter_cons]
  by_cases h : IsListed t before s
  · simp [h, listedFrom]
  · simp [h, listedFrom]

def listed (page : Page) : List Place := listedFrom t [] page.sections

variable {t} {a b : List Section} {sec : Str} {s : Section}

theorem sectionAfter_append (sec : Str) (a b : List Section) :
    sectionAfter sec (a ++ b) = sectionAfter (sectionAfter sec a) b := List.foldl_append

theorem candidateKeys_append (sec : Str) (a b : List Section) :
    candidateKeys t sec (a ++ b) =
      candidateKeys t sec a ++ candidateKeys t (sectionAfter sec a) b := by
  induction a generalizing sec with
  | nil => rfl
  | cons s a ih =>
    rw [List.cons_append, candidateKeys, ih, candidateKeys, List.append_assoc,
      ← sectionAfter_append, List.singleton_append]

theorem sectionAfter_concat (sec : Str) (a : List Section) (s : Section) :
    sectionAfter sec (a ++ [s]) =
      if s.level = .h2 then sectionOf s.heading else sectionAfter sec a := by
  rw [sectionAfter_append]
  rfl

theorem sectionAfter_concat_h3 (sec : Str) (a : List Section) (hlevel : s.level = .h3) :
    sectionAfter sec (a ++ [s]) = sectionAfter sec a := by
  rw [sectionAfter_concat, hlevel, if_neg (by decide)]

theorem candidateKeys_concat (sec : Str) (a : List Section) (s : Section) :
    candidateKeys t sec (a ++ [s]) = candidateKeys t sec a ++
      if IsCandidate (sectionAfter sec a) s then [s.key t] else [] := by
  rw [candidateKeys_append]
  exact congrArg _ (List.append_nil _)

end Listed

section Matched

variable (t : BlogTables) (version url : Str)

def matchedTexts (name : Str) (paragraphs : List (Str × Str)) : List Str :=
  (paragraphs.filter fun para => underHeading t name para.1).map Prod.snd

variable {t} {name : Str} {paragraphs : List (Str × Str)} {s : Section}

theorem featureText_eq : featureText t paragraphs name =
    (matchedTexts t name paragraphs).foldl (fun blogText text => blogText ++ ' ' :: text) [] := by
  rw [featureText, matchedTexts, List.foldl_map, List.foldl_filter]

theorem extractKepList_eq : extractKepList t paragraphs name =
    (matchedTexts t name paragraphs).foldl (addKeps t) [] := by
  rw [extractKepList, matchedTexts, List.foldl_map, List.foldl_filter]

theorem feature_congr {paragraphs' : List (Str × Str)} {sec heading : Str}
    (h : matchedTexts t (stripStage heading) paragraphs =
      matchedTexts t (stripStage heading) paragraphs') :
    feature t version url paragraphs sec heading =
      feature t version url paragraphs' sec heading := by
  have htext : featureText t paragraphs (stripStage heading) =
      featureText t paragraphs' (stripStage heading) := by rw [featureText_eq, featureText_eq, h]
  have hkeps : extractKepList t paragraphs (stripStage heading) =
      extractKepList t paragraphs' (stripStage heading) := by
    rw [extractKepList_eq, extractKepList_eq, h]
  unfold feature
  dsimp only
  rw [htext, hkeps]

theorem matchedTexts_append (name : Str) (l m : List (Str × Str)) :
    matchedTexts t name (l ++ m) = matchedTexts t name l ++ matchedTexts t name m := by
  rw [matchedTexts, List.filter_append, List.map_append]
  rfl

variable (t name) in
def textSize (paragraphs : List (Str × Str)) : ℕ :=
  ((matchedTexts t name paragraphs).map fun text => text.length + 1).sum

theorem textSize_append (l m : List (Str × Str)) :
    textSize t name (l ++ m) = textSize t name l + textSize t name m := by
  rw [textSize, matchedTexts_append, List.map_append, List.sum_append]
  rfl

theorem textSize_eq_zero_iff : textSize t name paragraphs = 0 ↔
    matchedTexts t name paragraphs = [] := by
  unfold textSize
  cases matchedTexts t name paragraphs with
  | nil => simp
  | cons text texts => simp

theorem length_featureText :
    (featureText t paragraphs name).length = textSize t name paragraphs := by
  have hfold : ∀ (texts : List Str) (blogText : Str),
      (texts.foldl (fun blogText text => blogText ++ ' ' :: text) blogText).length =
        blogText.length + (texts.map fun text => text.length + 1).sum := by
    intro texts
    induction texts with
    | nil => exact fun _ => rfl
    | cons text texts ih =>
      intro blogText
      rw [List.foldl_cons, ih, List.map_cons, List.sum_cons, List.length_append, List.length_cons,
        Nat.add_assoc]
  rw [featureText_eq, hfold, textSize]
  exact Nat.zero_add _

theorem matchedTexts_section (name : Str) (s : Section) :
    matchedTexts t name s.paragraphs = if underHeading t name s.heading then s.texts else [] := by
  rw [matchedTexts, Section.paragraphs, List.filter_map, List.map_map]
  split_ifs with h
  · simp [Function.comp_def, h]
  · simp [Function.comp_def, h]

theorem matchedTexts_flatMap_eq_nil_iff {sections : List Section} :
    matchedTexts t name (sections.flatMap Section.paragraphs) = [] ↔
      ∀ s ∈ sections, s.texts ≠ [] → underHeading t name s.heading = false := by
  induction sections with
  | nil => simp [matchedTexts]
  | cons s sections ih =>
    rw [List.flatMap_cons, matchedTexts_append, List.append_eq_nil_iff, ih, matchedTexts_section,
      List.forall_mem_cons]
    refine and_congr_left fun _ => ?_
    cases underHeading t name s.heading <;> simp

end Matched

section Own

variable {t : BlogTables}

theorem dropWord_suffix {w s r : Str} (h : dropWord w s = some r) : r <:+ s := by
  induction w generalizing s with
  | nil =>
    obtain rfl : s = r := Option.some.inj h
    exact List.suffix_rfl
  | cons l w ih =>
    cases s with
    | nil => cases h
    | cons c s =>
      rw [dropWord] at h
      split_ifs at h
      exact (ih h).trans (List.suffix_cons c s)

theorem stripStage_suffix (heading : Str) : stripStage heading <:+ heading := by
  unfold stripStage
  split
  · rename_i rest hfound
    obtain ⟨w, -, hrest⟩ := List.exists_of_findSome?_eq_some hfound
    exact (List.dropWhile_suffix _).trans (dropWord_suffix hrest)
  · exact List.suffix_rfl

theorem underHeading_own (heading : Str) : underHeading t (stripStage heading) heading = true := by
  obtain ⟨stage, hstage⟩ := stripStage_suffix heading
  have hinfix : casefold t (stripStage heading) <:+: casefold t heading := by
    refine ⟨casefold t stage, [], ?_⟩
    conv_rhs => rw [← hstage]
    simp [casefold]
  simp [underHeading, hinfix]

end Own

section Loop

variable {t : BlogTables} (version url : Str) (paragraphs : List (Str × Str))

structure SameFeatures (st st' : CatalogState) : Prop where
  features : st'.features = st.features
  sec : st'.sec = st.sec
  seen : ∀ k, (EntryKind.feature, k) ∈ st'.seen ↔ (EntryKind.feature, k) ∈ st.seen

theorem SameFeatures.refl (st : CatalogState) : SameFeatures st st := ⟨rfl, rfl, fun _ => Iff.rfl⟩

theorem SameFeatures.trans {st st' st'' : CatalogState} (h : SameFeatures st st')
    (h' : SameFeatures st' st'') : SameFeatures st st'' where
  features := h'.features.trans h.features
  sec := h'.sec.trans h.sec
  seen k := (h'.seen k).trans (h.seen k)

theorem sameFeatures_addRisk (st : CatalogState) (heading : Str) :
    SameFeatures st (addRisk t version url paragraphs st heading) := by
  unfold addRisk
  dsimp only
  split_ifs
  · exact SameFeatures.refl st
  · exact ⟨rfl, rfl, by simp⟩

theorem sameFeatures_headingStep {st : CatalogState} {entry : Level × Str} (hlevel : entry.1 ≠ .h2)
    (h : ¬ (entry.1 = .h3 ∧ normalizeHeading entry.2 ∉ riskSections ∧ st.sec ∈ featureSections)) :
    SameFeatures st (headingStep t version url paragraphs st entry) := by
  unfold headingStep
  dsimp only
  rw [if_neg hlevel]
  split_ifs with hsub hfeature
  · exact ⟨rfl, rfl, fun _ => Iff.rfl⟩
  · exact absurd ⟨hfeature.2, fun hrisk => hsub ⟨hfeature.2, hrisk⟩, hfeature.1⟩ h
  · exact sameFeatures_addRisk version url paragraphs st _
  · exact SameFeatures.refl st

theorem sameFeatures_subheadings (subheadings : List Str) (st : CatalogState) :
    SameFeatures st (catalogLoop t version url paragraphs
      (subheadings.map fun heading => (Level.h4, heading)) st) := by
  induction subheadings generalizing st with
  | nil => exact SameFeatures.refl st
  | cons heading subheadings ih =>
    refine SameFeatures.trans (sameFeatures_headingStep version url paragraphs ?_ ?_) (ih _)
    · exact fun h => nomatch h
    · exact fun h => nomatch h.1

structure Agrees (t : BlogTables) (st : CatalogState) (before : List Section) : Prop where
  sec : st.sec = sectionAfter [] before
  seen : ∀ k, (EntryKind.feature, k) ∈ st.seen ↔ k ∈ candidateKeys t [] before

theorem Agrees.congr {st st' : CatalogState} {before : List Section} (h : Agrees t st before)
    (hsame : SameFeatures st st') : Agrees t st' before :=
  ⟨hsame.sec.trans h.sec, fun k => (hsame.seen k).trans (h.seen k)⟩

theorem headingStep_h2 (st : CatalogState) {s : Section} (hlevel : s.level = .h2) :
    headingStep t version url paragraphs st (s.level, s.heading) =
      { st with sec := sectionOf s.heading, riskSubsection := false } := by
  unfold headingStep
  dsimp only
  rw [s.normal, if_pos hlevel]

theorem headingStep_candidate {st : CatalogState} {s : Section} (hs : IsCandidate st.sec s) :
    headingStep t version url paragraphs st (s.level, s.heading) =
      addFeature t version url paragraphs st s.heading := by
  obtain ⟨hlevel, hrisk, hfeature⟩ := hs
  unfold headingStep
  dsimp only
  rw [s.normal, hlevel, if_neg (by decide), if_neg fun hsub => hrisk hsub.2,
    if_pos ⟨hfeature, rfl⟩]

variable {version url paragraphs} {st : CatalogState} {before : List Section} {s : Section}

theorem Agrees.h2 (h : Agrees t st before) (hlevel : s.level = .h2) :
    Agrees t { st with sec := sectionOf s.heading, riskSubsection := false } (before ++ [s]) := by
  have hcandidate : ¬ IsCandidate (sectionAfter [] before) s := by
    rintro ⟨hh3, -⟩
    rw [hlevel] at hh3
    cases hh3
  constructor
  · rw [sectionAfter_concat, if_pos hlevel]
  · intro k
    rw [candidateKeys_concat, if_neg hcandidate, List.append_nil]
    exact h.seen k

theorem Agrees.candidate (h : Agrees t st before) (hs : IsCandidate (sectionAfter [] before) s) :
    (addFeature t version url paragraphs st s.heading).features = st.features ++
        (if IsListed t before s then
          [feature t version url paragraphs (sectionAfter [] before) s.heading] else []) ∧
      Agrees t (addFeature t version url paragraphs st s.heading) (before ++ [s]) := by
  have hsec : sectionAfter [] (before ++ [s]) = st.sec := by
    rw [sectionAfter_concat_h3 [] before hs.1, h.sec]
  have hkeys : candidateKeys t [] (before ++ [s]) = candidateKeys t [] before ++ [s.key t] := by
    rw [candidateKeys_concat, if_pos hs]
  have hseen : (EntryKind.feature, casefold t (stripStage s.heading)) ∈ st.seen ↔
      s.key t ∈ candidateKeys t [] before := h.seen _
  rw [addFeature]
  by_cases hkey : s.key t ∈ candidateKeys t [] before
  · rw [if_pos (hseen.mpr hkey), if_neg fun hl => hl.2 hkey, List.append_nil]
    refine ⟨rfl, hsec.symm, fun k => ?_⟩
    rw [h.seen, hkeys, List.mem_append, List.mem_singleton]
    constructor
    · exact Or.inl
    · rintro (hk | rfl)
      · exact hk
      · exact hkey
  · rw [if_neg (mt hseen.mp hkey), if_pos ⟨hs, hkey⟩, h.sec]
    refine ⟨rfl, h.sec.symm.trans hsec.symm, fun k => ?_⟩
    rw [hkeys, List.mem_append, List.mem_singleton, ← h.seen, List.mem_cons, Prod.mk.injEq]
    constructor
    · rintro (⟨-, rfl⟩ | hk)
      · exact Or.inr rfl
      · exact Or.inl hk
    · rintro (hk | rfl)
      · exact Or.inr hk
      · exact Or.inl ⟨rfl, rfl⟩

theorem Agrees.other (h : Agrees t st before) (hlevel : s.level ≠ .h2)
    (hs : ¬ IsCandidate (sectionAfter [] before) s) : Agrees t st (before ++ [s]) := by
  constructor
  · rw [sectionAfter_concat, if_neg hlevel, h.sec]
  · intro k
    rw [candidateKeys_concat, if_neg hs, List.append_nil, h.seen]

variable (version url paragraphs) in
theorem Agrees.heading (h : Agrees t st before) (s : Section) :
    (headingStep t version url paragraphs st (s.level, s.heading)).features = st.features ++
        (if IsListed t before s then
          [feature t version url paragraphs (sectionAfter [] before) s.heading] else []) ∧
      Agrees t (headingStep t version url paragraphs st (s.level, s.heading)) (before ++ [s]) := by
  by_cases hs : IsCandidate (sectionAfter [] before) s
  · rw [headingStep_candidate version url paragraphs (h.sec.symm ▸ hs)]
    exact h.candidate hs
  · rw [if_neg fun hl => hs hl.1, List.append_nil]
    by_cases hlevel : s.level = .h2
    · rw [headingStep_h2 version url paragraphs st hlevel]
      exact ⟨rfl, h.h2 hlevel⟩
    · have hsame :
          SameFeatures st (headingStep t version url paragraphs st (s.level, s.heading)) := by
        refine sameFeatures_headingStep version url paragraphs hlevel fun hc => hs ?_
        rw [s.normal, h.sec] at hc
        exact hc
      exact ⟨hsame.features, (h.other hlevel hs).congr hsame⟩

variable (version url paragraphs) in
theorem Agrees.section (h : Agrees t st before) (s : Section) :
    (catalogLoop t version url paragraphs s.headings st).features = st.features ++
        (if IsListed t before s then
          [feature t version url paragraphs (sectionAfter [] before) s.heading] else []) ∧
      Agrees t (catalogLoop t version url paragraphs s.headings st) (before ++ [s]) := by
  obtain ⟨hfeatures, hagrees⟩ := h.heading version url paragraphs s
  have hsame := sameFeatures_subheadings (t := t) version url paragraphs s.subheadings
    (headingStep t version url paragraphs st (s.level, s.heading))
  exact ⟨hsame.features.trans hfeatures, hagrees.congr hsame⟩

variable (version url paragraphs) in
theorem Agrees.features (h : Agrees t st before) (sections : List Section) :
    (catalogLoop t version url paragraphs (sections.flatMap Section.headings) st).features =
      st.features ++ (listedFrom t before sections).map fun p =>
        feature t version url paragraphs (sectionAfter [] p.before) p.own.heading := by
  induction sections generalizing before st with
  | nil => exact (List.append_nil _).symm
  | cons s sections ih =>
    obtain ⟨hfeatures, hagrees⟩ := h.section version url paragraphs s
    rw [List.flatMap_cons, catalogLoop, List.foldl_append, ← catalogLoop, ← catalogLoop,
      ih hagrees, hfeatures, listedFrom_cons, List.map_append, List.append_assoc]
    split_ifs <;> rfl

variable (version url paragraphs) in
theorem features_catalogOf (page : Page) :
    (catalogOf t version url paragraphs page.headings).1 = (listed t page).map fun p =>
      feature t version url paragraphs (sectionAfter [] p.before) p.own.heading := by
  have hinit : Agrees t ⟨[], false, [], [], []⟩ [] := ⟨rfl, by simp [candidateKeys]⟩
  have hlead : SameFeatures ⟨[], false, [], [], []⟩ _ :=
    sameFeatures_subheadings (t := t) version url paragraphs page.lead _
  have hfeatures := (hinit.congr hlead).features version url paragraphs page.sections
  rw [hlead.features, List.nil_append] at hfeatures
  rw [catalogOf, Page.headings, catalogLoop, List.foldl_append]
  exact hfeatures

end Loop

section Apart

variable (t : BlogTables) (version url : Str)

def Page.features (page : Page) : List CatalogFeature :=
  (catalogOf t version url page.paragraphs page.headings).1

def OwnText (page : Page) : Prop :=
  page.features t version url = (listed t page).map fun p =>
    feature t version url p.own.paragraphs (sectionAfter [] p.before) p.own.heading

/-- No other section with paragraphs has a heading that contains the name of a feature or is
contained in it. -/
def Apart (page : Page) : Prop :=
  ∀ p ∈ listed t page, ∀ s ∈ p.before ++ p.after, s.texts ≠ [] →
    underHeading t (stripStage p.own.heading) s.heading = false

variable {t version url}

theorem mem_features_iff {page : Page} {f : CatalogFeature} :
    f ∈ page.features t version url ↔
      ∃ before own after, page.sections = before ++ own :: after ∧ IsListed t before own ∧
        f = feature t version url page.paragraphs (sectionAfter [] before) own.heading := by
  rw [Page.features, features_catalogOf, List.mem_map]
  constructor
  · rintro ⟨p, hp, rfl⟩
    obtain ⟨hplace, hlisted⟩ := List.mem_filter.mp hp
    exact ⟨p.before, p.own, p.after, mem_places.mp hplace, of_decide_eq_true hlisted, rfl⟩
  · rintro ⟨before, own, after, hsections, hlisted, rfl⟩
    exact ⟨⟨before, own, after⟩, List.mem_filter.mpr ⟨mem_places.mpr hsections,
      decide_eq_true hlisted⟩, rfl⟩

theorem feature_own_iff {page : Page} {p : Place} (hp : p ∈ listed t page) (sec : Str) :
    feature t version url page.paragraphs sec p.own.heading =
        feature t version url p.own.paragraphs sec p.own.heading ↔
      ∀ s ∈ p.before ++ p.after, s.texts ≠ [] →
        underHeading t (stripStage p.own.heading) s.heading = false := by
  have hsections := mem_places.mp (List.mem_filter.mp hp).1
  have hparagraphs : page.paragraphs = p.before.flatMap Section.paragraphs ++ p.own.paragraphs ++
      p.after.flatMap Section.paragraphs := by
    rw [Page.paragraphs, hsections]
    simp
  rw [List.forall_mem_append, ← matchedTexts_flatMap_eq_nil_iff, ← matchedTexts_flatMap_eq_nil_iff,
    hparagraphs]
  constructor
  · intro h
    have hlen : (featureText t _ _).length = (featureText t _ _).length :=
      congrArg (fun f : CatalogFeature => f.blogText.length) h
    rw [length_featureText, length_featureText, textSize_append, textSize_append] at hlen
    rw [← textSize_eq_zero_iff, ← textSize_eq_zero_iff]
    omega
  · rintro ⟨hbefore, hafter⟩
    apply feature_congr
    rw [matchedTexts_append, matchedTexts_append, hbefore, hafter, List.nil_append, List.append_nil]

theorem ownText_iff_apart (page : Page) : OwnText t version url page ↔ Apart t page := by
  rw [OwnText, Page.features, features_catalogOf, List.map_inj_left]
  exact forall₂_congr fun p hp => feature_own_iff hp _

end Apart

section Insert

variable {t : BlogTables} {version url : Str} {lead : List Str} {a b : List Section} {new : Section}

theorem sectionAfter_insert (hlevel : new.level = .h3) (a between : List Section) :
    sectionAfter [] (a ++ new :: between) = sectionAfter [] (a ++ between) := by
  rw [List.append_cons, sectionAfter_append, sectionAfter_concat_h3 [] a hlevel,
    sectionAfter_append]

theorem IsListed.insert {own : Section} {between : List Section} (hlevel : new.level = .h3)
    (hkey : own.key t ≠ new.key t) (h : IsListed t (a ++ between) own) :
    IsListed t (a ++ new :: between) own := by
  refine ⟨(sectionAfter_insert hlevel a between).symm ▸ h.1, fun hmem => h.2 ?_⟩
  rw [List.append_cons, candidateKeys_append, candidateKeys_concat,
    sectionAfter_concat_h3 [] a hlevel, List.mem_append, List.mem_append] at hmem
  rw [candidateKeys_append, List.mem_append]
  rcases hmem with (hmem | hmem) | hmem
  · exact Or.inl hmem
  · split_ifs at hmem
    · exact absurd (List.mem_singleton.mp hmem) hkey
    · cases hmem
  · exact Or.inr hmem

theorem exists_listed_insert {before own after} (hlevel : new.level = .h3)
    (hsections : a ++ b = before ++ own :: after) (hkey : own.key t ≠ new.key t)
    (h : IsListed t before own) :
    ∃ before' after', a ++ new :: b = before' ++ own :: after' ∧ IsListed t before' own ∧
      sectionAfter [] before' = sectionAfter [] before := by
  rcases List.append_eq_append_iff.mp hsections with ⟨between, rfl, rfl⟩ | ⟨between, rfl, hb⟩
  · exact ⟨a ++ new :: between, after, by simp, h.insert hlevel hkey,
      sectionAfter_insert hlevel a between⟩
  · cases between with
    | nil =>
      obtain rfl : own :: after = b := by simpa using hb
      rw [← List.append_nil before] at h
      refine ⟨before ++ [new], after, by simp, h.insert hlevel hkey, ?_⟩
      rw [sectionAfter_insert hlevel before [], List.append_nil]
    | cons s between =>
      obtain ⟨rfl, rfl⟩ := List.cons_eq_cons.mp hb
      exact ⟨before, between ++ new :: b, by simp, h, rfl⟩

theorem paragraphs_insert (lead : List Str) (a b : List Section) (new : Section) :
    Page.paragraphs ⟨lead, a ++ new :: b⟩ =
      a.flatMap Section.paragraphs ++ new.paragraphs ++ b.flatMap Section.paragraphs := by
  simp [Page.paragraphs]

/-- A feature outlives a further section as it is, unless that section has paragraphs for it. -/
theorem mem_features_insert_iff (hlevel : new.level = .h3) {f : CatalogFeature}
    (hf : f ∈ Page.features t version url ⟨lead, a ++ b⟩) (hkey : casefold t f.name ≠ new.key t) :
    f ∈ Page.features t version url ⟨lead, a ++ new :: b⟩ ↔
      new.texts = [] ∨ underHeading t f.name new.heading = false := by
  obtain ⟨before, own, after, hsections, hlisted, rfl⟩ := mem_features_iff.mp hf
  have hnew : matchedTexts t (stripStage own.heading) new.paragraphs = [] ↔
      new.texts = [] ∨ underHeading t (stripStage own.heading) new.heading = false := by
    rw [matchedTexts_section]
    cases underHeading t (stripStage own.heading) new.heading <;> simp
  have hparagraphs : Page.paragraphs ⟨lead, a ++ b⟩ =
      a.flatMap Section.paragraphs ++ b.flatMap Section.paragraphs := List.flatMap_append
  refine Iff.trans ?_ hnew
  constructor
  · intro hf'
    obtain ⟨_, own', _, -, -, heq⟩ := mem_features_iff.mp hf'
    have hname : stripStage own.heading = stripStage own'.heading :=
      congrArg CatalogFeature.name heq
    have hlen : (featureText t _ (stripStage own.heading)).length =
        (featureText t _ (stripStage own'.heading)).length :=
      congrArg (fun f : CatalogFeature => f.blogText.length) heq
    rw [← hname, hparagraphs, paragraphs_insert, length_featureText, length_featureText,
      textSize_append, textSize_append, textSize_append] at hlen
    rw [← textSize_eq_zero_iff]
    omega
  · intro hnil
    obtain ⟨before', after', hsections', hlisted', hsec⟩ :=
      exists_listed_insert hlevel hsections hkey hlisted
    refine mem_features_iff.mpr ⟨before', own, after', hsections', hlisted', ?_⟩
    rw [hsec]
    apply feature_congr
    rw [hparagraphs, paragraphs_insert, matchedTexts_append, matchedTexts_append,
      matchedTexts_append, hnil, List.append_nil]

/-- What the parser notes of any input is the layout of a page, and the catalog is that page's. A
feature of a page has its own texts exactly where the page is apart, and it outlives a further
section exactly where that section has no paragraphs for it. -/
theorem catalog_own_iff (t : BlogTables) (version url : Str) :
    (∀ events, ∃ page : Page,
      (HeadingParser.feed t.unescape events).headings = page.headings ∧
        (HeadingParser.feed t.unescape events).paragraphs = page.paragraphs ∧
        (catalog t version url events).1 = page.features t version url) ∧
    (∀ page, OwnText t version url page ↔ Apart t page) ∧
    ∀ lead a b new, new.level = .h3 → ∀ f ∈ Page.features t version url ⟨lead, a ++ b⟩,
      casefold t f.name ≠ new.key t →
        (f ∈ Page.features t version url ⟨lead, a ++ new :: b⟩ ↔
          new.texts = [] ∨ underHeading t f.name new.heading = false) := by
  refine ⟨fun events => ?_, ownText_iff_apart, ?_⟩
  · obtain ⟨page, hheadings, hparagraphs⟩ := HeadingParser.exists_page t.unescape events
    refine ⟨page, hheadings, hparagraphs, ?_⟩
    rw [catalog, hheadings, hparagraphs]
    rfl
  · rintro lead a b new hlevel f hf hkey
    exact mem_features_insert_iff hlevel hf hkey

def asciiTables : BlogTables where
  toTextTables := .ascii
  fold c := [c.toLower]
  unescape s := s
  digest s := s

def titledSection (level : Level) (heading : Str) (texts : List Str)
    (h : level ≠ .h4 ∧ heading ≠ [] ∧ normalizeHeading heading = heading) : Section :=
  ⟨level, heading, [], texts, h.1, h.2.1, h.2.2⟩

def spotlightSection : Section :=
  titledSection .h2 "Spotlight on key updates".toList [] (by decide +kernel)

def sidecarSection : Section :=
  titledSection .h3 "Sidecar containers".toList ["KEP-753".toList] (by decide +kernel)

/-- An alpha feature whose heading contains the name of another. -/
def jobsSection : Section :=
  titledSection .h3 "Alpha: Sidecar containers for jobs".toList ["KEP-4438".toList]
    (by decide +kernel)

def sidecarPage : Page := ⟨[], [spotlightSection, sidecarSection, jobsSection]⟩

theorem isListed_sidecar : IsListed asciiTables [spotlightSection] sidecarSection := by
  decide +kernel

theorem underHeading_sidecar : underHeading asciiTables (stripStage sidecarSection.heading)
    jobsSection.heading = true := by decide +kernel

/-- The further section changes the feature that is there. -/
theorem catalog_own_iff_sidecar :
    ∃ f ∈ Page.features asciiTables "1.35".toList [] ⟨[], [spotlightSection, sidecarSection]⟩,
      f ∉ Page.features asciiTables "1.35".toList [] sidecarPage := by
  obtain ⟨f, hf, hname⟩ : ∃ f ∈ Page.features asciiTables "1.35".toList []
      ⟨[], [spotlightSection, sidecarSection]⟩, f.name = stripStage sidecarSection.heading :=
    ⟨_, mem_features_iff.mpr ⟨_, _, [], rfl, isListed_sidecar, rfl⟩, rfl⟩
  refine ⟨f, hf, fun hmem => ?_⟩
  have hkey : casefold asciiTables f.name ≠ jobsSection.key asciiTables := by
    rw [hname]
    decide +kernel
  rcases ((catalog_own_iff asciiTables "1.35".toList []).2.2 [] [spotlightSection, sidecarSection]
    [] jobsSection rfl f hf hkey).mp hmem with hnil | hunder
  · cases hnil
  · rw [hname, underHeading_sidecar] at hunder
    cases hunder

def sidecarEvents : List Event :=
  [.start (.heading .h2), .data "Spotlight on key updates".toList, .close (.heading .h2),
    .start (.heading .h3), .data "Sidecar containers".toList, .close (.heading .h3),
    .start .p, .data "KEP-753".toList, .close .p,
    .start (.heading .h3), .data "Alpha: Sidecar containers for jobs".toList,
    .close (.heading .h3), .start .p, .data "KEP-4438".toList, .close .p]

/-- The first feature gets the KEP of the second. -/
theorem not_ownText_sidecar :
    (HeadingParser.feed asciiTables.unescape sidecarEvents).headings = sidecarPage.headings ∧
      (HeadingParser.feed asciiTables.unescape sidecarEvents).paragraphs = sidecarPage.paragraphs ∧
      ¬ OwnText asciiTables "1.35".toList [] sidecarPage := by
  refine ⟨by decide +kernel, by decide +kernel, fun h => ?_⟩
  have hplace : (⟨[spotlightSection], sidecarSection, [jobsSection]⟩ : Place) ∈
      listed asciiTables sidecarPage :=
    List.mem_filter.mpr ⟨mem_places.mpr rfl, decide_eq_true isListed_sidecar⟩
  have hapart := (ownText_iff_apart sidecarPage).mp h _ hplace jobsSection (by simp)
    (List.cons_ne_nil _ _)
  exact absurd (underHeading_sidecar.symm.trans hapart) (by decide)

end Insert

end K8sLearn.Blog
