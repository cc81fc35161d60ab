import Mathlib.Logic.Relation
import K8sLearn.Papers.Paper

/-! # What deduplication keeps

Two papers are duplicates when they are connected by equal DOIs or equal normalized titles.
Merging never loses a citation count, an abstract or an open-access mark, so a paper lives
on in the entry of its key, unless that entry's title normalizes to nothing: then the second
pass drops it. The first pass also mixes DOIs and titles in one dictionary. A list loses nothing
exactly if what each paper has is filed, once the second pass is over, under a title of its class.
-/

namespace K8sLearn.Papers

structure Identity where
  doi : Option Str
  title : Str
  deriving DecidableEq

def Paper.identity (p : Paper) : Identity := ⟨p.doi, p.title⟩

def Identity.Counts (i : Identity) : Prop :=
  present i.doi = true ∨ ∃ c ∈ i.title, Str.isSpace c = false

section Classes

variable (u : Unicode)

/-- Equal lower-cased DOIs, or equal nonempty normalized titles. -/
def Linked (i j : Identity) : Prop :=
  (∃ d e, i.doi = some d ∧ j.doi = some e ∧ d ≠ [] ∧ e ≠ [] ∧ u.lower d = u.lower e) ∨
    (normalize u i.title ≠ [] ∧ normalize u i.title = normalize u j.title)

def SameClass (ids : List Identity) : Identity → Identity → Prop :=
  Relation.EqvGen fun i j => i ∈ ids ∧ j ∈ ids ∧ Linked u i j

structure Carries (p q : Paper) : Prop where
  citedByCount : p.citedByCount ≤ q.citedByCount
  isOa : p.isOa = true → q.isOa = true
  abstract : p.abstract ≠ [] → q.abstract ≠ []

def LosesNothing (papers : List Paper) : Prop :=
  ∀ p ∈ papers, p.identity.Counts → ∃ q ∈ dedupe u papers,
    SameClass u (papers.map Paper.identity) p.identity q.identity ∧ Carries p q

/-- What the two passes can keep apart and recognise: titles that normalize to something, and no
DOI that reads like the title of a paper of another class. -/
structure Separable (ids : List Identity) : Prop where
  title_ne_nil : ∀ i ∈ ids, i.Counts → normalize u i.title ≠ []
  sameClass : ∀ i ∈ ids, ∀ j ∈ ids, ∀ d, i.doi = some d → d ≠ [] → present j.doi = false →
    u.lower d = normalize u j.title → SameClass u ids i j

/-- What `_preferred` looks at while papers of one key meet: who leads, whether one has an
abstract, and the most citations. -/
structure Lead where
  leader : Paper
  abstract : Bool
  citedByCount : ℤ

def Lead.start (p : Paper) : Lead := ⟨p, !p.abstract.isEmpty, p.citedByCount⟩

def Lead.key (s : Lead) : ℕ ×ₗ Bool ×ₗ Bool ×ₗ ℤ :=
  toLex (sourcePriority s.leader,
    toLex (s.abstract, toLex (present s.leader.doi, s.citedByCount)))

def Lead.next (s : Lead) (p : Paper) : Lead where
  leader := if s.key < preferenceKey p then p else s.leader
  abstract := s.abstract || !p.abstract.isEmpty
  citedByCount := max s.citedByCount p.citedByCount

def leader : List Paper → Option Paper
  | [] => none
  | p :: rest => some (rest.foldl Lead.next (.start p)).leader

/-- The title key under which the papers with the DOI key of `p` are filed: their leader's. -/
def filing (papers : List Paper) (p : Paper) : Option Str :=
  (doiKey u p).bind fun k =>
    (leader (papers.filter fun q => doiKey u q = some k)).bind (titleKey u)

/-- Papers that together have what `p` has. -/
structure Offers (among : Paper → Prop) (p : Paper) : Prop where
  citedByCount : ∃ q, among q ∧ p.citedByCount ≤ q.citedByCount
  isOa : p.isOa = true → ∃ q, among q ∧ q.isOa = true
  abstract : p.abstract ≠ [] → ∃ q, among q ∧ q.abstract ≠ []

/-- A title of the paper's class is one under which papers are filed that have what it has. -/
def Represented (papers : List Paper) (p : Paper) : Prop :=
  ∃ t, (∃ a ∈ papers, titleKey u a = some t ∧
      SameClass u (papers.map Paper.identity) p.identity a.identity) ∧
    Offers (fun q => q ∈ papers ∧ filing u papers q = some t) p

end Classes

section Merge

theorem Carries.refl (p : Paper) : Carries p p := ⟨le_rfl, id, id⟩

theorem Carries.trans {p q r : Paper} (h : Carries p q) (h' : Carries q r) : Carries p r :=
  ⟨h.citedByCount.trans h'.citedByCount, h'.isOa ∘ h.isOa, h'.abstract ∘ h.abstract⟩

theorem isEmpty_orList {α : Type*} (a b : List α) :
    (!(orList a b).isEmpty) = (!a.isEmpty || !b.isEmpty) := by
  cases a <;> simp [orList]

theorem preferred_cases (a b : Paper) :
    (preferred a b = (a, b) ∧ sourcePriority b ≤ sourcePriority a) ∨
      (preferred a b = (b, a) ∧ sourcePriority a ≤ sourcePriority b) := by
  unfold preferred
  split_ifs with h
  · refine Or.inr ⟨rfl, ?_⟩
    rcases Prod.Lex.lt_iff.mp h with h | h
    · exact h.le
    · exact h.1.le
  · refine Or.inl ⟨rfl, ?_⟩
    rcases Prod.Lex.le_iff.mp (not_lt.mp h) with h | h
    · exact h.le
    · exact h.1.le

theorem merge_cases (a b : Paper) :
    ∃ w, (w = a ∧ sourcePriority b ≤ sourcePriority a ∨
        w = b ∧ sourcePriority a ≤ sourcePriority b) ∧
      (merge a b).source = w.source ∧ (merge a b).identity = w.identity ∧
      (merge a b).year = w.year := by
  rcases preferred_cases a b with ⟨h, hp⟩ | ⟨h, hp⟩
  · exact ⟨a, Or.inl ⟨rfl, hp⟩, congrArg (fun x => x.1.source) h,
      congrArg (fun x => x.1.identity) h, congrArg (fun x => x.1.year) h⟩
  · exact ⟨b, Or.inr ⟨rfl, hp⟩, congrArg (fun x => x.1.source) h,
      congrArg (fun x => x.1.identity) h, congrArg (fun x => x.1.year) h⟩

theorem merge_citedByCount (a b : Paper) :
    (merge a b).citedByCount = max a.citedByCount b.citedByCount := by
  have hmax : (merge a b).citedByCount =
      max (preferred a b).1.citedByCount (preferred a b).2.citedByCount := rfl
  rcases preferred_cases a b with ⟨h, -⟩ | ⟨h, -⟩
  · rw [hmax, h]
  · rw [hmax, h, max_comm]

theorem merge_isOa (a b : Paper) : (merge a b).isOa = (a.isOa || b.isOa) := by
  have hor : (merge a b).isOa = ((preferred a b).1.isOa || (preferred a b).2.isOa) := rfl
  rcases preferred_cases a b with ⟨h, -⟩ | ⟨h, -⟩
  · rw [hor, h]
  · rw [hor, h, Bool.or_comm]

theorem isEmpty_merge_abstract (a b : Paper) :
    (!(merge a b).abstract.isEmpty) = (!a.abstract.isEmpty || !b.abstract.isEmpty) := by
  have hor : (!(merge a b).abstract.isEmpty) = _ := isEmpty_orList (preferred a b).1.abstract
    (preferred a b).2.abstract
  rcases preferred_cases a b with ⟨h, -⟩ | ⟨h, -⟩
  · rw [hor, h]
  · rw [hor, h, Bool.or_comm]

theorem merge_abstract_ne_nil_iff {a b : Paper} :
    (merge a b).abstract ≠ [] ↔ a.abstract ≠ [] ∨ b.abstract ≠ [] := by
  have h := isEmpty_merge_abstract a b
  rw [Bool.eq_iff_iff] at h
  simpa using h

theorem carries_merge_left (a b : Paper) : Carries a (merge a b) where
  citedByCount := merge_citedByCount a b ▸ le_max_left _ _
  isOa h := by rw [merge_isOa, h, Bool.true_or]
  abstract h := merge_abstract_ne_nil_iff.mpr (Or.inl h)

theorem carries_merge_right (a b : Paper) : Carries b (merge a b) where
  citedByCount := merge_citedByCount a b ▸ le_max_right _ _
  isOa h := by rw [merge_isOa, h, Bool.or_true]
  abstract h := merge_abstract_ne_nil_iff.mpr (Or.inr h)

theorem merge_identity_mem (a b : Paper) :
    (merge a b).identity = a.identity ∨ (merge a b).identity = b.identity := by
  obtain ⟨w, hw, -, hid, -⟩ := merge_cases a b
  rcases hw with ⟨rfl, -⟩ | ⟨rfl, -⟩
  · exact Or.inl hid
  · exact Or.inr hid

end Merge

section Keys

variable {u : Unicode}

theorem isPlain_of_mem_normalize {t : Str} {c : Char} (h : c ∈ normalize u t) :
    isPlain c = true ∨ c = ' ' := by
  rcases Str.mem_join h with h | ⟨r, hr, hc⟩
  · exact Or.inr (by simpa using h)
  · rcases Str.mem_replaceRunsFrom (Str.mem_of_mem_splitSpaces hr hc).1 with h | h
    · exact Or.inr (by simpa using h)
    · exact Or.inl (by simpa using h.1)

theorem mem_replaceUrlsFrom {inUrl : Bool} {s : Str} {c : Char}
    (h : c ∈ replaceUrlsFrom inUrl s) : c = ' ' ∨ c ∈ s := by
  induction s generalizing inUrl with
  | nil => cases inUrl <;> exact absurd h List.not_mem_nil
  | cons d s ih =>
    have hrest : ∀ {inUrl}, c ∈ replaceUrlsFrom inUrl s → c = ' ' ∨ c ∈ d :: s :=
      fun h => (ih h).imp_right (List.mem_cons_of_mem _)
    cases inUrl with
    | true =>
      simp only [replaceUrlsFrom] at h
      split_ifs at h
      · rcases List.mem_cons.mp h with rfl | h
        · exact Or.inr List.mem_cons_self
        · exact hrest h
      · exact hrest h
    | false =>
      simp only [replaceUrlsFrom] at h
      split_ifs at h
      · rcases List.mem_cons.mp h with h | h
        · exact Or.inl h
        · exact hrest h
      · rcases List.mem_cons.mp h with rfl | h
        · exact Or.inr List.mem_cons_self
        · exact hrest h

theorem exists_not_space_of_normalize_ne_nil {t : Str} (h : normalize u t ≠ []) :
    ∃ c ∈ t, Str.isSpace c = false := by
  by_contra hall
  have hplain := u.not_plain_of_space t fun c hc => by
    by_contra hs
    exact hall ⟨c, hc, by simpa using hs⟩
  have hspace : ∀ c ∈ Str.replaceRuns (fun c => !isPlain c) " ".toList
      (replaceUrls (u.lower (u.nfkc t))), c = ' ' := by
    intro c hc
    rcases Str.mem_replaceRunsFrom hc with h | ⟨hp, hm⟩
    · simpa using h
    · rcases mem_replaceUrlsFrom hm with h | h
      · exact h
      · simp [hplain c h] at hp
  have hparts : Str.splitSpaces (Str.replaceRuns (fun c => !isPlain c) " ".toList
      (replaceUrls (u.lower (u.nfkc t)))) = [] := by
    rw [List.eq_nil_iff_forall_not_mem]
    intro r hr
    obtain ⟨c, hc⟩ := List.exists_mem_of_ne_nil r (Str.ne_nil_of_mem_splitSpaces hr)
    obtain ⟨hm, hns⟩ := Str.mem_of_mem_splitSpaces hr hc
    rw [hspace c hm] at hns
    exact absurd hns (by decide)
  apply h
  rw [normalize, hparts]
  rfl

theorem lower_normalize (u : Unicode) (t : Str) : u.lower (normalize u t) = normalize u t :=
  u.lower_plain _ fun _ => isPlain_of_mem_normalize

theorem present_iff {s : Option Str} : present s = true ↔ ∃ d, s = some d ∧ d ≠ [] := by
  cases s <;> simp [present]

theorem nonempty_eq_some_iff {s k : Str} :
    (if s.isEmpty then none else some s) = some k ↔ k ≠ [] ∧ s = k := by
  cases s with
  | nil => simp [eq_comm]
  | cons c s =>
    simp only [List.isEmpty_cons, Bool.false_eq_true, if_false, Option.some.injEq]
    constructor
    · rintro rfl
      exact ⟨by simp, rfl⟩
    · exact fun hk => hk.2

theorem titleKey_eq_some_iff {p : Paper} {k : Str} :
    titleKey u p = some k ↔ k ≠ [] ∧ normalize u p.title = k :=
  nonempty_eq_some_iff

theorem doiKey_eq_some_iff {p : Paper} {k : Str} :
    doiKey u p = some k ↔ k ≠ [] ∧
      ((∃ d, p.doi = some d ∧ d ≠ [] ∧ u.lower d = k) ∨
        (present p.doi = false ∧ normalize u p.title = k)) := by
  unfold doiKey
  rw [nonempty_eq_some_iff]
  cases hd : p.doi with
  | none => simp [orElse, present, lower_normalize]
  | some d =>
    cases d with
    | nil => simp [orElse, present, lower_normalize]
    | cons c d => simp [orElse, present]

theorem doiKey_congr {p q : Paper} (h : p.identity = q.identity) : doiKey u p = doiKey u q := by
  obtain ⟨hd, ht⟩ := Identity.mk.inj h
  rw [doiKey, doiKey, hd, ht]

theorem titleKey_congr {p q : Paper} (h : p.identity = q.identity) :
    titleKey u p = titleKey u q := by
  rw [titleKey, titleKey, (Identity.mk.inj h).2]

def Filed (key : Paper → Option Str) (ids : List Identity) (k : Str) (v : Paper) : Prop :=
  key v = some k ∧ v.identity ∈ ids

theorem Filed.merge {key : Paper → Option Str} {ids : List Identity}
    (hkey : ∀ p q : Paper, p.identity = q.identity → key p = key q) {k : Str} {v a : Paper}
    (hv : Filed key ids k v) (ha : Filed key ids k a) : Filed key ids k (merge v a) := by
  rcases merge_identity_mem v a with h | h
  · exact ⟨(hkey _ _ h).trans hv.1, h ▸ hv.2⟩
  · exact ⟨(hkey _ _ h).trans ha.1, h ▸ ha.2⟩

theorem filed_collect (key : Paper → Option Str) {ids : List Identity} {papers : List Paper}
    (hkey : ∀ p q : Paper, p.identity = q.identity → key p = key q)
    (hids : ∀ p ∈ papers, p.identity ∈ ids) :
    ∀ e ∈ collect key merge papers, Filed key ids e.1 e.2 :=
  collect_forall (fun a ha _ hk => ⟨hk, hids a ha⟩) fun _ _ _ hv ha => hv.merge hkey ha

theorem exists_carries_collect {key : Paper → Option Str} {papers : List Paper} {p : Paper}
    {k : Str} (hp : p ∈ papers) (hk : key p = some k) :
    ∃ v, (k, v) ∈ collect key merge papers ∧ Carries p v :=
  collect_exists (P := fun _ _ => True) (R := Carries) (fun _ _ _ _ => trivial)
    (fun _ _ _ _ _ => trivial) (fun _ a _ => .refl a)
    (fun _ v a _ _ => carries_merge_right v a)
    (fun _ v a _ _ _ h => h.trans (carries_merge_left v a)) p hp k hk

theorem sameClass_of_titleKey {ids : List Identity} {p q : Paper} {k : Str}
    (hp : Filed (titleKey u) ids k p) (hq : Filed (titleKey u) ids k q) :
    SameClass u ids p.identity q.identity := by
  obtain ⟨hkp, hp⟩ := hp
  obtain ⟨hkq, hq⟩ := hq
  obtain ⟨hne, hkp⟩ := titleKey_eq_some_iff.mp hkp
  obtain ⟨-, hkq⟩ := titleKey_eq_some_iff.mp hkq
  exact .rel _ _ ⟨hp, hq, Or.inr ⟨hkp ▸ hne, hkp.trans hkq.symm⟩⟩

end Keys

section Sufficient

variable {u : Unicode} {ids : List Identity}

theorem Separable.exists_doiKey (h : Separable u ids) {p : Paper} (hp : p.identity ∈ ids)
    (hc : p.identity.Counts) : ∃ k, doiKey u p = some k := by
  by_cases hd : present p.doi = true
  · obtain ⟨d, hd', hne⟩ := present_iff.mp hd
    exact ⟨u.lower d, doiKey_eq_some_iff.mpr
      ⟨fun hl => hne (u.eq_nil_of_lower d hl), Or.inl ⟨d, hd', hne, rfl⟩⟩⟩
  · exact ⟨normalize u p.title, doiKey_eq_some_iff.mpr
      ⟨h.title_ne_nil _ hp hc, Or.inr ⟨by simpa using hd, rfl⟩⟩⟩

theorem Separable.sameClass_of_doiKey (h : Separable u ids) {p q : Paper} {k : Str}
    (hp : Filed (doiKey u) ids k p) (hq : Filed (doiKey u) ids k q) :
    SameClass u ids p.identity q.identity := by
  obtain ⟨hkp, hp⟩ := hp
  obtain ⟨hkq, hq⟩ := hq
  obtain ⟨hne, hkp⟩ := doiKey_eq_some_iff.mp hkp
  obtain ⟨-, hkq⟩ := doiKey_eq_some_iff.mp hkq
  rcases hkp with ⟨d, hd, hdne, hdk⟩ | ⟨hpd, hpk⟩ <;>
    rcases hkq with ⟨e, he, hene, hek⟩ | ⟨hqd, hqk⟩
  · exact .rel _ _ ⟨hp, hq, Or.inl ⟨d, e, hd, he, hdne, hene, hdk.trans hek.symm⟩⟩
  · exact h.sameClass _ hp _ hq d hd hdne hqd (hdk.trans hqk.symm)
  · exact .symm _ _ (h.sameClass _ hq _ hp e he hene hpd (hek.trans hpk.symm))
  · exact .rel _ _ ⟨hp, hq, Or.inr ⟨hpk ▸ hne, hpk.trans hqk.symm⟩⟩

theorem Separable.title_ne_nil_of_doiKey (h : Separable u ids) {p : Paper} {k : Str}
    (hp : Filed (doiKey u) ids k p) : normalize u p.title ≠ [] := by
  obtain ⟨hk, hp⟩ := hp
  obtain ⟨hne, ⟨d, hd, hdne, -⟩ | ⟨-, hpk⟩⟩ := doiKey_eq_some_iff.mp hk
  · exact h.title_ne_nil _ hp (Or.inl (present_iff.mpr ⟨d, hd, hdne⟩))
  · exact hpk ▸ hne

theorem Separable.losesNothing {papers : List Paper}
    (h : Separable u (papers.map Paper.identity)) : LosesNothing u papers := by
  intro p hp hc
  have hids : ∀ p ∈ papers, p.identity ∈ papers.map Paper.identity :=
    fun p hp => List.mem_map_of_mem hp
  obtain ⟨k, hk⟩ := h.exists_doiKey (hids p hp) hc
  obtain ⟨w, hw, hpw⟩ := exists_carries_collect hp hk
  have hseen := filed_collect (doiKey u) (fun _ _ => doiKey_congr) hids
  have hwk := titleKey_eq_some_iff.mpr ⟨h.title_ne_nil_of_doiKey (hseen _ hw), rfl⟩
  have hwmem : w ∈ (collect (doiKey u) merge papers).map Prod.snd := List.mem_map_of_mem hw
  obtain ⟨v, hv, hwv⟩ := exists_carries_collect hwmem hwk
  have hids' : ∀ q ∈ (collect (doiKey u) merge papers).map Prod.snd,
      q.identity ∈ papers.map Paper.identity := by
    intro q hq
    obtain ⟨e, he, rfl⟩ := List.mem_map.mp hq
    exact (hseen e he).2
  have hvf := filed_collect (titleKey u) (fun _ _ => titleKey_congr) hids' _ hv
  refine ⟨v, List.mem_map_of_mem hv, ?_, hpw.trans hwv⟩
  apply Relation.EqvGen.trans _ _ _ (h.sameClass_of_doiKey ⟨hk, hids p hp⟩ (hseen _ hw))
  exact sameClass_of_titleKey ⟨hwk, (hseen _ hw).2⟩ hvf

end Sufficient

section Leaders

structure Lead.Describes (s : Lead) (v : Paper) : Prop where
  identity : v.identity = s.leader.identity
  source : v.source = s.leader.source
  abstract : (!v.abstract.isEmpty) = s.abstract
  citedByCount : v.citedByCount = s.citedByCount

variable {s : Lead} {v : Paper}

theorem Lead.Describes.key (h : s.Describes v) : preferenceKey v = s.key := by
  have hdoi : v.doi = s.leader.doi := congrArg Identity.doi h.identity
  rw [preferenceKey, Lead.key, sourcePriority, sourcePriority, h.source, h.abstract, hdoi,
    h.citedByCount]

theorem Lead.Describes.next (h : s.Describes v) (p : Paper) : (s.next p).Describes (merge v p) := by
  rw [Lead.next, ← h.key]
  have habstract : (!(merge v p).abstract.isEmpty) = (s.abstract || !p.abstract.isEmpty) := by
    rw [isEmpty_merge_abstract, h.abstract]
  have hcited : (merge v p).citedByCount = max s.citedByCount p.citedByCount := by
    rw [merge_citedByCount, h.citedByCount]
  by_cases hlt : preferenceKey v < preferenceKey p
  · have hpref : preferred v p = (p, v) := if_pos hlt
    rw [if_pos hlt]
    exact ⟨congrArg (fun x => x.1.identity) hpref, congrArg (fun x => x.1.source) hpref,
      habstract, hcited⟩
  · have hpref : preferred v p = (v, p) := if_neg hlt
    rw [if_neg hlt]
    exact ⟨(congrArg (fun x => x.1.identity) hpref).trans h.identity,
      (congrArg (fun x => x.1.source) hpref).trans h.source, habstract, hcited⟩

theorem Lead.Describes.foldl (h : s.Describes v) (rest : List Paper) :
    (rest.foldl Lead.next s).Describes (rest.foldl merge v) := by
  induction rest generalizing s v with
  | nil => exact h
  | cons p rest ih => exact ih (h.next p)

theorem exists_leader {u : Unicode} {papers : List Paper} {k : Str}
    (h : (k, v) ∈ collect (doiKey u) merge papers) :
    ∃ a, leader (papers.filter fun q => doiKey u q = some k) = some a ∧
      v.identity = a.identity := by
  obtain ⟨p, rest, hfilter, rfl⟩ := mem_collect_iff.mp h
  have hstart : (Lead.start p).Describes p := ⟨rfl, rfl, rfl, rfl⟩
  exact ⟨_, by rw [hfilter]; rfl, (hstart.foldl rest).identity⟩

theorem filing_eq {u : Unicode} {papers : List Paper} {p : Paper} {k : Str}
    (h : (k, v) ∈ collect (doiKey u) merge papers) (hk : doiKey u p = some k) :
    filing u papers p = titleKey u v := by
  obtain ⟨a, ha, hid⟩ := exists_leader h
  rw [filing, hk, Option.bind_some, ha, Option.bind_some, titleKey_congr hid]

end Leaders

section Exact

variable {u : Unicode} {among : Paper → Prop}

theorem Offers.of_mem {p : Paper} (h : among p) : Offers among p :=
  ⟨⟨p, h, le_rfl⟩, fun ho => ⟨p, h, ho⟩, fun ha => ⟨p, h, ha⟩⟩

theorem Offers.of_carries {p v : Paper} (h : Offers among v) (hp : Carries p v) :
    Offers among p := by
  obtain ⟨q, hq, hle⟩ := h.citedByCount
  exact ⟨⟨q, hq, hp.citedByCount.trans hle⟩, fun ho => h.isOa (hp.isOa ho),
    fun ha => h.abstract (hp.abstract ha)⟩

theorem Offers.merge {v a : Paper} (hv : Offers among v) (ha : Offers among a) :
    Offers among (merge v a) := by
  constructor
  · rw [merge_citedByCount]
    rcases le_total v.citedByCount a.citedByCount with h | h
    · rw [max_eq_right h]
      exact ha.citedByCount
    · rw [max_eq_left h]
      exact hv.citedByCount
  · intro ho
    rw [merge_isOa, Bool.or_eq_true] at ho
    exact ho.elim hv.isOa ha.isOa
  · intro hne
    exact (merge_abstract_ne_nil_iff.mp hne).elim hv.abstract ha.abstract

theorem offers_collect {papers : List Paper} : ∀ e ∈ collect (titleKey u) merge
      ((collect (doiKey u) merge papers).map Prod.snd),
    Offers (fun q => q ∈ papers ∧ filing u papers q = some e.1) e.2 := by
  refine collect_forall (P := fun t v => Offers (fun q => q ∈ papers ∧
    filing u papers q = some t) v) (fun v hv t ht => ?_) fun _ _ _ => Offers.merge
  obtain ⟨⟨k, v⟩, hkv, rfl⟩ := List.mem_map.mp hv
  have hentry : Offers (fun q => q ∈ papers ∧ doiKey u q = some k) v :=
    collect_forall (P := fun k v => Offers (fun q => q ∈ papers ∧ doiKey u q = some k) v)
      (fun p hp k hk => .of_mem ⟨hp, hk⟩) (fun _ _ _ => Offers.merge) (k, v) hkv
  have hfiled : ∀ q, q ∈ papers ∧ doiKey u q = some k → q ∈ papers ∧ filing u papers q = some t :=
    fun q hq => ⟨hq.1, (filing_eq hkv hq.2).trans ht⟩
  obtain ⟨q, hq, hle⟩ := hentry.citedByCount
  refine ⟨⟨q, hfiled q hq, hle⟩, fun ho => ?_, fun ha => ?_⟩
  · obtain ⟨q, hq, ho⟩ := hentry.isOa ho
    exact ⟨q, hfiled q hq, ho⟩
  · obtain ⟨q, hq, ha⟩ := hentry.abstract ha
    exact ⟨q, hfiled q hq, ha⟩

theorem exists_carries_of_filing {papers : List Paper} {p : Paper} {t : Str} (hp : p ∈ papers)
    (ht : filing u papers p = some t) : ∃ w, (t, w) ∈ collect (titleKey u) merge
      ((collect (doiKey u) merge papers).map Prod.snd) ∧ Carries p w := by
  obtain ⟨k, hk, -⟩ := Option.bind_eq_some_iff.mp ht
  obtain ⟨v, hv, hpv⟩ := exists_carries_collect hp hk
  have hmem : v ∈ (collect (doiKey u) merge papers).map Prod.snd := List.mem_map_of_mem hv
  have htitle : titleKey u v = some t := (filing_eq hv hk).symm.trans ht
  obtain ⟨w, hw, hvw⟩ := exists_carries_collect hmem htitle
  exact ⟨w, hw, hpv.trans hvw⟩

theorem filed_titles (u : Unicode) (papers : List Paper) : ∀ e ∈ collect (titleKey u) merge
      ((collect (doiKey u) merge papers).map Prod.snd),
    Filed (titleKey u) (papers.map Paper.identity) e.1 e.2 := by
  refine filed_collect (titleKey u) (fun _ _ => titleKey_congr) fun q hq => ?_
  obtain ⟨e, he, rfl⟩ := List.mem_map.mp hq
  exact (filed_collect (doiKey u) (fun _ _ => doiKey_congr)
    (fun p hp => List.mem_map_of_mem hp) e he).2

end Exact

/-- Deduplication loses nothing of a list exactly if every paper that counts is represented: under
a title of its class papers are filed that have its citations, its open access and an abstract. -/
theorem dedupe_losesNothing_iff (u : Unicode) (papers : List Paper) :
    LosesNothing u papers ↔ ∀ p ∈ papers, p.identity.Counts → Represented u papers p := by
  constructor
  · intro h p hp hc
    obtain ⟨w, hw, hcl, hpw⟩ := h p hp hc
    obtain ⟨⟨t, w⟩, htw, rfl⟩ := List.mem_map.mp hw
    obtain ⟨hkey, hid⟩ := filed_titles u papers _ htw
    obtain ⟨a, ha, haw⟩ := List.mem_map.mp hid
    exact ⟨t, ⟨a, ha, (titleKey_congr haw).trans hkey, haw ▸ hcl⟩,
      (offers_collect _ htw).of_carries hpw⟩
  · intro h p hp hc
    obtain ⟨t, ⟨a, ha, hat, hcl⟩, hoffers⟩ := h p hp hc
    obtain ⟨q, ⟨hq, hqt⟩, hle⟩ := hoffers.citedByCount
    obtain ⟨w, hw, hqw⟩ := exists_carries_of_filing hq hqt
    -- all papers filed under the title are in the one entry
    have hall : ∀ q', q' ∈ papers ∧ filing u papers q' = some t → Carries q' w := by
      rintro q' ⟨hq', hqt'⟩
      obtain ⟨w', hw', hqw'⟩ := exists_carries_of_filing hq' hqt'
      exact eq_of_mem_collect hw' hw ▸ hqw'
    refine ⟨w, List.mem_map_of_mem hw, ?_, hle.trans hqw.citedByCount, fun ho => ?_, fun hne => ?_⟩
    · exact .trans _ _ _ hcl
        (sameClass_of_titleKey ⟨hat, List.mem_map_of_mem ha⟩ (filed_titles u papers _ hw))
    · obtain ⟨q', hq', ho⟩ := hoffers.isOa ho
      exact (hall q' hq').isOa ho
    · obtain ⟨q', hq', hne⟩ := hoffers.abstract hne
      exact (hall q' hq').abstract hne

section Ascii

def isCapital (c : Char) : Bool := 'A' ≤ c && c ≤ 'Z'

theorem toLower_eq_self {c : Char} (h : isCapital c = false) : c.toLower = c := by
  refine Str.toLower_of_not_capital ?_
  intro hc
  simp only [isCapital, Bool.and_eq_false_iff, decide_eq_false_iff_not] at h
  exact h.elim (fun h => h hc.1) fun h => h hc.2

theorem isPlain_iff {c : Char} : isPlain c = true ↔
    97 ≤ c.toNat ∧ c.toNat ≤ 122 ∨ 48 ≤ c.toNat ∧ c.toNat ≤ 57 ∨
      0x4e00 ≤ c.toNat ∧ c.toNat ≤ 0x9fff := by
  simp only [isPlain, Bool.or_eq_true, Bool.and_eq_true, decide_eq_true_eq, or_assoc]
  exact Iff.rfl

theorem isCapital_iff {c : Char} : isCapital c = true ↔ 65 ≤ c.toNat ∧ c.toNat ≤ 90 := by
  simp only [isCapital, Bool.and_eq_true, decide_eq_true_eq]
  exact Iff.rfl

theorem not_capital_of_plain {c : Char} (h : isPlain c = true) : isCapital c = false := by
  rw [isPlain_iff] at h
  rw [← Bool.not_eq_true, isCapital_iff]
  omega

theorem not_plain_of_isSpace {c : Char} (h : Str.isSpace c = true) :
    isCapital c = false ∧ isPlain c = false := by
  simp only [Str.isSpace, Bool.or_eq_true, decide_eq_true_eq, Bool.and_eq_true] at h
  rcases h with h | h
  · revert c
    decide
  · have hlo : 0x2000 ≤ c.toNat := h.1
    have hhi : c.toNat ≤ 0x200a := h.2
    rw [← Bool.not_eq_true, ← Bool.not_eq_true, isCapital_iff, isPlain_iff]
    omega

def asciiTables : Unicode where
  nfkc := id
  lower := List.map Char.toLower
  eq_nil_of_lower := by simp
  lower_plain := by
    intro s hs
    refine (List.map_congr_left fun c hc => ?_).trans (List.map_id s)
    rcases hs c hc with h | rfl
    · exact toLower_eq_self (not_capital_of_plain h)
    · rfl
  not_plain_of_space := by
    intro s hs c hc
    obtain ⟨d, hd, rfl⟩ := List.mem_map.mp hc
    obtain ⟨hcap, hplain⟩ := not_plain_of_isSpace (hs d hd)
    rwa [toLower_eq_self hcap]

end Ascii

/-- An open-access paper with a DOI and a Russian title. -/
def russianPaper : Paper :=
  { source := "openalex".toList
    sourceId := "W1".toList
    doi := some "10.1000/182".toList
    title := "теория".toList
    abstract := "обзор".toList
    year := some 2020
    journal := none
    authors := []
    institutions := []
    concepts := []
    citedByCount := 12
    isOa := true
    landingPageUrl := none
    pdfUrl := none }

theorem dedupe_loses_russianPaper :
    dedupe asciiTables [russianPaper] = [] ∧ ¬ LosesNothing asciiTables [russianPaper] := by
  have h : dedupe asciiTables [russianPaper] = [] := by decide
  refine ⟨h, fun hl => ?_⟩
  obtain ⟨q, hq, -⟩ := hl russianPaper (by simp) (Or.inl (by decide))
  rw [h] at hq
  exact List.not_mem_nil hq

end K8sLearn.Papers
