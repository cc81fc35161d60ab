import Mathlib.Data.List.GetD
import K8sLearn.Papers.Dedupe

/-! # Deduplication in place

`_dedupe` works on objects: it fills the gaps of the winner in place, and the list may hold
one object twice. Titles and DOIs are never written, so the keys of an object stay what they
are. One call leaves distinct keys of both kinds, and a second call finds nothing to merge
and writes nothing. Where no object occurs twice, the papers are those of the values.
-/

namespace K8sLearn.Papers

abbrev Heap := ℕ → Paper

def winner (h : Heap) (existing r : ℕ) : ℕ :=
  if preferenceKey (h existing) < preferenceKey (h r) then r else existing

/-- One round of a pass over the references, with the dictionary filled so far. -/
def dedupeStep (key : Paper → Option Str) (s : Heap × List (Str × ℕ)) (r : ℕ) :
    Heap × List (Str × ℕ) :=
  match key (s.1 r) with
  | none => s
  | some k =>
    match s.2.lookup k with
    | none => (s.1, upsert (winner s.1) k r s.2)
    | some existing => (Function.update s.1 (winner s.1 existing r) (merge (s.1 existing) (s.1 r)),
        upsert (winner s.1) k r s.2)

def dedupePass (key : Paper → Option Str) (h : Heap) (refs : List ℕ) : Heap × List ℕ :=
  let s := refs.foldl (dedupeStep key) (h, [])
  (s.1, s.2.map Prod.snd)

def dedupeInPlace (u : Unicode) (h : Heap) (refs : List ℕ) : Heap × List ℕ :=
  let seen := dedupePass (doiKey u) h refs
  dedupePass (titleKey u) seen.1 seen.2

/-- Distinct nonempty normalized titles, and distinct lower-cased DOIs. -/
structure Deduped (u : Unicode) (papers : List Paper) : Prop where
  nodup_title : (papers.map fun p => normalize u p.title).Nodup
  title_ne_nil : ∀ p ∈ papers, normalize u p.title ≠ []
  nodup_doi : ((papers.filter fun p => present p.doi).map fun p => u.lower (p.doi.getD [])).Nodup

section Pass

variable {key : Paper → Option Str} {h : Heap} {refs : List ℕ}

theorem winner_cases (h : Heap) (e r : ℕ) : winner h e r = e ∨ winner h e r = r := by
  unfold winner
  split_ifs
  exacts [Or.inr rfl, Or.inl rfl]

theorem merge_identity (h : Heap) (e r : ℕ) :
    (merge (h e) (h r)).identity = (h (winner h e r)).identity := by
  unfold winner merge preferred
  split_ifs <;> rfl

/-- What holds during a pass: no identity has changed, and the entries are objects of the list
under their own keys. -/
structure Filing (key : Paper → Option Str) (h : Heap) (refs : List ℕ)
    (s : Heap × List (Str × ℕ)) : Prop where
  identity : ∀ r, (s.1 r).identity = (h r).identity
  filed : ∀ e ∈ s.2, e.2 ∈ refs ∧ key (s.1 e.2) = some e.1
  nodup : (s.2.map Prod.fst).Nodup

theorem dedupeStep_of_none {s : Heap × List (Str × ℕ)} {r : ℕ} (hk : key (s.1 r) = none) :
    dedupeStep key s r = s := by
  simp only [dedupeStep, hk]

theorem dedupeStep_of_some {s : Heap × List (Str × ℕ)} {r : ℕ} {k : Str}
    (hk : key (s.1 r) = some k) :
    (dedupeStep key s r).2 = upsert (winner s.1) k r s.2 ∧
      ((dedupeStep key s r).1 = s.1 ∨ ∃ e, s.2.lookup k = some e ∧ (dedupeStep key s r).1 =
        Function.update s.1 (winner s.1 e r) (merge (s.1 e) (s.1 r))) := by
  simp only [dedupeStep, hk]
  cases s.2.lookup k with
  | none => exact ⟨rfl, Or.inl rfl⟩
  | some e => exact ⟨rfl, Or.inr ⟨e, rfl, rfl⟩⟩

theorem dedupeStep_identity (key : Paper → Option Str) (s : Heap × List (Str × ℕ)) (r i : ℕ) :
    ((dedupeStep key s r).1 i).identity = (s.1 i).identity := by
  cases hk : key (s.1 r) with
  | none => rw [dedupeStep_of_none hk]
  | some k =>
    rcases (dedupeStep_of_some hk).2 with h | ⟨e, -, h⟩
    · rw [h]
    · rw [h]
      by_cases hi : i = winner s.1 e r
      · rw [hi, Function.update_self, merge_identity]
      · rw [Function.update_of_ne hi]

theorem Filing.step (hkey : ∀ p q : Paper, p.identity = q.identity → key p = key q)
    {s : Heap × List (Str × ℕ)} (hs : Filing key h refs s) {r : ℕ} (hr : r ∈ refs) :
    Filing key h refs (dedupeStep key s r) := by
  have hid := dedupeStep_identity key s r
  refine ⟨fun i => (hid i).trans (hs.identity i), fun e he => ?_, ?_⟩
  · rw [hkey _ _ (hid e.2)]
    cases hk : key (s.1 r) with
    | none =>
      rw [dedupeStep_of_none hk] at he
      exact hs.filed e he
    | some k =>
      rw [(dedupeStep_of_some hk).1] at he
      rcases mem_upsert he with he | rfl | ⟨v, hv, rfl⟩
      · exact hs.filed e he
      · exact ⟨hr, hk⟩
      · rcases winner_cases s.1 v r with hw | hw <;> simp only [hw]
        · exact hs.filed _ hv
        · exact ⟨hr, hk⟩
  · cases hk : key (s.1 r) with
    | none => simpa only [dedupeStep_of_none hk] using hs.nodup
    | some k =>
      rw [(dedupeStep_of_some hk).1]
      exact nodup_keys_upsert hs.nodup

theorem Filing.foldl (hkey : ∀ p q : Paper, p.identity = q.identity → key p = key q)
    {s : Heap × List (Str × ℕ)} (hs : Filing key h refs s) {l : List ℕ} (hl : l ⊆ refs) :
    Filing key h refs (l.foldl (dedupeStep key) s) := by
  induction l generalizing s with
  | nil => exact hs
  | cons r l ih =>
    rw [List.foldl_cons]
    exact ih (hs.step hkey (hl List.mem_cons_self)) fun i hi => hl (List.mem_cons_of_mem _ hi)

theorem dedupePass_spec (hkey : ∀ p q : Paper, p.identity = q.identity → key p = key q)
    (h : Heap) (refs : List ℕ) :
    (∀ r, ((dedupePass key h refs).1 r).identity = (h r).identity) ∧
      (∀ r ∈ (dedupePass key h refs).2, r ∈ refs ∧ (key ((dedupePass key h refs).1 r)).isSome) ∧
      ((dedupePass key h refs).2.map fun r => key ((dedupePass key h refs).1 r)).Nodup := by
  have hs : Filing key h refs (refs.foldl (dedupeStep key) (h, [])) :=
    Filing.foldl (s := (h, [])) hkey ⟨fun _ => rfl, List.forall_mem_nil _, List.nodup_nil⟩
      (List.Subset.refl _)
  refine ⟨hs.identity, fun r hr => ?_, ?_⟩
  · obtain ⟨e, he, rfl⟩ := List.mem_map.mp hr
    obtain ⟨hmem, hk⟩ := hs.filed e he
    exact ⟨hmem, by simp only [dedupePass, hk, Option.isSome_some]⟩
  · have hkeys : ((dedupePass key h refs).2.map fun r => key ((dedupePass key h refs).1 r)) =
        (refs.foldl (dedupeStep key) (h, [])).2.map (some ∘ Prod.fst) := by
      simp only [dedupePass, List.map_map]
      exact List.map_congr_left fun e he => (hs.filed e he).2
    rw [hkeys, ← List.map_map]
    exact hs.nodup.map fun a b hab => Option.some.inj hab

theorem dedupeStep_of_not_mem {d : List (Str × ℕ)} {r : ℕ} {k : Str} (hk : key (h r) = some k)
    (hnot : k ∉ d.map Prod.fst) : dedupeStep key (h, d) r = (h, d ++ [(k, r)]) := by
  have hlook : d.lookup k = none := by
    rw [List.lookup_eq_none_iff]
    intro e he
    rw [bne_iff_ne]
    rintro rfl
    exact hnot (List.mem_map_of_mem he)
  simp only [dedupeStep, hk, hlook, upsert_of_not_mem hnot]

theorem dedupePass_of_nodup (hsome : ∀ r ∈ refs, (key (h r)).isSome)
    (hnodup : (refs.map fun r => key (h r)).Nodup) : dedupePass key h refs = (h, refs) := by
  suffices hfold : ∀ (l : List ℕ) (d : List (Str × ℕ)), (∀ r ∈ l, (key (h r)).isSome) →
      (d.map (some ∘ Prod.fst) ++ l.map fun r => key (h r)).Nodup →
      ∃ d', l.foldl (dedupeStep key) (h, d) = (h, d') ∧ d'.map Prod.snd = d.map Prod.snd ++ l by
    obtain ⟨d', hd', hsnd⟩ := hfold refs [] hsome (by simpa using hnodup)
    simp only [dedupePass, hd', hsnd, List.map_nil, List.nil_append]
  intro l
  induction l with
  | nil => exact fun d _ _ => ⟨d, rfl, by simp⟩
  | cons r l ih =>
    intro d hl hd
    obtain ⟨k, hk⟩ := Option.isSome_iff_exists.mp (hl r List.mem_cons_self)
    have hnot : k ∉ d.map Prod.fst := by
      intro hm
      obtain ⟨e, he, rfl⟩ := List.mem_map.mp hm
      exact (List.nodup_append'.mp hd).2.2 (List.mem_map_of_mem he) (by simp [hk])
    obtain ⟨d', hd', hsnd⟩ := ih (d ++ [(k, r)]) (fun i hi => hl i (List.mem_cons_of_mem _ hi)) (by
      simpa [hk] using hd)
    exact ⟨d', by rw [List.foldl_cons, dedupeStep_of_not_mem hk hnot, hd'], by simp [hsnd]⟩

end Pass

section FixedPoint

variable {u : Unicode} {h : Heap} {refs : List ℕ}

theorem nodup_doi_of_nodup_doiKey {papers : List Paper} (hd : (papers.map (doiKey u)).Nodup) :
    ((papers.filter fun p => present p.doi).map fun p => u.lower (p.doi.getD [])).Nodup := by
  have hkey : ∀ p ∈ papers.filter fun p => present p.doi,
      doiKey u p = some (u.lower (p.doi.getD [])) := by
    intro p hp
    obtain ⟨d, hd, hne⟩ := present_iff.mp (List.mem_filter.mp hp).2
    refine doiKey_eq_some_iff.mpr ⟨fun h => hne ?_, Or.inl ⟨d, hd, hne, by rw [hd]; rfl⟩⟩
    rw [hd] at h
    exact u.eq_nil_of_lower d h
  apply List.Nodup.of_map some
  have hmap : ((papers.filter fun p => present p.doi).map fun p => u.lower (p.doi.getD [])).map
      some = (papers.filter fun p => present p.doi).map (doiKey u) := by
    rw [List.map_map]
    exact (List.map_congr_left hkey).symm
  rw [hmap]
  exact hd.sublist (List.filter_sublist.map _)

theorem titleKey_isSome {p : Paper} : (titleKey u p).isSome ↔ normalize u p.title ≠ [] := by
  rw [Option.isSome_iff_exists]
  constructor
  · rintro ⟨k, hk⟩
    obtain ⟨hne, rfl⟩ := titleKey_eq_some_iff.mp hk
    exact hne
  · exact fun hne => ⟨_, titleKey_eq_some_iff.mpr ⟨hne, rfl⟩⟩

theorem nodup_title_of_nodup_titleKey {papers : List Paper}
    (hsome : ∀ p ∈ papers, (titleKey u p).isSome) (ht : (papers.map (titleKey u)).Nodup) :
    (papers.map fun p => normalize u p.title).Nodup := by
  apply List.Nodup.of_map some
  have hmap : (papers.map fun p => normalize u p.title).map some = papers.map (titleKey u) := by
    rw [List.map_map]
    apply List.map_congr_left
    intro p hp
    exact (titleKey_eq_some_iff.mpr ⟨titleKey_isSome.mp (hsome p hp), rfl⟩).symm
  rwa [hmap]

/-- Both kinds of keys are distinct after a call: what the second pass keeps of two objects has
the DOI key of one of them, and the first pass left these distinct. -/
theorem dedupeInPlace_keys (u : Unicode) (h : Heap) (refs : List ℕ) :
    ((dedupeInPlace u h refs).2.map fun r => titleKey u ((dedupeInPlace u h refs).1 r)).Nodup ∧
      (∀ r ∈ (dedupeInPlace u h refs).2, (titleKey u ((dedupeInPlace u h refs).1 r)).isSome) ∧
      ((dedupeInPlace u h refs).2.map fun r => doiKey u ((dedupeInPlace u h refs).1 r)).Nodup ∧
      ∀ r ∈ (dedupeInPlace u h refs).2, (doiKey u ((dedupeInPlace u h refs).1 r)).isSome := by
  have hdoi : ∀ p q : Paper, p.identity = q.identity → doiKey u p = doiKey u q :=
    fun _ _ => doiKey_congr
  have htitle : ∀ p q : Paper, p.identity = q.identity → titleKey u p = titleKey u q :=
    fun _ _ => titleKey_congr
  obtain ⟨-, hsome₁, hnodup₁⟩ := dedupePass_spec hdoi h refs
  set seen := dedupePass (doiKey u) h refs with hseen
  obtain ⟨hid, hsome₂, hnodup₂⟩ := dedupePass_spec htitle seen.1 seen.2
  have hr : dedupeInPlace u h refs = dedupePass (titleKey u) seen.1 seen.2 := rfl
  rw [hr]
  have hkept : ∀ r, doiKey u ((dedupePass (titleKey u) seen.1 seen.2).1 r) = doiKey u (seen.1 r) :=
    fun r => doiKey_congr (hid r)
  simp only [hkept]
  refine ⟨hnodup₂, fun r hr => (hsome₂ r hr).2, ?_, fun r hr => (hsome₁ r (hsome₂ r hr).1).2⟩
  apply List.Nodup.map_on _ (hnodup₂.of_map _)
  intro r hr s hs hrs
  exact List.inj_on_of_nodup_map hnodup₁ (hsome₂ r hr).1 (hsome₂ s hs).1 hrs

/-- One call leaves distinct titles and DOIs, and another one returns the same objects and writes
to none. -/
theorem dedupeInPlace_fixedPoint (u : Unicode) (h : Heap) (refs : List ℕ) :
    Deduped u ((dedupeInPlace u h refs).2.map (dedupeInPlace u h refs).1) ∧
      dedupeInPlace u (dedupeInPlace u h refs).1 (dedupeInPlace u h refs).2 =
        dedupeInPlace u h refs := by
  obtain ⟨ht, htsome, hd, hdsome⟩ := dedupeInPlace_keys u h refs
  set r := dedupeInPlace u h refs with hr
  have htsome' : ∀ p ∈ r.2.map r.1, (titleKey u p).isSome := by
    intro p hp
    obtain ⟨i, hi, rfl⟩ := List.mem_map.mp hp
    exact htsome i hi
  refine ⟨⟨?_, fun p hp => titleKey_isSome.mp (htsome' p hp), ?_⟩, ?_⟩
  · exact nodup_title_of_nodup_titleKey htsome' (by rwa [List.map_map])
  · exact nodup_doi_of_nodup_doiKey (by rwa [List.map_map])
  · simp only [dedupeInPlace, dedupePass_of_nodup hdsome hd, dedupePass_of_nodup htsome ht]

end FixedPoint

section Values

variable {key : Paper → Option Str} {h : Heap} {r : ℕ} {d : List (Str × ℕ)}

/-- The dictionary with the papers in place of the references. -/
def deref (h : Heap) (d : List (Str × ℕ)) : List (Str × Paper) := d.map fun e => (e.1, h e.2)

def stepHeap (h : Heap) (d : List (Str × ℕ)) (k : Str) (r : ℕ) : Heap :=
  (d.lookup k).elim h fun e => Function.update h (winner h e r) (merge (h e) (h r))

theorem dedupeStep_eq {k : Str} (hk : key (h r) = some k) :
    dedupeStep key (h, d) r = (stepHeap h d k r, upsert (winner h) k r d) := by
  simp only [dedupeStep, hk, stepHeap]
  cases d.lookup k <;> rfl

theorem mem_of_lookup {k : Str} {e : ℕ} (he : d.lookup k = some e) : e ∈ d.map Prod.snd := by
  obtain ⟨d₁, d₂, rfl, -⟩ := List.lookup_eq_some_iff.mp he
  simp

/-- An object that is neither in the dictionary nor added to it keeps its fields. -/
theorem stepHeap_of_ne {k : Str} {i : ℕ} (hi : i ∉ d.map Prod.snd) (hr : i ≠ r) :
    stepHeap h d k r i = h i := by
  rw [stepHeap]
  cases hl : d.lookup k with
  | none => rfl
  | some e =>
    rw [Option.elim_some, Function.update_of_ne]
    intro hw
    rcases winner_cases h e r with he | he
    · exact hi ((hw.trans he) ▸ mem_of_lookup hl)
    · exact hr (hw.trans he)

theorem deref_upsert (hd : (d.map Prod.snd).Nodup) (hr : r ∉ d.map Prod.snd) (k : Str) :
    deref (stepHeap h d k r) (upsert (winner h) k r d) = upsert merge k (h r) (deref h d) := by
  induction d with
  | nil => rfl
  | cons e d ih =>
    obtain ⟨k', v⟩ := e
    obtain ⟨hv, hd⟩ := List.nodup_cons.mp hd
    simp only [List.map_cons, List.mem_cons, not_or] at hv hr
    obtain ⟨hrv, hr⟩ := hr
    by_cases hk : k' = k
    · subst hk
      have hl : stepHeap h ((k', v) :: d) k' r =
          Function.update h (winner h v r) (merge (h v) (h r)) := by
        simp [stepHeap]
      have hrest : ∀ e ∈ d, Function.update h (winner h v r) (merge (h v) (h r)) e.2 = h e.2 := by
        intro e he
        have hm : e.2 ∈ d.map Prod.snd := List.mem_map_of_mem he
        apply Function.update_of_ne
        rcases winner_cases h v r with hw | hw <;> rw [hw] <;> rintro heq
        exacts [hv (heq ▸ hm), hr (heq ▸ hm)]
      rw [hl, upsert, if_pos rfl, deref, deref, List.map_cons, List.map_cons, upsert, if_pos rfl]
      simp only [Function.update_self]
      exact congrArg _ (List.map_congr_left fun e he => by rw [hrest e he])
    · have hl : stepHeap h ((k', v) :: d) k r = stepHeap h d k r := by
        have hne : (k == k') = false := beq_eq_false_iff_ne.mpr (Ne.symm hk)
        rw [stepHeap, List.lookup_cons, hne]
        rfl
      have hhead : stepHeap h d k r v = h v := stepHeap_of_ne hv (Ne.symm hrv)
      rw [hl, upsert, if_neg hk, deref, List.map_cons, ← deref, ih hd hr, hhead]
      simp only [deref, List.map_cons]
      rw [upsert, if_neg hk]

theorem dedupePass_values (hkey : ∀ p q : Paper, p.identity = q.identity → key p = key q)
    (h : Heap) {refs : List ℕ} (hrefs : refs.Nodup) :
    (dedupePass key h refs).2.map (dedupePass key h refs).1 =
      (collect key merge (refs.map h)).map Prod.snd := by
  suffices hfold : deref (refs.foldl (dedupeStep key) (h, [])).1
        (refs.foldl (dedupeStep key) (h, [])).2 = collect key merge (refs.map h) ∧
      ∀ i ∉ refs, (refs.foldl (dedupeStep key) (h, [])).1 i = h i by
    rw [← hfold.1]
    simp [dedupePass, deref]
  induction refs using List.reverseRecOn with
  | nil => exact ⟨rfl, fun _ _ => rfl⟩
  | append_singleton refs r ih =>
    obtain ⟨hrefs, -, hdisj⟩ := List.nodup_append'.mp hrefs
    have hr : r ∉ refs := fun hm => hdisj hm (List.mem_singleton_self r)
    obtain ⟨-, hmem, hnodup⟩ := dedupePass_spec hkey h refs
    replace hnodup := hnodup.of_map
    obtain ⟨hval, hheap⟩ := ih hrefs
    simp only [dedupePass] at hmem hnodup
    rw [List.foldl_append, List.foldl_cons, List.foldl_nil, List.map_append, List.map_singleton,
      collect, List.foldl_append, List.foldl_cons, List.foldl_nil, ← collect, ← hval]
    generalize refs.foldl (dedupeStep key) (h, []) = s at hval hnodup hmem hheap ⊢
    obtain ⟨h', d⟩ := s
    have hrh : h' r = h r := hheap r hr
    have hrd : r ∉ d.map Prod.snd := fun hm => hr (hmem r hm).1
    cases hk : key (h' r) with
    | none =>
      rw [dedupeStep_of_none hk]
      refine ⟨?_, fun i hi => hheap i fun hm => hi (List.mem_append_left _ hm)⟩
      rw [collectStep, ← hrh, hk]
    | some k =>
      rw [dedupeStep_eq hk]
      refine ⟨?_, fun i hi => ?_⟩
      · rw [collectStep, ← hrh, hk]
        exact deref_upsert hnodup hrd k
      · simp only [List.mem_append, List.mem_singleton, not_or] at hi
        rw [← hheap i hi.1]
        exact stepHeap_of_ne (fun hm => hi.1 (hmem i hm).1) hi.2

theorem dedupeInPlace_values (u : Unicode) (h : Heap) {refs : List ℕ} (hrefs : refs.Nodup) :
    (dedupeInPlace u h refs).2.map (dedupeInPlace u h refs).1 = dedupe u (refs.map h) := by
  have hdoi : ∀ p q : Paper, p.identity = q.identity → doiKey u p = doiKey u q :=
    fun _ _ => doiKey_congr
  have hseen : (dedupePass (doiKey u) h refs).2.Nodup := (dedupePass_spec hdoi h refs).2.2.of_map
  rw [dedupeInPlace, dedupePass_values (fun _ _ => titleKey_congr) _ hseen,
    dedupePass_values hdoi h hrefs, dedupe]

theorem dedupe_dedupe (u : Unicode) (papers : List Paper) :
    dedupe u (dedupe u papers) = dedupe u papers := by
  cases papers with
  | nil => rfl
  | cons p ps =>
    set h : Heap := fun i => (p :: ps).getD i p with hh
    have hmap : (List.range (p :: ps).length).map h = p :: ps := by
      apply List.ext_getElem (by simp)
      intro i hi hi'
      rw [List.getElem_map, List.getElem_range]
      exact List.getD_eq_getElem _ _ hi'
    have hval := dedupeInPlace_values u h (List.nodup_range (n := (p :: ps).length))
    rw [hmap] at hval
    obtain ⟨ht, -⟩ := dedupeInPlace_keys u h (List.range (p :: ps).length)
    rw [← hval, ← dedupeInPlace_values u _ ht.of_map, (dedupeInPlace_fixedPoint u h _).2, hval]

end Values

end K8sLearn.Papers
