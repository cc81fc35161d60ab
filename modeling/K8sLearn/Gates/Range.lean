import K8sLearn.Gates.GoFile

/-! # Ranges of versions

The command line takes any two versions of which the first is not above the second. The loop of
`analyze_one` over the versions between them raises the minor number only, so it reaches the end
within one major version and never leaves the major version otherwise. A gate without a spec in
the range does not start the loop.
-/

namespace K8sLearn.Gates.Autok8s

def parseVersion (s : Str) : Option Version := vt ((Str.strip s).dropWhile fun c => c = 'v')

/-- The two versions of `--range`, unless `main` refuses them. -/
def parseRange (lower upper : Str) : Option (Version × Version) :=
  (parseVersion lower).bind fun lo => (parseVersion upper).bind fun hi =>
    if hi < lo then none else some (lo, hi)

def Spec.In (lo hi : Version) (e : Spec) : Prop := ∃ v, vt e.version = some v ∧ lo ≤ v ∧ v ≤ hi

instance (lo hi : Version) : DecidablePred (Spec.In lo hi) := fun e =>
  decidable_of_iff (∃ v ∈ vt e.version, lo ≤ v ∧ v ≤ hi) Iff.rfl

/-- The gate has a first spec, and its version lies in the range. -/
def FeatureGate.StartsIn (lo hi : Version) (g : FeatureGate) : Prop :=
  ∃ e ∈ g.specs.head?, e.In lo hi

instance (lo hi : Version) : DecidablePred (FeatureGate.StartsIn lo hi) := fun g =>
  inferInstanceAs (Decidable (∃ e ∈ g.specs.head?, e.In lo hi))

def FeatureGate.Versioned (g : FeatureGate) : Prop := ∀ e ∈ g.specs, (vt e.version).isSome

instance : DecidablePred FeatureGate.Versioned := fun g =>
  inferInstanceAs (Decidable (∀ e ∈ g.specs, (vt e.version).isSome))

/-- The analysis returns, and the rows it marks as added are those of the gates that start in the
range, by name. -/
def Analyzed (gates : List FeatureGate) (lo hi : Version) : Prop :=
  ∃ fuel₀, ∀ fuel ≥ fuel₀, ∃ rows, analyze fuel gates lo hi = some rows ∧
    (rows.filter fun r => r.changeType = .added).map FeatureChange.name =
      ((gates.insertionSort fun g g' => g.name ≤ g'.name).filter fun g => g.StartsIn lo hi).map
        FeatureGate.name

section Parser

theorem sortSpecs_versioned {specs sorted : List Spec} (h : sortSpecs specs = .ok sorted) :
    ∀ e ∈ sorted, (vt e.version).isSome := by
  unfold sortSpecs at h
  cases hm : specs.mapM fun e => (vt e.version).map fun v => (v, e) with
  | none =>
    rw [hm] at h
    cases h
  | some keyed =>
    rw [hm] at h
    obtain rfl := Except.ok.inj h
    intro e he
    obtain ⟨p, hp, rfl⟩ := List.mem_map.mp he
    obtain ⟨e', -, he'⟩ := (Lists.of_mapM_eq_some hm).2 p ((List.mem_insertionSort _).mp hp)
    obtain ⟨v, hv, rfl⟩ := Option.map_eq_some_iff.mp he'
    exact Option.isSome_iff_exists.mpr ⟨v, hv⟩

theorem exists_of_map_eq_ok {ε α β : Type} {x : Except ε α} {f : α → β} {b : β}
    (h : x.map f = .ok b) : ∃ a, x = .ok a ∧ f a = b := by
  cases x with
  | error err => cases h
  | ok a => exact ⟨a, rfl, Except.ok.inj h⟩

theorem gateOf_versioned {t : TextTables} {consts : Constants} {e : Str × Str}
    {g : Str × Str × FeatureGate} (h : gateOf t consts e = .ok (some g)) : g.2.2.Versioned := by
  unfold gateOf at h
  dsimp only at h
  split_ifs at h with hs
  · cases h
  · obtain ⟨specs, hsort, hg⟩ := exists_of_map_eq_ok h
    obtain rfl := Option.some.inj hg
    exact sortSpecs_versioned hsort

theorem mem_add {m : FeatureGateMap} {g : Str × Str × FeatureGate} {e : Str × FeatureGate}
    (h : e ∈ (m.add g).gates) : e ∈ m.gates ∨ e.2 = g.2.2 := by
  rcases mem_upsert h with h | rfl | ⟨v, -, rfl⟩
  · exact Or.inl h
  · exact Or.inr rfl
  · exact Or.inr rfl

theorem parseGoFile_versioned {t : TextTables} {src : Str} {m : FeatureGateMap}
    (h : parseGoFile t src = .ok m) : ∀ e ∈ m.gates, e.2.Versioned := by
  unfold parseGoFile at h
  cases hc : findBlock constMarker src with
  | error err =>
    rw [hc] at h
    cases h
  | ok constBlock =>
    cases hv : findBlock varMarker src with
    | error err =>
      rw [hc, hv] at h
      cases h
    | ok specBlock =>
      rw [hc, hv] at h
      dsimp only [Except.bind] at h
      obtain ⟨gates, hgates, rfl⟩ := exists_of_map_eq_ok h
      have hkept := (Lists.of_collectM_eq_ok hgates).2
      suffices hfold : ∀ (gates : List (Str × Str × FeatureGate)) (m : FeatureGateMap),
          (∀ g ∈ gates, g.2.2.Versioned) → (∀ e ∈ m.gates, e.2.Versioned) →
          ∀ e ∈ (gates.foldl FeatureGateMap.add m).gates, e.2.Versioned by
        refine hfold gates ⟨[], []⟩ (fun g hg => ?_) (by simp)
        obtain ⟨e, -, he⟩ := hkept g hg
        exact gateOf_versioned he
      intro gates
      induction gates with
      | nil => exact fun m _ hm => hm
      | cons g gates ih =>
        intro m hg hm
        refine ih (m.add g) (fun g' hg' => hg g' (List.mem_cons_of_mem _ hg')) fun e he => ?_
        rcases mem_add he with he | he
        · exact hm e he
        · rw [he]
          exact hg g List.mem_cons_self

end Parser

section Loop

variable {lo hi : Version} {fuel : ℕ}

/-- Below a larger major number the loop does not end. -/
theorem rangeVersions_eq_none {v : Version} (h : (ofLex v).1 < (ofLex hi).1) :
    rangeVersions hi fuel v = none := by
  induction fuel generalizing v with
  | zero => rfl
  | succ fuel ih =>
    have hv : v ≤ hi := Prod.Lex.le_iff.mpr (Or.inl h)
    rw [rangeVersions, if_pos hv, ih (v := v.next) h]
    rfl

def tag (e : Spec) : Version × Spec := ((vt e.version).getD (toLex (0, 0)), e)

variable {g : FeatureGate}

theorem FeatureGate.Versioned.tag_eq (hg : g.Versioned) {e : Spec} (he : e ∈ g.specs) :
    vt e.version = some (tag e).1 := by
  obtain ⟨v, hv⟩ := Option.isSome_iff_exists.mp (hg e he)
  rw [tag, hv, Option.getD_some]

theorem FeatureGate.Versioned.mapM_eq (hg : g.Versioned) :
    (g.specs.mapM fun e => (vt e.version).map fun v => (v, e)) = some (g.specs.map tag) := by
  apply Lists.mapM_eq_some_map
  intro e he
  rw [hg.tag_eq he]
  rfl

theorem FeatureGate.Versioned.filter_eq (hg : g.Versioned) :
    ((g.specs.map tag).filter fun e => lo ≤ e.1 ∧ e.1 ≤ hi).map Prod.snd =
      g.specs.filter fun e => e.In lo hi := by
  rw [List.filter_map, List.map_map]
  have hsnd : Prod.snd ∘ tag = id := rfl
  rw [hsnd, List.map_id]
  apply List.filter_congr
  intro e he
  have hin : e.In lo hi ↔ lo ≤ (tag e).1 ∧ (tag e).1 ≤ hi := by
    rw [Spec.In, hg.tag_eq he]
    simp
  simp [hin]

theorem analyzeOne_of_not_in (hg : g.Versioned) (h : ∀ e ∈ g.specs, ¬ e.In lo hi) :
    analyzeOne fuel g lo hi = some none := by
  rw [analyzeOne, hg.mapM_eq, Option.bind_some, hg.filter_eq,
    List.filter_eq_nil_iff.mpr fun e he => by simpa using h e he]

/-- Any other gate starts the loop, and its row is marked as added when the loop has met the
version of its first spec. -/
theorem analyzeOne_of_in (hg : g.Versioned) (h : ∃ e ∈ g.specs, e.In lo hi) :
    ∃ row : List Version → FeatureChange, (∀ vs, (row vs).name = g.name ∧
      ((row vs).changeType = .added ↔ ∃ e ∈ g.specs.head?, (tag e).1 ∈ vs)) ∧
      ∀ fuel, analyzeOne fuel g lo hi = (rangeVersions hi fuel lo).map fun vs => some (row vs) := by
  obtain ⟨e, he, hin⟩ := h
  have hne : g.specs.filter (fun e => e.In lo hi) ≠ [] :=
    List.ne_nil_of_mem (List.mem_filter.mpr ⟨he, by simpa using hin⟩)
  obtain ⟨first, rest, hir⟩ := List.exists_cons_of_ne_nil hne
  refine ⟨fun vs => changeRow g.name ((g.specs.map tag).head?.any fun e => e.1 ∈ vs)
    ((((g.specs.map tag).filter fun e => e.1 < lo).getLast?).map Prod.snd) first rest,
    fun vs => ⟨rfl, ?_⟩, fun fuel => ?_⟩
  · have hadded : ∀ (a : Bool) (d : Bool), (if a then ChangeType.added else if d then .deprecated
        else .changed) = .added ↔ a = true := by decide
    refine (hadded _ _).trans ?_
    rw [List.head?_map]
    cases g.specs.head? <;> simp
  · rw [analyzeOne, hg.mapM_eq, Option.bind_some, hg.filter_eq, hir]

/-- The row of a gate is marked as added exactly when the gate starts in the range. -/
def AddedOf (lo hi : Version) (row : Option FeatureChange) (g : FeatureGate) : Prop :=
  (row.toList.filter fun r => r.changeType = .added).map FeatureChange.name =
    if g.StartsIn lo hi then [g.name] else []

theorem exists_analyzeOne (hg : g.Versioned)
    (h : (ofLex lo).1 = (ofLex hi).1 ∨ ∀ e ∈ g.specs, ¬ e.In lo hi)
    (hfuel : ((ofLex hi).2 + 1 - (ofLex lo).2).toNat < fuel) :
    ∃ row, analyzeOne fuel g lo hi = some row ∧ AddedOf lo hi row g := by
  by_cases hin : ∃ e ∈ g.specs, e.In lo hi
  · have hmajor : (ofLex lo).1 = (ofLex hi).1 := by
      refine h.resolve_right fun hnot => ?_
      obtain ⟨e, he, hein⟩ := hin
      exact hnot e he hein
    obtain ⟨row, hrow, hrun⟩ := analyzeOne_of_in hg hin
    obtain ⟨versions, hversions, hmem⟩ := rangeVersions_eq fuel lo hmajor hfuel
    obtain ⟨hname, hadded⟩ := hrow versions
    have hstarts : (row versions).changeType = .added ↔ g.StartsIn lo hi := by
      rw [hadded]
      refine exists_congr fun e => and_congr_right fun he => ?_
      rw [hmem, Spec.In, hg.tag_eq (List.mem_of_mem_head? he)]
      simp
    refine ⟨some (row versions), by rw [hrun, hversions, Option.map_some], ?_⟩
    rw [AddedOf, Option.toList_some, List.filter_singleton]
    by_cases hs : g.StartsIn lo hi
    · simp [hs, hstarts.mpr hs, hname]
    · simp [hs, mt hstarts.mp hs]
  · have hnot : ∀ e ∈ g.specs, ¬ e.In lo hi := fun e he hein => hin ⟨e, he, hein⟩
    have hs : ¬ g.StartsIn lo hi := fun ⟨e, he, hein⟩ => hnot e (List.mem_of_mem_head? he) hein
    exact ⟨none, analyzeOne_of_not_in hg hnot, by simp [AddedOf, hs]⟩

theorem filter_reduceOption {rows : List (Option FeatureChange)} {gates : List FeatureGate}
    (h : List.Forall₂ (AddedOf lo hi) rows gates) :
    (rows.reduceOption.filter fun r => r.changeType = .added).map FeatureChange.name =
      (gates.filter fun g => g.StartsIn lo hi).map FeatureGate.name := by
  induction h with
  | nil => rfl
  | @cons row g rows gates hrow _ ih =>
    have hcons : (row :: rows).reduceOption = row.toList ++ rows.reduceOption := by
      cases row <;> rfl
    rw [hcons, List.filter_append, List.map_append, ih, hrow, List.filter_cons]
    by_cases hs : g.StartsIn lo hi <;> simp [hs]

end Loop

theorem le_of_parseRange {lower upper : Str} {lo hi : Version}
    (h : parseRange lower upper = some (lo, hi)) : lo ≤ hi := by
  obtain ⟨lo', -, h⟩ := Option.bind_eq_some_iff.mp h
  obtain ⟨hi', -, h⟩ := Option.bind_eq_some_iff.mp h
  split_ifs at h with hlt
  obtain ⟨rfl, rfl⟩ := Prod.mk.inj (Option.some.inj h)
  exact not_lt.mp hlt

theorem analyze_eq_none {lo hi : Version} {gates : List FeatureGate}
    (hgates : ∀ g ∈ gates, g.Versioned) (hmajor : (ofLex lo).1 < (ofLex hi).1)
    (hin : ∃ g ∈ gates, ∃ e ∈ g.specs, e.In lo hi) (fuel : ℕ) :
    analyze fuel gates lo hi = none := by
  obtain ⟨g, hg, e, he, hin⟩ := hin
  have hle : lo ≤ hi := Prod.Lex.le_iff.mpr (Or.inl hmajor)
  rw [analyze, if_neg (not_lt.mpr hle), Option.map_eq_none_iff, Option.eq_none_iff_forall_ne_some]
  intro r hr
  obtain ⟨row, hrow⟩ := (Lists.of_mapM_eq_some hr).1 g ((List.mem_insertionSort _).mpr hg)
  obtain ⟨_, -, hone⟩ := analyzeOne_of_in (hgates g hg) ⟨e, he, hin⟩
  rw [hone, rangeVersions_eq_none hmajor] at hrow
  cases hrow

/-- The analysis of a range returns, with the rows it should, exactly when the two versions have the
same major number or no gate has a spec in the range. -/
theorem analyze_returns_iff {lo hi : Version} (hle : lo ≤ hi) {gates : List FeatureGate}
    (hgates : ∀ g ∈ gates, g.Versioned) :
    Analyzed gates lo hi ↔
      (ofLex lo).1 = (ofLex hi).1 ∨ ∀ g ∈ gates, ∀ e ∈ g.specs, ¬ e.In lo hi := by
  constructor
  · rintro ⟨fuel, hrun⟩
    obtain ⟨rows, hrows, -⟩ := hrun fuel le_rfl
    by_contra hnot
    simp only [not_or, not_forall, not_not] at hnot
    obtain ⟨hne, g, hg, e, he, hin⟩ := hnot
    have hmajor : (ofLex lo).1 < (ofLex hi).1 := by
      rcases Prod.Lex.le_iff.mp hle with h | h
      · exact h
      · exact absurd h.1 hne
    rw [analyze_eq_none hgates hmajor ⟨g, hg, e, he, hin⟩] at hrows
    cases hrows
  · intro h
    refine ⟨((ofLex hi).2 + 1 - (ofLex lo).2).toNat + 1, fun fuel hfuel => ?_⟩
    have hall : List.Forall₂ (fun g g' => ∃ row, analyzeOne fuel g lo hi = some row ∧
        AddedOf lo hi row g') (gates.insertionSort fun g g' => g.name ≤ g'.name)
        (gates.insertionSort fun g g' => g.name ≤ g'.name) := by
      rw [List.forall₂_same]
      intro g hg
      have hmem := (List.mem_insertionSort _).mp hg
      exact exists_analyzeOne (hgates g hmem) (h.imp_right fun h => h g hmem) hfuel
    obtain ⟨rows, hrows, hadded⟩ := Lists.exists_mapM_of_forall₂ hall
    exact ⟨rows.reduceOption, by rw [analyze, if_neg (not_lt.mpr hle), hrows, Option.map_some],
      filter_reduceOption hadded⟩

theorem analyze_returns_iff_flip : Analyzed flipGates (toLex (1, 35)) (toLex (1, 36)) :=
  (analyze_returns_iff (by decide) (by decide +kernel)).mpr (Or.inl rfl)

/-- From 1.35 to 2.0 the loop over the versions counts 1.35, 1.36, 1.37 and so on. -/
theorem analyze_not_returns :
    parseRange "1.35".toList "2.0".toList = some (toLex (1, 35), toLex (2, 0)) ∧
      (∀ g ∈ flipGates, g.Versioned) ∧ ¬ Analyzed flipGates (toLex (1, 35)) (toLex (2, 0)) := by
  have hversioned : ∀ g ∈ flipGates, g.Versioned := by decide +kernel
  refine ⟨by decide +kernel, hversioned, ?_⟩
  rintro ⟨fuel, hrun⟩
  obtain ⟨rows, hrows, -⟩ := hrun fuel le_rfl
  rw [analyze_eq_none hversioned (by decide) (by decide +kernel)] at hrows
  cases hrows

end K8sLearn.Gates.Autok8s
