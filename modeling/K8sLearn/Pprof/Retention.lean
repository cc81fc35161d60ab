import K8sLearn.Pprof.Exporter

/-! # Retention over runs

With a prefix that has neither a hyphen nor a slash, the matching files after any run of
successful exports are exactly all files written under the two newest timestamps. Each
export adds one timestamp and its files; the cleanup recomputes the newest timestamps
from what is left of the earlier ones, which loses nothing.
-/

namespace K8sLearn.Pprof

structure ExportCall where
  now : Clock
  scope : List Name
  scope_ne_nil : scope ≠ []

def runExports (c : Config) (fs : Finset Path) (calls : List ExportCall) : Finset Path :=
  calls.foldl (fun fs e => exportScope .success c e.now e.scope fs) fs

def timestamps (calls : List ExportCall) : Finset Str :=
  (calls.map fun e => e.now.format).toFinset

/-- The files written under one of the newest timestamps of a run. -/
def Kept (c : Config) (calls : List ExportCall) (q : Path) : Prop :=
  ∃ e ∈ calls, e.now.format ∈ newest keepRecentCount (timestamps calls) ∧
    ∃ n ∈ e.scope, q = createProfileFile c n.fileExt e.now.format

/-- The matching files are the kept ones. -/
def Retains (c : Config) (calls : List ExportCall) (fs : Finset Path) : Prop :=
  ∀ q, q ∈ matching c fs ↔ Kept c calls q

section Write

variable {c : Config}

def Created (o : Outcome) (c : Config) (timestamp : Str) (scope : List Name) (q : Path) : Prop :=
  ∃ n ∈ scope, o.createFails q = false ∧ q = createProfileFile c n.fileExt timestamp

theorem created_success_iff {timestamp : Str} {scope : List Name} {q : Path} :
    Created .success c timestamp scope q ↔
      ∃ n ∈ scope, q = createProfileFile c n.fileExt timestamp := by
  simp [Created, Outcome.success]

theorem mem_foldl_exportProfile (o : Outcome) {timestamp : Str} (scope : List Name)
    (fs : Finset Path) (q : Path) :
    q ∈ scope.foldl (exportProfile o c timestamp) fs ↔
      q ∈ fs ∨ Created o c timestamp scope q := by
  induction scope generalizing fs with
  | nil => simp [Created]
  | cons n scope ih =>
    have hstep : q ∈ exportProfile o c timestamp fs n ↔
        q ∈ fs ∨ o.createFails q = false ∧ q = createProfileFile c n.fileExt timestamp := by
      simp only [exportProfile]
      split_ifs with hfail
      · constructor
        · exact Or.inl
        · rintro (hq | ⟨hc, rfl⟩)
          · exact hq
          · rw [hfail] at hc
            exact absurd hc (by simp)
      · rw [Finset.mem_insert]
        constructor
        · rintro (rfl | hq)
          · exact Or.inr ⟨by simpa using hfail, rfl⟩
          · exact Or.inl hq
        · rintro (hq | ⟨-, rfl⟩)
          · exact Or.inr hq
          · exact Or.inl rfl
    rw [List.foldl_cons, ih, hstep]
    simp only [Created, List.mem_cons, exists_eq_or_imp, or_assoc]

variable (hslash : '/' ∉ c.filePrefix)

include hslash

theorem createProfileFile_eq (n : Name) (t : Clock) :
    createProfileFile c n.fileExt t.format =
      c.profilingPath ++ [profileFile c n.fileExt t.format] := by
  have hf : '/' ∉ profileFile c n.fileExt t.format := by
    simp [profileFile, hslash, t.slash_not_mem_format, n.slash_not_mem_fileExt]
  have hmem : '-' ∈ profileFile c n.fileExt t.format := by simp [profileFile]
  rw [createProfileFile, List.splitOn_eq_singleton hf, List.foldl_cons, List.foldl_nil]
  generalize profileFile c n.fileExt t.format = f at hmem
  have h₁ : f ≠ [] := by rintro rfl; simp at hmem
  have h₂ : f ≠ ['.'] := by rintro rfl; simp at hmem
  have h₃ : f ≠ ['.', '.'] := by rintro rfl; simp at hmem
  simp [cleanStep, h₁, h₂, h₃]

theorem createProfileFile_matches (n : Name) (t : Clock) :
    c.profilingPath.isPrefixOf (createProfileFile c n.fileExt t.format) = true ∧
      isProfile c (fileName (createProfileFile c n.fileExt t.format)) = true := by
  rw [createProfileFile_eq hslash]
  refine ⟨by simp, ?_⟩
  have hname : fileName (c.profilingPath ++ [profileFile c n.fileExt t.format]) =
      c.filePrefix ++ ('-' :: t.format ++ '-' :: n.profileName ++ ".profile".toList) := by
    simp [fileName, profileFile, Name.fileExt_eq]
  rw [isProfile, hname, Bool.and_eq_true]
  refine ⟨by simp, ?_⟩
  rw [List.isSuffixOf_iff_suffix, ← List.append_assoc]
  exact List.suffix_append _ _

theorem mem_matching_write (o : Outcome) (fs : Finset Path) (t : Clock) (scope : List Name)
    (q : Path) :
    q ∈ matching c (scope.foldl (exportProfile o c t.format) fs) ↔
      q ∈ matching c fs ∨ Created o c t.format scope q := by
  rw [mem_matching, mem_matching, mem_foldl_exportProfile]
  constructor
  · rintro ⟨hq | hq, hm⟩
    · exact Or.inl ⟨hq, hm⟩
    · exact Or.inr hq
  · rintro (⟨hq, hm⟩ | hq)
    · exact ⟨Or.inl hq, hm⟩
    · refine ⟨Or.inr hq, ?_⟩
      obtain ⟨n, -, -, rfl⟩ := hq
      exact createProfileFile_matches hslash n t

variable (hhyphen : '-' ∉ c.filePrefix)

include hhyphen

theorem extractTimestamp_create (n : Name) (t : Clock) :
    extractTimestamp (fileName (createProfileFile c n.fileExt t.format)) = t.format :=
  extractTimestamp_of_not_mem c n t (by rwa [lastElement_eq_self hslash])

theorem batches_write {o : Outcome} (fs : Finset Path) {t : Clock} {scope : List Name} {q : Path}
    (hq : Created o c t.format scope q) :
    batches c (scope.foldl (exportProfile o c t.format) fs) = batches c fs ∪ {t.format} := by
  ext a
  simp only [batches, Finset.mem_image, mem_matching_write hslash, Finset.mem_union,
    Finset.mem_singleton]
  constructor
  · rintro ⟨q', hq' | ⟨n, -, -, rfl⟩, rfl⟩
    · exact Or.inl ⟨q', hq', rfl⟩
    · exact Or.inr (extractTimestamp_create hslash hhyphen n t)
  · rintro (⟨q', hq', rfl⟩ | rfl)
    · exact ⟨q', Or.inl hq', rfl⟩
    · refine ⟨q, Or.inr hq, ?_⟩
      obtain ⟨n, -, -, rfl⟩ := hq
      exact extractTimestamp_create hslash hhyphen n t

end Write

section Run

variable {c : Config} {calls : List ExportCall} {fs : Finset Path}

theorem timestamps_append (calls : List ExportCall) (e : ExportCall) :
    timestamps (calls ++ [e]) = timestamps calls ∪ {e.now.format} := by
  ext a
  simp [timestamps]

theorem mem_timestamps {a : Str} : a ∈ timestamps calls ↔ ∃ e ∈ calls, e.now.format = a := by
  simp [timestamps]

variable (hslash : '/' ∉ c.filePrefix) (hhyphen : '-' ∉ c.filePrefix)

include hslash hhyphen

theorem Retains.batches_eq (h : Retains c calls fs) :
    batches c fs = newest keepRecentCount (timestamps calls) := by
  ext a
  rw [batches, Finset.mem_image]
  constructor
  · rintro ⟨q, hq, rfl⟩
    obtain ⟨e, -, hkeep, n, -, rfl⟩ := (h q).mp hq
    rwa [extractTimestamp_create hslash hhyphen]
  · intro ha
    obtain ⟨e, he, rfl⟩ := mem_timestamps.mp (newest_subset _ _ ha)
    obtain ⟨n, hn⟩ := List.exists_mem_of_ne_nil _ e.scope_ne_nil
    exact ⟨_, (h _).mpr ⟨e, he, ha, n, hn, rfl⟩, extractTimestamp_create hslash hhyphen n _⟩

theorem Retains.exportScope (h : Retains c calls fs) (e : ExportCall) :
    Retains c (calls ++ [e]) (exportScope .success c e.now e.scope fs) := by
  intro q
  obtain ⟨n₀, hn₀⟩ := List.exists_mem_of_ne_nil _ e.scope_ne_nil
  have hcreated : Created .success c e.now.format e.scope
      (createProfileFile c n₀.fileExt e.now.format) := created_success_iff.mpr ⟨n₀, hn₀, rfl⟩
  have hclean : q ∈ matching c (Pprof.exportScope .success c e.now e.scope fs) ↔
      q ∈ matching c (e.scope.foldl (exportProfile .success c e.now.format) fs) ∧
        extractTimestamp (fileName q) ∈
          newest keepRecentCount (timestamps calls ∪ {e.now.format}) := by
    rw [Pprof.exportScope, mem_matching, mem_cleanOldProfileFile,
      batches_write hslash hhyphen fs hcreated, h.batches_eq hslash hhyphen, newest_newest_union]
    simp only [Outcome.success, Bool.false_eq_true, false_or]
    constructor
    · rintro ⟨⟨hq, hk⟩, hp⟩
      have hm := mem_matching.mpr ⟨hq, hp⟩
      exact ⟨hm, hk.resolve_left (not_not.mpr hm)⟩
    · rintro ⟨hm, hk⟩
      obtain ⟨hq, hp⟩ := mem_matching.mp hm
      exact ⟨⟨hq, Or.inr hk⟩, hp⟩
  rw [hclean, mem_matching_write hslash, created_success_iff, ← timestamps_append, h q]
  constructor
  · rintro ⟨⟨e', he', -, n, hn, rfl⟩ | ⟨n, hn, rfl⟩, hkeep⟩
    · rw [extractTimestamp_create hslash hhyphen] at hkeep
      exact ⟨e', by simp [he'], hkeep, n, hn, rfl⟩
    · rw [extractTimestamp_create hslash hhyphen] at hkeep
      exact ⟨e, by simp, hkeep, n, hn, rfl⟩
  · rintro ⟨e', he', hkeep, n, hn, rfl⟩
    rw [extractTimestamp_create hslash hhyphen]
    refine ⟨?_, hkeep⟩
    rcases List.mem_append.mp he' with he' | he'
    · -- a timestamp that is among the newest now was among the newest before
      have hsub : timestamps calls ⊆ timestamps (calls ++ [e]) := by
        rw [timestamps_append]
        exact Finset.subset_union_left
      have hold := mem_newest_of_subset hsub hkeep (mem_timestamps.mpr ⟨e', he', rfl⟩)
      exact Or.inl ⟨e', he', hold, n, hn, rfl⟩
    · obtain rfl := List.mem_singleton.mp he'
      exact Or.inr ⟨n, hn, rfl⟩

theorem retains_runExports (h : matching c fs = ∅) (calls : List ExportCall) :
    Retains c calls (runExports c fs calls) := by
  induction calls using List.reverseRecOn with
  | nil =>
    intro q
    simp [runExports, h, Kept]
  | append_singleton calls e ih =>
    rw [runExports, List.foldl_append]
    exact ih.exportScope hslash hhyphen e

end Run

/-- After every run of successful exports from a directory without matching files, the matching
files are exactly all files written under the newest timestamps, as many as there are up to two. -/
theorem runExports_retains (c : Config) (hhyphen : '-' ∉ c.filePrefix) (hslash : '/' ∉ c.filePrefix)
    (fs : Finset Path) (h : matching c fs = ∅) (calls : List ExportCall) :
    (∀ q, q ∈ matching c (runExports c fs calls) ↔
      ∃ e ∈ calls, e.now.format ∈ newest 2 (timestamps calls) ∧
        ∃ n ∈ e.scope, q = createProfileFile c n.fileExt e.now.format) ∧
    (newest 2 (timestamps calls)).card = min 2 (timestamps calls).card :=
  ⟨retains_runExports hslash hhyphen h calls, card_newest 2 _⟩

def threeCalls : List ExportCall :=
  [⟨noon, [.heap, .goroutine], by simp⟩, ⟨afterNoon, [.heap], by simp⟩,
    ⟨afterNoon, [.cpu], by simp⟩]

def fourthCall : ExportCall :=
  ⟨{ afterNoon with second := 2, second_lt := by decide }, [.heap], by simp⟩

theorem runExports_retains_four :
    let c : Config := ⟨"kcm".toList, ["dump".toList]⟩
    let fs := runExports c ∅ (threeCalls ++ [fourthCall])
    createProfileFile c Name.heap.fileExt noon.format ∉ matching c fs ∧
      createProfileFile c Name.cpu.fileExt afterNoon.format ∈ matching c fs ∧
      createProfileFile c Name.heap.fileExt afterNoon.format ∈ matching c fs ∧
      createProfileFile c Name.heap.fileExt fourthCall.now.format ∈ matching c fs := by
  have h := (runExports_retains ⟨"kcm".toList, ["dump".toList]⟩ (by decide) (by decide) ∅
    (by decide) (threeCalls ++ [fourthCall])).1
  simp only [h]
  decide +kernel

end K8sLearn.Pprof
