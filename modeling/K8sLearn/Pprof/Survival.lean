import K8sLearn.Pprof.Retention

/-! # Whether a fresh export survives

The cleanup at the end of an export ranks the batches by their timestamps, the new one among
them. After the clock was set back there may be two larger ones, and then the export removes
what it has just written.
-/

namespace K8sLearn.Pprof

section Fresh

variable {o : Outcome} {c : Config} {now : Clock} {scope : List Name} {fs : Finset Path} {q : Path}

theorem not_mem_matching_of_slash (hslash : '/' ∈ c.filePrefix)
    (hq : Created o c now.format scope q) (fs : Finset Path) : q ∉ matching c fs := by
  obtain ⟨n, -, -, rfl⟩ := hq
  intro hm
  obtain ⟨-, -, hprofile⟩ := mem_matching.mp hm
  rw [isProfile, Bool.and_eq_true, List.isPrefixOf_iff_prefix] at hprofile
  have hmem := hprofile.1.subset hslash
  rw [fileName_createProfileFile, List.append_assoc] at hmem
  rcases List.mem_append.mp hmem with hmem | hmem
  · exact slash_not_mem_lastElement _ hmem
  · simp [now.slash_not_mem_format, n.slash_not_mem_fileExt] at hmem

/-- A file just written is still there exactly when the cleanup does not get to removing it, or
fewer than two of the batches found before have larger timestamps. -/
theorem mem_exportScope_of_created (hhyphen : '-' ∉ c.filePrefix)
    (hq : Created o c now.format scope q) :
    q ∈ exportScope o c now scope fs ↔
      (above (batches c fs) now.format).card < keepRecentCount ∨ o.walkFails = true ∨
        '/' ∈ c.filePrefix ∨ o.removeFails q = true := by
  have hwritten : q ∈ scope.foldl (exportProfile o c now.format) fs :=
    (mem_foldl_exportProfile o scope fs q).mpr (Or.inr hq)
  rw [exportScope, mem_cleanOldProfileFile, and_iff_right hwritten]
  by_cases hslash : '/' ∈ c.filePrefix
  · simp [hslash, not_mem_matching_of_slash hslash hq]
  · have hmatching : q ∈ matching c (scope.foldl (exportProfile o c now.format) fs) :=
      (mem_matching_write hslash o fs now scope q).mpr (Or.inr hq)
    have htimestamp : extractTimestamp (fileName q) = now.format := by
      obtain ⟨n, -, -, rfl⟩ := hq
      exact extractTimestamp_create hslash hhyphen n now
    rw [htimestamp, batches_write hslash hhyphen fs hq, mem_newest_union_singleton]
    simp only [hmatching, not_true_eq_false, hslash, false_or]
    rw [← or_assoc, or_comm]

end Fresh

/-- All files that an export has written are still there when it returns, if and only if fewer
than two of the batches that were there have larger timestamps than the new one, or the cleanup
removes none of them because the walk fails, the prefix has a slash or each removal fails. -/
theorem exportScope_survives_iff (o : Outcome) (c : Config) (hhyphen : '-' ∉ c.filePrefix)
    (now : Clock) (scope : List Name) (fs : Finset Path) :
    (∀ q, Created o c now.format scope q → q ∈ exportScope o c now scope fs) ↔
      (above (batches c fs) now.format).card < keepRecentCount ∨ o.walkFails = true ∨
        '/' ∈ c.filePrefix ∨ ∀ q, Created o c now.format scope q → o.removeFails q = true := by
  constructor
  · intro h
    by_contra hn
    simp only [not_or, not_forall] at hn
    obtain ⟨hcard, hwalk, hslash, q, hq, hremove⟩ := hn
    rcases (mem_exportScope_of_created hhyphen hq).mp (h q hq) with h' | h' | h' | h'
    exacts [hcard h', hwalk h', hslash h', hremove h']
  · intro h q hq
    rw [mem_exportScope_of_created hhyphen hq]
    exact h.imp_right fun h => h.imp_right fun h => h.imp_right fun h => h q hq

/-- Export at noon, with what the exports one and two seconds later left: the heap profile that
it writes is gone when it returns. -/
theorem exportScope_removes_fresh :
    let c : Config := ⟨"kcm".toList, ["dump".toList]⟩
    let fs := runExports c ∅ [⟨afterNoon, [.heap], by simp⟩, fourthCall]
    let fresh := createProfileFile c Name.heap.fileExt noon.format
    Created .success c noon.format [.heap] fresh ∧
      fresh ∉ exportScope .success c noon [.heap] fs := by
  intro c fs fresh
  have hcreated : Created .success c noon.format [.heap] fresh :=
    created_success_iff.mpr ⟨.heap, List.mem_singleton_self _, rfl⟩
  have hbatches : batches c fs = newest keepRecentCount (timestamps _) :=
    (retains_runExports (c := c) (by decide) (by decide) (by decide) _).batches_eq (by decide)
      (by decide)
  refine ⟨hcreated, ?_⟩
  rw [mem_exportScope_of_created (by decide) hcreated, hbatches]
  decide +kernel

theorem exportScope_survives_iff_noon :
    let c : Config := ⟨"kcm".toList, ["dump".toList]⟩
    createProfileFile c Name.heap.fileExt noon.format ∈ exportScope .success c noon [.heap] ∅ :=
  (exportScope_survives_iff .success ⟨"kcm".toList, ["dump".toList]⟩ (by decide) noon [.heap]
    ∅).mpr (Or.inl (by decide +kernel)) _
    (created_success_iff.mpr ⟨.heap, List.mem_singleton_self _, rfl⟩)

theorem runExports_survives_iff {c : Config} (hslash : '/' ∉ c.filePrefix)
    (hhyphen : '-' ∉ c.filePrefix) {fs : Finset Path} (h : matching c fs = ∅)
    (calls : List ExportCall) (e : ExportCall) :
    (∀ n ∈ e.scope, createProfileFile c n.fileExt e.now.format ∈
        exportScope .success c e.now e.scope (runExports c fs calls)) ↔
      (above (timestamps calls) e.now.format).card < keepRecentCount := by
  have hb := (retains_runExports hslash hhyphen h calls).batches_eq hslash hhyphen
  have hmem : ∀ n ∈ e.scope, createProfileFile c n.fileExt e.now.format ∈
      exportScope .success c e.now e.scope (runExports c fs calls) ↔
        (above (timestamps calls) e.now.format).card < keepRecentCount := by
    intro n hn
    rw [mem_exportScope_of_created hhyphen (created_success_iff.mpr ⟨n, hn, rfl⟩), hb,
      ← mem_newest_union_singleton, newest_newest_union, mem_newest_union_singleton]
    simp [Outcome.success, hslash]
  constructor
  · intro hall
    obtain ⟨n, hn⟩ := List.exists_mem_of_ne_nil _ e.scope_ne_nil
    exact (hmem n hn).mp (hall n hn)
  · exact fun hcard n hn => (hmem n hn).mpr hcard

end K8sLearn.Pprof
