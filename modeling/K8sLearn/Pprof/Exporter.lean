import Mathlib.Data.Char
import Mathlib.Data.List.Lex
import K8sLearn.Lib.Newest
import K8sLearn.Pprof.Names

/-! # Exporting and cleaning up

`Export` writes one file for each profile of the scope and then removes the files of old
batches: it lists the matching files under the profiling path, groups them by extracted
timestamp and keeps the two largest timestamps. The file system is the set of its
non-directory paths; the outcome of each file operation is an input.
-/

namespace K8sLearn.Pprof

def keepRecentCount : ℕ := 2

/-- Which file operations of a call fail. -/
structure Outcome where
  walkFails : Bool
  createFails : Path → Bool
  removeFails : Path → Bool

def Outcome.success : Outcome := ⟨false, fun _ => false, fun _ => false⟩

structure ProfileFile where
  path : Path
  name : Str
  timestamp : Str

/-- `filepath.Walk` from the profiling path, over the non-directory entries. -/
def walk (c : Config) (fs : Finset Path) : List Path :=
  (fs.filter fun p => c.profilingPath.isPrefixOf p).sort

def isProfile (c : Config) (name : Str) : Bool :=
  c.filePrefix.isPrefixOf name && ".profile".toList.isSuffixOf name

/-- `getAllProfileFiles`; a failed walk has no result. -/
def getAllProfileFiles (o : Outcome) (c : Config) (fs : Finset Path) : Option (List ProfileFile) :=
  if o.walkFails then none
  else
    some (((walk c fs).filter fun p => isProfile c (fileName p)).map fun p =>
      ⟨p, fileName p, extractTimestamp (fileName p)⟩)

def collectBatches (profileFiles : List ProfileFile) : List Str :=
  profileFiles.foldl
    (fun batches f =>
      if batches.contains f.timestamp then batches else batches ++ [f.timestamp]) []

def findBatchToKeep (profileFiles : List ProfileFile) : List Str :=
  ((collectBatches profileFiles).insertionSort (· ≥ ·)).take keepRecentCount

def cleanOldProfileFile (o : Outcome) (c : Config) (fs : Finset Path) : Finset Path :=
  match getAllProfileFiles o c fs with
  | none => fs
  | some profileFiles =>
    let batchesToKeep := findBatchToKeep profileFiles
    profileFiles.foldl
      (fun fs f => if !batchesToKeep.contains f.timestamp && !o.removeFails f.path then
        fs.erase f.path else fs) fs

/-- `exportProfile`: the file is created or truncated; its contents are not modelled. -/
def exportProfile (o : Outcome) (c : Config) (timestamp : Str) (fs : Finset Path) (n : Name) :
    Finset Path :=
  let path := createProfileFile c n.fileExt timestamp
  if o.createFails path then fs else insert path fs

def exportScope (o : Outcome) (c : Config) (now : Clock) (scope : List Name) (fs : Finset Path) :
    Finset Path :=
  cleanOldProfileFile o c (scope.foldl (exportProfile o c now.format) fs)

def matching (c : Config) (fs : Finset Path) : Finset Path :=
  fs.filter fun p => c.profilingPath.isPrefixOf p ∧ isProfile c (fileName p)

def batches (c : Config) (fs : Finset Path) : Finset Str :=
  (matching c fs).image fun p => extractTimestamp (fileName p)

section Cleanup

variable {o : Outcome} {c : Config} {fs : Finset Path}

theorem mem_collectBatches (files : List ProfileFile) :
    (collectBatches files).Nodup ∧
      ∀ a, a ∈ collectBatches files ↔ a ∈ files.map ProfileFile.timestamp := by
  induction files using List.reverseRecOn with
  | nil => simp [collectBatches]
  | append_singleton files f ih =>
    obtain ⟨hnodup, hmem⟩ := ih
    have hstep : collectBatches (files ++ [f]) =
        if f.timestamp ∈ collectBatches files then collectBatches files
        else collectBatches files ++ [f.timestamp] := by
      rw [collectBatches, List.foldl_append, ← collectBatches]
      simp
    rw [hstep]
    split_ifs with h
    · refine ⟨hnodup, fun a => ?_⟩
      rw [hmem, List.map_append, List.mem_append, List.map_singleton, List.mem_singleton]
      exact ⟨Or.inl, fun ha => ha.elim id fun hf => hf ▸ (hmem _).mp h⟩
    · refine ⟨hnodup.append (List.nodup_singleton _) (by simpa using h), fun a => ?_⟩
      simp [hmem]

theorem mem_findBatchToKeep {files : List ProfileFile} {a : Str} :
    a ∈ findBatchToKeep files ↔
      a ∈ newest keepRecentCount (files.map ProfileFile.timestamp).toFinset := by
  obtain ⟨hnodup, hmem⟩ := mem_collectBatches files
  have hperm := List.perm_insertionSort (· ≥ ·) (collectBatches files)
  have hsort : ((collectBatches files).insertionSort (· ≥ ·)).Pairwise (· > ·) :=
    ((List.pairwise_insertionSort (· ≥ ·) _).and (hperm.nodup_iff.mpr hnodup)).imp
      fun h => lt_of_le_of_ne h.1 h.2.symm
  have hset : ((collectBatches files).insertionSort (· ≥ ·)).toFinset =
      (files.map ProfileFile.timestamp).toFinset := by
    ext b
    rw [List.mem_toFinset, List.mem_toFinset, hperm.mem_iff, hmem]
  rw [findBatchToKeep, mem_take_iff_mem_newest hsort, hset]

theorem mem_foldl_erase {p : ProfileFile → Prop} [DecidablePred p] (files : List ProfileFile)
    (fs : Finset Path) (q : Path) :
    q ∈ files.foldl (fun fs f => if p f then fs.erase f.path else fs) fs ↔
      q ∈ fs ∧ ∀ f ∈ files, p f → f.path ≠ q := by
  induction files generalizing fs with
  | nil => simp
  | cons f files ih =>
    rw [List.foldl_cons, ih]
    split_ifs with h
    · simp only [Finset.mem_erase, List.mem_cons, forall_eq_or_imp, h, true_imp_iff, and_assoc,
        ne_comm (a := q), and_left_comm]
    · simp [h]

theorem mem_matching {q : Path} :
    q ∈ matching c fs ↔
      q ∈ fs ∧ c.profilingPath.isPrefixOf q = true ∧ isProfile c (fileName q) = true := by
  simp [matching]

theorem getAllProfileFiles_eq (h : o.walkFails = false) :
    ∃ files, getAllProfileFiles o c fs = some files ∧
      (∀ f, f ∈ files ↔ ∃ q ∈ matching c fs, f = ⟨q, fileName q, extractTimestamp (fileName q)⟩) ∧
      (files.map ProfileFile.timestamp).toFinset = batches c fs := by
  rw [getAllProfileFiles, h]
  have hmem : ∀ q, q ∈ (walk c fs).filter (fun p => isProfile c (fileName p)) ↔
      q ∈ matching c fs := by
    intro q
    simp [walk, matching, and_assoc]
  refine ⟨_, rfl, fun f => ?_, ?_⟩
  · simp only [List.mem_map, hmem, eq_comm]
  · ext b
    simp only [List.mem_toFinset, List.mem_map, List.map_map, hmem, batches, Finset.mem_image,
      Function.comp_apply]

theorem mem_cleanOldProfileFile {q : Path} :
    q ∈ cleanOldProfileFile o c fs ↔
      q ∈ fs ∧ (o.walkFails = true ∨ q ∉ matching c fs ∨ o.removeFails q = true ∨
        extractTimestamp (fileName q) ∈ newest keepRecentCount (batches c fs)) := by
  unfold cleanOldProfileFile
  cases hw : o.walkFails with
  | true => simp [getAllProfileFiles, hw]
  | false =>
    obtain ⟨files, hfiles, hmem, hbatches⟩ := @getAllProfileFiles_eq o c fs hw
    simp only [hfiles, mem_foldl_erase, Bool.and_eq_true, Bool.not_eq_true', ← Bool.not_eq_true,
      List.contains_iff_mem, mem_findBatchToKeep, hbatches, Bool.false_eq_true, false_or]
    apply and_congr_right
    intro _
    constructor
    · intro h
      by_contra hn
      simp only [not_or, not_not] at hn
      have hf := h ⟨q, fileName q, extractTimestamp (fileName q)⟩ ((hmem _).mpr ⟨q, hn.1, rfl⟩)
      dsimp only at hf
      exact hf ⟨hn.2.2, hn.2.1⟩ rfl
    · rintro h f hf ⟨hkeep, hremove⟩ rfl
      obtain ⟨p, hp, rfl⟩ := (hmem f).mp hf
      dsimp only at h hkeep hremove
      rcases h with h | h | h
      · exact h hp
      · exact hremove h
      · exact hkeep h

end Cleanup

/-- The names an exporter with this configuration gives its files. -/
def Own (c : Config) (name : Str) : Prop :=
  ∃ (t : Clock) (n : Name), name = profileFile c n.fileExt t.format

/-- The cleanup touches only files of its own exporter if and only if no other file that passes
the name test has two larger timestamps, as they are extracted, among the files that pass. -/
theorem cleanOldProfileFile_only_own_iff (c : Config) (fs : Finset Path) :
    (∀ (o : Outcome), ∀ q ∈ fs, q ∉ cleanOldProfileFile o c fs → Own c (fileName q)) ↔
      ∀ q ∈ matching c fs, ¬ Own c (fileName q) →
        (above (batches c fs) (extractTimestamp (fileName q))).card < keepRecentCount := by
  constructor
  · intro h q hq hown
    by_contra hcard
    refine hown (h .success q (mem_matching.mp hq).1 fun hmem => ?_)
    rcases (mem_cleanOldProfileFile.mp hmem).2 with hw | hm | hr | hk
    · exact absurd hw (by decide)
    · exact hm hq
    · exact absurd hr (by simp [Outcome.success])
    · exact hcard (mem_newest.mp hk).2
  · intro h o q hq hgone
    by_contra hown
    refine hgone (mem_cleanOldProfileFile.mpr ⟨hq, ?_⟩)
    by_cases hm : q ∈ matching c fs
    · have hb : extractTimestamp (fileName q) ∈ batches c fs := Finset.mem_image_of_mem _ hm
      exact Or.inr (Or.inr (Or.inr (mem_newest.mpr ⟨hb, h q hm hown⟩)))
    · exact Or.inr (Or.inl hm)

/-- Two batches of an exporter, a file of an exporter whose prefix starts with the same
characters, and a file that does not follow the format. -/
def shared : Finset Path :=
  {["dump".toList, "kcm-20260101-120000-heap.profile".toList],
    ["dump".toList, "kcm-20260101-120001-heap.profile".toList],
    ["dump".toList, "kcm2-20200101-000000-heap.profile".toList],
    ["dump".toList, "kcm.profile".toList]}

theorem cleanOldProfileFile_shared :
    let c : Config := ⟨"kcm".toList, ["dump".toList]⟩
    let neighbour : Path := ["dump".toList, "kcm2-20200101-000000-heap.profile".toList]
    let malformed : Path := ["dump".toList, "kcm.profile".toList]
    (neighbour ∈ shared ∧ neighbour ∉ cleanOldProfileFile .success c shared ∧
      ¬ Own c (fileName neighbour)) ∧
    (malformed ∈ shared ∧ malformed ∉ cleanOldProfileFile .success c shared ∧
      ¬ Own c (fileName malformed)) := by
  have hfourth : ∀ (name : Str), Own ⟨"kcm".toList, ["dump".toList]⟩ name →
      name.getD 3 ' ' = '-' := by
    rintro name ⟨t, n, rfl⟩
    rfl
  refine ⟨⟨by decide, ?_, fun h => absurd (hfourth _ h) (by decide)⟩,
    ⟨by decide, ?_, fun h => absurd (hfourth _ h) (by decide)⟩⟩
  · rw [mem_cleanOldProfileFile, mem_newest]
    decide +kernel
  · rw [mem_cleanOldProfileFile, mem_newest]
    decide +kernel

end K8sLearn.Pprof
