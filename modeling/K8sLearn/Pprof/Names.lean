import Mathlib.Data.List.DropRight
import Mathlib.Data.List.GetD

/-! # Profile file names

`createProfileFile` writes `{prefix}-{date}-{time}-{type}.profile` under the profiling
path and `extractTimestamp` reads the date and the time back by position. The reader
counts hyphens from the left, so it finds the timestamp exactly when the last path
component of the prefix has none. Strings are lists of characters.
-/

namespace K8sLearn.Pprof

abbrev Str := List Char

abbrev Path := List Str

inductive Name
  | cpu
  | heap
  | block
  | mutex
  | goroutine
deriving DecidableEq, Repr

def Name.profileName : Name → Str
  | .cpu => "cpu".toList
  | .heap => "heap".toList
  | .block => "block".toList
  | .mutex => "mutex".toList
  | .goroutine => "goroutine".toList

def Name.fileExt : Name → Str
  | .cpu => "cpu.profile".toList
  | .heap => "heap.profile".toList
  | .block => "block.profile".toList
  | .mutex => "mutex.profile".toList
  | .goroutine => "goroutine.profile".toList

/-- A clock reading, broken into calendar fields. -/
structure Clock where
  year : ℕ
  month : ℕ
  day : ℕ
  hour : ℕ
  minute : ℕ
  second : ℕ
  month_mem : 1 ≤ month ∧ month ≤ 12
  day_mem : 1 ≤ day ∧ day ≤ 31
  hour_lt : hour < 24
  minute_lt : minute < 60
  second_lt : second < 60

def pad (width n : ℕ) : Str := (Nat.toDigits 10 n).leftpad width '0'

namespace Clock

def date (t : Clock) : Str := pad 4 t.year ++ pad 2 t.month ++ pad 2 t.day

def time (t : Clock) : Str := pad 2 t.hour ++ pad 2 t.minute ++ pad 2 t.second

/-- `Format("20060102-150405")`. -/
def format (t : Clock) : Str := t.date ++ '-' :: t.time

end Clock

/-- `Config`; the profiling path is given by its components. -/
structure Config where
  filePrefix : Str
  profilingPath : Path

/-- The file name that `createProfileFile` formats. -/
def profileFile (c : Config) (fileExt timestamp : Str) : Str :=
  c.filePrefix ++ '-' :: timestamp ++ '-' :: fileExt

def cleanStep (path : Path) (component : Str) : Path :=
  if component = [] ∨ component = ['.'] then path
  else if component = ['.', '.'] then path.dropLast
  else path ++ [component]

def createProfileFile (c : Config) (fileExt timestamp : Str) : Path :=
  ((profileFile c fileExt timestamp).splitOn '/').foldl cleanStep c.profilingPath

def fileName (path : Path) : Str := path.getLastD []

def lastElement (s : Str) : Str := s.rtakeWhile (· ≠ '/')

def base (s : Str) : Str :=
  if s = [] then ['.']
  else
    let s := lastElement (s.rdropWhile (· = '/'))
    if s = [] then ['/'] else s

def ext (s : Str) : Str :=
  if '.' ∈ lastElement s then '.' :: (lastElement s).rtakeWhile (· ≠ '.') else []

def trimSuffix (s suffix : Str) : Str :=
  if suffix.isSuffixOf s then s.take (s.length - suffix.length) else s

def extractTimestamp (fileName : Str) : Str :=
  let baseName := base fileName
  let nameWithoutExt := trimSuffix baseName (ext baseName)
  let parts := nameWithoutExt.splitOn '-'
  if parts.length < 4 then [] else parts.getD 1 [] ++ '-' :: parts.getD 2 []

section Strings

theorem rtakeWhile_append_of_forall {p : Char → Bool} (a : Str) {b : Str} (h : ∀ c ∈ b, p c) :
    (a ++ b).rtakeWhile p = a.rtakeWhile p ++ b := by
  rw [List.rtakeWhile, List.reverse_append, List.takeWhile_append_of_pos (by simpa using h),
    List.reverse_append, List.reverse_reverse, List.rtakeWhile]

theorem rtakeWhile_append_cons {p : Char → Bool} (a : Str) {c : Char} {b : Str} (hc : ¬ p c)
    (h : ∀ c ∈ b, p c) : (a ++ c :: b).rtakeWhile p = b := by
  have hab : a ++ c :: b = (a ++ [c]) ++ b := by simp
  rw [hab, rtakeWhile_append_of_forall _ h, List.rtakeWhile_concat_neg _ _ _ hc, List.nil_append]

theorem lastElement_append (a : Str) {b : Str} (h : '/' ∉ b) :
    lastElement (a ++ b) = lastElement a ++ b := by
  apply rtakeWhile_append_of_forall a
  intro c hc
  exact decide_eq_true fun he => h (he ▸ hc)

theorem lastElement_append_slash (a : Str) {b : Str} (h : '/' ∉ b) :
    lastElement (a ++ '/' :: b) = b := by
  apply rtakeWhile_append_cons a (by simp)
  intro c hc
  exact decide_eq_true fun he => h (he ▸ hc)

theorem slash_not_mem_lastElement (s : Str) : '/' ∉ lastElement s := by
  intro h
  simpa using List.mem_rtakeWhile_imp h

theorem lastElement_eq_self {s : Str} (h : '/' ∉ s) : lastElement s = s :=
  lastElement_append [] h

theorem base_eq_self {s : Str} (h : '/' ∉ s) (hs : s ≠ []) : base s = s := by
  have hr : s.rdropWhile (· = '/') = s := by
    rw [List.rdropWhile_eq_self_iff]
    intro hl he
    exact h (of_decide_eq_true he ▸ List.getLast_mem hl)
  simp [base, hs, hr, lastElement_eq_self h]

theorem trimSuffix_ext {s e : Str} (h : '/' ∉ s) (he : '/' ∉ e) (hd : '.' ∉ e) :
    trimSuffix (s ++ '.' :: e) (ext (s ++ '.' :: e)) = s := by
  have hs : '/' ∉ s ++ '.' :: e := by simp [h, he]
  have hr : (s ++ '.' :: e).rtakeWhile (· ≠ '.') = e :=
    rtakeWhile_append_cons s (by simp) fun c hc => decide_eq_true fun hce => hd (hce ▸ hc)
  have hext : ext (s ++ '.' :: e) = '.' :: e := by
    rw [ext, lastElement_eq_self hs, if_pos (by simp), hr]
  rw [hext, trimSuffix, if_pos (by simp)]
  simp

theorem eq_lastElement_or (s : Str) :
    s = lastElement s ∨ ∃ a, s = a ++ '/' :: lastElement s := by
  by_cases h : '/' ∈ s
  · right
    obtain ⟨b, a, hs, hb⟩ := List.eq_append_cons_of_mem (List.mem_reverse.mpr h)
    have hs' : s = a.reverse ++ '/' :: b.reverse := by
      rw [← List.reverse_reverse s, hs]
      simp
    refine ⟨a.reverse, ?_⟩
    rw [hs', lastElement_append_slash _ (by simpa using hb)]
  · exact Or.inl (lastElement_eq_self h).symm

theorem exists_splitOn_slash (s : Str) : ∃ init, s.splitOn '/' = init ++ [lastElement s] := by
  have hl := List.splitOn_eq_singleton (slash_not_mem_lastElement s)
  rcases eq_lastElement_or s with h | ⟨a, h⟩
  · refine ⟨[], ?_⟩
    conv_lhs => rw [h]
    exact hl
  · refine ⟨a.splitOn '/', ?_⟩
    conv_lhs => rw [h]
    rw [List.splitOn_append_cons_self, hl]

theorem isDigit_of_mem_pad {width n : ℕ} {c : Char} (h : c ∈ pad width n) : c.isDigit := by
  rcases List.mem_append.mp h with h | h
  · rw [(List.mem_replicate.mp h).2]
    rfl
  · exact Nat.isDigit_of_mem_toDigits (by decide) (by decide) h

theorem Clock.isDigit_of_mem_date {t : Clock} {c : Char} (h : c ∈ t.date) : c.isDigit := by
  simp only [Clock.date, List.mem_append] at h
  rcases h with (h | h) | h <;> exact isDigit_of_mem_pad h

theorem Clock.isDigit_of_mem_time {t : Clock} {c : Char} (h : c ∈ t.time) : c.isDigit := by
  simp only [Clock.time, List.mem_append] at h
  rcases h with (h | h) | h <;> exact isDigit_of_mem_pad h

theorem Clock.slash_not_mem_format (t : Clock) : '/' ∉ t.format := by
  intro h
  rcases List.mem_append.mp h with h | h
  · exact absurd (Clock.isDigit_of_mem_date h) (by decide)
  · rcases List.mem_cons.mp h with h | h
    · exact absurd h (by decide)
    · exact absurd (Clock.isDigit_of_mem_time h) (by decide)

theorem Name.fileExt_eq (n : Name) : n.fileExt = n.profileName ++ ".profile".toList := by
  cases n <;> rfl

theorem Name.hyphen_not_mem_profileName (n : Name) : '-' ∉ n.profileName := by
  cases n <;> decide

theorem Name.slash_not_mem_fileExt (n : Name) : '/' ∉ n.fileExt := by
  cases n <;> decide

end Strings

section Decode

variable (c : Config) (n : Name) (t : Clock)

theorem lastElement_profileFile :
    lastElement (profileFile c n.fileExt t.format) =
      lastElement c.filePrefix ++ '-' :: t.format ++ '-' :: n.fileExt := by
  have hb : '/' ∉ '-' :: t.format ++ '-' :: n.fileExt := by
    simp [t.slash_not_mem_format, n.slash_not_mem_fileExt]
  rw [profileFile, List.append_assoc, lastElement_append _ hb, List.append_assoc]

theorem fileName_createProfileFile :
    fileName (createProfileFile c n.fileExt t.format) =
      lastElement c.filePrefix ++ '-' :: t.format ++ '-' :: n.fileExt := by
  obtain ⟨init, hinit⟩ := exists_splitOn_slash (profileFile c n.fileExt t.format)
  rw [createProfileFile, hinit, List.foldl_append, List.foldl_cons, List.foldl_nil,
    lastElement_profileFile]
  generalize init.foldl cleanStep c.profilingPath = path
  have hmem : '-' ∈ lastElement c.filePrefix ++ '-' :: t.format ++ '-' :: n.fileExt := by simp
  generalize lastElement c.filePrefix ++ '-' :: t.format ++ '-' :: n.fileExt = comp at hmem
  have h₁ : comp ≠ [] := by rintro rfl; simp at hmem
  have h₂ : comp ≠ ['.'] := by rintro rfl; simp at hmem
  have h₃ : comp ≠ ['.', '.'] := by rintro rfl; simp at hmem
  simp [cleanStep, h₁, h₂, h₃, fileName]

theorem splitOn_format : t.format.splitOn '-' = [t.date, t.time] := by
  have hd : '-' ∉ t.date := fun h => absurd (Clock.isDigit_of_mem_date h) (by decide)
  have ht : '-' ∉ t.time := fun h => absurd (Clock.isDigit_of_mem_time h) (by decide)
  rw [Clock.format, List.splitOn_append_cons_self_of_not_mem hd, List.splitOn_eq_singleton ht]

theorem extractTimestamp_createProfileFile :
    extractTimestamp (fileName (createProfileFile c n.fileExt t.format)) =
      let parts := (lastElement c.filePrefix).splitOn '-' ++ [t.date, t.time, n.profileName]
      parts.getD 1 [] ++ '-' :: parts.getD 2 [] := by
  have hname : fileName (createProfileFile c n.fileExt t.format) =
      (lastElement c.filePrefix ++ '-' :: (t.format ++ '-' :: n.profileName)) ++
        '.' :: "profile".toList := by
    rw [fileName_createProfileFile, Name.fileExt_eq]
    simp
  have hslash : '/' ∉ lastElement c.filePrefix ++ '-' :: (t.format ++ '-' :: n.profileName) := by
    have hn : '/' ∉ n.profileName := by cases n <;> decide
    simp [slash_not_mem_lastElement, t.slash_not_mem_format, hn]
  have hparts :
      (lastElement c.filePrefix ++ '-' :: (t.format ++ '-' :: n.profileName)).splitOn '-' =
      (lastElement c.filePrefix).splitOn '-' ++ [t.date, t.time, n.profileName] := by
    rw [List.splitOn_append_cons_self, List.splitOn_append_cons_self, splitOn_format,
      List.splitOn_eq_singleton n.hyphen_not_mem_profileName]
    rfl
  have hlen : ¬ ((lastElement c.filePrefix).splitOn '-' ++
      [t.date, t.time, n.profileName]).length < 4 := by
    have := List.length_pos_of_ne_nil (List.splitOn_ne_nil '-' (lastElement c.filePrefix))
    simp only [List.length_append, List.length_cons, List.length_nil]
    omega
  rw [extractTimestamp, hname, base_eq_self (by simpa using hslash) (by simp),
    trimSuffix_ext hslash (by decide) (by decide), hparts, if_neg hlen]

theorem extractTimestamp_of_not_mem (h : '-' ∉ lastElement c.filePrefix) :
    extractTimestamp (fileName (createProfileFile c n.fileExt t.format)) = t.format := by
  rw [extractTimestamp_createProfileFile, List.splitOn_eq_singleton h]
  rfl

theorem extractTimestamp_of_mem (h : '-' ∈ lastElement c.filePrefix) (n' : Name) (t' : Clock)
    (hd : t.date = t'.date) :
    extractTimestamp (fileName (createProfileFile c n.fileExt t.format)) =
      extractTimestamp (fileName (createProfileFile c n'.fileExt t'.format)) := by
  obtain ⟨a, b, hab⟩ := List.append_of_mem h
  obtain ⟨p, ps, hp⟩ := List.exists_cons_of_ne_nil (List.splitOn_ne_nil '-' a)
  obtain ⟨q, qs, hq⟩ := List.exists_cons_of_ne_nil (List.splitOn_ne_nil '-' b)
  rw [extractTimestamp_createProfileFile, extractTimestamp_createProfileFile, hab,
    List.splitOn_append_cons_self, hp, hq, hd]
  cases ps with
  | nil =>
    cases qs with
    | nil => rfl
    | cons q' qs => rfl
  | cons p' ps =>
    cases ps with
    | nil => rfl
    | cons p'' ps => rfl

end Decode

/-- Two readings of one day, a second apart. -/
def noon : Clock :=
  ⟨2026, 1, 1, 12, 0, 0, by decide, by decide, by decide, by decide, by decide⟩

def afterNoon : Clock :=
  ⟨2026, 1, 1, 12, 0, 1, by decide, by decide, by decide, by decide, by decide⟩

/-- Every file name decodes to its timestamp, so that two files are in one batch exactly when
they were exported under one timestamp, if and only if the last path component of the prefix has
no hyphen. -/
theorem extractTimestamp_decodes_iff (c : Config) :
    ((∀ (t : Clock) (n : Name),
        extractTimestamp (fileName (createProfileFile c n.fileExt t.format)) = t.format) ∧
      ∀ (t t' : Clock) (n n' : Name),
        extractTimestamp (fileName (createProfileFile c n.fileExt t.format)) =
          extractTimestamp (fileName (createProfileFile c n'.fileExt t'.format)) ↔
        t.format = t'.format) ↔
      '-' ∉ lastElement c.filePrefix := by
  constructor
  · rintro ⟨hdec, -⟩ hmem
    have h := extractTimestamp_of_mem c .heap noon hmem .heap afterNoon (by decide)
    rw [hdec, hdec] at h
    exact absurd h (by decide)
  · intro h
    refine ⟨fun t n => extractTimestamp_of_not_mem c n t h, fun t t' n n' => ?_⟩
    rw [extractTimestamp_of_not_mem c n t h, extractTimestamp_of_not_mem c n' t' h]

/-- A hyphen in the prefix: the timestamp is lost and two exports fall into one batch. -/
theorem extractTimestamp_my_app :
    let c : Config := ⟨"my-app".toList, ["dump".toList]⟩
    let first := fileName (createProfileFile c Name.heap.fileExt noon.format)
    let second := fileName (createProfileFile c Name.heap.fileExt afterNoon.format)
    first = "my-app-20260101-120000-heap.profile".toList ∧
      extractTimestamp first = "app-20260101".toList ∧ extractTimestamp first ≠ noon.format ∧
      extractTimestamp first = extractTimestamp second ∧ noon.format ≠ afterNoon.format := by
  decide

end K8sLearn.Pprof
