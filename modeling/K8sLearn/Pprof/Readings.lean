import Mathlib.Data.UInt
import K8sLearn.Lib.Text
import K8sLearn.Pprof.Names
import K8sLearn.Pprof.Trigger

/-! # Reading the memory cgroup

The trigger parses usage, limit and inactive file memory as unsigned 64-bit numbers, converts
them to signed ones and subtracts twice. The remaining memory it compares with the threshold is
the true one modulo `2 ^ 64`.
-/

namespace K8sLearn.Pprof

def isGoSpace (c : Char) : Bool :=
  c ∈ ['\t', '\n', '\x0b', '\x0c', '\r', ' ', '\x85', '\u00a0', '\u1680', '\u2028', '\u2029',
    '\u202f', '\u205f', '\u3000'] || ('\u2000' ≤ c && c ≤ '\u200a')

def trimSpace (s : Str) : Str := ((s.dropWhile isGoSpace).reverse.dropWhile isGoSpace).reverse

def fields (s : Str) : List Str := Str.runs (fun c => !isGoSpace c) s

/-- What goes wrong while reading: a file, a number, or what the file says. -/
inductive ReadError where
  | file
  | invalid (num : Str)
  | outOfRange (num : Str)
  | message (text : Str)
  deriving DecidableEq

/-- The loop of `strconv.ParseUint` over the characters of `num`. -/
def parseUintFrom (num : Str) : ℕ → Str → Except ReadError UInt64
  | n, [] => .ok (UInt64.ofNat n)
  | n, c :: s =>
    match Str.digit c with
    | none => .error (.invalid num)
    | some d => if 2 ^ 64 ≤ 10 * n + d then .error (.outOfRange num)
      else parseUintFrom num (10 * n + d) s

/-- `strconv.ParseUint(s, 10, 64)`. -/
def parseUint (s : Str) : Except ReadError UInt64 :=
  if s = [] then .error (.invalid s) else parseUintFrom s 0 s

/-- The files of `GetMemoryCgroupPaths`; a file that cannot be read is `none`. -/
structure MemoryFiles where
  memInUse : Option Str
  memLimit : Option Str
  memStat : Option Str

def readFile (file : Option Str) : Except ReadError Str :=
  match file with
  | none => .error .file
  | some content => .ok content

def readFileValue (file : Option Str) : Except ReadError UInt64 := do
  let out ← readFile file
  parseUint (trimSpace out)

def inactiveMemIn : List Str → Except ReadError UInt64
  | [] => .error (.message "inactive_file entry not found".toList)
  | line :: lines =>
    if "inactive_file".toList <+: trimSpace line then
      match fields (trimSpace line) with
      | [_, value] => parseUint value
      | _ => .error (.message "inactive_file entry not found".toList)
    else inactiveMemIn lines

def getInactiveMem (file : Option Str) : Except ReadError UInt64 := do
  let data ← readFile file
  inactiveMemIn (data.splitOn '\n')

def getMemoryUsageAndLimit (files : MemoryFiles) : Except ReadError (Int64 × Int64) := do
  let memInUsage ← readFileValue files.memInUse
  let memLimit ← readFileValue files.memLimit
  if memLimit = 0 then throw (.message "memory limit can not be zero".toList)
  let memInactive ← getInactiveMem files.memStat
  return (memInUsage.toInt64 - memInactive.toInt64, memLimit.toInt64)

def MemoryFiles.tick (files : MemoryFiles) (now : ℤ) : Tick :=
  ⟨(getMemoryUsageAndLimit files).toOption, now⟩

def remaining (usage limit inactive : UInt64) : ℤ :=
  (limit.toNat : ℤ) - ((usage.toNat : ℤ) - (inactive.toNat : ℤ))

section Parse

theorem parseUintFrom_of_isDigit {num s : Str} (hs : ∀ c ∈ s, c.isDigit = true) {n : ℕ}
    (hlt : Nat.ofDigitChars 10 s n < 2 ^ 64) :
    parseUintFrom num n s = .ok (UInt64.ofNat (Nat.ofDigitChars 10 s n)) := by
  induction s generalizing n with
  | nil => rfl
  | cons c s ih =>
    have hs' : ∀ c ∈ s, c.isDigit = true := fun c hc => hs c (List.mem_cons_of_mem _ hc)
    rw [Nat.ofDigitChars_cons] at hlt ⊢
    have hle : 10 * n + (c.toNat - '0'.toNat) < 2 ^ 64 := by
      refine lt_of_le_of_lt ?_ hlt
      rw [Nat.ofDigitChars_eq_ofDigitChars_zero]
      exact (Nat.le_mul_of_pos_left _ (by positivity)).trans (Nat.le_add_right _ _)
    rw [parseUintFrom, Str.digit_of_isDigit (hs c List.mem_cons_self)]
    simp only [if_neg (not_le.mpr hle)]
    exact ih hs' hlt

theorem parseUint_toDigits (u : UInt64) : parseUint (Nat.toDigits 10 u.toNat) = .ok u := by
  have hval := Nat.ofDigitChars_ten_toDigits (n := u.toNat)
  rw [parseUint, if_neg Nat.toDigits_ne_nil, parseUintFrom_of_isDigit
    (fun c hc => Str.isDigit_of_mem_toDigits hc) (by rw [hval]; exact u.toNat_lt), hval,
    UInt64.ofNat_toNat]

end Parse

section Decision

variable {R : Type*} [Field R] [LinearOrder R] {m : MemoryPressureConfig R} {u l i : UInt64}

theorem toInt_toInt64 (u : UInt64) : u.toInt64.toInt = (u.toNat : ℤ).bmod (2 ^ 64) := by
  have h : u.toInt64 = Int64.ofNat u.toNat := by
    rw [← UInt64.toInt64_ofNat', UInt64.ofNat_toNat]
  rw [h]
  exact Int64.toInt_ofNat'

theorem toInt_sub_sub (u l i : UInt64) :
    (l.toInt64 - (u.toInt64 - i.toInt64)).toInt = (remaining u l i).bmod (2 ^ 64) := by
  simp only [Int64.toInt_sub, toInt_toInt64, Int.sub_bmod_bmod, Int.bmod_sub_bmod, remaining]

/-- The comparison after the reduction is the true one within one period, and otherwise where both
come out the same by their sizes. -/
theorem bmod_lt_iff_lt_iff {d a : ℤ} (ha : 0 < a) (ha' : a < 2 ^ 63) (hlo : -2 ^ 64 < d)
    (hhi : d < 2 ^ 65 - 1) :
    (d.bmod (2 ^ 64) < a ↔ d < a) ↔
      (-2 ^ 63 ≤ d ∧ d < 2 ^ 63) ∨ d < a - 2 ^ 64 ∨ (2 ^ 64 + a ≤ d ∧ d < 2 ^ 64 + 2 ^ 63) := by
  have hpos : 0 < 2 ^ 64 := by norm_num
  obtain ⟨k, hk⟩ := Int.dvd_bmod_sub_self (x := d) (m := 2 ^ 64)
  have hle := Int.le_bmod (x := d) hpos
  have hlt := Int.bmod_lt (x := d) hpos
  generalize d.bmod (2 ^ 64) = r at *
  push_cast at *
  omega

variable (m) in
theorem isOnAlert_iff (h : 0 < m.alertMem) (usage limit : Int64) :
    isOnAlert m usage limit = true ↔ (limit - usage).toInt < m.alertMem.toInt := by
  rw [isOnAlert, if_pos h, decide_eq_true_eq, Int64.lt_iff_toInt_lt]

theorem getMemoryUsageAndLimit_eq {files : MemoryFiles} (hu : readFileValue files.memInUse = .ok u)
    (hl : readFileValue files.memLimit = .ok l) (h0 : l ≠ 0)
    (hi : getInactiveMem files.memStat = .ok i) :
    getMemoryUsageAndLimit files = .ok (u.toInt64 - i.toInt64, l.toInt64) := by
  simp only [getMemoryUsageAndLimit, hu, hl, hi, bind, Except.bind, h0, if_false]
  rfl

theorem isMemoryOnAlert_tick {files : MemoryFiles} {usage limit : Int64} (now : ℤ)
    (h : getMemoryUsageAndLimit files = .ok (usage, limit)) :
    isMemoryOnAlert m (files.tick now) = (isOnAlert m usage limit, usage, limit) := by
  simp only [isMemoryOnAlert, MemoryFiles.tick, h, Except.toOption]

end Decision

/-- The alert is the one of the true values exactly when the remaining memory is a signed 64-bit
number, or so far off that the reduced value lies on the same side of the threshold. -/
theorem isOnAlert_decides_iff {R : Type*} [Field R] [LinearOrder R] (m : MemoryPressureConfig R)
    (hm : 0 < m.alertMem) (files : MemoryFiles) {u l i : UInt64}
    (hu : readFileValue files.memInUse = .ok u) (hl : readFileValue files.memLimit = .ok l)
    (h0 : l ≠ 0) (hi : getInactiveMem files.memStat = .ok i) :
    ∃ usage limit, getMemoryUsageAndLimit files = .ok (usage, limit) ∧
      ((isOnAlert m usage limit = true ↔ remaining u l i < m.alertMem.toInt) ↔
        (-2 ^ 63 ≤ remaining u l i ∧ remaining u l i < 2 ^ 63) ∨
          remaining u l i < m.alertMem.toInt - 2 ^ 64 ∨
          (2 ^ 64 + m.alertMem.toInt ≤ remaining u l i ∧ remaining u l i < 2 ^ 64 + 2 ^ 63)) := by
  refine ⟨_, _, getMemoryUsageAndLimit_eq hu hl h0 hi, ?_⟩
  rw [isOnAlert_iff m hm, toInt_sub_sub]
  have hu' := u.toNat_lt
  have hl' := l.toNat_lt
  have hi' := i.toNat_lt
  refine bmod_lt_iff_lt_iff (Int64.lt_iff_toInt_lt.mp hm) m.alertMem.toInt_lt ?_ ?_
  · rw [remaining]
    omega
  · rw [remaining]
    omega

def filesOf (usage limit inactive : ℕ) : MemoryFiles where
  memInUse := some (Nat.toDigits 10 usage ++ ['\n'])
  memLimit := some (Nat.toDigits 10 limit ++ ['\n'])
  memStat := some ("anon 0\ninactive_file ".toList ++ Nat.toDigits 10 inactive ++ ['\n'])

def lastMebibyte : MemoryPressureConfig ℚ := ⟨2 ^ 20, 0, 1 / 10⟩

theorem isOnAlert_decides_iff_gibibyte :
    ∃ usage limit, getMemoryUsageAndLimit (filesOf (2 ^ 30) (2 ^ 30) (2 ^ 29)) =
        .ok (usage, limit) ∧
      (isOnAlert lastMebibyte usage limit = true ↔
        remaining (2 ^ 30) (2 ^ 30) (2 ^ 29) < lastMebibyte.alertMem.toInt) := by
  obtain ⟨usage, limit, h, hiff⟩ := isOnAlert_decides_iff lastMebibyte (by decide)
    (filesOf (2 ^ 30) (2 ^ 30) (2 ^ 29)) (u := 2 ^ 30) (l := 2 ^ 30) (i := 2 ^ 29) (by decide +kernel)
    (by decide +kernel) (by decide) (by decide +kernel)
  exact ⟨usage, limit, h, hiff.mpr (Or.inl (by decide))⟩

/-- No limit as the kernel reports it, and more inactive file memory than usage: the remaining
memory is `2 ^ 63`, and the trigger takes it for negative. -/
theorem isOnAlert_without_limit :
    let files := filesOf 0 (2 ^ 63 - 2 ^ 12) (2 ^ 12)
    readFileValue files.memInUse = .ok 0 ∧ readFileValue files.memLimit = .ok (2 ^ 63 - 2 ^ 12) ∧
      getInactiveMem files.memStat = .ok (2 ^ 12) ∧
      (∃ usage limit, getMemoryUsageAndLimit files = .ok (usage, limit) ∧
        isOnAlert lastMebibyte usage limit = true) ∧
      ¬ remaining 0 (2 ^ 63 - 2 ^ 12) (2 ^ 12) < lastMebibyte.alertMem.toInt := by
  refine ⟨by decide +kernel, by decide +kernel, by decide +kernel, ?_, by decide⟩
  exact ⟨-2 ^ 12, 2 ^ 63 - 2 ^ 12, by decide +kernel, by decide +kernel⟩

end K8sLearn.Pprof
