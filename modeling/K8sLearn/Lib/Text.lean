import Mathlib.Data.List.Dedup
import Mathlib.Data.List.Infix

/-! # Python text

Strings are lists of characters. These are the operations of `str` and `re` that the
programs use: substring tests, replacement, stripping and splitting at white space.
Case mapping is left to a parameter wherever it occurs.
-/

namespace K8sLearn

abbrev Str := List Char

namespace Str

instance lawfulBEq : LawfulBEq Str := inferInstance

/-- A statement about the characters of a text is decided along the text, and not by going
through all characters there are. -/
instance (priority := high) decidableForallMem (p : Char → Prop) [DecidablePred p] (s : Str) :
    Decidable (∀ c ∈ s, p c) :=
  List.decidableBAll p s

instance (priority := high) decidableForallMemOption (p : Char → Prop) [DecidablePred p]
    (o : Option Char) : Decidable (∀ c ∈ o, p c) :=
  Option.decidableForallMem o

/-- `str.isspace` on one character, which is also what `\s` matches. -/
def isSpace (c : Char) : Bool :=
  c ∈ [' ', '\t', '\n', '\r', '\x0b', '\x0c', '\x1c', '\x1d', '\x1e', '\x1f', '\x85',
    '\u00a0', '\u1680', '\u2028', '\u2029', '\u202f', '\u205f', '\u3000'] ||
  ('\u2000' ≤ c && c ≤ '\u200a')

/-- `any(word in s for word in words)`. -/
def containsAny (words : List Str) (s : Str) : Bool := words.any fun w => w <:+: s

/-- `s.strip()`. -/
def strip (s : Str) : Str := ((s.dropWhile isSpace).reverse.dropWhile isSpace).reverse

/-- Replacement that first passes over a number of characters of the last match. -/
def replaceFrom (old new : Str) : ℕ → Str → Str
  | _, [] => []
  | n + 1, _ :: s => replaceFrom old new n s
  | 0, c :: s =>
    if old <+: c :: s then new ++ replaceFrom old new (old.length - 1) s
    else c :: replaceFrom old new 0 s

/-- `s.replace(old, new)` for a nonempty `old`. -/
def replace (old new s : Str) : Str := replaceFrom old new 0 s

/-- `for w in words: s = s.replace(w, new)`. -/
def replaceAll (words : List Str) (new s : Str) : Str :=
  words.foldl (fun s w => replace w new s) s

def collapseFrom : Bool → Str → Str
  | _, [] => []
  | inRun, c :: s =>
    if isSpace c then
      if inRun then collapseFrom true s else ' ' :: collapseFrom true s
    else c :: collapseFrom false s

/-- `re.sub(r"\s+", " ", s)`. -/
def collapseSpaces (s : Str) : Str := collapseFrom false s

/-- Replacing runs of characters that satisfy `p`, inside such a run or not. -/
def replaceRunsFrom (p : Char → Bool) (new : Str) : Bool → Str → Str
  | _, [] => []
  | inRun, c :: s =>
    if p c then
      if inRun then replaceRunsFrom p new true s else new ++ replaceRunsFrom p new true s
    else c :: replaceRunsFrom p new false s

/-- `re.sub(r"[p]+", new, s)`. -/
def replaceRuns (p : Char → Bool) (new s : Str) : Str := replaceRunsFrom p new false s

/-- The maximal runs of characters that satisfy `p`: `re.findall(r"[p]+", s)`. -/
def runs (p : Char → Bool) (s : Str) : List Str :=
  (s.splitOnP fun c => !p c).filter fun r => !r.isEmpty

/-- `s.split()`. -/
def splitSpaces (s : Str) : List Str := runs (fun c => !isSpace c) s

/-- `s.isascii()`. -/
def isAscii (s : Str) : Bool := s.all fun c => c.toNat < 128

/-- `sep.join(parts)`. -/
def join (sep : Str) (parts : List Str) : Str := (parts.intersperse sep).flatten

def digit (c : Char) : Option ℕ :=
  if '0' ≤ c ∧ c ≤ '9' then some (c.toNat - '0'.toNat) else none

/-- The digits after the first one; an underscore may stand between two digits. -/
def digitsFrom : ℕ → Str → Option ℕ
  | n, [] => some n
  | n, '_' :: c :: s => (digit c).bind fun d => digitsFrom (10 * n + d) s
  | n, c :: s => (digit c).bind fun d => digitsFrom (10 * n + d) s

def toNat : Str → Option ℕ
  | [] => none
  | c :: s => (digit c).bind fun d => digitsFrom d s

/-- `int(s)`, for ASCII digits. -/
def toInt (s : Str) : Option ℤ :=
  match strip s with
  | '-' :: s => (toNat s).map fun n => -(n : ℤ)
  | '+' :: s => (toNat s).map Int.ofNat
  | s => (toNat s).map Int.ofNat

/-- `str(n)` for an integer. -/
def ofInt : ℤ → Str
  | .ofNat n => Nat.toDigits 10 n
  | .negSucc n => '-' :: Nat.toDigits 10 (n + 1)

theorem toLower_of_not_capital {c : Char} (h : ¬ ('A'.val ≤ c.val ∧ c.val ≤ 'Z'.val)) :
    c.toLower = c := by
  unfold Char.toLower
  rw [dif_neg h]

theorem toLower_toLower (c : Char) : c.toLower.toLower = c.toLower := by
  by_cases h : 'A'.val ≤ c.val ∧ c.val ≤ 'Z'.val
  · have hval : c.toLower.val = c.val + 32 := by
      unfold Char.toLower
      rw [dif_pos h]
      rfl
    refine toLower_of_not_capital ?_
    rintro ⟨-, hup⟩
    obtain ⟨hlo, hhi⟩ := h
    rw [hval, UInt32.le_iff_toNat_le, UInt32.toNat_add] at hup
    rw [UInt32.le_iff_toNat_le] at hlo hhi
    have hA : 'A'.val.toNat = 65 := rfl
    have hZ : 'Z'.val.toNat = 90 := rfl
    have h32 : (32 : UInt32).toNat = 32 := rfl
    omega
  · rw [toLower_of_not_capital h, toLower_of_not_capital h]

theorem isDigit_of_mem_toDigits {n : ℕ} {c : Char} (h : c ∈ Nat.toDigits 10 n) :
    c.isDigit = true :=
  Nat.isDigit_of_mem_toDigits (by decide) (by decide) h

theorem isDigit_or_eq_of_mem_ofInt {y : ℤ} {c : Char} (h : c ∈ ofInt y) :
    c.isDigit = true ∨ c = '-' := by
  cases y with
  | ofNat n => exact Or.inl (isDigit_of_mem_toDigits h)
  | negSucc n =>
    rcases List.mem_cons.mp h with h | h
    · exact Or.inr h
    · exact Or.inl (isDigit_of_mem_toDigits h)

theorem toDigits_injective {m n : ℕ} (h : Nat.toDigits 10 m = Nat.toDigits 10 n) : m = n := by
  rw [← Nat.ofDigitChars_ten_toDigits (n := m), h, Nat.ofDigitChars_ten_toDigits]

theorem toDigits_ne_cons_minus {n : ℕ} {s : Str} : Nat.toDigits 10 n ≠ '-' :: s := by
  intro h
  have hd := isDigit_of_mem_toDigits (h ▸ List.mem_cons_self : '-' ∈ Nat.toDigits 10 n)
  exact absurd hd (by decide)

theorem ofInt_injective : Function.Injective ofInt := by
  intro x y h
  cases x with
  | ofNat m =>
    cases y with
    | ofNat n => exact congrArg Int.ofNat (toDigits_injective h)
    | negSucc n => exact absurd h toDigits_ne_cons_minus
  | negSucc m =>
    cases y with
    | ofNat n => exact absurd h.symm toDigits_ne_cons_minus
    | negSucc n =>
      have hmn := toDigits_injective (List.cons_injective h)
      rw [Nat.succ_injective hmn]

theorem isSpace_of_isDigit {c : Char} (h : c.isDigit = true) : isSpace c = false := by
  rw [Bool.eq_false_iff]
  intro hs
  simp only [isSpace, Bool.or_eq_true, decide_eq_true_eq, Bool.and_eq_true, List.mem_cons,
    List.not_mem_nil, or_false] at hs
  rcases hs with hs | hs
  · rcases hs with rfl | rfl | rfl | rfl | rfl | rfl | rfl | rfl | rfl | rfl | rfl | rfl | rfl |
      rfl | rfl | rfl | rfl | rfl <;> exact absurd h (by decide)
  · have hdigit : c.val ≤ '9'.val := by
      simp only [Char.isDigit, Bool.and_eq_true, decide_eq_true_eq] at h
      exact h.2
    have hle : '\u2000'.val ≤ '9'.val := UInt32.le_trans hs.1 hdigit
    exact absurd hle (by decide)

theorem strip_eq_self {s : Str} (h : ∀ c ∈ s, isSpace c = false) : strip s = s := by
  have hdrop : ∀ t : Str, (∀ c ∈ t, isSpace c = false) → t.dropWhile isSpace = t := by
    intro t ht
    cases t with
    | nil => rfl
    | cons c t => simp [ht c List.mem_cons_self]
  rw [strip, hdrop s h, hdrop s.reverse fun c hc => h c (List.mem_reverse.mp hc),
    List.reverse_reverse]

theorem mem_of_mem_strip {s : Str} {c : Char} (h : c ∈ strip s) : c ∈ s := by
  rw [strip, List.mem_reverse] at h
  have hrev := (List.dropWhile_suffix _).subset h
  exact (List.dropWhile_suffix _).subset (List.mem_reverse.mp hrev)

theorem digit_of_isDigit {c : Char} (h : c.isDigit = true) :
    digit c = some (c.toNat - '0'.toNat) := by
  have hc : '0' ≤ c ∧ c ≤ '9' := by
    simp only [Char.isDigit, Bool.and_eq_true, decide_eq_true_eq] at h
    exact h
  rw [digit, if_pos hc]

theorem digitsFrom_of_isDigit {s : Str} (h : ∀ c ∈ s, c.isDigit = true) (n : ℕ) :
    digitsFrom n s = some (Nat.ofDigitChars 10 s n) := by
  induction s generalizing n with
  | nil => rfl
  | cons c s ih =>
    have hc := h c List.mem_cons_self
    have hne : c ≠ '_' := by
      rintro rfl
      exact absurd hc (by decide)
    rw [Nat.ofDigitChars_cons, ← ih fun c hc => h c (List.mem_cons_of_mem _ hc)]
    rw [digitsFrom]
    · rw [digit_of_isDigit hc]
      rfl
    · intro c' s' hc' _
      exact hne hc'

theorem toInt_toDigits (n : ℕ) : toInt (Nat.toDigits 10 n) = some (n : ℤ) := by
  have hdigits : ∀ c ∈ Nat.toDigits 10 n, c.isDigit = true := fun c hc => isDigit_of_mem_toDigits hc
  have hval := Nat.ofDigitChars_ten_toDigits (n := n)
  rw [toInt, strip_eq_self fun c hc => isSpace_of_isDigit (hdigits c hc)]
  cases hs : Nat.toDigits 10 n with
  | nil => exact absurd hs Nat.toDigits_ne_nil
  | cons c s =>
    rw [hs] at hdigits hval
    have hc := hdigits c List.mem_cons_self
    have hnat : toNat (c :: s) = some n := by
      rw [toNat, digit_of_isDigit hc, Option.bind_some,
        digitsFrom_of_isDigit fun c hc => hdigits c (List.mem_cons_of_mem _ hc), ← hval,
        Nat.ofDigitChars_cons]
      simp
    split
    · rename_i h
      obtain ⟨rfl, -⟩ := List.cons.inj h
      exact absurd hc (by decide)
    · rename_i h
      obtain ⟨rfl, -⟩ := List.cons.inj h
      exact absurd hc (by decide)
    · rw [hnat]
      rfl

theorem append_cons_inj {a a' b b' : Str} {c : Char} (hb : c ∉ b) (hb' : c ∉ b')
    (h : a ++ c :: b = a' ++ c :: b') : a = a' ∧ b = b' := by
  rcases List.append_eq_append_iff.mp h with ⟨t, rfl, ht⟩ | ⟨t, rfl, ht⟩
  · cases t with
    | nil => exact ⟨(List.append_nil a).symm, List.cons_injective ht⟩
    | cons d t =>
      obtain ⟨-, rfl⟩ := List.cons.inj ht
      exact absurd (by simp) hb
  · cases t with
    | nil => exact ⟨List.append_nil a', (List.cons_injective ht).symm⟩
    | cons d t =>
      obtain ⟨-, rfl⟩ := List.cons.inj ht
      exact absurd (by simp) hb'

theorem mem_replaceRunsFrom {p : Char → Bool} {new s : Str} {inRun : Bool} {c : Char}
    (h : c ∈ replaceRunsFrom p new inRun s) : c ∈ new ∨ p c = false ∧ c ∈ s := by
  induction s generalizing inRun with
  | nil => simp [replaceRunsFrom] at h
  | cons d s ih =>
    have hrest : ∀ {inRun}, c ∈ replaceRunsFrom p new inRun s →
        c ∈ new ∨ p c = false ∧ c ∈ d :: s := by
      intro inRun h
      exact (ih h).imp_right fun h => ⟨h.1, List.mem_cons_of_mem _ h.2⟩
    simp only [replaceRunsFrom] at h
    split_ifs at h with hd hrun
    · exact hrest h
    · rcases List.mem_append.mp h with h | h
      · exact Or.inl h
      · exact hrest h
    · rcases List.mem_cons.mp h with rfl | h
      · exact Or.inr ⟨by simpa using hd, List.mem_cons_self⟩
      · exact hrest h

theorem mem_of_mem_splitOnP {p : Char → Bool} {s r : Str} (hr : r ∈ s.splitOnP p) {c : Char}
    (hc : c ∈ r) : c ∈ s ∧ p c = false := by
  induction s generalizing r with
  | nil =>
    obtain rfl : r = [] := by simpa using hr
    exact absurd hc List.not_mem_nil
  | cons d s ih =>
    have hrest : ∀ r ∈ s.splitOnP p, c ∈ r → c ∈ d :: s ∧ p c = false :=
      fun r hr hc => ⟨List.mem_cons_of_mem _ (ih hr hc).1, (ih hr hc).2⟩
    rw [List.splitOnP_cons_eq_if_modifyHead] at hr
    split_ifs at hr with hd
    · rcases List.mem_cons.mp hr with rfl | hr
      · exact absurd hc List.not_mem_nil
      · exact hrest r hr hc
    · cases hs : s.splitOnP p with
      | nil => exact absurd hs (List.splitOnP_ne_nil p s)
      | cons r' rs =>
        rw [hs] at hr hrest
        rcases List.mem_cons.mp hr with rfl | hr
        · rcases List.mem_cons.mp hc with rfl | hc
          · exact ⟨List.mem_cons_self, by simpa using hd⟩
          · exact hrest r' List.mem_cons_self hc
        · exact hrest r (List.mem_cons_of_mem _ hr) hc

theorem mem_of_mem_splitSpaces {s r : Str} (hr : r ∈ splitSpaces s) {c : Char} (hc : c ∈ r) :
    c ∈ s ∧ isSpace c = false := by
  simpa using mem_of_mem_splitOnP (List.mem_of_mem_filter hr) hc

theorem ne_nil_of_mem_splitSpaces {s r : Str} (hr : r ∈ splitSpaces s) : r ≠ [] := by
  simpa using (List.mem_filter.mp hr).2

theorem mem_join {sep : Str} {parts : List Str} {c : Char} (h : c ∈ join sep parts) :
    c ∈ sep ∨ ∃ r ∈ parts, c ∈ r := by
  induction parts with
  | nil => exact absurd h List.not_mem_nil
  | cons r parts ih =>
    cases parts with
    | nil => exact Or.inr ⟨r, by simp, by simpa [join] using h⟩
    | cons r' parts =>
      have hsplit : c ∈ r ∨ c ∈ sep ∨ c ∈ join sep (r' :: parts) := by simpa [join] using h
      rcases hsplit with h | h | h
      · exact Or.inr ⟨r, by simp, h⟩
      · exact Or.inl h
      · rcases ih h with h | ⟨t, ht, hc⟩
        · exact Or.inl h
        · exact Or.inr ⟨t, List.mem_cons_of_mem _ ht, hc⟩

end Str

end K8sLearn
