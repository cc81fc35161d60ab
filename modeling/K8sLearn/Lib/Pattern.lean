import K8sLearn.Lib.Text

/-! # Searching text for a pattern

Regular expressions without alternation: sequences of one character of a class, any number of
characters of a class, and word boundaries. `re.search` asks whether a sequence matches from
some position on. The characters beyond ASCII that `\w` and `\d` match are parameters.
-/

namespace K8sLearn

/-- The characters beyond ASCII that `\w` and `\d` match. -/
structure CharTables where
  word : Char → Bool
  digit : Char → Bool

/-- `\w`. -/
def CharTables.isWord (u : CharTables) (c : Char) : Bool :=
  if c.toNat < 128 then c.isAlphanum || c = '_' else u.word c

/-- `\d`. -/
def CharTables.isDigit (u : CharTables) (c : Char) : Bool :=
  if c.toNat < 128 then c.isDigit else u.digit c

def CharTables.ascii : CharTables := ⟨fun _ => false, fun _ => false⟩

/-- The tables for `str.lower` besides. -/
structure TextTables extends CharTables where
  lower : Str → Str

def TextTables.ascii : TextTables := ⟨.ascii, List.map Char.toLower⟩

inductive Piece where
  | one (p : Char → Bool)
  | many (p : Char → Bool)
  | boundary

abbrev Pattern := List Piece

namespace Pattern

def text (s : String) : Pattern := s.toList.map fun c => .one fun d => d = c

/-- `p+`. -/
def plus (p : Char → Bool) : Pattern := [.one p, .many p]

/-- `\s*`. -/
def spaces : Pattern := [.many Str.isSpace]

/-- Any number of characters that satisfy `p`, and what has to follow. -/
def manyThen (p : Char → Bool) (rest : Option Char → Str → Bool) : Option Char → Str → Bool
  | prev, [] => rest prev []
  | prev, c :: s => rest prev (c :: s) || (p c && manyThen p rest (some c) s)

/-- Whether a pattern matches at the beginning of a text that follows a character. -/
def matchesAt (u : CharTables) : Pattern → Option Char → Str → Bool
  | [], _, _ => true
  | .one p :: r, _, c :: s => p c && matchesAt u r (some c) s
  | .one _ :: _, _, [] => false
  | .many p :: r, prev, s => manyThen p (matchesAt u r) prev s
  | .boundary :: r, prev, s =>
    (prev.any u.isWord != s.head?.any u.isWord) && matchesAt u r prev s

def searchFrom (u : CharTables) (r : Pattern) : Option Char → Str → Bool
  | prev, [] => matchesAt u r prev []
  | prev, c :: s => matchesAt u r prev (c :: s) || searchFrom u r (some c) s

/-- `re.search(r, s)`, as a truth value. -/
def search (u : CharTables) (r : Pattern) (s : Str) : Bool := searchFrom u r none s

end Pattern

namespace Str

def isBreak (c : Char) : Bool :=
  c ∈ ['\n', '\r', '\x0b', '\x0c', '\x1c', '\x1d', '\x1e', '\x85', '\u2028', '\u2029']

/-- `splitlines` with the part of the current line that is read. -/
def splitLinesFrom : Str → Str → List Str
  | line, [] => if line = [] then [] else [line]
  | line, '\r' :: '\n' :: s => line :: splitLinesFrom [] s
  | line, c :: s => if isBreak c then line :: splitLinesFrom [] s else splitLinesFrom (line ++ [c]) s

/-- `s.splitlines()`. -/
def splitLines (s : Str) : List Str := splitLinesFrom [] s

theorem splitLinesFrom_cons {line s : Str} {c : Char} (h : c = '\r' → s.head? ≠ some '\n') :
    splitLinesFrom line (c :: s) =
      if isBreak c then line :: splitLines s else splitLinesFrom (line ++ [c]) s := by
  rw [splitLinesFrom, splitLines]
  rintro s' rfl rfl
  exact h rfl rfl

theorem splitLinesFrom_append (line x s : Str) :
    splitLinesFrom line (x ++ '\n' :: s) = splitLinesFrom line (x ++ ['\n']) ++ splitLines s := by
  induction line, x using splitLinesFrom.induct with
  | case1 => simp [splitLinesFrom, isBreak, splitLines]
  | case2 line hne => simp [splitLinesFrom, isBreak, splitLines]
  | case3 line x ih => simp only [List.cons_append, splitLinesFrom, ih]
  | case4 line c x hnot hbreak ih =>
    by_cases hr : c = '\r' ∧ x = []
    · obtain ⟨rfl, rfl⟩ := hr
      simp [splitLinesFrom, splitLines]
    · have hstep : ∀ y, c = '\r' → (x ++ '\n' :: y).head? ≠ some '\n' := by
        intro y hc
        cases x with
        | nil => exact absurd ⟨hc, rfl⟩ hr
        | cons d x =>
          intro hd
          obtain rfl : d = '\n' := Option.some.inj hd
          exact hnot x hc rfl
      rw [List.cons_append, List.cons_append, splitLinesFrom_cons (hstep s),
        splitLinesFrom_cons (hstep []), if_pos hbreak, if_pos hbreak, splitLines, ih]
      rfl
  | case5 line c x hnot hbreak ih =>
    have hne : c = '\r' → False := by
      rintro rfl
      exact hbreak rfl
    rw [List.cons_append, List.cons_append, splitLinesFrom_cons fun hc => (hne hc).elim,
      splitLinesFrom_cons fun hc => (hne hc).elim, if_neg hbreak, if_neg hbreak, ih]

theorem splitLinesFrom_line {x : Str} (hx : ∀ c ∈ x, isBreak c = false) (line s : Str) :
    splitLinesFrom line (x ++ '\n' :: s) = (line ++ x) :: splitLines s := by
  induction x generalizing line with
  | nil => simp [splitLinesFrom, isBreak, splitLines]
  | cons c x ih =>
    have hc : isBreak c = false := hx c List.mem_cons_self
    have hne : c ≠ '\r' := by
      rintro rfl
      exact absurd hc (by decide)
    rw [List.cons_append, splitLinesFrom_cons fun h => absurd h hne, if_neg (by simp [hc]),
      ih fun c hc => hx c (List.mem_cons_of_mem _ hc)]
    simp

theorem splitLines_line {x : Str} (hx : ∀ c ∈ x, isBreak c = false) (s : Str) :
    splitLines (x ++ '\n' :: s) = x :: splitLines s :=
  splitLinesFrom_line hx [] s

end Str

end K8sLearn
