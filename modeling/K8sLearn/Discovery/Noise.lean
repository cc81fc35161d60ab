import Mathlib.Tactic.NormNum
import K8sLearn.Discovery.Clusters
import K8sLearn.Lib.Scan

/-! # Calls that are no feature

The names that a file calls are read off its text: identifiers before an opening bracket. Library
functions and control flow are listed as noise, but the filter lets every name of more than four
letters through. Noise of at most four letters never reaches the clusters, and all other noise does.
-/

namespace K8sLearn.Discovery

def noise : List Str :=
  ["if", "for", "while", "switch", "return", "sizeof", "new", "delete", "assert", "CHECK",
    "DCHECK", "OP_REQUIRES", "TF_LITE_ENSURE", "OP_REQUIRES_OK", "TF_RETURN_IF_ERROR",
    "TORCH_CHECK", "PADDLE_ENFORCE", "std", "abs", "min", "max"].map String.toList

section Model

variable (u : CharTables)

/-- `CALL_RE` at the beginning of a text that follows a character. -/
def callAt (prev : Option Char) (s : Str) : Option Str :=
  if (prev.any u.isWord != s.head?.any u.isWord) && s.head?.any (fun c => c.isAlpha || c = '_') &&
      ((s.dropWhile u.isWord).dropWhile Str.isSpace).head? = some '(' then
    some (s.takeWhile u.isWord)
  else none

def callNamesFrom : Option Char → Str → List Str
  | _, [] => []
  | prev, c :: s => (callAt u prev (c :: s)).toList ++ callNamesFrom (some c) s

/-- `CALL_RE.findall(txt)`. No match begins inside another. -/
def callNames (txt : Str) : List Str := callNamesFrom u none txt

/-- The names in a file, none if it cannot be read. -/
def called (txt : Option Str) : List Str := (txt.map (callNames u)).getD []

/-- The filter of `call_set`. The condition on the length stands alone. -/
def isFeature (m : Str) : Bool := m ∉ noise && !m.head?.any Char.isUpper || 4 < m.length

def callSet (txt : Option Str) : Finset Str := ((called u txt).filter isFeature).toFinset

variable (t : TextTables) (fl : ℚ → ℚ) (simThresh : ℚ)

def autoClusterTexts (read : Path → Option Str) (fuel : ℕ) (files : List Path) :
    Option (List (Str × List Path)) :=
  autoCluster t fl simThresh (fun f => callSet t.toCharTables (read f)) fuel files

end Model

section Calls

variable {u : CharTables} {c d : Char} {w x y : Str} {prev prev' : Option Char}

theorem head?_append_cons (x : Str) (c : Char) (y : Str) :
    (x ++ c :: y).head? = (x ++ [c]).head? := by
  cases x <;> rfl

theorem callAt_append_stop (hc : u.isWord c = false) (hs : Str.isSpace c = false)
    (prev : Option Char) (x y : Str) : callAt u prev (x ++ c :: y) = callAt u prev (x ++ [c]) := by
  unfold callAt
  rw [head?_append_cons x c y, Scan.takeWhile_append_stop hc, Scan.takeWhile_append_stop hc,
    Scan.dropWhile_append_stop hc, Scan.dropWhile_append_stop hc, Scan.dropWhile_append_stop hs,
    Scan.dropWhile_append_stop hs, head?_append_cons _ c y]

theorem callNamesFrom_append (hc : u.isWord c = false) (hs : Str.isSpace c = false)
    (prev : Option Char) (x y : Str) : callNamesFrom u prev (x ++ c :: y) =
      callNamesFrom u prev (x ++ [c]) ++ callNamesFrom u (some c) y := by
  induction x generalizing prev with
  | nil =>
    have hat : callAt u prev (c :: y) = callAt u prev [c] := callAt_append_stop hc hs prev [] y
    simp [callNamesFrom, hat]
  | cons d x ih =>
    have hat : callAt u prev (d :: (x ++ c :: y)) = callAt u prev (d :: (x ++ [c])) :=
      callAt_append_stop hc hs prev (d :: x) y
    rw [List.cons_append, List.cons_append, callNamesFrom, callNamesFrom, ih, hat,
      List.append_assoc]

theorem callNamesFrom_congr (h : prev.any u.isWord = prev'.any u.isWord) (s : Str) :
    callNamesFrom u prev s = callNamesFrom u prev' s := by
  cases s with
  | nil => rfl
  | cons c s => rw [callNamesFrom, callNamesFrom, callAt, callAt, h]

/-- What `CALL_RE` takes for a name. -/
structure IsName (u : CharTables) (w : Str) : Prop where
  head : w.head?.any (fun c => c.isAlpha || c = '_') = true
  word : ∀ c ∈ w, u.isWord c = true

theorem isWord_bracket (u : CharTables) : u.isWord '(' = false := rfl

theorem callNamesFrom_word (hw : ∀ c ∈ w, u.isWord c = true) (hprev : prev.any u.isWord = true)
    (y : Str) : callNamesFrom u prev (w ++ '(' :: y) = callNamesFrom u (some '(') y := by
  induction w generalizing prev with
  | nil =>
    rw [List.nil_append, callNamesFrom, callAt]
    simp
  | cons c w ih =>
    have hc := hw c List.mem_cons_self
    have hat : callAt u prev (c :: (w ++ '(' :: y)) = none := by
      rw [callAt, hprev]
      simp [hc]
    rw [List.cons_append, callNamesFrom, hat,
      ih (fun d hd => hw d (List.mem_cons_of_mem _ hd)) (by simpa using hc)]
    rfl

theorem callNamesFrom_call (hw : IsName u w) (hprev : prev.any u.isWord = false) (y : Str) :
    callNamesFrom u prev (w ++ '(' :: y) = w :: callNamesFrom u (some '(') y := by
  cases w with
  | nil => exact absurd hw.head (by simp)
  | cons c w =>
    have hc := hw.word c List.mem_cons_self
    have htake : (c :: (w ++ '(' :: y)).takeWhile u.isWord = c :: w := by
      rw [← List.cons_append, List.takeWhile_append_of_pos hw.word]
      simp [isWord_bracket]
    have hdrop : (c :: (w ++ '(' :: y)).dropWhile u.isWord = '(' :: y := by
      rw [← List.cons_append, List.dropWhile_append_of_pos hw.word]
      simp [isWord_bracket]
    have hhead : (c.isAlpha || c = '_') = true := hw.head
    have hat : callAt u prev (c :: (w ++ '(' :: y)) = some (c :: w) := by
      rw [callAt, htake, hdrop, hprev]
      simp [hc, hhead, Str.isSpace]
    rw [List.cons_append, callNamesFrom, hat,
      callNamesFrom_word (fun d hd => hw.word d (List.mem_cons_of_mem _ hd)) (by simpa using hc)]
    rfl

theorem mem_callNames_insert (hw : IsName u w) (hc : u.isWord c = false)
    (hs : Str.isSpace c = false) {m : Str} :
    m ∈ callNames u (x ++ c :: (w ++ '(' :: ')' :: ';' :: y)) ↔
      m = w ∨ m ∈ callNames u (x ++ c :: y) := by
  have hrest : callNamesFrom u (some '(') (')' :: ';' :: y) = callNamesFrom u (some c) y := by
    have hsemi : callNamesFrom u (some ';') y = callNamesFrom u (some c) y :=
      callNamesFrom_congr (by rw [Option.any_some, Option.any_some, hc]; rfl) y
    rw [callNamesFrom, callNamesFrom, hsemi, callAt, callAt]
    simp
  unfold callNames
  rw [callNamesFrom_append hc hs, callNamesFrom_append hc hs none x y,
    callNamesFrom_call hw (by simpa using hc), hrest]
  simp only [List.mem_append, List.mem_cons]
  tauto

end Calls

section Features

variable {u : CharTables} {W : List Str} {w m : Str} {txt txt' : Option Str}

def SameCallsBut (u : CharTables) (W : List Str) (txt txt' : Option Str) : Prop :=
  ∀ m ∉ W, m ∈ called u txt ↔ m ∈ called u txt'

theorem mem_callSet_iff : m ∈ callSet u txt ↔ m ∈ called u txt ∧ isFeature m = true := by
  rw [callSet, List.mem_toFinset, List.mem_filter]

theorem isFeature_noise (hw : w ∈ noise) : isFeature w = decide (4 < w.length) := by
  simp [isFeature, hw]

theorem noise_not_mem_callSet_iff :
    (∀ w ∈ noise, w ∉ callSet u txt) ↔ ∀ w ∈ noise, w ∈ called u txt → w.length ≤ 4 := by
  refine forall₂_congr fun w hw => ?_
  rw [mem_callSet_iff, isFeature_noise hw, decide_eq_true_eq, not_and, not_lt]

theorem callSet_congr (hnoise : W ⊆ noise) (hlen : ∀ w ∈ W, w.length ≤ 4)
    (h : SameCallsBut u W txt txt') : callSet u txt = callSet u txt' := by
  ext m
  rw [mem_callSet_iff, mem_callSet_iff]
  by_cases hm : m ∈ W
  · have hfilter : ¬ isFeature m = true := by
      rw [isFeature_noise (hnoise hm), decide_eq_true_eq, not_lt]
      exact hlen m hm
    simp [hfilter]
  · rw [h m hm]

theorem isName_of_mem_noise (u : CharTables) (hw : w ∈ noise) : IsName u w := by
  have hascii : ∀ w ∈ noise, (w.head?.any (fun c => c.isAlpha || c = '_') &&
      w.all fun c => c.toNat < 128 && (c.isAlphanum || c = '_')) = true := by
    decide
  obtain ⟨hhead, hall⟩ := Bool.and_eq_true_iff.mp (hascii w hw)
  refine ⟨hhead, fun c hc => ?_⟩
  obtain ⟨hlt, hword⟩ := Bool.and_eq_true_iff.mp (List.all_eq_true.mp hall c hc)
  rw [CharTables.isWord, if_pos (of_decide_eq_true hlt)]
  exact hword

theorem sameCallsBut_insert {c : Char} (hw : IsName u w) (hc : u.isWord c = false)
    (hs : Str.isSpace c = false) (x y : Str) :
    SameCallsBut u [w] (some (x ++ c :: (w ++ '(' :: ')' :: ';' :: y))) (some (x ++ c :: y)) := by
  intro m hm
  exact (mem_callNames_insert hw hc hs).trans (or_iff_right fun h => hm (h ▸ List.mem_cons_self))

theorem callNames_call (hw : IsName u w) : callNames u (w ++ ['(']) = [w] := by
  have hrest : callNamesFrom u (some '(') [] = [] := rfl
  rw [callNames, callNamesFrom_call hw rfl, hrest]

end Features

section Leak

variable (t : TextTables) (fl : ℚ → ℚ) (simThresh : ℚ) {w : Str}

def letterFiles : List Path := [[['a']], [['b']], [['c']], [['d']]]

/-- The first two files call a name, and the others nothing. -/
def twoCall (w : Str) (f : Path) : Option Str :=
  if f = [['a']] ∨ f = [['b']] then some (w ++ ['(']) else none

theorem keyword_letterFiles {t : TextTables}
    (hlower : ∀ s : Str, (∀ c ∈ s, c.isLower = true) → t.lower s = s) :
    ∀ f ∈ letterFiles, keyword t f = none := by
  intro f hf
  have hname : (∀ c ∈ fileName f, c.isLower = true) ∧
      opKeywords.find? (fun kw => kw.toList <:+: fileName f) = none := by
    revert f
    decide
  rw [keyword, hlower _ hname.1]
  exact hname.2

theorem similar_twoCall (hhalf : fl (1 / 2) = 1 / 2) (hone : fl 1 = 1) (hthresh : simThresh ≤ 1)
    {u : CharTables} (hw : IsName u w) (hlen : 4 < w.length) :
    Similar fl simThresh (fun f => callSet u (twoCall w f)) letterFiles [['a']] [['b']] := by
  have hfeature : isFeature w = true := by simp [isFeature, hlen]
  have hcalls : ∀ f, callSet u (twoCall w f) =
      if f = [['a']] ∨ f = [['b']] then {w} else ∅ := by
    intro f
    rw [twoCall]
    split_ifs
    · simp [callSet, called, callNames_call hw, hfeature]
    · rfl
  have hfreq : freq (fun f => callSet u (twoCall w f)) letterFiles w = 2 := by
    have hmem : ∀ f, w ∈ callSet u (twoCall w f) ↔ f = [['a']] ∨ f = [['b']] := by
      intro f
      rw [hcalls]
      split_ifs with hf <;> simp [hf]
    have hdedup : letterFiles.dedup = letterFiles := by decide
    unfold freq
    simp only [hmem, hdedup]
    rfl
  have hcommon : w ∉ common fl (fun f => callSet u (twoCall w f)) letterFiles := by
    rw [common, Finset.mem_filter, hfreq]
    have hquot : ((2 : ℕ) : ℚ) / (letterFiles.length : ℕ) = 1 / 2 := by
      norm_num [letterFiles]
    rw [hquot, hhalf]
    simp
  have hdistinct : ∀ f, f = [['a']] ∨ f = [['b']] →
      distinctive fl (fun f => callSet u (twoCall w f)) letterFiles f = {w} := by
    intro f hf
    rw [distinctive, hcalls, if_pos hf, Finset.sdiff_eq_self_iff_disjoint]
    exact Finset.disjoint_singleton_left.mpr hcommon
  unfold Similar
  rw [hdistinct _ (Or.inl rfl), hdistinct _ (Or.inr rfl)]
  simpa [hone] using hthresh

theorem not_reachable_of_unread {u : CharTables} {files : List Path} {a b : Path} (hne : a ≠ b) :
    ¬ (similarityGraph fl simThresh (fun _ => callSet u none) files).Reachable a b := by
  rintro ⟨p⟩
  cases p with
  | nil => exact hne rfl
  | cons hadj _ =>
    obtain ⟨-, -, -, hcalls, -⟩ := hadj
    exact hcalls (Finset.empty_sdiff _)

/-- A text has no noise among its features exactly when the noise it calls has at most four
letters; and calls to some of the noise make no difference to any clusters exactly when all of
these names have at most four letters. -/
theorem noise_ignored_iff (hhalf : fl (1 / 2) = 1 / 2) (hone : fl 1 = 1) (hthresh : simThresh ≤ 1)
    (hlower : ∀ s : Str, (∀ c ∈ s, c.isLower = true) → t.lower s = s) :
    (∀ txt, (∀ w ∈ noise, w ∉ callSet t.toCharTables txt) ↔
      ∀ w ∈ noise, w ∈ called t.toCharTables txt → w.length ≤ 4) ∧
    ∀ W ⊆ noise, (∀ fuel files read read', files.length * files.length ≤ fuel →
        (∀ f, SameCallsBut t.toCharTables W (read f) (read' f)) →
        autoClusterTexts t fl simThresh read fuel files =
          autoClusterTexts t fl simThresh read' fuel files) ↔
      ∀ w ∈ W, w.length ≤ 4 := by
  refine ⟨fun txt => noise_not_mem_callSet_iff, fun W hW => ⟨fun h w hw => ?_, ?_⟩⟩
  · by_contra hlen
    have hname := isName_of_mem_noise t.toCharTables (hW hw)
    have hsame : ∀ f, SameCallsBut t.toCharTables W (twoCall w f) none := by
      intro f m hm
      have hmw : m ≠ w := fun h => hm (h ▸ hw)
      rw [twoCall]
      split_ifs <;> simp [called, callNames_call hname, hmw]
    have hkeyword := keyword_letterFiles hlower
    have hnodup : letterFiles.Nodup := by decide
    have hfuel : letterFiles.length * letterFiles.length ≤ 16 := by decide
    obtain ⟨out, hout, htogether⟩ := together_iff fl simThresh
      (fun f => callSet t.toCharTables (twoCall w f)) hnodup hkeyword hfuel
    obtain ⟨out', hout', htogether'⟩ := together_iff fl simThresh
      (fun _ => callSet t.toCharTables none) hnodup hkeyword hfuel
    obtain rfl : out = out' :=
      Option.some.inj (hout.symm.trans ((h 16 letterFiles _ _ hfuel hsame).trans hout'))
    have hne : ([['a']] : Path) ≠ [['b']] := by decide
    have hadj : (similarityGraph fl simThresh (fun f => callSet t.toCharTables (twoCall w f))
        letterFiles).Adj [['a']] [['b']] :=
      ⟨hne, by decide, by decide,
        similar_twoCall fl simThresh hhalf hone hthresh hname (not_le.mp hlen)⟩
    exact not_reachable_of_unread fl simThresh hne
      ((htogether' _ _ hne).mp ((htogether _ _ hne).mpr hadj.reachable))
  · intro hlen fuel files read read' _ hsame
    have hcalls : (fun f => callSet t.toCharTables (read f)) =
        fun f => callSet t.toCharTables (read' f) :=
      funext fun f => callSet_congr hW hlen (hsame f)
    rw [autoClusterTexts, autoClusterTexts, hcalls]

theorem toLower_of_isLower {c : Char} (h : c.isLower = true) : c.toLower = c := by
  obtain ⟨hlow, -⟩ := Bool.and_eq_true_iff.mp h
  have hlow' : 'a'.val ≤ c.val := of_decide_eq_true hlow
  refine Str.toLower_of_not_capital ?_
  rintro ⟨-, hup⟩
  exact absurd (UInt32.le_trans hlow' hup) (by decide)

/-- Calls to `while` make a difference to some clusters, and calls to `if` to none. -/
theorem noise_ignored_iff_while :
    (¬ ∀ fuel files read read', files.length * files.length ≤ fuel →
        (∀ f, SameCallsBut .ascii ["while".toList] (read f) (read' f)) →
        autoClusterTexts .ascii id (1 / 4) read fuel files =
          autoClusterTexts .ascii id (1 / 4) read' fuel files) ∧
    ∀ fuel files read read', files.length * files.length ≤ fuel →
        (∀ f, SameCallsBut .ascii ["if".toList] (read f) (read' f)) →
        autoClusterTexts .ascii id (1 / 4) read fuel files =
          autoClusterTexts .ascii id (1 / 4) read' fuel files := by
  have hlower : ∀ s : Str, (∀ c ∈ s, c.isLower = true) → TextTables.ascii.lower s = s := fun s hs =>
    (List.map_congr_left fun c hc => toLower_of_isLower (hs c hc)).trans (List.map_id s)
  have hiff := (noise_ignored_iff .ascii id (1 / 4) rfl rfl (by norm_num) hlower).2
  constructor
  · intro h
    exact absurd ((hiff ["while".toList] (by decide)).mp h) (by decide)
  · exact (hiff ["if".toList] (by decide)).mpr (by decide)

def walkText (walk : String) (f : Path) : Option Str :=
  if f = ["a.cc".toList] ∨ f = ["b.cc".toList] then
    some ("Node* p = Head(list); ".toList ++ walk.toList ++ " last = p;".toList)
  else some "int zero = 0;".toList

theorem while_joins :
    (∀ f, SameCallsBut .ascii noise (walkText "while (p->next) p = p->next;" f)
      (walkText "p = p->next;" f)) ∧
    "while".toList ∈ noise ∧
    "while".toList ∈ callSet .ascii (walkText "while (p->next) p = p->next;" ["a.cc".toList]) ∧
    autoClusterTexts .ascii id (1 / 4) (walkText "while (p->next) p = p->next;") 16
        [["a.cc".toList], ["b.cc".toList], ["c.cc".toList], ["d.cc".toList]] =
      some [("misc:a,b".toList, [["a.cc".toList], ["b.cc".toList]])] ∧
    autoClusterTexts .ascii id (1 / 4) (walkText "p = p->next;") 16
        [["a.cc".toList], ["b.cc".toList], ["c.cc".toList], ["d.cc".toList]] = some [] := by
  refine ⟨fun f m hm => ?_, by decide, by decide +kernel, by decide +kernel, by decide +kernel⟩
  have hne : m ≠ "while".toList := by
    rintro rfl
    exact hm (by decide)
  have hwith : called .ascii (some ("Node* p = Head(list); ".toList ++
      "while (p->next) p = p->next;".toList ++ " last = p;".toList)) =
      ["Head".toList, "while".toList] := by decide +kernel
  have hwithout : called .ascii (some ("Node* p = Head(list); ".toList ++
      "p = p->next;".toList ++ " last = p;".toList)) = ["Head".toList] := by decide +kernel
  unfold walkText
  split_ifs
  · rw [hwith, hwithout, List.mem_cons, List.mem_singleton, List.mem_singleton]
    exact or_iff_left hne
  · rfl

end Leak

end K8sLearn.Discovery
