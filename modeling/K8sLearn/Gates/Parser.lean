import Mathlib.Data.List.Sort
import K8sLearn.Gates.Analyzer
import K8sLearn.Lib.Collect
import K8sLearn.Lib.Scan

/-! # Reading the histories

`parse_histories` reads the Go source as text. One regular expression finds the constants,
`balanced` cuts the block of the versioned map, another expression finds its entries at the
starts of lines, and four more search each item for its fields. No two neighbouring parts
of these expressions share a character, so each of them matches in at most one way and is
read here from left to right. Which characters beyond ASCII `\w` matches is the parameter
`uni`.
-/

namespace K8sLearn.Gates

open Scan

/-- The ways in which `parse_histories` raises `ValueError`. -/
inductive ParseError
  | markerMissing
  | unbalanced
  | badVersion
  | noHistories
deriving DecidableEq, Repr

def ParseError.text (path : String) : ParseError → String
  | .markerMissing => "defaultVersionedKubernetesFeatureGates not found in " ++ path
  | .unbalanced => "unbalanced Go source block"
  | .badVersion => "invalid version"
  | .noHistories => "no feature-gate histories parsed from " ++ path

/-- `version_tuple`; fewer than two parts, or a part that is no number, raise. -/
def versionTuple (value : Str) : Option Version :=
  Autok8s.vt (value.dropWhile fun c => c = 'v')

section Balanced

/-- The variables of the loop of `balanced`. -/
structure Cursor where
  depth : ℤ
  inString : Bool
  escaped : Bool
deriving DecidableEq

def Cursor.start : Cursor := ⟨0, false, false⟩

def Cursor.next (k : Cursor) (c : Char) : Cursor :=
  if k.inString then
    if k.escaped then { k with escaped := false }
    else if c = '\\' then { k with escaped := true }
    else if c = '"' then { k with inString := false }
    else k
  else if c = '"' then { k with inString := true }
  else if c = '{' then { k with depth := k.depth + 1 }
  else if c = '}' then { k with depth := k.depth - 1 }
  else k

def Cursor.closes (k : Cursor) (c : Char) : Bool := !k.inString && c = '}' && k.depth = 1

/-- The rest of the loop: the text before the closing brace and the text behind it. -/
def Cursor.close (k : Cursor) : Str → Option (Str × Str)
  | [] => none
  | c :: s =>
    if k.closes c then some ([], s) else ((k.next c).close s).map fun p => (c :: p.1, p.2)

/-- `balanced`, on the text from `start` on; the first character is not part of the
result. -/
def balanced : Str → Option (Str × Str)
  | [] => none
  | c :: s => (Cursor.start.next c).close s

variable {k : Cursor} {x y s : Str} {d : ℤ}

def Cursor.run (k : Cursor) (x : Str) : Cursor := x.foldl Cursor.next k

/-- The loop does not return within the text. -/
def Cursor.Stays (k : Cursor) : Str → Prop
  | [] => True
  | c :: x => k.closes c = false ∧ (k.next c).Stays x

instance Cursor.decidableStays (k : Cursor) : (x : Str) → Decidable (k.Stays x)
  | [] => isTrue trivial
  | c :: x =>
    have := decidableStays (k.next c) x
    inferInstanceAs (Decidable (_ ∧ _))

theorem Cursor.run_append (k : Cursor) (x y : Str) : k.run (x ++ y) = (k.run x).run y :=
  List.foldl_append

theorem Cursor.stays_append : k.Stays (x ++ y) ↔ k.Stays x ∧ (k.run x).Stays y := by
  induction x generalizing k with
  | nil => simp [Stays, run]
  | cons c x ih =>
    simp only [List.cons_append, Stays, ih, and_assoc]
    rfl

theorem Cursor.close_append (h : k.Stays x) :
    k.close (x ++ s) = ((k.run x).close s).map fun p => (x ++ p.1, p.2) := by
  induction x generalizing k with
  | nil => simp [run]
  | cons c x ih =>
    rw [List.cons_append, close, h.1, ih h.2, Option.map_map]
    rfl

def Cursor.level (d : ℤ) : Cursor := ⟨d, false, false⟩

def Cursor.deeper (n : ℤ) (k : Cursor) : Cursor := { k with depth := k.depth + n }

theorem Cursor.next_deeper (n : ℤ) (k : Cursor) (c : Char) :
    (k.deeper n).next c = (k.next c).deeper n := by
  obtain ⟨d, i, e⟩ := k
  cases i <;> cases e <;> simp only [next, deeper] <;> split_ifs <;> simp <;> omega

theorem Cursor.le_depth_next {c : Char} (hk : 1 ≤ k.depth) (h : k.closes c = false) :
    1 ≤ (k.next c).depth := by
  simp only [closes, Bool.and_eq_false_iff, Bool.not_eq_false', decide_eq_false_iff_not] at h
  simp only [next]
  split_ifs <;> grind

theorem Cursor.Stays.deeper {n : ℤ} (hn : 0 ≤ n) (hk : 1 ≤ k.depth) (h : k.Stays x) :
    (k.deeper n).Stays x ∧ (k.deeper n).run x = (k.run x).deeper n := by
  induction x generalizing k with
  | nil => exact ⟨trivial, rfl⟩
  | cons c x ih =>
    have hrest := ih (le_depth_next hk h.1) h.2
    rw [← next_deeper] at hrest
    constructor
    · constructor
      · have hc := h.1
        simp only [closes, Bool.and_eq_false_iff, decide_eq_false_iff_not] at hc ⊢
        rcases hc with hc | hc
        · exact Or.inl hc
        · have hdeep : k.depth + n ≠ 1 := by omega
          exact Or.inr hdeep
      · exact hrest.1
    · exact hrest.2

/-- Text that `balanced` passes over at any depth and leaves as it entered it. -/
def Steady (x : Str) : Prop :=
  (Cursor.level 1).Stays x ∧ (Cursor.level 1).run x = Cursor.level 1

instance (x : Str) : Decidable (Steady x) := inferInstanceAs (Decidable (_ ∧ _))

theorem Steady.at_level (h : Steady x) (hd : 1 ≤ d) :
    (Cursor.level d).Stays x ∧ (Cursor.level d).run x = Cursor.level d := by
  have hlevel : (Cursor.level 1).deeper (d - 1) = Cursor.level d :=
    congrArg Cursor.level (by omega : 1 + (d - 1) = d)
  have hdeep := h.1.deeper (n := d - 1) (by omega) (le_refl 1)
  rwa [h.2, hlevel] at hdeep

theorem Steady.nil : Steady [] := ⟨trivial, rfl⟩

theorem Steady.append (hx : Steady x) (hy : Steady y) : Steady (x ++ y) := by
  constructor
  · rw [Cursor.stays_append, hx.2]
    exact ⟨hx.1, hy.1⟩
  · rw [Cursor.run_append, hx.2, hy.2]

theorem steady_singleton {c : Char} (h : c ∉ ['"', '{', '}']) : Steady [c] := by
  simp only [List.mem_cons, List.not_mem_nil, or_false, not_or] at h
  simp [Steady, Cursor.Stays, Cursor.run, Cursor.closes, Cursor.next, Cursor.level, h]

theorem steady_plain (h : ∀ c ∈ x, c ∉ ['"', '{', '}']) : Steady x := by
  induction x with
  | nil => exact Steady.nil
  | cons c x ih =>
    exact (steady_singleton (h c List.mem_cons_self)).append
      (ih fun c hc => h c (List.mem_cons_of_mem _ hc))

theorem Cursor.in_string (h : ∀ c ∈ x, c ≠ '"' ∧ c ≠ '\\') :
    (⟨d, true, false⟩ : Cursor).Stays x ∧ (⟨d, true, false⟩ : Cursor).run x = ⟨d, true, false⟩ := by
  induction x with
  | nil => exact ⟨trivial, rfl⟩
  | cons c x ih =>
    have hnext : (⟨d, true, false⟩ : Cursor).next c = ⟨d, true, false⟩ := by
      simp [next, h c List.mem_cons_self]
    have hrest := ih fun c hc => h c (List.mem_cons_of_mem _ hc)
    simp only [Stays, run, List.foldl_cons, hnext]
    exact ⟨⟨by simp [closes], hrest.1⟩, hrest.2⟩

theorem steady_quoted (h : ∀ c ∈ x, c ≠ '"' ∧ c ≠ '\\') : Steady ('"' :: (x ++ ['"'])) := by
  have hopen : (Cursor.level 1).next '"' = ⟨1, true, false⟩ := rfl
  have hin := Cursor.in_string (d := 1) h
  constructor
  · refine ⟨rfl, ?_⟩
    rw [hopen, Cursor.stays_append, hin.2]
    exact ⟨hin.1, rfl, trivial⟩
  · change ((Cursor.level 1).next '"').run (x ++ ['"']) = _
    rw [hopen, Cursor.run_append, hin.2]
    rfl

theorem steady_block (h : Steady x) : Steady ('{' :: (x ++ ['}'])) := by
  have hopen : (Cursor.level 1).next '{' = Cursor.level 2 := rfl
  have hin := h.at_level (d := 2) (by decide)
  constructor
  · refine ⟨rfl, ?_⟩
    rw [hopen, Cursor.stays_append, hin.2]
    exact ⟨hin.1, rfl, trivial⟩
  · change ((Cursor.level 1).next '{').run (x ++ ['}']) = _
    rw [hopen, Cursor.run_append, hin.2]
    rfl

/-- What `balanced` returns is read off the text up to the closing brace. -/
theorem Cursor.close_eq_some {r : Str} (h : k.close x = some (y, r)) :
    x = y ++ '}' :: r ∧ ∀ s, k.close (y ++ '}' :: s) = some (y, s) := by
  induction x generalizing k y with
  | nil => cases h
  | cons c x ih =>
    rw [close] at h
    split_ifs at h with hc
    · obtain ⟨rfl, rfl⟩ := Prod.mk.inj (Option.some.inj h)
      obtain rfl : c = '}' := by
        simp only [closes, Bool.and_eq_true, decide_eq_true_eq] at hc
        exact hc.1.2
      exact ⟨rfl, fun s => by simp [close, hc]⟩
    · obtain ⟨⟨y', r'⟩, hrest, he⟩ := Option.map_eq_some_iff.mp h
      obtain ⟨rfl, rfl⟩ := Prod.mk.inj he
      obtain ⟨rfl, hlocal⟩ := ih hrest
      exact ⟨rfl, fun s => by rw [List.cons_append, close, if_neg hc, hlocal]; rfl⟩

theorem Cursor.close_eq_none_iff : k.close x = none ↔ k.Stays x := by
  induction x generalizing k with
  | nil => exact ⟨fun _ => trivial, fun _ => rfl⟩
  | cons c x ih =>
    rw [close, Stays]
    cases k.closes c with
    | true => simp
    | false => simpa using ih

theorem Cursor.le_depth_run (hk : 1 ≤ k.depth) (h : k.Stays x) : 1 ≤ (k.run x).depth := by
  induction x generalizing k with
  | nil => exact hk
  | cons c x ih => exact ih (le_depth_next hk h.1) h.2

theorem Cursor.escaped_run (hk : k.inString = false → k.escaped = false) :
    (k.run x).inString = false → (k.run x).escaped = false := by
  induction x generalizing k with
  | nil => exact hk
  | cons c x ih =>
    apply ih
    simp only [next]
    split_ifs <;> simp_all

theorem balanced_block (h : Steady x) : balanced ('{' :: (x ++ '}' :: s)) = some (x, s) := by
  have hopen : Cursor.start.next '{' = Cursor.level 1 := rfl
  have hclose : (Cursor.level 1).close ('}' :: s) = some ([], s) := rfl
  rw [balanced, hopen, Cursor.close_append h.1, h.2, hclose]
  simp

end Balanced

section Patterns

variable (uni : Char → Bool)

/-- `\w`. -/
def isWord (c : Char) : Bool := if c.toNat < 128 then c.isAlphanum || c = '_' else uni c

/-- `[A-Za-z_]`. -/
def isNameStart (c : Char) : Bool := c.isAlpha || c = '_'

/-- `\s*`. -/
def spaces (s : Str) : Str := s.dropWhile Str.isSpace

/-- `\s+`. -/
def someSpaces : Str → Option Str
  | [] => none
  | c :: s => if Str.isSpace c then some (spaces s) else none

/-- `([A-Za-z_]\w*)`. -/
def identifier : Str → Option (Str × Str)
  | [] => none
  | c :: s =>
    if isNameStart c then some (c :: s.takeWhile (isWord uni), s.dropWhile (isWord uni))
    else none

/-- `([^"]+)"`. -/
def quoted (s : Str) : Option (Str × Str) :=
  match s.takeWhile (fun c => c ≠ '"'), s.dropWhile (fun c => c ≠ '"') with
  | c :: x, _ :: r => some (c :: x, r)
  | _, _ => none

def featureType : Str := "featuregate.Feature".toList

/-- What follows the identifier in `declaration`; its two alternatives begin with different
characters. -/
def declared (s : Str) : Option (Str × Str) :=
  match lit featureType s with
  | some s => (lit ['='] (spaces s)).bind fun s => (lit ['"'] (spaces s)).bind quoted
  | none =>
    (lit ['='] s).bind fun s => (lit (featureType ++ ['(', '"']) (spaces s)).bind fun s =>
      (quoted s).bind fun p => (lit [')'] p.2).map fun r => (p.1, r)

def declaration (lineStart : Bool) (s : Str) : Option ((Str × Str) × Str) :=
  if lineStart then
    (identifier uni (spaces s)).bind fun p => (someSpaces p.2).bind fun s =>
      (declared s).map fun q => ((p.1, q.1), q.2)
  else none

def isKeyChar (c : Char) : Bool := isWord uni c || c = '.'

/-- Whether each part of a dotted name begins as an identifier does. -/
def isDotted (key : Str) : Bool := (key.splitOn '.').all fun x => x.head?.any isNameStart

/-- The expression `entry` without its first spaces: the key, and the text from the brace
on. A dotted name is read to its end, since no shorter one is followed by a colon. -/
def entryHead (s : Str) : Option (Str × Str) :=
  if isDotted (s.takeWhile (isKeyChar uni)) then
    (lit [':'] (spaces (s.dropWhile (isKeyChar uni)))).bind fun r =>
      if (spaces r).head? = some '{' then some (s.takeWhile (isKeyChar uni), spaces r) else none
  else none

def versionKey : Str := "Version:".toList

def defaultKey : Str := "Default:".toList

def preReleaseKey : Str := "PreRelease:".toList

def lockToDefaultKey : Str := "LockToDefault:".toList

def field {β : Type} (key : Str) (value : Str → Option β) (s : Str) : Option β :=
  (lit key s).bind fun s => value (spaces s)

def mustParse : Str := "version.MustParse(\"".toList

def versionValue (s : Str) : Option Str :=
  (lit mustParse s).bind fun s => (quoted s).bind fun p => (lit [')'] p.2).map fun _ => p.1

def boolLit (b : Bool) : Str := if b then "true".toList else "false".toList

/-- `(true|false)`. -/
def boolValue (s : Str) : Option Bool :=
  if boolLit true <+: s then some true
  else if boolLit false <+: s then some false
  else none

def stageOf : Str := "featuregate.".toList

def stageValue (s : Str) : Option Str :=
  (lit stageOf s).bind fun s =>
    if s.takeWhile (isWord uni) = [] then none else some (s.takeWhile (isWord uni))

end Patterns

section Histories

variable (uni : Char → Bool)

/-- The fields of one item; an item without version, default or stage is passed over. -/
def parseItem (item : Str) : Except ParseError (Option Spec) :=
  match search (field versionKey versionValue) item,
    search (field defaultKey boolValue) item,
    search (field preReleaseKey (stageValue uni)) item with
  | some version, some default, some stage =>
    match versionTuple version with
    | none => .error .badVersion
    | some v =>
      let lock := search (field lockToDefaultKey boolValue) item
      .ok (some ⟨v, ⟨String.ofList stage, default, lock = some true⟩, lock.isSome⟩)
  | _, _, _ => .ok none

/-- The block at an opening brace and the text behind it. An unbalanced one raises, and
nothing is read behind it. -/
def blockAt (s : Str) : Except ParseError Str × Str :=
  match balanced s with
  | some p => (.ok p.1, p.2)
  | none => (.error .unbalanced, [])

/-- An item of a value: a block at any opening brace. -/
def itemAt (_ : Bool) (s : Str) : Option (Except ParseError Str × Str) :=
  if s.head? = some '{' then some (blockAt s) else none

def readItem (item : Except ParseError Str) : Except ParseError (Option Spec) :=
  item.bind (parseItem uni)

def parseSpecs (value : Str) : Except ParseError (List Spec) :=
  Lists.collectM (readItem uni) (scan itemAt 0 true value)

def entryAt (lineStart : Bool) (s : Str) : Option (Except ParseError (Str × Str) × Str) :=
  if lineStart then
    (entryHead uni (spaces s)).map fun p =>
      ((blockAt p.2).1.map fun value => (p.1, value), (blockAt p.2).2)
  else none

/-- `identifiers.get(key, key)`, where the last declaration of an identifier counts. -/
def nameOf (identifiers : List (Str × Str)) (key : Str) : Str :=
  (identifiers.reverse.lookup key).getD key

def parseEntry (identifiers : List (Str × Str)) (p : Str × Str) :
    Except ParseError (Option (String × List Spec)) :=
  (parseSpecs uni p.2).map fun specs =>
    if specs = [] then none
    else some (String.ofList (nameOf identifiers ((p.1.splitOn '.').getLastD [])),
      specs.insertionSort fun s t => s.version ≤ t.version)

def readEntry (identifiers : List (Str × Str)) (e : Except ParseError (Str × Str)) :
    Except ParseError (Option (String × List Spec)) :=
  e.bind (parseEntry uni identifiers)

def markerName : Str := "defaultVersionedKubernetesFeatureGates".toList

def varMarker : Str := "var ".toList ++ markerName

/-- The block of the versioned map. Without an opening brace `source.find` returns -1, and
`balanced` reads the last character first and then the source from its beginning. -/
def gateBlock (source : Str) : Except ParseError Str :=
  match find markerName source with
  | none => .error .markerMissing
  | some s =>
    let block := ((find varMarker s).getD s).dropWhile fun c => c ≠ '{'
    match balanced (if block = [] then source.getLast?.toList ++ source else block) with
    | none => .error .unbalanced
    | some p => .ok p.1

/-- `result[name] = specs`. -/
def assign (result : List (String × List Spec)) (p : String × List Spec) :
    List (String × List Spec) :=
  upsert (fun _ specs => specs) p.1 p.2 result

def parseHistories (source : Str) : Except ParseError (List (String × List Spec)) :=
  let identifiers := scan (declaration uni) 0 true source
  (gateBlock source).bind fun body =>
  (Lists.collectM (readEntry uni identifiers) (scan (entryAt uni) 0 true body)).bind fun entries =>
  match entries.foldl assign [] with
  | [] => .error .noHistories
  | result => .ok result

end Histories

end K8sLearn.Gates
