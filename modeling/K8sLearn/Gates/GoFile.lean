import K8sLearn.Gates.Parser
import K8sLearn.Lib.Pattern

/-! # The parser of the other analyzer

`parse_go_file` cuts the block of constants and the versioned map by counting brackets, with
no regard to strings. It reads the constants line by line together with the comments above
them, tries an entry at every character of the map, and searches each item for its fields.
-/

namespace K8sLearn.Gates.Autok8s

open Scan

/-- The ways in which `parse_go_file` raises: three `ParseError`s of `_find_block`, and a
version that is no pair of numbers. -/
inductive GoFileError
  | markerMissing (marker : Str)
  | openMissing (marker : Str)
  | unclosed (marker : Str)
  | badVersion
deriving DecidableEq

section Blocks

/-- The text before the bracket that closes `depth` and one more open brackets, and the text
behind it. -/
def matching (opened closed : Char) : ℕ → Str → Option (Str × Str)
  | _, [] => none
  | depth, c :: s =>
    if c = opened then (matching opened closed (depth + 1) s).map fun p => (c :: p.1, p.2)
    else if c = closed then
      match depth with
      | 0 => some ([], s)
      | depth + 1 => (matching opened closed depth s).map fun p => (c :: p.1, p.2)
    else (matching opened closed depth s).map fun p => (c :: p.1, p.2)

theorem matching_of_ne {opened closed a : Char} (ho : a ≠ opened) (hc : a ≠ closed) (depth : ℕ)
    (s : Str) : matching opened closed depth (a :: s) =
      (matching opened closed depth s).map fun p => (a :: p.1, p.2) := by
  cases depth <;> simp [matching, ho, hc]

theorem matching_open (opened closed : Char) (depth : ℕ) (s : Str) :
    matching opened closed depth (opened :: s) =
      (matching opened closed (depth + 1) s).map fun p => (opened :: p.1, p.2) := by
  cases depth <;> simp [matching]

/-- `_find_block`, without the outer brackets. -/
def findBlock (marker src : Str) : Except GoFileError Str :=
  let opened := if "var".toList <+: marker then '{' else '('
  let closed := if opened = '{' then '}' else ')'
  match find marker src with
  | none => .error (.markerMissing marker)
  | some s =>
    match s.dropWhile fun c => c ≠ opened with
    | [] => .error (.openMissing marker)
    | _ :: s =>
      match matching opened closed 0 s with
      | none => .error (.unclosed marker)
      | some p => .ok p.1

end Blocks

section Constants

variable (t : TextTables)

/-- What the comments above a constant say. -/
structure Meta where
  kep : Option Str
  desc : List Str
deriving DecidableEq

/-- `https?://kep\.k8s\.io/\d+` at the beginning. -/
def kepAt (s : Str) : Option Str :=
  ["http://kep.k8s.io/".toList, "https://kep.k8s.io/".toList].findSome? fun url =>
    (lit url s).bind fun r =>
      if r.takeWhile t.isDigit = [] then none else some (url ++ r.takeWhile t.isDigit)

def extractKep (comment : Str) : Option Str := search (kepAt t) comment

def descLines (pending : List Str) : List Str :=
  (pending.map fun line => Str.strip ((Str.strip line).drop 2)).filter fun s =>
    !("owner:".toList <+: t.lower s) && !("kep:".toList <+: t.lower s) && s ≠ []

/-- The dictionaries of `_parse_const_block` and the comment lines just read. -/
structure Constants where
  pending : List Str
  featMeta : List (Str × Meta)
  identToVal : List (Str × Str)

/-- One line of the block. The identifier is in ASCII; otherwise `decl_re` is the expression of
`parse_histories`. -/
def Constants.line (k : Constants) (line : Str) : Constants :=
  if "//".toList <+: Str.strip line then { k with pending := k.pending ++ [line] }
  else match declaration (fun _ => false) true line with
    | some ((ident, val), _) =>
      let comment := Str.join ['\n'] k.pending ++ if k.pending = [] then [] else ['\n']
      { pending := []
        featMeta := upsert (fun _ m => m) val ⟨extractKep t comment, descLines t k.pending⟩ k.featMeta
        identToVal := upsert (fun _ v => v) ident val k.identToVal }
    | none => { k with pending := [] }

def parseConstBlock (block : Str) : Constants :=
  (Str.splitLines block).foldl (Constants.line t) ⟨[], [], []⟩

end Constants

section Items

/-- An item of an entry: a block at any opening brace. An unclosed one ends the loop. -/
def specItemAt (_ : Bool) (s : Str) : Option (Option Str × Str) :=
  match s with
  | '{' :: s => match matching '{' '}' 0 s with
    | some p => some (some p.1, p.2)
    | none => some (none, [])
  | _ => none

def splitSpecItems (body : Str) : List Str := (scan specItemAt 0 true body).reduceOption

/-- `//\s*(.*)$` at the beginning; `$` also matches before a last line break. -/
def inlineAt (s : Str) : Option Str :=
  (lit "//".toList s).bind fun r =>
    let r := if (spaces r).getLast? = some '\n' then (spaces r).dropLast else spaces r
    if '\n' ∈ r then none else some r

variable (uni : Char → Bool)

def parseItem (item : Str) : Option Spec :=
  match search (field versionKey versionValue) item,
    search (field defaultKey boolValue) item,
    search (field preReleaseKey (stageValue uni)) item with
  | some version, some default, some stage =>
    some { version, default, stage := String.ofList stage
           lock := search (field lockToDefaultKey boolValue) item
           inline := Str.strip ((search inlineAt item).getD []) }
  | _, _, _ => none

/-- `specs.sort(key=lambda e: _vt(e.version))`. -/
def sortSpecs (specs : List Spec) : Except GoFileError (List Spec) :=
  match specs.mapM fun e => (vt e.version).map fun v => (v, e) with
  | none => .error .badVersion
  | some keyed => .ok ((keyed.insertionSort fun a b => a.1 ≤ b.1).map Prod.snd)

end Items

section Entries

/-- `[A-Za-z0-9_.]`. -/
def isGoKeyChar (c : Char) : Bool := isWord (fun _ => false) c || c = '.'

/-- The expression for an entry: the key, and the text behind the brace. -/
def goEntryHead (s : Str) : Option (Str × Str) :=
  let s := spaces s
  if s.head?.any isNameStart then
    (lit [':'] (spaces (s.dropWhile isGoKeyChar))).bind fun r =>
      (lit ['{'] (spaces r)).map fun r => (s.takeWhile isGoKeyChar, r)
  else none

/-- An entry with its value. Where the value is empty or unclosed the loop goes on behind the
brace. -/
def goEntryAt (_ : Bool) (s : Str) : Option (Option (Str × Str) × Str) :=
  (goEntryHead s).map fun p =>
    match matching '{' '}' 0 p.2 with
    | some (c :: body, r) => (some (p.1, c :: body), r)
    | _ => (none, p.2)

/-- The gates by their names, and the identifiers that differ from them. -/
structure FeatureGateMap where
  gates : List (Str × FeatureGate)
  aliases : List (Str × Str)

variable (t : TextTables)

/-- The gate of an entry, unless it has no spec: its identifier, its name and its record. -/
def gateOf (consts : Constants) (e : Str × Str) :
    Except GoFileError (Option (Str × Str × FeatureGate)) :=
  let bare := (e.1.splitOn '.').getLastD []
  let specs := (splitSpecItems e.2).filterMap (parseItem t.word)
  if specs = [] then .ok none
  else (sortSpecs specs).map fun specs =>
    let val := (consts.identToVal.lookup bare).getD bare
    let found := ((consts.featMeta.lookup val).or (consts.featMeta.lookup bare)).getD ⟨none, []⟩
    some (bare, val, ⟨String.ofList val, found.kep, found.desc, specs⟩)

def FeatureGateMap.add (m : FeatureGateMap) (g : Str × Str × FeatureGate) : FeatureGateMap where
  gates := upsert (fun _ gate => gate) g.2.1 g.2.2 m.gates
  aliases := if g.1 = g.2.1 then m.aliases else upsert (fun _ v => v) g.1 g.2.1 m.aliases

def constMarker : Str := "const (".toList

def parseGoFile (src : Str) : Except GoFileError FeatureGateMap :=
  (findBlock constMarker src).bind fun constBlock =>
  -- the brackets are part of the block that is read, on lines of their own
  let consts := parseConstBlock t ('(' :: (constBlock ++ [')']))
  (findBlock varMarker src).bind fun specBlock =>
  (Lists.collectM (gateOf t consts)
    (scan goEntryAt 0 true ('{' :: (specBlock ++ ['}']))).reduceOption).map fun gates =>
  gates.foldl FeatureGateMap.add ⟨[], []⟩

end Entries

end K8sLearn.Gates.Autok8s
