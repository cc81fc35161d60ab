import Mathlib.Data.List.Chain
import K8sLearn.Gates.Parser

/-! # Go sources with a versioned map

A source is a header, the map `defaultVersionedKubernetesFeatureGates` and a trailer. The
map is given by its tokens: entries with their items, items with their fields, and between
them commas, white space and line comments in any arrangement. A line never ends between a
key and its value, as `gofmt` writes it. `histories` is what the source says once its
comments are left out.
-/

namespace K8sLearn.Gates.Go

open Scan

variable (uni : Char → Bool) {uni}

/-- The white space of Go, once the line ends of the file are translated. -/
def isBlank (c : Char) : Bool := c ∈ [' ', '\t', '\n']

/-- The white space between a colon and the value behind it. -/
structure Pad where
  text : Str
  blank : ∀ c ∈ text, isBlank c = true ∧ c ≠ '\n'

/-- The text behind `//`. -/
structure Comment where
  text : Str
  line : '\n' ∉ text

inductive Stage
  | preAlpha
  | alpha
  | beta
  | ga
  | deprecated
deriving DecidableEq

def Stage.text : Stage → Str
  | .preAlpha => "PreAlpha".toList
  | .alpha => "Alpha".toList
  | .beta => "Beta".toList
  | .ga => "GA".toList
  | .deprecated => "Deprecated".toList

/-- The argument of `version.MustParse`. -/
structure VersionText where
  text : Str
  digits : ∀ c ∈ text, c.isDigit = true ∨ c = '.'
  version : Version
  parses : versionTuple text = some version

inductive Field
  | version (pad : Pad) (v : VersionText)
  | default (pad : Pad) (on : Bool)
  | preRelease (pad : Pad) (stage : Stage)
  | lockToDefault (pad : Pad) (on : Bool)

def Field.text : Field → Str
  | .version pad v => versionKey ++ (pad.text ++ (mustParse ++ (v.text ++ ['"', ')'])))
  | .default pad b => defaultKey ++ (pad.text ++ boolLit b)
  | .preRelease pad stage => preReleaseKey ++ (pad.text ++ (stageOf ++ stage.text))
  | .lockToDefault pad b => lockToDefaultKey ++ (pad.text ++ boolLit b)

inductive Tok (α : Type)
  | item (a : α)
  | comma
  | blank (c : Char) (h : isBlank c = true)
  | comment (c : Comment)

namespace Tok

variable {α : Type}

def text (f : α → Str) : Tok α → Str
  | .item a => f a
  | .comma => [',']
  | .blank c _ => [c]
  | .comment c => '/' :: '/' :: (c.text ++ ['\n'])

def isItem : Tok α → Bool
  | .item _ => true
  | _ => false

def item? : Tok α → Option α
  | .item a => some a
  | _ => none

def endsLine : Tok α → Bool
  | .blank c _ => c = '\n'
  | .comment _ => true
  | _ => false

def comments (f : α → List Comment) : Tok α → List Comment
  | .item a => f a
  | .comment c => [c]
  | _ => []

end Tok

def Pad.toks {α : Type} (pad : Pad) : List (Tok α) :=
  pad.text.attach.map fun p => .blank p.1 (pad.blank p.1 p.2).1

/-- The fields of an item. Two fields never touch. -/
structure Spec where
  toks : List (Tok Field)
  apart : toks.IsChain fun s t => ¬ (s.isItem = true ∧ t.isItem = true)

def Spec.body (s : Spec) : Str := s.toks.flatMap (Tok.text Field.text)

def Spec.text (s : Spec) : Str := '{' :: (s.body ++ ['}'])

def Spec.fields (s : Spec) : List Field := s.toks.filterMap Tok.item?

def Spec.comments (s : Spec) : List Comment := s.toks.flatMap (Tok.comments fun _ => [])

variable (uni) in
/-- The key of an entry: an identifier, with or without a package in front. -/
structure Key where
  text : Str
  chars : ∀ c ∈ text, isKeyChar uni c = true ∧ Str.isSpace c = false
  ne_nil : text ≠ []

variable (uni) in
structure Entry where
  key : Key uni
  pad : Pad
  toks : List (Tok Spec)

def Entry.body (e : Entry uni) : Str := e.toks.flatMap (Tok.text Spec.text)

def Entry.text (e : Entry uni) : Str :=
  e.key.text ++ (':' :: (e.pad.text ++ ('{' :: (e.body ++ ['}']))))

def Entry.comments (e : Entry uni) : List Comment := e.toks.flatMap (Tok.comments Spec.comments)

variable (uni) in
/-- The source before the map, up to the start of a line. The constants are read off the
header whatever follows the marker, and the marker does not occur in it. -/
structure Header where
  text : Str
  identifiers : List (Str × Str)
  reads : ∀ s, varMarker <+: s → scan (declaration uni) 0 true (text ++ s) =
    identifiers ++ scan (declaration uni) 0 true s
  before : Apart varMarker text

def mapType : Str := " = map[featuregate.Feature]featuregate.VersionedSpecs".toList

variable (uni) in
structure Source where
  header : Header uni
  toks : List (Tok (Entry uni))
  trailer : Str
  once : ¬ varMarker <:+: trailer

namespace Source

def body (src : Source uni) : Str := src.toks.flatMap (Tok.text Entry.text)

def text (src : Source uni) : Str :=
  src.header.text ++ (varMarker ++ (mapType ++ ('{' :: (src.body ++ '}' :: src.trailer))))

def comments (src : Source uni) : List Comment := src.toks.flatMap (Tok.comments Entry.comments)

end Source

section Meaning

def Field.version? : Field → Option VersionText
  | .version _ v => some v
  | _ => none

/-- The default; the expression for it also matches the end of `LockToDefault`. -/
def Field.default? : Field → Option Bool
  | .default _ b => some b
  | .lockToDefault _ b => some b
  | _ => none

def Field.stage? : Field → Option Stage
  | .preRelease _ stage => some stage
  | _ => none

def Field.lock? : Field → Option Bool
  | .lockToDefault _ b => some b
  | _ => none

/-- The spec that the fields of an item give: of each field the first one. -/
def Spec.spec (s : Spec) : Option Gates.Spec :=
  match s.fields.findSome? Field.version?, s.fields.findSome? Field.default?,
    s.fields.findSome? Field.stage? with
  | some v, some on, some stage =>
    let lock := s.fields.findSome? Field.lock?
    some ⟨v.version, ⟨String.ofList stage.text, on, lock = some true⟩, lock.isSome⟩
  | _, _, _ => none

def Entry.specs (e : Entry uni) : List Gates.Spec :=
  (e.toks.filterMap Tok.item?).filterMap Spec.spec

def Entry.history (identifiers : List (Str × Str)) (e : Entry uni) :
    Option (String × List Gates.Spec) :=
  if e.specs = [] then none
  else some (String.ofList (nameOf identifiers ((e.key.text.splitOn '.').getLastD [])),
    e.specs.insertionSort fun s t => s.version ≤ t.version)

/-- The entries that begin their line and whose key is made of ASCII names at the front. The
flag says whether only white space stands before on the line. -/
def entriesRead : Bool → List (Tok (Entry uni)) → List (Entry uni)
  | _, [] => []
  | b, .item e :: l =>
    if b && isDotted e.key.text then e :: entriesRead false l else entriesRead false l
  | _, .comma :: l => entriesRead false l
  | b, .blank c _ :: l => entriesRead (b || c = '\n') l
  | _, .comment _ :: l => entriesRead true l

def Source.identifiers (src : Source uni) : List (Str × Str) :=
  src.header.identifiers ++ scan (declaration uni) 0 false src.trailer

def Source.histories (src : Source uni) : Except ParseError (List (String × List Gates.Spec)) :=
  match ((entriesRead true src.toks).filterMap (Entry.history src.identifiers)).foldl assign []
    with
  | [] => .error .noHistories
  | result => .ok result

end Meaning

section Insertion

variable {α : Type}

inductive Insert (c : Comment) : List (Tok α) → List (Tok α) → Prop
  | lineEnd (l l' : List (Tok α)) (h : isBlank '\n' = true) :
      Insert c (l ++ .blank '\n' h :: l') (l ++ .comment c :: l')
  | ownLine (l l' : List (Tok α)) (t : Tok α) (ht : t.endsLine = true) (pad : Pad) :
      Insert c (l ++ t :: l') (l ++ t :: (pad.toks ++ .comment c :: l'))

inductive Within (c : Comment) (R : α → α → Prop) : List (Tok α) → List (Tok α) → Prop
  | here {l l' : List (Tok α)} : Insert c l l' → Within c R l l'
  | inside {a a' : α} (l l' : List (Tok α)) : R a a' →
      Within c R (l ++ .item a :: l') (l ++ .item a' :: l')

def Spec.Commented (c : Comment) (s s' : Spec) : Prop := Insert c s.toks s'.toks

def Entry.Commented (c : Comment) (e e' : Entry uni) : Prop :=
  e.key = e'.key ∧ e.pad = e'.pad ∧ Within c (Spec.Commented c) e.toks e'.toks

/-- The second source is the first one with the comment `c` put in at a line end or on its own
line inside the map. -/
def Source.Commented (c : Comment) (src src' : Source uni) : Prop :=
  src.header = src'.header ∧ src.trailer = src'.trailer ∧
    Within c (Entry.Commented c) src.toks src'.toks

variable {c : Comment} {l l' : List (Tok α)}

theorem Pad.text_toks (pad : Pad) (f : α → Str) :
    (pad.toks : List (Tok α)).flatMap (Tok.text f) = pad.text := by
  simp [Pad.toks, List.flatMap_map, Tok.text, ← List.map_eq_flatMap]

theorem Pad.items_toks (pad : Pad) : (pad.toks : List (Tok α)).filterMap Tok.item? = [] := by
  simp [Pad.toks, List.filterMap_map, Function.comp_def, Tok.item?]

theorem entriesRead_pad (pad : Pad) (l : List (Tok (Entry uni))) :
    entriesRead true (pad.toks ++ l) = entriesRead true l := by
  unfold Pad.toks
  induction pad.text.attach with
  | nil => rfl
  | cons p ps ih => simpa [entriesRead] using ih

theorem Insert.items_eq (h : Insert c l l') : l'.filterMap Tok.item? = l.filterMap Tok.item? := by
  cases h with
  | lineEnd l l' h => simp [List.filterMap_cons, Tok.item?]
  | ownLine l l' t ht pad => simp [List.filterMap_cons, Tok.item?, Pad.items_toks]

theorem Spec.Commented.spec_eq {s s' : Spec} (h : Spec.Commented c s s') : s'.spec = s.spec := by
  have hfields : s'.fields = s.fields := h.items_eq
  rw [Spec.spec, Spec.spec, hfields]

theorem Entry.Commented.specs_eq {e e' : Entry uni} (h : Entry.Commented c e e') :
    e'.specs = e.specs := by
  obtain ⟨-, -, h⟩ := h
  unfold Entry.specs
  revert h
  generalize e.toks = l, e'.toks = l'
  intro h
  cases h with
  | here h => rw [h.items_eq]
  | inside l l' h => simp [List.filterMap_cons, Tok.item?, h.spec_eq]

theorem Entry.Commented.history_eq {e e' : Entry uni} (h : Entry.Commented c e e')
    (identifiers : List (Str × Str)) : e'.history identifiers = e.history identifiers := by
  simp only [Entry.history, h.specs_eq, h.1]

section Read

variable {r r' : List (Tok (Entry uni))} {identifiers : List (Str × Str)}

/-- Two lists of tokens that give the same histories, whatever stands before on the line. -/
def SameRead (identifiers : List (Str × Str)) (r r' : List (Tok (Entry uni))) : Prop :=
  ∀ b, (entriesRead b r').filterMap (Entry.history identifiers) =
    (entriesRead b r).filterMap (Entry.history identifiers)

theorem SameRead.append (h : SameRead identifiers r r') (l : List (Tok (Entry uni))) :
    SameRead identifiers (l ++ r) (l ++ r') := by
  induction l with
  | nil => exact h
  | cons t l ih =>
    intro b
    cases t with
    | item e =>
      simp only [List.cons_append, entriesRead]
      split_ifs
      · simp only [List.filterMap_cons, ih false]
      · exact ih false
    | comma => exact ih false
    | blank d hd => exact ih (b || d = '\n')
    | comment d => exact ih true

theorem Insert.sameRead (h : Insert c r r') : SameRead identifiers r r' := by
  cases h with
  | lineEnd l l' h =>
    apply SameRead.append
    intro b
    simp [entriesRead]
  | ownLine l l' t ht pad =>
    apply SameRead.append
    intro b
    cases t with
    | item e => exact absurd ht (by simp [Tok.endsLine])
    | comma => exact absurd ht (by simp [Tok.endsLine])
    | blank d hd =>
      obtain rfl : d = '\n' := by simpa [Tok.endsLine] using ht
      simp [entriesRead, entriesRead_pad]
    | comment d => simp [entriesRead, entriesRead_pad]

theorem Entry.Commented.sameRead {e e' : Entry uni} (h : Entry.Commented c e e')
    (l l' : List (Tok (Entry uni))) :
    SameRead identifiers (l ++ .item e :: l') (l ++ .item e' :: l') := by
  apply SameRead.append
  intro b
  simp only [entriesRead, h.1]
  split_ifs
  · simp only [List.filterMap_cons, h.history_eq]
  · rfl

end Read

theorem Source.Commented.histories_eq {src src' : Source uni} (h : Source.Commented c src src') :
    src'.histories = src.histories := by
  obtain ⟨hheader, htrailer, h⟩ := h
  have hids : src'.identifiers = src.identifiers := by
    simp only [Source.identifiers, hheader, htrailer]
  have hread : SameRead src.identifiers src.toks src'.toks := by
    revert h
    generalize src.toks = l, src'.toks = l'
    intro h
    cases h with
    | here h => exact h.sameRead
    | inside l l' h => exact h.sameRead l l'
  simp only [Source.histories, hids, hread true]

section Text

variable {s s' : Str}

/-- The line comment is written into a text, before a line break or on a line behind one. -/
def CommentedText (c : Comment) (s s' : Str) : Prop :=
  ∃ a b, s = a ++ '\n' :: b ∧ (s' = a ++ '/' :: '/' :: (c.text ++ '\n' :: b) ∨
    ∃ pad : Pad, s' = a ++ '\n' :: (pad.text ++ '/' :: '/' :: (c.text ++ '\n' :: b)))

theorem CommentedText.context (h : CommentedText c s s') (x y : Str) :
    CommentedText c (x ++ (s ++ y)) (x ++ (s' ++ y)) := by
  obtain ⟨a, b, rfl, h⟩ := h
  refine ⟨x ++ a, b ++ y, by simp, ?_⟩
  rcases h with rfl | ⟨pad, rfl⟩
  · exact Or.inl (by simp)
  · exact Or.inr ⟨pad, by simp⟩

theorem Insert.commentedText (h : Insert c l l') (f : α → Str) :
    CommentedText c (l.flatMap (Tok.text f)) (l'.flatMap (Tok.text f)) := by
  cases h with
  | lineEnd l l' h =>
    refine ⟨l.flatMap (Tok.text f), l'.flatMap (Tok.text f), ?_, Or.inl ?_⟩ <;> simp [Tok.text]
  | ownLine l l' t ht pad =>
    cases t with
    | item e => exact absurd ht (by simp [Tok.endsLine])
    | comma => exact absurd ht (by simp [Tok.endsLine])
    | blank d hd =>
      obtain rfl : d = '\n' := by simpa [Tok.endsLine] using ht
      refine ⟨l.flatMap (Tok.text f), l'.flatMap (Tok.text f), ?_, Or.inr ⟨pad, ?_⟩⟩ <;>
        simp [Tok.text, Pad.text_toks]
    | comment d =>
      refine ⟨l.flatMap (Tok.text f) ++ '/' :: '/' :: d.text, l'.flatMap (Tok.text f), ?_,
        Or.inr ⟨pad, ?_⟩⟩ <;> simp [Tok.text, Pad.text_toks]

theorem Within.commentedText {R : α → α → Prop} {f : α → Str} (h : Within c R l l')
    (hR : ∀ a a', R a a' → CommentedText c (f a) (f a')) :
    CommentedText c (l.flatMap (Tok.text f)) (l'.flatMap (Tok.text f)) := by
  cases h with
  | here h => exact h.commentedText f
  | inside l l' h =>
    simpa [Tok.text] using (hR _ _ h).context (l.flatMap (Tok.text f)) (l'.flatMap (Tok.text f))

theorem Spec.Commented.commentedText {t t' : Spec} (h : Spec.Commented c t t') :
    CommentedText c t.text t'.text :=
  (Insert.commentedText h Field.text).context ['{'] ['}']

theorem Entry.Commented.commentedText {e e' : Entry uni} (h : Entry.Commented c e e') :
    CommentedText c e.text e'.text := by
  obtain ⟨hkey, hpad, h⟩ := h
  have htoks := h.commentedText (f := Spec.text) fun _ _ h => h.commentedText
  have htext := htoks.context (e.key.text ++ (':' :: (e.pad.text ++ ['{']))) ['}']
  simpa [Entry.text, Entry.body, ← hkey, ← hpad] using htext

theorem Source.Commented.commentedText {src src' : Source uni}
    (h : Source.Commented c src src') : CommentedText c src.text src'.text := by
  obtain ⟨hheader, htrailer, h⟩ := h
  have htoks := h.commentedText (f := Entry.text) fun _ _ h => h.commentedText
  have htext := htoks.context (src.header.text ++ (varMarker ++ (mapType ++ ['{'])))
    ('}' :: src.trailer)
  simpa [Source.text, Source.body, ← hheader, ← htrailer] using htext

end Text

end Insertion

end K8sLearn.Gates.Go
