import K8sLearn.Gates.Reading

/-! # The canonical source

Gates written as `gofmt` writes them: a block of constants that declares each identifier,
then the versioned map with one entry for each gate and one line for each spec. The text is
that of a source without comments, and the extractor reads the gates off it.
-/

namespace K8sLearn.Gates.Go

open Scan

variable {uni : Char → Bool}

structure Ident where
  text : Str
  start : text.head?.any isNameStart = true
  chars : ∀ c ∈ text, c.toNat < 128 ∧ (c.isAlphanum || c = '_') = true

/-- The string of a gate: letters and digits, of any script. -/
structure GateName where
  text : Str
  ne_nil : text ≠ []
  chars : ∀ c ∈ text, c.isAlphanum = true ∨ 128 ≤ c.toNat ∧ Str.isSpace c = false

structure SpecDecl where
  major : ℕ
  minor : ℕ
  default : Bool
  stage : Stage
  lock : Option Bool
deriving DecidableEq

/-- A gate: the constant, the package in front of its key and its specs. -/
structure GateDecl where
  ident : Ident
  name : GateName
  package : Option Ident
  align : Pad
  align_ne_nil : align.text ≠ []
  specs : List SpecDecl
  specs_ne_nil : specs ≠ []
  nodup : (specs.map fun s => (s.major, s.minor)).Nodup

section Text

def SpecDecl.versionText (s : SpecDecl) : Str :=
  Nat.toDigits 10 s.major ++ '.' :: Nat.toDigits 10 s.minor

def SpecDecl.lockText (s : SpecDecl) : Str :=
  match s.lock with
  | none => []
  | some b => ", ".toList ++ (lockToDefaultKey ++ ' ' :: boolLit b)

def SpecDecl.fieldsText (s : SpecDecl) : Str :=
  versionKey ++ ' ' :: (mustParse ++ (s.versionText ++ ("\"), ".toList ++
    (defaultKey ++ ' ' :: (boolLit s.default ++ (", ".toList ++
      (preReleaseKey ++ ' ' :: (stageOf ++ (s.stage.text ++ s.lockText)))))))))

def SpecDecl.text (s : SpecDecl) : Str := "\t\t".toList ++ '{' :: (s.fieldsText ++ "\x7d,\n".toList)

def GateDecl.keyText (g : GateDecl) : Str :=
  match g.package with
  | none => g.ident.text
  | some p => p.text ++ '.' :: g.ident.text

def GateDecl.text (g : GateDecl) : Str :=
  '\t' :: (g.keyText ++ (": \x7b\n".toList ++ (g.specs.flatMap SpecDecl.text ++ "\t\x7d,\n".toList)))

def GateDecl.constText (g : GateDecl) : Str :=
  '\t' :: (g.ident.text ++ (g.align.text ++ (featureType ++ (" = \"".toList ++
    (g.name.text ++ "\"\n".toList)))))

def preamble : Str := "package features\n\nconst (\n".toList

def constEnd : Str := ")\n\n".toList

def headerText (consts : List GateDecl) : Str :=
  preamble ++ (consts.flatMap GateDecl.constText ++ constEnd)

def render (consts gates : List GateDecl) : Str :=
  headerText consts ++ (varMarker ++ (mapType ++ ("\x7b\n".toList ++
    (gates.flatMap GateDecl.text ++ "\x7d\n".toList))))

end Text

section Header

variable {s : Str}

theorem ascii_forall {P : Char → Prop} (h : ∀ n : Fin 128, P (Char.ofNat n)) {c : Char}
    (hc : c.toNat < 128) : P c := by
  have hn := h ⟨c.toNat, hc⟩
  rwa [Char.ofNat_toNat] at hn

theorem Ident.isWord (i : Ident) : ∀ c ∈ i.text, isWord uni c = true := by
  intro c hc
  rw [isWord_ascii (i.chars c hc).1]
  exact (i.chars c hc).2

theorem Ident.not_isSpace (i : Ident) : ∀ c ∈ i.text, Str.isSpace c = false := by
  have hascii : ∀ n : Fin 128, ((Char.ofNat n).isAlphanum || Char.ofNat n = '_') = true →
      Str.isSpace (Char.ofNat n) = false := by decide
  intro c hc
  have himp : (c.isAlphanum || c = '_') = true → Str.isSpace c = false :=
    ascii_forall (P := fun c => (c.isAlphanum || c = '_') = true → Str.isSpace c = false) hascii
      (i.chars c hc).1
  exact himp (i.chars c hc).2

theorem Ident.not_mem (i : Ident) {a : Char} (ha : (a.isAlphanum || a = '_') = false) :
    a ∉ i.text := by
  intro h
  rw [(i.chars a h).2] at ha
  exact Bool.noConfusion ha

theorem Ident.eq_cons (i : Ident) : ∃ a k, i.text = a :: k ∧ isNameStart a = true := by
  have hstart := i.start
  cases h : i.text with
  | nil => simp [h] at hstart
  | cons a k => exact ⟨a, k, rfl, by simpa [h] using hstart⟩

theorem GateName.not_mem (n : GateName) {a : Char} (ha : a.toNat < 128)
    (ha' : a.isAlphanum = false) : a ∉ n.text := by
  intro h
  rcases n.chars a h with h | h
  · rw [h] at ha'
    exact Bool.noConfusion ha'
  · omega

theorem identifier_text (i : Ident) (hs : Ends uni s) :
    identifier uni (i.text ++ s) = some (i.text, s) := by
  obtain ⟨a, k, hk, ha⟩ := i.eq_cons
  have hword : ∀ c ∈ k, Gates.isWord uni c = true :=
    fun c hc => i.isWord c (hk ▸ List.mem_cons_of_mem _ hc)
  rw [hk, List.cons_append, identifier, if_pos ha, takeWhile_append hword hs,
    dropWhile_append hword hs]

def GateDecl.constLine (g : GateDecl) : Str :=
  '\t' :: (g.ident.text ++ (g.align.text ++ (featureType ++ (" = \"".toList ++
    (g.name.text ++ ['"'])))))

theorem GateDecl.constText_eq (g : GateDecl) : g.constText = g.constLine ++ ['\n'] := by
  simp [constText, constLine]

theorem declared_text (n : GateName) :
    declared (featureType ++ (" = \"".toList ++ (n.text ++ '"' :: s))) = some (n.text, s) := by
  have hsep : " = \"".toList ++ (n.text ++ '"' :: s) = ' ' :: '=' :: ' ' :: '"' :: (n.text ++ '"' :: s) :=
    congrArg (· ++ (n.text ++ '"' :: s)) (by decide : " = \"".toList = [' ', '=', ' ', '"'])
  have hequals : lit ['='] (spaces (' ' :: '=' :: ' ' :: '"' :: (n.text ++ '"' :: s))) =
      some (' ' :: '"' :: (n.text ++ '"' :: s)) := lit_append ['='] _
  have hquote : lit ['"'] (spaces (' ' :: '"' :: (n.text ++ '"' :: s))) =
      some (n.text ++ '"' :: s) := lit_append ['"'] _
  rw [declared, lit_append, hsep]
  simp only [hequals, hquote, Option.bind_some]
  exact quoted_append n.ne_nil (n.not_mem (by decide) rfl)

theorem Pad.someSpaces_append {pad : Pad} (hne : pad.text ≠ [])
    (hs : ∀ a ∈ s.head?, Str.isSpace a = false) : someSpaces (pad.text ++ s) = some s := by
  have hblank := pad.isSpace
  cases hp : pad.text with
  | nil => exact absurd hp hne
  | cons a p =>
    rw [hp] at hblank
    rw [List.cons_append, someSpaces, if_pos (hblank a List.mem_cons_self),
      Go.spaces_append fun c hc => hblank c (List.mem_cons_of_mem _ hc), spaces_of_head hs]

theorem Pad.ends {pad : Pad} (hne : pad.text ≠ []) : Ends uni (pad.text ++ s) := by
  have hblank := pad.blank
  cases hp : pad.text with
  | nil => exact absurd hp hne
  | cons a p =>
    intro c hc
    obtain rfl : a = c := Option.some.inj hc
    rw [hp] at hblank
    have ha : a = ' ' ∨ a = '\t' ∨ a = '\n' := by
      simpa [isBlank] using (hblank a List.mem_cons_self).1
    rcases ha with rfl | rfl | rfl <;> rfl

theorem declaration_constLine (g : GateDecl) :
    declaration uni true (g.constLine ++ s) = some ((g.ident.text, g.name.text), s) := by
  obtain ⟨a, k, hk, -⟩ := g.ident.eq_cons
  have hspaces : spaces (g.constLine ++ s) = g.ident.text ++ (g.align.text ++ (featureType ++
      (" = \"".toList ++ (g.name.text ++ '"' :: s)))) := by
    have htext : g.constLine ++ s = ['\t'] ++ (g.ident.text ++ (g.align.text ++ (featureType ++
        (" = \"".toList ++ (g.name.text ++ '"' :: s))))) := by
      simp only [GateDecl.constLine, List.cons_append, List.append_assoc, List.nil_append]
    rw [htext, Go.spaces_append (by simp [Str.isSpace])]
    apply spaces_of_head
    intro c hc
    rw [hk] at hc
    obtain rfl : a = c := Option.some.inj hc
    exact g.ident.not_isSpace a (hk ▸ List.mem_cons_self)
  have htype : ∀ a ∈ (featureType ++ (" = \"".toList ++ (g.name.text ++ '"' :: s))).head?,
      Str.isSpace a = false := by
    intro a ha
    obtain rfl : 'f' = a := Option.some.inj ha
    rfl
  rw [declaration, if_pos rfl, hspaces, identifier_text _ (Pad.ends g.align_ne_nil),
    Option.bind_some, Pad.someSpaces_append g.align_ne_nil htype, Option.bind_some, declared_text]
  rfl

theorem scan_constText (g : GateDecl) :
    scan (declaration uni) 0 true (g.constText ++ s) =
      (g.ident.text, g.name.text) :: scan (declaration uni) 0 true s := by
  have hends : endsLine true g.constLine = false := by
    have htext : g.constLine = ('\t' :: (g.ident.text ++ (g.align.text ++ (featureType ++
        (" = \"".toList ++ g.name.text))))) ++ ['"'] := by
      simp only [GateDecl.constLine, List.cons_append, List.append_assoc]
    rw [htext, endsLine_concat]
    rfl
  have hne : g.constLine ≠ [] := List.cons_ne_nil _ _
  rw [g.constText_eq, List.append_assoc,
    scan_of_match hne (declaration_constLine g), hends, List.singleton_append,
    (linePattern_declaration uni).scan_blank rfl]
  rfl

theorem scan_consts (consts : List GateDecl) :
    scan (declaration uni) 0 true (consts.flatMap GateDecl.constText ++ s) =
      consts.map (fun g => (g.ident.text, g.name.text)) ++ scan (declaration uni) 0 true s := by
  induction consts with
  | nil => rfl
  | cons g consts ih =>
    rw [List.flatMap_cons, List.append_assoc, scan_constText, ih]
    rfl

theorem scan_preamble :
    scan (declaration uni) 0 true (preamble ++ s) = scan (declaration uni) 0 true s := by
  have hm := linePattern_declaration uni
  have hpackage : ∀ t, declaration uni true ("package features".toList ++ t) = none := by
    intro t
    have htext : "package features".toList ++ t =
        'p' :: ("ackage".toList ++ ' ' :: ("features".toList ++ t)) := by
      have hlit : "package features".toList = 'p' :: ("ackage".toList ++ ' ' :: "features".toList) := by
        decide
      rw [hlit, List.cons_append, List.append_assoc, List.cons_append]
    have happart : Apart featureType "features".toList := by decide
    have htype : lit featureType ("features".toList ++ t) = none :=
      lit_eq_none_iff.mpr (happart.not_starts List.suffix_rfl (by decide))
    have hequals : lit ['='] ("features".toList ++ t) = none :=
      lit_cons_of_ne (c := 'f') (by decide) _ _
    rw [htext]
    apply declaration_of_undeclared rfl (isWord_of_ascii (by decide))
    · intro c hc
      obtain rfl : 'f' = c := Option.some.inj hc
      rfl
    · rw [declared, htype, hequals]
      rfl
  have hconst : ∀ t, declaration uni true ("const (".toList ++ t) = none := by
    intro t
    have hlit : "const (".toList = 'c' :: ("onst".toList ++ [' ', '(']) := by decide
    rw [hlit, List.cons_append, List.append_assoc]
    exact declaration_of_undeclared rfl (isWord_of_ascii (by decide)) (by simp [Str.isSpace])
      (declared_of_head (by decide))
  have hlit : preamble ++ s =
      "package features".toList ++ ('\n' :: '\n' :: ("const (".toList ++ '\n' :: s)) := by
    have h : preamble =
        "package features".toList ++ ('\n' :: '\n' :: ("const (".toList ++ ['\n'])) := by decide
    rw [h]
    simp only [List.append_assoc, List.cons_append, List.nil_append]
  have hline : ∀ t, scan (declaration uni) 0 true ("package features".toList ++ t) =
      scan (declaration uni) 0 false t :=
    fun t => hm.scan_word (by decide) (by decide) fun _ => hpackage t
  have hopen : ∀ t, scan (declaration uni) 0 true ("const (".toList ++ t) =
      scan (declaration uni) 0 false t :=
    fun t => hm.scan_word (by decide) (by decide) fun _ => hconst t
  rw [hlit, hline, hm.scan_newline, hm.scan_newline, hopen, hm.scan_newline]

theorem scan_headerText (consts : List GateDecl) :
    scan (declaration uni) 0 true (headerText consts ++ s) =
      consts.map (fun g => (g.ident.text, g.name.text)) ++ scan (declaration uni) 0 true s := by
  have hm := linePattern_declaration uni
  have hend : scan (declaration uni) 0 true (constEnd ++ s) = scan (declaration uni) 0 true s := by
    have hlit : constEnd ++ s = [')'] ++ ('\n' :: '\n' :: s) :=
      congrArg (· ++ s) (by decide : constEnd = [')', '\n', '\n'])
    have hparen : ∀ t, scan (declaration uni) 0 true ([')'] ++ t) =
        scan (declaration uni) 0 false t :=
      fun t => hm.scan_word (by decide) (by decide) fun _ => declaration_of_head rfl rfl
    rw [hlit, hparen, hm.scan_newline, hm.scan_newline]
  rw [headerText, List.append_assoc, List.append_assoc, scan_preamble, scan_consts, hend]

/-- The marker is not written in the line of a constant: a space there is never followed by
the first letter of the map's name. -/
theorem not_marker_constLine (g : GateDecl) : ¬ varMarker <:+: g.constLine := by
  have hpair : [' ', 'd'] <:+: varMarker := ⟨"var".toList, varMarker.drop 5, by decide⟩
  have hsep : ¬ [' ', 'd'] <:+: featureType ++ " = \"".toList := by decide
  have hline : g.constLine = ('\t' :: g.ident.text) ++ (g.align.text ++
      ((featureType ++ " = \"".toList) ++ (g.name.text ++ ['"']))) := by
    simp only [GateDecl.constLine, List.cons_append, List.append_assoc]
  intro hocc
  have h := hpair.trans hocc
  rw [hline] at h
  rcases pair_append_cases h with h | h | h
  · have hmem : ' ' ∈ '\t' :: g.ident.text := h.subset (by simp)
    exact g.ident.not_mem (a := ' ') rfl (by simpa using hmem)
  · rcases pair_append_cases h with h | h | h
    · exact g.align.not_mem (a := 'd') rfl (h.subset (by simp))
    · rcases pair_append_cases h with h | h | h
      · exact hsep h
      · have hmem : ' ' ∈ g.name.text ++ ['"'] := h.subset (by simp)
        exact g.name.not_mem (a := ' ') (by decide) rfl (by simpa using hmem)
      · exact absurd h.1 (by decide)
    · exact absurd (Option.some.inj h.2 : 'f' = 'd') (by decide)
  · have hmem : ' ' ∈ '\t' :: g.ident.text := List.mem_of_getLast? h.1
    exact g.ident.not_mem (a := ' ') rfl (by simpa using hmem)

theorem apart_headerText (consts : List GateDecl) : Apart varMarker (headerText consts) := by
  have hlines : Apart varMarker (consts.flatMap GateDecl.constText) := by
    induction consts with
    | nil => exact fun z hz hne => absurd (List.suffix_nil.mp hz) hne
    | cons g consts ih =>
      rw [List.flatMap_cons, g.constText_eq]
      exact (apart_concat (by decide) (not_marker_constLine g)).append ih
  exact Apart.append (by decide) (hlines.append (by decide))

variable (uni) in
def canonicalHeader (consts : List GateDecl) : Header uni where
  text := headerText consts
  identifiers := consts.map fun g => (g.ident.text, g.name.text)
  reads _ _ := scan_headerText consts
  before := apart_headerText consts

end Header

section Tokens

def oneSpace : Pad := ⟨[' '], by decide⟩

theorem digits_versionText (s : SpecDecl) : ∀ c ∈ s.versionText, c.isDigit = true ∨ c = '.' := by
  intro c hc
  rcases List.mem_append.mp hc with hc | hc
  · exact Or.inl (Str.isDigit_of_mem_toDigits hc)
  · rcases List.mem_cons.mp hc with rfl | hc
    · exact Or.inr rfl
    · exact Or.inl (Str.isDigit_of_mem_toDigits hc)

def SpecDecl.version (s : SpecDecl) : Version := toLex ((s.major : ℤ), (s.minor : ℤ))

theorem dot_not_mem_toDigits (n : ℕ) : '.' ∉ Nat.toDigits 10 n := by
  intro h
  exact absurd (Str.isDigit_of_mem_toDigits h) (by decide)

theorem vt_versionText (s : SpecDecl) : Autok8s.vt s.versionText = some s.version := by
  have hsplit : s.versionText.splitOn '.' =
      [Nat.toDigits 10 s.major, Nat.toDigits 10 s.minor] := by
    rw [SpecDecl.versionText,
      List.splitOn_append_cons_self_of_not_mem (dot_not_mem_toDigits s.major),
      List.splitOn_eq_singleton (dot_not_mem_toDigits s.minor)]
  rw [Autok8s.vt, hsplit]
  simp [Str.toInt_toDigits, SpecDecl.version]

theorem versionTuple_versionText (s : SpecDecl) : versionTuple s.versionText = some s.version := by
  have hdrop : s.versionText.dropWhile (fun c => c = 'v') = s.versionText := by
    cases h : s.versionText with
    | nil => rfl
    | cons c t =>
      have hne : c ≠ 'v' := by
        rintro rfl
        rcases digits_versionText s 'v' (h ▸ List.mem_cons_self) with hv | hv
        · exact absurd hv (by decide)
        · exact absurd hv (by decide)
      simp [hne]
  rw [versionTuple, hdrop, vt_versionText]

def SpecDecl.versionArg (s : SpecDecl) : VersionText :=
  ⟨s.versionText, digits_versionText s, s.version, versionTuple_versionText s⟩

def space : Tok Field := .blank ' ' rfl

def SpecDecl.toks (s : SpecDecl) : List (Tok Field) :=
  [.item (.version oneSpace s.versionArg), .comma, space, .item (.default oneSpace s.default),
    .comma, space, .item (.preRelease oneSpace s.stage)] ++
  match s.lock with
  | none => []
  | some b => [.comma, space, .item (.lockToDefault oneSpace b)]

def SpecDecl.goSpec (s : SpecDecl) : Spec where
  toks := s.toks
  apart := by
    unfold SpecDecl.toks
    cases s.lock <;> simp [Tok.isItem, space]

theorem SpecDecl.goSpec_body (s : SpecDecl) : s.goSpec.body = s.fieldsText := by
  have hquote : "\"), ".toList = ['"', ')', ',', ' '] := by decide
  have hcomma : ", ".toList = [',', ' '] := by decide
  simp only [Spec.body, SpecDecl.goSpec, SpecDecl.toks, SpecDecl.fieldsText, SpecDecl.lockText,
    hquote, hcomma]
  cases s.lock <;>
    simp only [List.flatMap_cons, List.flatMap_nil, List.cons_append, List.nil_append, Tok.text,
      Field.text, space, oneSpace, SpecDecl.versionArg, List.append_assoc, List.append_nil]

def SpecDecl.spec (s : SpecDecl) : Gates.Spec :=
  ⟨s.version, ⟨String.ofList s.stage.text, s.default, s.lock = some true⟩, s.lock.isSome⟩

theorem SpecDecl.fields_goSpec (s : SpecDecl) : s.goSpec.fields =
    [.version oneSpace s.versionArg, .default oneSpace s.default, .preRelease oneSpace s.stage] ++
      (s.lock.map (Field.lockToDefault oneSpace)).toList := by
  have htoks : s.goSpec.fields = s.toks.filterMap Tok.item? := rfl
  rw [htoks, SpecDecl.toks]
  cases s.lock <;> rfl

theorem SpecDecl.spec_goSpec (s : SpecDecl) : s.goSpec.spec = some s.spec := by
  rw [Spec.spec, s.fields_goSpec, SpecDecl.spec]
  cases s.lock <;> rfl

theorem SpecDecl.comments_goSpec (s : SpecDecl) : s.goSpec.comments = [] := by
  have htoks : s.goSpec.comments = s.toks.flatMap (Tok.comments fun _ => []) := rfl
  rw [htoks, SpecDecl.toks]
  cases s.lock <;> rfl

def SpecDecl.lineToks (s : SpecDecl) : List (Tok Spec) :=
  [.blank '\t' rfl, .blank '\t' rfl, .item s.goSpec, .comma, .blank '\n' rfl]

theorem SpecDecl.lineToks_text (s : SpecDecl) :
    s.lineToks.flatMap (Tok.text Spec.text) = s.text := by
  have htabs : "\t\t".toList = ['\t', '\t'] := by decide
  have hend : "\x7d,\n".toList = ['}', ',', '\n'] := by decide
  simp [SpecDecl.lineToks, SpecDecl.text, Tok.text, Spec.text, SpecDecl.goSpec_body, htabs, hend]

variable (uni)

theorem GateDecl.keyText_chars (g : GateDecl) :
    ∀ c ∈ g.keyText, isKeyChar uni c = true ∧ Str.isSpace c = false := by
  have hident : ∀ (i : Ident), ∀ c ∈ i.text, isKeyChar uni c = true ∧ Str.isSpace c = false := by
    intro i c hc
    rw [isKeyChar, i.isWord c hc]
    exact ⟨rfl, i.not_isSpace c hc⟩
  intro c hc
  unfold GateDecl.keyText at hc
  cases hp : g.package with
  | none =>
    rw [hp] at hc
    exact hident _ c hc
  | some p =>
    rw [hp] at hc
    rcases List.mem_append.mp hc with hc | hc
    · exact hident _ c hc
    · rcases List.mem_cons.mp hc with rfl | hc
      · exact ⟨by simp [isKeyChar], rfl⟩
      · exact hident _ c hc

theorem GateDecl.keyText_ne_nil (g : GateDecl) : g.keyText ≠ [] := by
  unfold GateDecl.keyText
  obtain ⟨a, k, hk, -⟩ := g.ident.eq_cons
  cases g.package <;> simp [hk]

def GateDecl.entry (g : GateDecl) : Entry uni where
  key := ⟨g.keyText, g.keyText_chars uni, g.keyText_ne_nil⟩
  pad := oneSpace
  toks := .blank '\n' rfl :: (g.specs.flatMap SpecDecl.lineToks ++ [.blank '\t' rfl])

theorem GateDecl.entry_body (g : GateDecl) :
    (g.entry uni).body = '\n' :: (g.specs.flatMap SpecDecl.text ++ ['\t']) := by
  simp [Entry.body, GateDecl.entry, List.flatMap_assoc, SpecDecl.lineToks_text, Tok.text]

def GateDecl.lineToks (g : GateDecl) : List (Tok (Entry uni)) :=
  [.blank '\t' rfl, .item (g.entry uni), .comma, .blank '\n' rfl]

theorem GateDecl.lineToks_text (g : GateDecl) :
    (g.lineToks uni).flatMap (Tok.text Entry.text) = g.text := by
  have hopen : ": \x7b\n".toList = [':', ' ', '{', '\n'] := by decide
  have hend : "\t\x7d,\n".toList = ['\t', '}', ',', '\n'] := by decide
  simp [GateDecl.lineToks, GateDecl.text, Tok.text, Entry.text, GateDecl.entry_body, hopen, hend]
  simp [GateDecl.entry, oneSpace]

def canonicalSource (consts gates : List GateDecl) : Source uni where
  header := canonicalHeader uni consts
  toks := .blank '\n' rfl :: gates.flatMap (GateDecl.lineToks uni)
  trailer := ['\n']
  once := by decide

theorem canonicalSource_text (consts gates : List GateDecl) :
    (canonicalSource uni consts gates).text = render consts gates := by
  have hopen : "\x7b\n".toList = ['{', '\n'] := by decide
  have hend : "\x7d\n".toList = ['}', '\n'] := by decide
  simp only [Source.text, Source.body, canonicalSource, canonicalHeader, render, hopen, hend]
  simp [List.flatMap_assoc, GateDecl.lineToks_text, Tok.text]

theorem comments_canonicalSource (consts gates : List GateDecl) :
    (canonicalSource uni consts gates).comments = [] := by
  have hentry : ∀ g : GateDecl, (g.entry uni).comments = [] := by
    intro g
    simp [Entry.comments, GateDecl.entry, List.flatMap_assoc, SpecDecl.lineToks, Tok.comments,
      SpecDecl.comments_goSpec]
  simp [Source.comments, canonicalSource, List.flatMap_assoc, GateDecl.lineToks, Tok.comments,
    hentry]

end Tokens

end K8sLearn.Gates.Go
