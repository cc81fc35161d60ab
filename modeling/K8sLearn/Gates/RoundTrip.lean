import K8sLearn.Gates.Canonical
import K8sLearn.Gates.GoFile

/-! # Both parsers on the canonical source

`parse_histories` and `parse_go_file` read the gates off their canonical source, whatever the
order of the constants, of the gates and of the specs is: each gate under its name with its
specs by version. The two results say the same.
-/

namespace K8sLearn.Gates.Go

open Scan

def GateDecl.sorted (g : GateDecl) : List SpecDecl :=
  g.specs.insertionSort fun s t => s.version ≤ t.version

def GateDecl.history (g : GateDecl) : String × List Gates.Spec :=
  (String.ofList g.name.text, g.sorted.map SpecDecl.spec)

def SpecDecl.goSpecOf (s : SpecDecl) : Autok8s.Spec :=
  ⟨s.versionText, s.default, String.ofList s.stage.text, s.lock, []⟩

/-- A gate as the other parser leaves it: without comments there is no KEP and no
description. -/
def GateDecl.featureGate (g : GateDecl) : Autok8s.FeatureGate :=
  ⟨String.ofList g.name.text, none, [], g.sorted.map SpecDecl.goSpecOf⟩

/-- Gates that can stand in one file: their identifiers and their names are distinct. -/
structure Compatible (gates : List GateDecl) : Prop where
  ne_nil : gates ≠ []
  idents : (gates.map fun g => g.ident.text).Nodup
  names : (gates.map fun g => g.name.text).Nodup

section Keys

theorem Ident.dot_not_mem (i : Ident) : '.' ∉ i.text := i.not_mem rfl

theorem GateDecl.splitOn_keyText (g : GateDecl) :
    g.keyText.splitOn '.' = (g.package.map Ident.text).toList ++ [g.ident.text] := by
  unfold GateDecl.keyText
  cases g.package with
  | none => exact List.splitOn_eq_singleton g.ident.dot_not_mem
  | some p =>
    rw [List.splitOn_append_cons_self_of_not_mem p.dot_not_mem,
      List.splitOn_eq_singleton g.ident.dot_not_mem]
    rfl

theorem GateDecl.last_keyText (g : GateDecl) :
    (g.keyText.splitOn '.').getLastD [] = g.ident.text := by
  rw [g.splitOn_keyText, List.getLastD_concat]

theorem GateDecl.isDotted_keyText (g : GateDecl) : isDotted g.keyText = true := by
  rw [isDotted, g.splitOn_keyText, List.all_append, List.all_cons, g.ident.start]
  cases g.package with
  | none => rfl
  | some p => simp [p.start]

end Keys

section Histories

variable {uni : Char → Bool}

theorem SpecDecl.items_lineToks (s : SpecDecl) :
    s.lineToks.filterMap Tok.item? = [s.goSpec] := rfl

theorem GateDecl.specs_entry (g : GateDecl) : (g.entry uni).specs = g.specs.map SpecDecl.spec := by
  have hitems : (g.specs.flatMap SpecDecl.lineToks).filterMap Tok.item? =
      g.specs.map SpecDecl.goSpec := by
    rw [List.filterMap_flatMap]
    simp only [SpecDecl.items_lineToks]
    exact List.map_eq_flatMap.symm
  have hentry : (g.entry uni).toks.filterMap Tok.item? = g.specs.map SpecDecl.goSpec := by
    simp [GateDecl.entry, List.filterMap_cons, Tok.item?, hitems]
  rw [Entry.specs, hentry, List.filterMap_map]
  simp [SpecDecl.spec_goSpec]

theorem GateDecl.history_entry (uni : Char → Bool) {consts : List GateDecl}
    (hc : (consts.map fun g => g.ident.text).Nodup) {g : GateDecl} (hg : g ∈ consts) :
    (g.entry uni).history (consts.map fun g => (g.ident.text, g.name.text)) = some g.history := by
  have hname : nameOf (consts.map fun g => (g.ident.text, g.name.text)) g.ident.text =
      g.name.text := by
    have hlookup := lookup_of_nodup (fun g : GateDecl => g.ident.text) (fun g => g.name.text)
      (by simpa using List.nodup_reverse.mpr hc) (List.mem_reverse.mpr hg)
    rw [nameOf, ← List.map_reverse, hlookup]
    rfl
  have hne : g.specs.map SpecDecl.spec ≠ [] := by simpa using g.specs_ne_nil
  have hkey : (((g.entry uni).key.text).splitOn '.').getLastD [] = g.ident.text := g.last_keyText
  have hsort : (g.specs.map SpecDecl.spec).insertionSort (fun s t => s.version ≤ t.version) =
      g.sorted.map SpecDecl.spec :=
    (List.map_insertionSort (fun s t : SpecDecl => s.version ≤ t.version)
      (fun s t : Gates.Spec => s.version ≤ t.version) SpecDecl.spec g.specs
      fun _ _ _ _ => Iff.rfl).symm
  rw [Entry.history, g.specs_entry, if_neg hne, hkey, hname, hsort]
  rfl

theorem entriesRead_gates (gates : List GateDecl) :
    entriesRead true (gates.flatMap (GateDecl.lineToks uni)) = gates.map (GateDecl.entry uni) := by
  induction gates with
  | nil => rfl
  | cons g gates ih =>
    have hdotted : isDotted (g.entry uni).key.text = true := g.isDotted_keyText
    simp only [List.flatMap_cons, GateDecl.lineToks, List.cons_append, List.nil_append, entriesRead,
      Bool.true_or, Bool.true_and, hdotted, if_true, Bool.false_or, decide_true, ih, List.map_cons]

theorem parseHistories_render {consts gates : List GateDecl} (h : Compatible gates)
    (hperm : consts.Perm gates) :
    parseHistories uni (render consts gates) = .ok (gates.map GateDecl.history) := by
  have hconsts : (consts.map fun g => g.ident.text).Nodup := (hperm.map _).nodup_iff.mpr h.idents
  have hids : (canonicalSource uni consts gates).identifiers =
      consts.map fun g => (g.ident.text, g.name.text) := by
    have htrailer : scan (declaration uni) 0 false ['\n'] = [] :=
      (linePattern_declaration uni).scan_newline
    rw [Source.identifiers]
    exact (congrArg _ htrailer).trans (List.append_nil _)
  have hread : (entriesRead true (canonicalSource uni consts gates).toks).filterMap
      (Entry.history (consts.map fun g => (g.ident.text, g.name.text))) =
      gates.map GateDecl.history := by
    have htoks : entriesRead true (canonicalSource uni consts gates).toks =
        gates.map (GateDecl.entry uni) := entriesRead_gates gates
    have hsome := List.filterMap_congr fun g (hg : g ∈ gates) =>
      GateDecl.history_entry uni hconsts (hperm.mem_iff.mpr hg)
    rw [htoks, List.filterMap_map]
    exact hsome.trans (congrFun List.filterMap_eq_map gates)
  have hnames : (gates.map fun g => String.ofList g.name.text).Nodup := by
    have hinj := h.names.map fun _ _ => String.ofList_injective
    rwa [List.map_map] at hinj
  have hfold : (gates.map GateDecl.history).foldl assign [] = gates.map GateDecl.history := by
    rw [List.foldl_map]
    exact foldl_upsert (d := []) hnames
  rw [← canonicalSource_text uni, Source.parseHistories_text (by simp [comments_canonicalSource]),
    Source.histories, hids, hread, hfold]
  cases hg : gates with
  | nil => exact absurd hg h.ne_nil
  | cons g gates => rfl

end Histories

section Brackets

open Autok8s

variable {o c : Char} {x y s : Str} {d : ℕ}

theorem matching_append (ho : o ∉ x) (hc : c ∉ x) :
    matching o c d (x ++ s) = (matching o c d s).map fun p => (x ++ p.1, p.2) := by
  induction x with
  | nil => simp
  | cons a x ih =>
    simp only [List.mem_cons, not_or] at ho hc
    rw [List.cons_append, matching_of_ne (Ne.symm ho.1) (Ne.symm hc.1), ih ho.2 hc.2,
      Option.map_map]
    rfl

def Closed (x : Str) : Prop :=
  ∀ d s, matching '{' '}' d (x ++ s) = (matching '{' '}' d s).map fun p => (x ++ p.1, p.2)

theorem closed_of_not_mem (ho : '{' ∉ x) (hc : '}' ∉ x) : Closed x :=
  fun _ _ => matching_append ho hc

theorem Closed.append (hx : Closed x) (hy : Closed y) : Closed (x ++ y) := by
  intro d s
  rw [List.append_assoc, hx, hy, Option.map_map]
  simp [Function.comp_def]

theorem Closed.block (hx : Closed x) : Closed ('{' :: (x ++ ['}'])) := by
  intro d s
  have hopen : '{' :: (x ++ ['}']) ++ s = '{' :: (x ++ '}' :: s) := by simp
  have hclose : matching '{' '}' (d + 1) ('}' :: s) =
      (matching '{' '}' d s).map fun p => ('}' :: p.1, p.2) := rfl
  rw [hopen, matching_open, hx, hclose, Option.map_map, Option.map_map]
  simp [Function.comp_def]

theorem Closed.flatMap {α : Type*} {f : α → Str} (h : ∀ a, Closed (f a)) (l : List α) :
    Closed (l.flatMap f) := by
  induction l with
  | nil => exact fun d s => by simp
  | cons a l ih => exact (h a).append ih

theorem Closed.matching_eq (hx : Closed x) : matching '{' '}' 0 (x ++ '}' :: s) = some (x, s) := by
  have hclose : matching '{' '}' 0 ('}' :: s) = some ([], s) := rfl
  rw [hx, hclose]
  simp

theorem SpecDecl.fieldsText_chars (s : SpecDecl) :
    ∀ c ∈ s.fieldsText, c ∉ ['{', '}', '/'] := by
  have hversion : ∀ c ∈ s.versionText, c ∉ ['{', '}', '/'] := by
    intro c hc hmem
    have hplain : ∀ c ∈ ['{', '}', '/'], ¬ (c.isDigit = true ∨ c = '.') := by decide
    exact hplain c hmem (digits_versionText s c hc)
  have hbool : ∀ b, ∀ c ∈ boolLit b, c ∉ ['{', '}', '/'] := by decide
  have hstage : ∀ c ∈ s.stage.text, c ∉ ['{', '}', '/'] := by cases s.stage <;> decide
  have hlock : ∀ c ∈ s.lockText, c ∉ ['{', '}', '/'] := by
    unfold SpecDecl.lockText
    cases s.lock with
    | none => exact fun c hc => absurd hc List.not_mem_nil
    | some b => cases b <;> decide
  have hkeys : ∀ w ∈ [versionKey, mustParse, "\"), ".toList, defaultKey, ", ".toList, preReleaseKey,
      stageOf, [' ']], ∀ c ∈ w, c ∉ ['{', '}', '/'] := by decide
  intro c hc
  simp only [SpecDecl.fieldsText, List.mem_append, List.mem_cons] at hc
  grind

theorem SpecDecl.closed_fieldsText (s : SpecDecl) : Closed s.fieldsText :=
  closed_of_not_mem (fun h => s.fieldsText_chars _ h (by decide))
    fun h => s.fieldsText_chars _ h (by decide)

theorem SpecDecl.closed_text (s : SpecDecl) : Closed s.text := by
  have htext : s.text = "\t\t".toList ++ ('{' :: (s.fieldsText ++ ['}']) ++ [',', '\n']) := by
    have hend : "\x7d,\n".toList = ['}', ',', '\n'] := by decide
    simp [SpecDecl.text, hend]
  rw [htext]
  exact (closed_of_not_mem (by decide) (by decide)).append
    (s.closed_fieldsText.block.append (closed_of_not_mem (by decide) (by decide)))

def GateDecl.valueText (g : GateDecl) : Str := '\n' :: (g.specs.flatMap SpecDecl.text ++ ['\t'])

theorem GateDecl.text_eq (g : GateDecl) :
    g.text = '\t' :: (g.keyText ++ ':' :: ' ' :: ('{' :: (g.valueText ++ ['}']) ++ [',', '\n'])) := by
  have hopen : ": \x7b\n".toList = [':', ' ', '{', '\n'] := by decide
  have hend : "\t\x7d,\n".toList = ['\t', '}', ',', '\n'] := by decide
  simp [GateDecl.text, GateDecl.valueText, hopen, hend]

theorem GateDecl.closed_valueText (g : GateDecl) : Closed g.valueText := by
  have hline : Closed ['\n'] := closed_of_not_mem (by decide) (by decide)
  exact hline.append ((Closed.flatMap SpecDecl.closed_text g.specs).append
    (closed_of_not_mem (by decide) (by decide)))

theorem GateDecl.not_mem_keyText (g : GateDecl) {a : Char} (ha : isKeyChar (fun _ => false) a = false) :
    a ∉ g.keyText := by
  intro h
  rw [(g.keyText_chars (fun _ => false) a h).1] at ha
  exact Bool.noConfusion ha

theorem GateDecl.closed_text (g : GateDecl) : Closed g.text := by
  have hhead : Closed ('\t' :: (g.keyText ++ [':', ' '])) := by
    apply closed_of_not_mem
    · simpa using g.not_mem_keyText (a := '{') rfl
    · simpa using g.not_mem_keyText (a := '}') rfl
  have hend : Closed [',', '\n'] := closed_of_not_mem (by decide) (by decide)
  have htext : g.text = ('\t' :: (g.keyText ++ [':', ' '])) ++
      ('{' :: (g.valueText ++ ['}']) ++ [',', '\n']) := by
    rw [g.text_eq]
    simp
  rw [htext]
  exact hhead.append (g.closed_valueText.block.append hend)

end Brackets

section Blocks

open Autok8s

/-- A source around the lines of its block of constants. -/
def framed (x : Str) (gates : List GateDecl) : Str :=
  (preamble ++ (x ++ constEnd)) ++ (varMarker ++ (mapType ++ ("\x7b\n".toList ++
    (gates.flatMap GateDecl.text ++ "\x7d\n".toList))))

def mapText (gates : List GateDecl) : Str :=
  '\n' :: '\n' :: (varMarker ++ (mapType ++ '{' :: ('\n' :: gates.flatMap GateDecl.text ++
    '}' :: ['\n'])))

theorem framed_eq (x : Str) (gates : List GateDecl) :
    framed x gates = "package features\n\n".toList ++ ("const ".toList ++
      '(' :: ('\n' :: x ++ ')' :: mapText gates)) := by
  have hpre : preamble = "package features\n\n".toList ++ ("const ".toList ++ '(' :: ['\n']) := by
    decide
  have hend : constEnd = [')', '\n', '\n'] := by decide
  have hopen : "\x7b\n".toList = ['{', '\n'] := by decide
  have hclose : "\x7d\n".toList = ['}', '\n'] := by decide
  rw [framed, mapText, hpre, hend, hopen, hclose]
  simp only [List.append_assoc, List.cons_append, List.nil_append]

theorem GateDecl.not_mem_constLine (g : GateDecl) {a : Char} (ha : a.toNat < 128)
    (hword : (a.isAlphanum || a = '_') = false) (hspace : Str.isSpace a = false)
    (hlit : a ∉ featureType ++ " = \"".toList) : a ∉ g.constLine := by
  have hquote : a ≠ '"' := by
    rintro rfl
    exact hlit (by decide)
  have htab : a ≠ '\t' := by
    rintro rfl
    exact absurd hspace (by decide)
  have halnum : a.isAlphanum = false := (Bool.or_eq_false_iff.mp hword).1
  simp only [List.mem_append, not_or] at hlit
  simp only [GateDecl.constLine, List.mem_cons, List.mem_append, List.not_mem_nil, not_or]
  exact ⟨htab, g.ident.not_mem hword, g.align.not_mem hspace, hlit.1, hlit.2,
    g.name.not_mem ha halnum, hquote, not_false⟩

theorem findBlock_of_find {marker src s r : Str} {o c : Char}
    (ho : o = if "var".toList <+: marker then '{' else '(') (hc : c = if o = '{' then '}' else ')')
    (hfind : find marker src = some s) (hdrop : s.dropWhile (fun a => a ≠ o) = o :: r) :
    findBlock marker src =
      (matching o c 0 r).elim (.error (.unclosed marker)) fun p => .ok p.1 := by
  rw [findBlock, ← ho, ← hc, hfind]
  simp only [hdrop]
  cases matching o c 0 r <;> rfl

theorem dropWhile_bracket {w r : Str} {o : Char} (hw : o ∉ w) :
    (w ++ o :: r).dropWhile (fun a => a ≠ o) = o :: r := by
  apply dropWhile_append
  · intro a ha
    rw [decide_eq_true_eq]
    rintro rfl
    exact hw ha
  · simp

theorem findBlock_constMarker_framed (x : Str) (gates : List GateDecl) :
    findBlock constMarker (framed x gates) =
      (matching '(' ')' 0 ('\n' :: x ++ ')' :: mapText gates)).elim
        (.error (.unclosed constMarker)) fun p => .ok p.1 := by
  have hapart : Apart constMarker "package features\n\n".toList := by decide
  have hmarker : constMarker = "const ".toList ++ ['('] := by decide
  rw [framed_eq]
  refine findBlock_of_find (by decide) (by decide) ?_
    (dropWhile_bracket (w := "const ".toList) (by decide))
  rw [find_append hapart]
  apply find_of_starts
  rw [hmarker, List.append_cons]
  exact List.prefix_append _ _

theorem GateDecl.paren_not_mem_constText (g : GateDecl) {a : Char} (ha : a ∈ ['(', ')']) :
    a ∉ g.constText := by
  have hline : a ∉ g.constLine ∧ a ≠ '\n' := by
    obtain rfl | rfl : a = '(' ∨ a = ')' := by simpa using ha
    all_goals exact ⟨g.not_mem_constLine (by decide) (by decide) (by decide) (by decide), by decide⟩
  simpa [g.constText_eq] using hline

theorem findBlock_constMarker (consts gates : List GateDecl) :
    findBlock constMarker (render consts gates) =
      .ok ('\n' :: consts.flatMap GateDecl.constText) := by
  have hparen : ∀ a ∈ ['(', ')'], a ∉ '\n' :: consts.flatMap GateDecl.constText := by
    intro a ha hmem
    have hne : a ≠ '\n' := by
      rintro rfl
      exact absurd ha (by decide)
    obtain ⟨g, -, hg⟩ := List.mem_flatMap.mp ((List.mem_cons.mp hmem).resolve_left hne)
    exact g.paren_not_mem_constText ha hg
  have hmatch : matching '(' ')' 0 ('\n' :: consts.flatMap GateDecl.constText ++ ')' :: mapText gates) =
      some ('\n' :: consts.flatMap GateDecl.constText, mapText gates) := by
    rw [matching_append (hparen '(' (by decide)) (hparen ')' (by decide))]
    simp [matching]
  have hframed := findBlock_constMarker_framed (consts.flatMap GateDecl.constText) gates
  rw [hmatch] at hframed
  exact hframed

theorem findBlock_varMarker_of_find {src s : Str} {gates : List GateDecl}
    (hfind : find varMarker src = some s)
    (hdrop : s.dropWhile (fun a => a ≠ '{') =
      '{' :: ('\n' :: gates.flatMap GateDecl.text ++ '}' :: ['\n'])) :
    findBlock varMarker src = .ok ('\n' :: gates.flatMap GateDecl.text) := by
  have hline : Closed ['\n'] := closed_of_not_mem (by decide) (by decide)
  have hclosed : Closed ('\n' :: gates.flatMap GateDecl.text) :=
    hline.append (Closed.flatMap GateDecl.closed_text gates)
  have hblock := findBlock_of_find (o := '{') (c := '}') (by decide) (by decide) hfind hdrop
  rw [hclosed.matching_eq] at hblock
  exact hblock

theorem findBlock_varMarker (consts gates : List GateDecl) :
    findBlock varMarker (render consts gates) = .ok ('\n' :: gates.flatMap GateDecl.text) := by
  have hrender : render consts gates = headerText consts ++ ((varMarker ++ mapType) ++
      '{' :: ('\n' :: gates.flatMap GateDecl.text ++ '}' :: ['\n'])) := by
    have hopen : "\x7b\n".toList = ['{', '\n'] := by decide
    have hclose : "\x7d\n".toList = ['}', '\n'] := by decide
    rw [render, hopen, hclose]
    simp only [List.append_assoc, List.cons_append, List.nil_append]
  rw [hrender]
  refine findBlock_varMarker_of_find ?_ (dropWhile_bracket (w := varMarker ++ mapType) (by decide))
  rw [find_append (apart_headerText consts)]
  apply find_of_starts
  rw [List.append_assoc]
  exact List.prefix_append _ _

end Blocks

section Constants

open Autok8s

variable (t : TextTables)

theorem constants_line (g : GateDecl) (featMeta : List (Str × Meta))
    (identToVal : List (Str × Str)) :
    Constants.line t ⟨[], featMeta, identToVal⟩ g.constLine =
      ⟨[], upsert (fun _ m => m) g.name.text ⟨none, []⟩ featMeta,
        upsert (fun _ v => v) g.ident.text g.name.text identToVal⟩ := by
  have hcomment : ¬ "//".toList <+: Str.strip g.constLine := by
    intro h
    have hmem : '/' ∈ Str.strip g.constLine := h.subset (by decide)
    exact g.not_mem_constLine (by decide) (by decide) (by decide) (by decide)
      (Str.mem_of_mem_strip hmem)
  have hdecl : declaration (fun _ => false) true (g.constLine ++ []) =
      some ((g.ident.text, g.name.text), []) := declaration_constLine g
  rw [List.append_nil] at hdecl
  have hkep : extractKep t [] = none := by simp [extractKep, search, kepAt, lit]
  rw [Constants.line, if_neg hcomment, hdecl]
  simp [Str.join, hkep, descLines]

theorem constants_bracket (k : Constants) (hk : k.pending = []) :
    Constants.line t k ['('] = k ∧ Constants.line t k [')'] = k := by
  have hopen : declaration (fun _ => false) true ['('] = none := by decide
  have hclose : declaration (fun _ => false) true [')'] = none := by decide
  obtain ⟨pending, featMeta, identToVal⟩ := k
  obtain rfl : pending = [] := hk
  constructor
  · rw [Constants.line, if_neg (by decide), hopen]
  · rw [Constants.line, if_neg (by decide), hclose]

theorem Pad.isBreak_text (pad : Pad) : ∀ a ∈ pad.text, Str.isBreak a = false := by
  intro a ha
  obtain ⟨hblank, hne⟩ := pad.blank a ha
  have ha' : a = ' ' ∨ a = '\t' ∨ a = '\n' := by simpa [isBlank] using hblank
  rcases ha' with rfl | rfl | rfl
  · rfl
  · rfl
  · exact absurd rfl hne

theorem GateDecl.isBreak_constLine (g : GateDecl) : ∀ c ∈ g.constLine, Str.isBreak c = false := by
  have hspace : ∀ c, Str.isSpace c = false → Str.isBreak c = false := by
    intro c hc
    rw [Str.isBreak, decide_eq_false_iff_not]
    intro hmem
    have hall : ∀ c ∈ ['\n', '\r', '\x0b', '\x0c', '\x1c', '\x1d', '\x1e', '\x85', '\u2028',
      '\u2029'], Str.isSpace c = true := by decide
    rw [hall c hmem] at hc
    exact Bool.noConfusion hc
  have hname : ∀ c ∈ g.name.text, Str.isBreak c = false := by
    intro c hc
    rcases g.name.chars c hc with h | h
    · rw [Str.isBreak, decide_eq_false_iff_not]
      intro hmem
      have hall : ∀ c ∈ ['\n', '\r', '\x0b', '\x0c', '\x1c', '\x1d', '\x1e', '\x85', '\u2028',
        '\u2029'], c.isAlphanum = false := by decide
      rw [hall c hmem] at h
      exact Bool.noConfusion h
    · exact hspace c h.2
  have hlit : ∀ c ∈ featureType ++ " = \"".toList, Str.isBreak c = false := by decide
  intro c hc
  simp only [GateDecl.constLine, List.mem_cons, List.mem_append, List.not_mem_nil, or_false] at hc
  rcases hc with rfl | hc | hc | hc | hc | hc | rfl
  · rfl
  · exact hspace c (g.ident.not_isSpace c hc)
  · exact g.align.isBreak_text c hc
  · exact hlit c (List.mem_append_left _ hc)
  · exact hlit c (List.mem_append_right _ hc)
  · exact hname c hc
  · rfl

theorem splitLines_consts (consts : List GateDecl) :
    Str.splitLines ('(' :: ('\n' :: consts.flatMap GateDecl.constText ++ [')'])) =
      ['('] :: (consts.map GateDecl.constLine ++ [[')']]) := by
  have hlines : Str.splitLines (consts.flatMap GateDecl.constText ++ [')']) =
      consts.map GateDecl.constLine ++ [[')']] := by
    induction consts with
    | nil => rfl
    | cons g consts ih =>
      rw [List.flatMap_cons, g.constText_eq, List.append_assoc, List.append_assoc,
        List.singleton_append, Str.splitLines_line g.isBreak_constLine, ih]
      rfl
  rw [← hlines]
  exact Str.splitLines_line (x := ['(']) (by decide) (consts.flatMap GateDecl.constText ++ [')'])

theorem parseConstBlock_consts {consts : List GateDecl}
    (hidents : (consts.map fun g => g.ident.text).Nodup)
    (hnames : (consts.map fun g => g.name.text).Nodup) :
    parseConstBlock t ('(' :: ('\n' :: consts.flatMap GateDecl.constText) ++ [')']) =
      ⟨[], consts.map fun g => (g.name.text, ⟨none, []⟩),
        consts.map fun g => (g.ident.text, g.name.text)⟩ := by
  have hfold : ∀ (l : List GateDecl) (fm : List (Str × Meta)) (iv : List (Str × Str)),
      (l.map GateDecl.constLine).foldl (Constants.line t) ⟨[], fm, iv⟩ =
        ⟨[], l.foldl (fun d g => upsert (fun _ m => m) g.name.text ⟨none, []⟩ d) fm,
          l.foldl (fun d g => upsert (fun _ v => v) g.ident.text g.name.text d) iv⟩ := by
    intro l
    induction l with
    | nil => exact fun _ _ => rfl
    | cons g l ih =>
      intro fm iv
      rw [List.map_cons, List.foldl_cons, constants_line, ih]
      rfl
  rw [parseConstBlock, List.cons_append, splitLines_consts, List.foldl_cons, (constants_bracket t _ rfl).1,
    List.foldl_append, hfold, List.foldl_cons, (constants_bracket t _ rfl).2, List.foldl_nil,
    foldl_upsert (d := []) hnames, foldl_upsert (d := []) hidents]
  rfl

end Constants

section Entries

open Autok8s

theorem scan_specItemAt_cons {a : Char} {s : Str} (b b' : Bool) (ha : a ≠ '{') :
    scan specItemAt 0 b (a :: s) = scan specItemAt 0 b' s := by
  have hnone : specItemAt b (a :: s) = none := by
    unfold specItemAt
    split
    · exact absurd (by simp_all) ha
    · rfl
  rw [scan_cons_of_none hnone, scan_flag fun _ _ _ => rfl]

theorem scan_specItemAt_skip {x s : Str} (b : Bool) (hx : '{' ∉ x) :
    scan specItemAt 0 b (x ++ s) = scan specItemAt 0 b s := by
  induction x with
  | nil => rfl
  | cons a x ih =>
    simp only [List.mem_cons, not_or] at hx
    rw [List.cons_append, scan_specItemAt_cons b b (Ne.symm hx.1), ih hx.2]

theorem scan_specItemAt_text (d : SpecDecl) (b : Bool) (s : Str) :
    scan specItemAt 0 b (d.text ++ s) = some d.fieldsText :: scan specItemAt 0 b s := by
  have htext : d.text ++ s =
      ['\t', '\t'] ++ (('{' :: (d.fieldsText ++ ['}'])) ++ ([',', '\n'] ++ s)) := by
    have htabs : "\t\t".toList = ['\t', '\t'] := by decide
    have hend : "\x7d,\n".toList = ['}', ',', '\n'] := by decide
    simp [SpecDecl.text, htabs, hend]
  have hmatch : specItemAt b (('{' :: (d.fieldsText ++ ['}'])) ++ ([',', '\n'] ++ s)) =
      some (some d.fieldsText, [',', '\n'] ++ s) := by
    have hclosed := d.closed_fieldsText.matching_eq (s := [',', '\n'] ++ s)
    simp only [List.cons_append, List.append_assoc, List.nil_append] at hclosed ⊢
    simp [specItemAt, hclosed]
  rw [htext, scan_specItemAt_skip b (by decide), scan_of_match (by simp) hmatch,
    scan_flag (fun _ _ _ => rfl) 0 _ b, scan_specItemAt_skip b (by decide)]

theorem splitSpecItems_valueText (g : GateDecl) :
    splitSpecItems g.valueText = g.specs.map SpecDecl.fieldsText := by
  have hspecs : ∀ (l : List SpecDecl) (s : Str),
      scan specItemAt 0 true (l.flatMap SpecDecl.text ++ s) =
        l.map (fun d => some d.fieldsText) ++ scan specItemAt 0 true s := by
    intro l s
    induction l with
    | nil => rfl
    | cons d l ih =>
      rw [List.flatMap_cons, List.append_assoc, scan_specItemAt_text, ih]
      rfl
  have hend : scan specItemAt 0 true ['\t'] = [] := by decide
  rw [splitSpecItems, GateDecl.valueText, scan_specItemAt_cons true true (by decide), hspecs, hend,
    List.append_nil]
  simp [List.reduceOption, List.filterMap_map]

theorem parseItem_fieldsText (uni : Char → Bool) (d : SpecDecl) :
    Autok8s.parseItem uni d.fieldsText = some d.goSpecOf := by
  have hcomments : ∀ c ∈ d.goSpec.comments, Harmless uni c.text := by
    simp [d.comments_goSpec]
  have hinline : search inlineAt d.fieldsText = none := by
    rw [search_eq_none_iff]
    intro z hz
    have hslash : ¬ "//".toList <+: z := fun h =>
      d.fieldsText_chars '/' (hz.subset (h.subset (by decide))) (by decide)
    rw [inlineAt, lit_eq_none_iff.mpr hslash]
    rfl
  rw [Autok8s.parseItem, hinline, ← d.goSpec_body, Spec.search_version hcomments,
    Spec.search_default hcomments, Spec.search_stage hcomments, Spec.search_lock hcomments,
    d.fields_goSpec, SpecDecl.goSpecOf]
  cases d.lock <;> rfl

theorem sortSpecs_eq (specs : List SpecDecl) :
    sortSpecs (specs.map SpecDecl.goSpecOf) =
      .ok ((specs.insertionSort fun s t => s.version ≤ t.version).map SpecDecl.goSpecOf) := by
  have hkeyed : (specs.map SpecDecl.goSpecOf).mapM
      (fun e => (vt e.version).map fun v => (v, e)) =
      some (specs.map fun d => (d.version, d.goSpecOf)) := by
    apply Lists.mapM_of_forall₂
    rw [List.forall₂_map_left_iff, List.forall₂_map_right_iff]
    refine List.forall₂_same.mpr fun d _ => ?_
    have hvt : vt d.goSpecOf.version = some d.version := vt_versionText d
    rw [hvt]
    rfl
  have hsort := List.map_insertionSort (fun s t : SpecDecl => s.version ≤ t.version)
    (fun a b : Version × Autok8s.Spec => a.1 ≤ b.1) (fun d => (d.version, d.goSpecOf)) specs
    fun _ _ _ _ => Iff.rfl
  rw [sortSpecs, hkeyed]
  simp only
  rw [← hsort, List.map_map]
  rfl

def GateDecl.gateIn (g : GateDecl) (consts : Constants) : Str × Str × FeatureGate :=
  let val := (consts.identToVal.lookup g.ident.text).getD g.ident.text
  let found := ((consts.featMeta.lookup val).or (consts.featMeta.lookup g.ident.text)).getD ⟨none, []⟩
  (g.ident.text, val, ⟨String.ofList val, found.kep, found.desc, g.sorted.map SpecDecl.goSpecOf⟩)

theorem gateOf_entry (t : TextTables) (consts : Constants) (g : GateDecl) :
    gateOf t consts (g.keyText, g.valueText) = .ok (some (g.gateIn consts)) := by
  have hspecs : (splitSpecItems g.valueText).filterMap (Autok8s.parseItem t.word) =
      g.specs.map SpecDecl.goSpecOf := by
    rw [splitSpecItems_valueText, List.filterMap_map]
    simp [parseItem_fieldsText]
  have hne : g.specs.map SpecDecl.goSpecOf ≠ [] := by simpa using g.specs_ne_nil
  simp only [gateOf, g.last_keyText, hspecs, if_neg hne, sortSpecs_eq]
  rfl

theorem gateIn_consts {consts : List GateDecl} (hidents : (consts.map fun g => g.ident.text).Nodup)
    (hnames : (consts.map fun g => g.name.text).Nodup) {g : GateDecl} (hg : g ∈ consts) :
    g.gateIn ⟨[], consts.map fun g => (g.name.text, ⟨none, []⟩),
        consts.map fun g => (g.ident.text, g.name.text)⟩ =
      (g.ident.text, g.name.text, g.featureGate) := by
  have hval := lookup_of_nodup (fun g : GateDecl => g.ident.text) (fun g => g.name.text) hidents hg
  have hmeta := lookup_of_nodup (fun g : GateDecl => g.name.text)
    (fun _ => (⟨none, []⟩ : Meta)) hnames hg
  simp only [GateDecl.gateIn, hval, Option.getD_some, hmeta]
  rfl

theorem GateDecl.keyText_eq_cons (g : GateDecl) :
    ∃ a k, g.keyText = a :: k ∧ isNameStart a = true := by
  unfold GateDecl.keyText
  cases g.package with
  | none => exact g.ident.eq_cons
  | some p =>
    obtain ⟨a, k, hk, ha⟩ := p.eq_cons
    exact ⟨a, k ++ '.' :: g.ident.text, congrArg (· ++ '.' :: g.ident.text) hk, ha⟩

theorem goEntryHead_keyText (g : GateDecl) (s : Str) :
    goEntryHead ('\n' :: '\t' :: (g.keyText ++ ':' :: ' ' :: '{' :: s)) = some (g.keyText, s) := by
  obtain ⟨a, k, hk, ha⟩ := g.keyText_eq_cons
  have hchars := g.keyText_chars fun _ => false
  have hkey : ∀ c ∈ g.keyText, isGoKeyChar c = true := fun c hc => (hchars c hc).1
  have hstop : ∀ c ∈ (':' :: ' ' :: '{' :: s).head?, isGoKeyChar c = false := by
    intro c hc
    obtain rfl : ':' = c := Option.some.inj hc
    rfl
  have hspaces : spaces ('\n' :: '\t' :: (g.keyText ++ ':' :: ' ' :: '{' :: s)) =
      g.keyText ++ ':' :: ' ' :: '{' :: s := by
    have hblank := Go.spaces_append (w := ['\n', '\t']) (s := g.keyText ++ ':' :: ' ' :: '{' :: s)
      (by decide)
    refine hblank.trans (spaces_of_head ?_)
    intro c hc
    rw [hk] at hc
    obtain rfl : a = c := Option.some.inj hc
    exact (hchars a (hk ▸ List.mem_cons_self)).2
  have hhead : (g.keyText ++ ':' :: ' ' :: '{' :: s).head?.any isNameStart = true := by
    rw [hk]
    exact ha
  rw [goEntryHead]
  simp only [hspaces]
  rw [if_pos hhead, takeWhile_append hkey hstop, dropWhile_append hkey hstop]
  rfl

theorem goEntryAt_of_head {a : Char} {s : Str} (b : Bool) (ha : isNameStart a = false)
    (hs : Str.isSpace a = false) : goEntryAt b (a :: s) = none := by
  simp [goEntryAt, goEntryHead, spaces, hs, ha]

theorem scan_goEntryAt_text (g : GateDecl) (b : Bool) (s : Str) :
    scan goEntryAt 0 b ('\n' :: (g.text ++ s)) =
      some (g.keyText, g.valueText) :: scan goEntryAt 0 b ('\n' :: s) := by
  have htext : '\n' :: (g.text ++ s) = ('\n' :: '\t' :: (g.keyText ++ ':' :: ' ' ::
      '{' :: (g.valueText ++ ['}']))) ++ (',' :: '\n' :: s) := by
    rw [g.text_eq]
    simp
  have hmatch : goEntryAt b (('\n' :: '\t' :: (g.keyText ++ ':' :: ' ' ::
      '{' :: (g.valueText ++ ['}']))) ++ (',' :: '\n' :: s)) =
      some (some (g.keyText, g.valueText), ',' :: '\n' :: s) := by
    have hhead := goEntryHead_keyText g (g.valueText ++ '}' :: (',' :: '\n' :: s))
    have hclosed := g.closed_valueText.matching_eq (s := ',' :: '\n' :: s)
    simp only [List.cons_append, List.append_assoc, List.nil_append]
    rw [goEntryAt, hhead, Option.map_some]
    simp only [hclosed]
    rfl
  rw [htext, scan_of_match (by simp) hmatch, scan_cons_of_none (goEntryAt_of_head _ rfl rfl),
    scan_flag fun _ _ _ => rfl]

theorem scan_goEntryAt_gates (gates : List GateDecl) :
    scan goEntryAt 0 true ('{' :: ('\n' :: gates.flatMap GateDecl.text ++ ['}'])) =
      gates.map fun g => some (g.keyText, g.valueText) := by
  have hlines : scan goEntryAt 0 true ('\n' :: (gates.flatMap GateDecl.text ++ ['}'])) =
      gates.map fun g => some (g.keyText, g.valueText) := by
    induction gates with
    | nil => decide
    | cons g gates ih =>
      rw [List.flatMap_cons, List.append_assoc, scan_goEntryAt_text, ih]
      rfl
  rw [scan_cons_of_none (goEntryAt_of_head true rfl rfl), scan_flag (fun _ _ _ => rfl) 0 _ true,
    List.cons_append, hlines]

end Entries

section RoundTrip

theorem parseGoFile_of_blocks (t : TextTables) {src x : Str} {gates : List GateDecl}
    (hconst : Autok8s.findBlock Autok8s.constMarker src = .ok x)
    (hvar : Autok8s.findBlock varMarker src = .ok ('\n' :: gates.flatMap GateDecl.text)) :
    Autok8s.parseGoFile t src = .ok ((gates.map fun g =>
      g.gateIn (Autok8s.parseConstBlock t ('(' :: x ++ [')']))).foldl
        Autok8s.FeatureGateMap.add ⟨[], []⟩) := by
  have hentries : (scan Autok8s.goEntryAt 0 true
      ('{' :: ('\n' :: gates.flatMap GateDecl.text ++ ['}']))).reduceOption =
      gates.map fun g => (g.keyText, g.valueText) := by
    rw [scan_goEntryAt_gates]
    simp [List.reduceOption, List.filterMap_map]
  have hgates : ∀ consts, Lists.collectM (Autok8s.gateOf t consts)
      (gates.map fun g => (g.keyText, g.valueText)) = .ok (gates.map fun g => g.gateIn consts) :=
    fun consts => Lists.collectM_map fun g _ => gateOf_entry t consts g
  rw [Autok8s.parseGoFile, hconst, hvar]
  change Except.map _ (Lists.collectM (Autok8s.gateOf t (Autok8s.parseConstBlock t _)) _) = _
  rw [hentries, hgates]
  rfl

theorem gates_foldl_add {l : List (Str × Str × Autok8s.FeatureGate)}
    (hnames : (l.map fun g => g.2.1).Nodup) :
    (l.foldl Autok8s.FeatureGateMap.add ⟨[], []⟩).gates = l.map Prod.snd := by
  have hadd : ∀ (l : List (Str × Str × Autok8s.FeatureGate)) (m : Autok8s.FeatureGateMap),
      (l.foldl Autok8s.FeatureGateMap.add m).gates =
        l.foldl (fun d g => upsert (fun _ gate => gate) g.2.1 g.2.2 d) m.gates := by
    intro l
    induction l with
    | nil => exact fun _ => rfl
    | cons g l ih => exact fun m => ih (m.add g)
  rw [hadd]
  exact foldl_upsert (d := []) hnames

theorem parseGoFile_render (t : TextTables) {consts gates : List GateDecl} (h : Compatible gates)
    (hperm : consts.Perm gates) :
    ∃ aliases, Autok8s.parseGoFile t (render consts gates) =
      .ok ⟨gates.map fun g => (g.name.text, g.featureGate), aliases⟩ := by
  have hidents : (consts.map fun g => g.ident.text).Nodup := (hperm.map _).nodup_iff.mpr h.idents
  have hnames : (consts.map fun g => g.name.text).Nodup := (hperm.map _).nodup_iff.mpr h.names
  have hgates := List.map_congr_left fun g (hg : g ∈ gates) =>
    gateIn_consts hidents hnames (hperm.mem_iff.mpr hg)
  have hfold : ((gates.map fun g => (g.ident.text, g.name.text, g.featureGate)).foldl
      Autok8s.FeatureGateMap.add ⟨[], []⟩).gates =
      gates.map fun g => (g.name.text, g.featureGate) := by
    rw [gates_foldl_add (by simpa [Function.comp_def] using h.names), List.map_map]
    rfl
  refine ⟨((gates.map fun g => (g.ident.text, g.name.text, g.featureGate)).foldl
    Autok8s.FeatureGateMap.add ⟨[], []⟩).aliases, ?_⟩
  rw [parseGoFile_of_blocks t (findBlock_constMarker consts gates) (findBlock_varMarker consts gates),
    parseConstBlock_consts t hidents hnames, hgates, ← hfold]

theorem gateOf_featureGate (g : GateDecl) : Autok8s.GateOf g.featureGate g.history := by
  refine ⟨rfl, ?_⟩
  rw [GateDecl.featureGate, GateDecl.history, List.forall₂_map_left_iff,
    List.forall₂_map_right_iff]
  refine List.forall₂_same.mpr fun d _ => ⟨vt_versionText d, rfl, rfl, ?_⟩
  rw [SpecDecl.goSpecOf, SpecDecl.spec]
  cases d.lock with
  | none => rfl
  | some b => cases b <;> rfl

/-- Both parsers read the gates off their canonical source, with the constants, the gates and the
specs in any order: each gate once, under its name, with its specs by version. The two results
say the same. -/
theorem render_round_trip (t : TextTables) (consts gates : List GateDecl) (h : Compatible gates)
    (hperm : consts.Perm gates) :
    parseHistories t.word (render consts gates) = .ok (gates.map GateDecl.history) ∧
    (∃ aliases, Autok8s.parseGoFile t (render consts gates) =
      .ok ⟨gates.map fun g => (g.name.text, g.featureGate), aliases⟩) ∧
    List.Forall₂ Autok8s.GateOf (gates.map GateDecl.featureGate) (gates.map GateDecl.history) := by
  refine ⟨parseHistories_render h hperm, parseGoFile_render t h hperm, ?_⟩
  rw [List.forall₂_map_left_iff, List.forall₂_map_right_iff]
  exact List.forall₂_same.mpr fun g _ => gateOf_featureGate g

def fooGate : GateDecl where
  ident := ⟨"Foo".toList, by decide, by decide⟩
  name := ⟨"FooName".toList, by decide, by decide⟩
  package := none
  align := oneSpace
  align_ne_nil := by decide
  specs := [⟨1, 31, true, .beta, some true⟩, ⟨1, 30, false, .alpha, none⟩]
  specs_ne_nil := by decide
  nodup := by decide

/-- A gate of another package whose identifier begins with that of `fooGate`. -/
def fooBarGate : GateDecl where
  ident := ⟨"FooBar".toList, by decide, by decide⟩
  name := ⟨"Foo".toList, by decide, by decide⟩
  package := some ⟨"genericfeatures".toList, by decide, by decide⟩
  align := oneSpace
  align_ne_nil := by decide
  specs := [⟨1, 9, true, .ga, none⟩]
  specs_ne_nil := by decide
  nodup := by decide

theorem render_round_trip_foo :
    parseHistories (fun _ => false) (render [fooGate, fooBarGate] [fooBarGate, fooGate]) =
      .ok [("Foo", [⟨toLex (1, 9), ⟨"GA", true, false⟩, false⟩]),
        ("FooName", [⟨toLex (1, 30), ⟨"Alpha", false, false⟩, false⟩,
          ⟨toLex (1, 31), ⟨"Beta", true, true⟩, true⟩])] ∧
    ∃ aliases, Autok8s.parseGoFile .ascii (render [fooGate, fooBarGate] [fooBarGate, fooGate]) =
      .ok ⟨[("Foo".toList, ⟨"Foo", none, [], [⟨"1.9".toList, true, "GA", none, []⟩]⟩),
        ("FooName".toList, ⟨"FooName", none, [], [⟨"1.30".toList, false, "Alpha", none, []⟩,
          ⟨"1.31".toList, true, "Beta", some true, []⟩]⟩)], aliases⟩ := by
  have hcompatible : Compatible [fooBarGate, fooGate] := ⟨by decide, by decide, by decide⟩
  obtain ⟨hhistories, ⟨aliases, hgates⟩, -⟩ := render_round_trip .ascii [fooGate, fooBarGate]
    [fooBarGate, fooGate] hcompatible (List.Perm.swap _ _ _)
  refine ⟨hhistories.trans ?_, aliases, hgates.trans ?_⟩
  · decide +kernel
  · rfl

/-- The canonical source of a gate whose identifier begins with a letter beyond ASCII. -/
def accentSource : Str :=
  preamble ++ ("\tÉtat featuregate.Feature = \"Etat\"\n".toList ++ (constEnd ++ (varMarker ++
    (mapType ++ ("\x7b\n\tÉtat: \x7b\n".toList ++
      ("\t\t\x7bVersion: version.MustParse(\"1.30\"), ".toList ++
        "Default: false, PreRelease: featuregate.Alpha\x7d,\n\t\x7d,\n\x7d\n".toList))))))

/-- `parse_histories` finds no gate, and `parse_go_file` files it under the end of its
identifier. -/
theorem accentSource_misread :
    parseHistories (fun _ => true) accentSource = .error .noHistories ∧
      (Autok8s.parseGoFile ⟨⟨fun _ => true, fun _ => false⟩, List.map Char.toLower⟩ accentSource).map
        (fun m => m.gates.map Prod.fst) = .ok ["tat".toList] := by
  decide +kernel

end RoundTrip

end K8sLearn.Gates.Go
