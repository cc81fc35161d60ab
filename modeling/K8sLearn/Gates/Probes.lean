import K8sLearn.Gates.Canonical
import K8sLearn.Gates.Comments

/-! # Which comments are read

Harmless comments are the only ones that the extractor never reads: for every other comment
there is a small source, with harmless comments of its own at most, that is read differently
once the comment is put in. The sources have one gate with one spec. Where the marker is
named in the comment there is a second gate in front, whose name is longer than all that
follows.
-/

namespace K8sLearn.Gates.Go

open Scan

variable (uni : Char → Bool)

/-- The comment is never read: wherever it is put into a source whose own comments are
harmless, the histories stay the same. -/
def Unread (c : Comment) : Prop :=
  ∀ src src' : Source uni, (∀ d ∈ src.comments, Harmless uni d.text) →
    Source.Commented c src src' → parseHistories uni src'.text = parseHistories uni src.text

section Sources

theorem isBlank_newline : isBlank '\n' = true := rfl

theorem isBlank_tab : isBlank '\t' = true := rfl

def newline {α : Type} : Tok α := .blank '\n' isBlank_newline

def tab {α : Type} : Tok α := .blank '\t' isBlank_tab

def noHeader : Header uni where
  text := []
  identifiers := []
  reads _ _ := rfl
  before _ hz hne := absurd (List.suffix_nil.mp hz) hne

/-- A key of `n + 1` letters. -/
def probeKey (n : ℕ) : Key uni where
  text := List.replicate (n + 1) 'F'
  chars c hc := by
    obtain rfl : c = 'F' := List.eq_of_mem_replicate hc
    exact ⟨rfl, rfl⟩
  ne_nil := List.cons_ne_nil _ _

def probeEntry (n : ℕ) (toks : List (Tok Spec)) : Entry uni := ⟨probeKey uni n, oneSpace, toks⟩

theorem marker_not_in_newline : ¬ varMarker <:+: ['\n'] := by decide

def probe (toks : List (Tok (Entry uni))) : Source uni :=
  ⟨noHeader uni, toks, ['\n'], marker_not_in_newline⟩

def oneGate (toks : List (Tok Spec)) : Source uni := probe uni [newline, .item (probeEntry uni 0 toks)]

variable {uni} {toks : List (Tok Spec)}

theorem dot_not_mem_probeKey (n : ℕ) : '.' ∉ (probeKey uni n).text := by
  intro h
  exact absurd (List.eq_of_mem_replicate h) (by decide)

theorem splitOn_probeKey (n : ℕ) : (probeKey uni n).text.splitOn '.' = [(probeKey uni n).text] :=
  List.splitOn_eq_singleton (dot_not_mem_probeKey n)

theorem isDotted_probeKey (n : ℕ) : isDotted (probeKey uni n).text = true := by
  rw [isDotted, splitOn_probeKey]
  rfl

theorem identifiers_probe (l : List (Tok (Entry uni))) : (probe uni l).identifiers = [] := rfl

theorem Unread.mem_histories {c : Comment} (h : Unread uni c) {src src' : Source uni}
    (hsrc : src.comments = []) (hc : Source.Commented c src src') {e : Entry uni}
    (he : e ∈ entriesRead true src.toks) (hspecs : e.specs ≠ []) :
    ∃ r, parseHistories uni src'.text = .ok r ∧
      String.ofList (nameOf src.identifiers ((e.key.text.splitOn '.').getLastD [])) ∈
        r.map Prod.fst := by
  have hown : ∀ d ∈ src.comments, Harmless uni d.text := by simp [hsrc]
  have hfold : (String.ofList (nameOf src.identifiers ((e.key.text.splitOn '.').getLastD []))) ∈
      (((entriesRead true src.toks).filterMap (Entry.history src.identifiers)).foldl assign []).map
        Prod.fst := by
    have hhistory : e.history src.identifiers =
        some (String.ofList (nameOf src.identifiers ((e.key.text.splitOn '.').getLastD [])),
          e.specs.insertionSort fun s t => s.version ≤ t.version) := if_neg hspecs
    exact mem_keys_foldl_upsert.mpr
      (Or.inr (List.mem_map_of_mem (List.mem_filterMap.mpr ⟨e, he, hhistory⟩)))
  rw [h src src' hown hc, Source.parseHistories_text hown, Source.histories]
  split
  · rename_i hnil
    rw [hnil] at hfold
    cases hfold
  · exact ⟨_, rfl, hfold⟩

theorem comments_oneGate :
    (oneGate uni toks).comments = toks.flatMap (Tok.comments Spec.comments) := by
  simp [Source.comments, oneGate, probe, Tok.comments, Entry.comments, probeEntry, newline]

/-- The source of one gate is read as the specs of its value, where `balanced` keeps to the
tokens and the marker is named once. -/
theorem parseHistories_oneGate
    (hsteady : ∀ c ∈ toks.flatMap (Tok.comments Spec.comments), Steady c.text)
    (hmarker : ∀ c ∈ toks.flatMap (Tok.comments Spec.comments), ¬ varMarker <:+: c.text) :
    parseHistories uni (oneGate uni toks).text =
      (parseSpecs uni (toks.flatMap (Tok.text Spec.text))).bind fun specs =>
        if specs = [] then .error .noHistories
        else .ok [("F", specs.insertionSort fun s t => s.version ≤ t.version)] := by
  have hbody : (oneGate uni toks).body = '\n' :: ((probeEntry uni 0 toks).text ++ []) := by
    simp [Source.body, oneGate, probe, newline, Tok.text]
  have hscan : scan (entryAt uni) 0 true (oneGate uni toks).body =
      [.ok ((probeKey uni 0).text, toks.flatMap (Tok.text Spec.text))] := by
    rw [hbody, (linePattern_entryAt uni).scan_newline,
      Entry.scan_text (e := probeEntry uni 0 toks) hsteady (isDotted_probeKey 0)]
    rfl
  have hname : nameOf [] (((probeKey uni 0).text.splitOn '.').getLastD []) = ['F'] := by
    rw [splitOn_probeKey]
    rfl
  rw [← comments_oneGate] at hsteady hmarker
  rw [parseHistories, Source.identifiers_eq, Source.gateBlock_text hsteady hmarker]
  change (Lists.collectM _ (scan (entryAt uni) 0 true (oneGate uni toks).body)).bind _ = _
  rw [hscan]
  cases hspecs : parseSpecs uni (toks.flatMap (Tok.text Spec.text)) with
  | error e =>
    have hitem : readEntry uni (oneGate uni toks).identifiers
        (.ok ((probeKey uni 0).text, toks.flatMap (Tok.text Spec.text))) = .error e := by
      rw [readEntry, Except.bind, parseEntry, hspecs]
      rfl
    rw [Lists.collectM_cons_of_error hitem]
    rfl
  | ok specs =>
    have hitem : readEntry uni (oneGate uni toks).identifiers
        (.ok ((probeKey uni 0).text, toks.flatMap (Tok.text Spec.text))) =
        .ok (if specs = [] then none
          else some ("F", specs.insertionSort fun s t => s.version ≤ t.version)) := by
      rw [readEntry, Except.bind, parseEntry, hspecs, oneGate, identifiers_probe, hname]
      rfl
    rw [Lists.collectM_cons hitem]
    cases specs <;> rfl

end Sources

section Insertions

variable {uni} {c : Comment} {l l' : List (Tok Spec)} {s : Spec}

theorem commented_oneGate (h : Within c (Spec.Commented c) l l') :
    Source.Commented c (oneGate uni l) (oneGate uni l') :=
  ⟨rfl, rfl, Within.inside [newline] [] ⟨rfl, rfl, h⟩⟩

theorem parseSpecs_item (uni : Char → Bool) (hsteady : ∀ c ∈ s.comments, Steady c.text) :
    parseSpecs uni (s.text ++ []) = (parseItem uni s.body).map Option.toList := by
  have hscan := scan_itemAt_block true (balanced_block (s := []) (s.steady_body hsteady))
  have htext : s.text ++ [] = '{' :: (s.body ++ ['}']) := by simp [Spec.text]
  rw [parseSpecs, htext, hscan]
  cases hitem : parseItem uni s.body with
  | error e => exact Lists.collectM_cons_of_error hitem
  | ok o =>
    have hcons := Lists.collectM_cons (f := readItem uni) (a := .ok s.body) (l := []) hitem
    refine hcons.trans ?_
    cases o <;> rfl

theorem parseHistories_item (h : ∀ e ∈ s.comments, Steady e.text ∧ ¬ varMarker <:+: e.text) :
    parseHistories uni (oneGate uni [.item s]).text =
      (parseItem uni s.body).bind fun o =>
        o.elim (.error .noHistories) fun spec => .ok [("F", [spec])] := by
  have hcomments : [Tok.item s].flatMap (Tok.comments Spec.comments) = s.comments := by
    simp [Tok.comments]
  rw [← hcomments] at h
  have hspecs := parseSpecs_item uni fun e he => (h e (by rwa [hcomments])).1
  rw [parseHistories_oneGate (fun e he => (h e he).1) fun e he => (h e he).2]
  change (parseSpecs uni (s.text ++ [])).bind _ = _
  rw [hspecs]
  cases parseItem uni s.body with
  | error e => rfl
  | ok o => cases o <;> rfl

end Insertions

section Fields

def closing : Comment := ⟨['"', ')', '"'], by decide⟩

theorem harmless_closing : Harmless uni closing.text where
  steady := by decide
  items := by decide
  version := by decide
  default := by decide
  stage := rfl
  marker := by decide

def firstLine : Option Comment → Tok Field
  | none => newline
  | some c => .comment c

def lineSpec (o : Option Comment) (d : SpecDecl) : Spec where
  toks := firstLine o :: .comment closing :: d.toks
  apart := by
    have hd := d.goSpec.apart
    refine List.IsChain.cons_cons ?_ (List.isChain_cons.mpr ⟨by simp [Tok.isItem], hd⟩)
    simp [Tok.isItem]

variable {uni} {c : Comment}

def lineRest (d : SpecDecl) : Str := ['/', '/'] ++ '"' :: ')' :: ('"' :: '\n' :: d.fieldsText)

theorem calm_lineRest (d : SpecDecl) : Calm (lineRest d) := by
  intro a ha
  obtain rfl : '/' = a := Option.some.inj ha
  decide

theorem body_lineSpec (c : Comment) (d : SpecDecl) :
    (lineSpec (some c) d).body = '/' :: '/' :: (c.text ++ '\n' :: lineRest d) := by
  have hbody : d.toks.flatMap (Tok.text Field.text) = d.fieldsText := d.goSpec_body
  simp [Spec.body, lineSpec, firstLine, Tok.text, hbody, lineRest, closing]

theorem comments_lineSpec (o : Option Comment) (d : SpecDecl) :
    (lineSpec o d).comments = o.toList ++ [closing] := by
  have hd : d.toks.flatMap (Tok.comments fun _ => []) = [] := d.comments_goSpec
  cases o <;> simp [Spec.comments, lineSpec, hd, Tok.comments, firstLine, newline]

theorem spec_lineSpec (o : Option Comment) (d : SpecDecl) : (lineSpec o d).spec = some d.spec := by
  have hfields : (lineSpec o d).fields = d.goSpec.fields := by cases o <;> rfl
  rw [Spec.spec, hfields]
  exact d.spec_goSpec

theorem Unread.parseItem (h : Unread uni c) (hsteady : Steady c.text)
    (hmarker : ¬ varMarker <:+: c.text) (d : SpecDecl) :
    parseItem uni ('/' :: '/' :: (c.text ++ '\n' :: lineRest d)) = .ok (some d.spec) := by
  have hclosing := harmless_closing uni
  have hown : ∀ e ∈ (lineSpec none d).comments, Harmless uni e.text := by
    intro e he
    rw [comments_lineSpec] at he
    obtain rfl : e = closing := by simpa using he
    exact hclosing
  have hboth : ∀ e ∈ (lineSpec (some c) d).comments,
      Steady e.text ∧ ¬ varMarker <:+: e.text := by
    intro e he
    rw [comments_lineSpec] at he
    have he' : e = c ∨ e = closing := by simpa using he
    rcases he' with rfl | rfl
    · exact ⟨hsteady, hmarker⟩
    · exact ⟨hclosing.steady, hclosing.marker⟩
  have hsame := h (oneGate uni [.item (lineSpec none d)]) (oneGate uni [.item (lineSpec (some c) d)])
    (by rw [comments_oneGate]; simpa [Tok.comments] using hown)
    (commented_oneGate (Within.inside [] [] (Insert.lineEnd [] _ rfl)))
  rw [parseHistories_item hboth,
    parseHistories_item fun e he => ⟨(hown e he).steady, (hown e he).marker⟩,
    Spec.parseItem_body hown, spec_lineSpec, body_lineSpec] at hsame
  cases hitem : Gates.parseItem uni ('/' :: '/' :: (c.text ++ '\n' :: lineRest d)) with
  | error e =>
    rw [hitem] at hsame
    cases hsame
  | ok o =>
    rw [hitem] at hsame
    cases o with
    | none => cases hsame
    | some s =>
      obtain rfl : s = d.spec := by simpa using Except.ok.inj hsame
      rfl

theorem parseItem_eq_some {x : Str} {t : Gates.Spec} (h : Gates.parseItem uni x = .ok (some t)) :
    (∃ v, search (field versionKey versionValue) x = some v ∧ versionTuple v = some t.version) ∧
      search (field defaultKey boolValue) x = some t.state.default ∧
      ∃ y, search (field preReleaseKey (stageValue uni)) x = some y ∧
        String.ofList y = t.state.stage := by
  unfold Gates.parseItem at h
  split at h
  · rename_i version default stage hversion hdefault hstage
    cases hv : versionTuple version with
    | none =>
      rw [hv] at h
      cases h
    | some v =>
      rw [hv] at h
      obtain rfl := Option.some.inj (Except.ok.inj h)
      exact ⟨⟨version, hversion, hv⟩, hdefault, stage, hstage, rfl⟩
  · cases h

theorem search_in_comment {β : Type} {key : Str} {value : Str → Option β} {x s : Str} {b : β}
    (hslash : '/' ∉ key) (hline : '\n' ∉ key) (hne : key ≠ []) (hs : value (spaces s) = none)
    (h : search (field key (lineValue value s)) x = some b) :
    search (field key value) ('/' :: '/' :: (x ++ '\n' :: s)) = some b :=
  (search_of_apart (apart_slashes hslash hne)).trans
    (search_append_of_some (fun _ _ => field_line hline hs) h)

theorem lineValue_version_eq {p r : Str} (hp : '"' ∉ p) :
    lineValue versionValue (p ++ '"' :: ')' :: r) = lineValue versionValue (p ++ ['"', ')']) := by
  ext w : 1
  unfold lineValue
  split_ifs with hw
  · rfl
  · rcases versionValue_cases w with ⟨o, ho⟩ | ⟨y, rfl, hy⟩
    · rw [ho, ho]
    · rw [versionValue_open hy hp, versionValue_open hy hp]

section Necessary

variable (h : Unread uni c) (hsteady : Steady c.text) (hmarker : ¬ varMarker <:+: c.text)
include h hsteady hmarker

theorem Unread.default : search (field defaultKey boolValue) c.text = none := by
  by_contra hne
  obtain ⟨b, hb⟩ := Option.ne_none_iff_exists'.mp hne
  let d : SpecDecl := ⟨1, 30, !b, .beta, none⟩
  have hitem := parseItem_eq_some (h.parseItem hsteady hmarker d)
  rw [← lineValue_bool (lineRest d)] at hb
  rw [search_in_comment (by decide) (by decide) (by decide) (calm_lineRest d).boolValue hb]
    at hitem
  have hflip : b = !b := Option.some.inj hitem.2.1
  cases b <;> cases hflip

theorem Unread.stage : search (field preReleaseKey (stageValue uni)) c.text = none := by
  by_contra hne
  obtain ⟨y, hy⟩ := Option.ne_none_iff_exists'.mp hne
  have hread : ∀ stage : Stage, String.ofList y = String.ofList stage.text := by
    intro stage
    let d : SpecDecl := ⟨1, 30, true, stage, none⟩
    have hitem := parseItem_eq_some (h.parseItem hsteady hmarker d)
    have hline := hy
    rw [← lineValue_stage (lineRest d)] at hline
    rw [search_in_comment (by decide) (by decide) (by decide) (calm_lineRest d).stageValue hline]
      at hitem
    obtain ⟨-, -, y', hy', hstage⟩ := hitem
    obtain rfl := Option.some.inj hy'
    exact hstage
  have heq : Stage.text .alpha = Stage.text .beta :=
    String.ofList_injective ((hread .alpha).symm.trans (hread .beta))
  exact absurd heq (by decide)

/-- A spec of any version would be read with the one that begins in the comment, and ends
there or in the closing comment. -/
theorem Unread.version :
    search (field versionKey versionValue) (c.text ++ ['\n', '"', ')']) = none := by
  have hquote : '"' ∉ ['/', '/'] := by decide
  by_contra hne
  have hfound : search (field versionKey (lineValue versionValue (['/', '/'] ++ ['"', ')'])))
      c.text ≠ none := by
    intro hnone
    apply hne
    rw [search_append]
    · decide
    · intro z hz _
      rw [field_line (by decide) rfl]
      exact field_eq_none_mono (fun _ => lineValue_version_eq_none hquote)
        (search_eq_none_iff.mp hnone z hz)
  obtain ⟨v, hv⟩ := Option.ne_none_iff_exists'.mp hfound
  have hread : ∀ major : ℕ, versionTuple v = some (toLex ((major : ℤ), (0 : ℤ))) := by
    intro major
    let d : SpecDecl := ⟨major, 0, true, .beta, none⟩
    obtain ⟨⟨v', hv', hversion⟩, -⟩ := parseItem_eq_some (h.parseItem hsteady hmarker d)
    have hline := hv
    rw [← lineValue_version_eq hquote] at hline
    rw [search_in_comment (by decide) (by decide) (by decide) (calm_lineRest d).versionValue hline]
      at hv'
    obtain rfl := Option.some.inj hv'
    exact hversion
  have heq := (hread 0).symm.trans (hread 1)
  exact absurd heq (by decide)

end Necessary

end Fields

section Blocks

variable {uni} {c : Comment} {x : Str}

def probeSpec : SpecDecl := ⟨1, 30, true, .beta, none⟩

theorem balanced_newline (h : balanced x = none) : balanced (x ++ ['\n']) = none := by
  cases x with
  | nil => decide
  | cons a x =>
    change (Cursor.start.next a).close (x ++ ['\n']) = none
    rw [Cursor.close_eq_none_iff, Cursor.stays_append]
    refine ⟨Cursor.close_eq_none_iff.mp h, ?_, trivial⟩
    simp [Cursor.closes]

theorem unbalanced_mem_newline (h : .error .unbalanced ∈ scan itemAt 0 true x) :
    .error .unbalanced ∈ scan itemAt 0 true (x ++ ['\n']) := by
  induction hn : x.length using Nat.strong_induction_on generalizing x with
  | _ n ih =>
    cases x with
    | nil => cases h
    | cons a x =>
      by_cases ha : a = '{'
      · subst ha
        cases hb : balanced ('{' :: x) with
        | none =>
          have hmatch : itemAt true ('{' :: (x ++ ['\n'])) = some (.error .unbalanced, []) := by
            have hline := balanced_newline hb
            rw [List.cons_append] at hline
            simp [itemAt, blockAt, hline]
          rw [List.cons_append, scan_cons_of_some hmatch]
          exact List.mem_cons_self
        | some p =>
          obtain ⟨y, r⟩ := p
          obtain ⟨rfl, hlocal⟩ := Cursor.close_eq_some hb
          rw [scan_itemAt_block true (hlocal r)] at h
          have hlong := scan_itemAt_block true (hlocal (r ++ ['\n']))
          simp only [List.cons_append, List.append_assoc] at hlong ⊢
          rw [hlong]
          have hmem : .error .unbalanced ∈ scan itemAt 0 true r := by simpa using h
          exact List.mem_cons_of_mem _ (ih r.length (by simp at hn; omega) hmem rfl)
      · rw [scan_itemAt_cons true ha] at h
        rw [List.cons_append, scan_itemAt_cons true ha]
        exact ih x.length (by simp at hn; omega) h rfl

/-- Behind the item of a value, a block that the comment leaves open raises. -/
theorem Unread.items (h : Unread uni c) (hsteady : Steady c.text)
    (hmarker : ¬ varMarker <:+: c.text) : .error .unbalanced ∉ scan itemAt 0 true c.text := by
  intro hmem
  have hnone := probeSpec.comments_goSpec
  have hown : (oneGate uni [.item probeSpec.goSpec, newline]).comments = [] := by
    simp [comments_oneGate, Tok.comments, hnone, newline]
  have hcomments : [Tok.item probeSpec.goSpec, .comment c].flatMap (Tok.comments Spec.comments) =
      [c] := by simp [Tok.comments, hnone]
  have hbehind : Source.Commented c (oneGate uni [.item probeSpec.goSpec, newline])
      (oneGate uni [.item probeSpec.goSpec, .comment c]) :=
    commented_oneGate (Within.here (Insert.lineEnd [_] [] rfl))
  obtain ⟨r, hr, -⟩ := h.mem_histories hown hbehind List.mem_cons_self (List.cons_ne_nil _ _)
  rw [parseHistories_oneGate (by simpa [hcomments] using hsteady)
    (by simpa [hcomments] using hmarker)] at hr
  -- the loop over the items meets the open block behind the item
  have htext : [Tok.item probeSpec.goSpec, .comment c].flatMap (Tok.text Spec.text) =
      '{' :: (probeSpec.goSpec.body ++ '}' :: '/' :: '/' :: (c.text ++ ['\n'])) := by
    simp [Tok.text, Spec.text]
  have hopen : .error .unbalanced ∈ scan itemAt 0 true
      ([Tok.item probeSpec.goSpec, .comment c].flatMap (Tok.text Spec.text)) := by
    rw [htext, scan_itemAt_block true (balanced_block (probeSpec.goSpec.steady_body (by simp [hnone]))),
      scan_itemAt_cons true (by decide), scan_itemAt_cons true (by decide)]
    exact List.mem_cons_of_mem _ (unbalanced_mem_newline hmem)
  cases hspecs : parseSpecs uni
      ([Tok.item probeSpec.goSpec, .comment c].flatMap (Tok.text Spec.text)) with
  | error e =>
    rw [hspecs] at hr
    cases hr
  | ok specs =>
    obtain ⟨o, ho⟩ := (Lists.of_collectM_eq_ok hspecs).1 _ hopen
    cases ho

end Blocks

section Braces

variable {uni} {c : Comment} {k : Cursor}

/-- The rest of the map, behind the first line. -/
def restText : Str :=
  "F: \x7b\x7bVersion: version.MustParse(".toList ++
    '"' :: ("1.30".toList ++
      '"' :: "), Default: true, PreRelease: featuregate.Beta\x7d\x7d\x7d\n".toList)

theorem restText_eq (uni : Char → Bool) :
    (probeEntry uni 0 [.item probeSpec.goSpec]).text ++ ['}', '\n'] = restText := by
  rfl

theorem Cursor.stays_string {d : ℤ} {x y z : Str} (hd : 1 ≤ d) (hx : ∀ a ∈ x, a ≠ '"' ∧ a ≠ '\\')
    (hy : ∀ a ∈ y, a ∉ ['"', '{', '}']) (hz : ∀ a ∈ z, a ≠ '"' ∧ a ≠ '\\') :
    (⟨d, true, false⟩ : Cursor).Stays (x ++ '"' :: (y ++ '"' :: z)) := by
  have hin := Cursor.in_string (d := d) hx
  have hbetween := (steady_plain hy).at_level hd
  rw [Cursor.stays_append, hin.2]
  refine ⟨hin.1, rfl, ?_⟩
  change (Cursor.level d).Stays _
  rw [Cursor.stays_append, hbetween.2]
  exact ⟨hbetween.1, rfl, (Cursor.in_string hz).1⟩

/-- A loop that enters the rest of the map in a string or too deep does not leave it. -/
theorem stays_restText (hdepth : 1 ≤ k.depth) (hescaped : k.inString = false → k.escaped = false)
    (hk : k ≠ Cursor.level 1) : k.Stays ('\n' :: restText) := by
  obtain ⟨d, inString, escaped⟩ := k
  change 1 ≤ d at hdepth
  cases inString with
  | false =>
    obtain rfl : escaped = false := hescaped rfl
    have hne : d ≠ 1 := by
      rintro rfl
      exact hk rfl
    have hsteady : Steady ('\n' :: restText.dropLast.dropLast) := by decide
    have htext : '\n' :: restText = ('\n' :: restText.dropLast.dropLast) ++ ['}', '\n'] := by decide
    have hin := hsteady.at_level hdepth
    change (Cursor.level d).Stays _
    rw [htext, Cursor.stays_append, hin.2]
    refine ⟨hin.1, ?_, ?_, trivial⟩
    · simp [Cursor.closes, Cursor.level, hne]
    · simp [Cursor.closes]
  | true =>
    have hnewline : (⟨d, true, escaped⟩ : Cursor).next '\n' = ⟨d, true, false⟩ := by
      cases escaped <;> rfl
    refine ⟨rfl, ?_⟩
    rw [hnewline]
    exact Cursor.stays_string hdepth (by decide) (by decide) (by decide)

variable (uni) in
def frontGate (c : Comment) : Source uni :=
  probe uni [.comment c, .item (probeEntry uni 0 [.item probeSpec.goSpec])]

theorem gateBlock_frontGate (hmarker : ¬ varMarker <:+: c.text) :
    gateBlock (frontGate uni c).text =
      ((Cursor.level 1).close (['/', '/'] ++ (c.text ++ '\n' :: restText))).elim
        (.error .unbalanced) fun p => .ok p.1 := by
  have hcomments : (frontGate uni c).comments = [c] := by
    simp [Source.comments, frontGate, probe, Tok.comments, Entry.comments, probeEntry,
      probeSpec.comments_goSpec]
  have hbody : (frontGate uni c).body ++ '}' :: (frontGate uni c).trailer =
      ['/', '/'] ++ (c.text ++ '\n' :: restText) := by
    rw [← restText_eq uni]
    simp [Source.body, frontGate, probe, Tok.text]
  rw [Source.gateBlock_eq (by simpa [hcomments] using hmarker), hbody]
  rfl

theorem scan_entryAt_slashes {x : Str} (hx : '\n' ∉ x) :
    scan (entryAt uni) 0 true (['/', '/'] ++ x) = [] := by
  have hm := skips_entryAt uni
  have hword := hm.scan_word (b := true) (s := []) (x := ['/', '/'] ++ x) (by simp) (by simpa using hx)
    fun _ => hm.sign '/' (by decide) _
  rw [List.append_nil] at hword
  rw [hword]
  rfl

/-- In front of a gate, a comment that does not balance ends the map before the gate, or the
map does not end. -/
theorem Unread.steady (h : Unread uni c) (hmarker : ¬ varMarker <:+: c.text) : Steady c.text := by
  have hown : (oneGate uni [.item probeSpec.goSpec]).comments = [] := by
    simp [comments_oneGate, Tok.comments, probeSpec.comments_goSpec]
  have hfront : Source.Commented c (oneGate uni [.item probeSpec.goSpec]) (frontGate uni c) :=
    ⟨rfl, rfl, Within.here (Insert.lineEnd [] _ rfl)⟩
  obtain ⟨r, hr, -⟩ := h.mem_histories hown hfront List.mem_cons_self (List.cons_ne_nil _ _)
  have hslashes : Steady ['/', '/'] := by decide
  rw [parseHistories, gateBlock_frontGate hmarker, Cursor.close_append hslashes.1, hslashes.2]
    at hr
  by_cases hstays : (Cursor.level 1).Stays c.text
  · refine ⟨hstays, ?_⟩
    by_contra hrun
    have hrest : (Cursor.level 1).close (c.text ++ '\n' :: restText) = none := by
      rw [Cursor.close_eq_none_iff, Cursor.stays_append]
      exact ⟨hstays, stays_restText (Cursor.le_depth_run (le_refl 1) hstays)
        (Cursor.escaped_run fun _ => rfl) hrun⟩
    rw [hrest] at hr
    cases hr
  · obtain ⟨⟨y, z⟩, hclose⟩ :=
      Option.ne_none_iff_exists'.mp fun hnone => hstays (Cursor.close_eq_none_iff.mp hnone)
    obtain ⟨htext, hlocal⟩ := Cursor.close_eq_some hclose
    have hline : '\n' ∉ y := by
      intro hy
      exact c.line (htext ▸ List.mem_append_left _ hy)
    have hcut : (Cursor.level 1).close (c.text ++ '\n' :: restText) =
        some (y, z ++ '\n' :: restText) := by
      rw [htext, List.append_assoc, List.cons_append, hlocal]
    rw [hcut] at hr
    change (Lists.collectM _ (scan (entryAt uni) 0 true (['/', '/'] ++ y))).bind _ = _ at hr
    rw [scan_entryAt_slashes hline] at hr
    cases hr

end Braces

section Marker

variable {uni} {c : Comment} {source body : Str} {r : List (String × List Gates.Spec)}

theorem length_of_entryAt {b : Bool} {z rest key value : Str}
    (h : entryAt uni b z = some (.ok (key, value), rest)) : key.length ≤ z.length := by
  unfold entryAt at h
  split_ifs at h
  obtain ⟨p, hp, h⟩ := Option.map_eq_some_iff.mp h
  obtain ⟨-, hkey, -, -⟩ := entryHead_eq_some hp
  have hfst : key = p.1 := by
    cases hb : (blockAt p.2).1 with
    | error e => simp [hb, Except.map] at h
    | ok y =>
      rw [hb] at h
      simp only [Except.map, Prod.mk.injEq, Except.ok.injEq] at h
      exact h.1.1.symm
  rw [hfst, hkey]
  exact (List.takeWhile_prefix _).length_le.trans (length_spaces_le z)

theorem length_of_readEntry {a : Except ParseError (Str × Str)} {p : String × List Gates.Spec}
    (h : readEntry uni [] a = .ok (some p)) :
    ∃ key value, a = .ok (key, value) ∧ p.1.length ≤ key.length := by
  cases a with
  | error e => cases h
  | ok q =>
    obtain ⟨key, value⟩ := q
    refine ⟨key, value, rfl, ?_⟩
    change (parseSpecs uni value).map _ = _ at h
    cases hspecs : parseSpecs uni value with
    | error e =>
      rw [hspecs] at h
      cases h
    | ok specs =>
      rw [hspecs] at h
      have hp := Except.ok.inj h
      dsimp only at hp
      split_ifs at hp
      obtain rfl := Option.some.inj hp
      have hlast := (Lists.getLastD_suffix_intercalate ['.'] (key.splitOn '.')).length_le
      rw [List.intercalate_splitOn] at hlast
      simpa [nameOf] using hlast

theorem length_of_mem_parseHistories (hids : scan (declaration uni) 0 true source = [])
    (hblock : gateBlock source = .ok body) (h : parseHistories uni source = .ok r) :
    ∀ name ∈ r.map Prod.fst, name.length ≤ body.length := by
  rw [parseHistories, hids, hblock] at h
  change (Lists.collectM _ (scan (entryAt uni) 0 true body)).bind _ = _ at h
  cases hentries : Lists.collectM (readEntry uni []) (scan (entryAt uni) 0 true body) with
  | error e =>
    rw [hentries] at h
    cases h
  | ok entries =>
    have hr : entries.foldl assign [] = r := by
      rw [hentries] at h
      dsimp only [Except.bind] at h
      split at h
      · cases h
      · exact Except.ok.inj h
    intro name hname
    rw [← hr] at hname
    rcases mem_keys_foldl_upsert.mp hname with hname | hname
    · cases hname
    · obtain ⟨p, hp, rfl⟩ := List.mem_map.mp hname
      obtain ⟨a, ha, hread⟩ := (Lists.of_collectM_eq_ok hentries).2 p hp
      obtain ⟨key, value, rfl, hlen⟩ := length_of_readEntry hread
      obtain ⟨b, z, rest, hz, hmatch⟩ := mem_scan ha
      exact hlen.trans ((length_of_entryAt hmatch).trans hz.length_le)

theorem length_of_balanced {s : Str} {p : Str × Str} (h : balanced s = some p) :
    p.1.length ≤ s.length := by
  cases s with
  | nil => cases h
  | cons a s =>
    obtain ⟨rfl, -⟩ := Cursor.close_eq_some h
    simp
    omega

theorem length_of_gateBlock {x s : Str} (hx : Apart varMarker x) (hs : Apart varMarker ('\n' :: s))
    (hopen : '{' ∈ s) (hc : varMarker <:+: c.text)
    (h : gateBlock (varMarker ++ (mapType ++ '{' :: (x ++ (c.text ++ '\n' :: s)))) = .ok body) :
    body.length ≤ (c.text ++ '\n' :: s).length := by
  have hname : find markerName (varMarker ++ (mapType ++ '{' :: (x ++ (c.text ++ '\n' :: s)))) =
      some (markerName ++ (mapType ++ '{' :: (x ++ (c.text ++ '\n' :: s)))) := by
    rw [varMarker, List.append_assoc, find_append (by decide),
      find_of_starts (List.prefix_append _ _)]
  have hbefore : find varMarker (markerName ++ (mapType ++ '{' :: (x ++ (c.text ++ '\n' :: s)))) =
      find varMarker (c.text ++ '\n' :: s) := by
    have htext : markerName ++ (mapType ++ '{' :: (x ++ (c.text ++ '\n' :: s))) =
        (markerName ++ mapType ++ ['{']) ++ (x ++ (c.text ++ '\n' :: s)) := by simp
    rw [htext, find_append (by decide), find_append hx]
  have hnone : find varMarker ('\n' :: s) = none := by
    have hfind := find_append (s := []) hs
    rw [List.append_nil] at hfind
    rw [hfind]
    decide
  have hmarker : ∃ z, z <:+ c.text ∧ find varMarker (c.text ++ '\n' :: s) = some (z ++ '\n' :: s) := by
    rcases find_append_cases varMarker c.text ('\n' :: s) with ⟨z, hz, -, hfind⟩ | hfind
    · exact ⟨z, hz, hfind⟩
    · rw [hnone] at hfind
      exact absurd (hc.trans (List.prefix_append _ _).isInfix) (find_eq_none_iff.mp hfind)
  obtain ⟨z, hz, hfind⟩ := hmarker
  have hblock : (z ++ '\n' :: s).dropWhile (fun c => c ≠ '{') ≠ [] := by
    intro hnil
    have hall := List.dropWhile_eq_nil_iff.mp hnil '{' (by simp [hopen])
    exact absurd hall (by decide)
  rw [gateBlock, hname] at h
  simp only [hbefore, hfind, Option.getD_some, if_neg hblock] at h
  cases hb : balanced ((z ++ '\n' :: s).dropWhile fun c => c ≠ '{') with
  | none =>
    rw [hb] at h
    cases h
  | some p =>
    rw [hb] at h
    obtain rfl := Except.ok.inj h
    have hlen := (length_of_balanced hb).trans (List.dropWhile_suffix _).length_le
    have hshort := hz.length_le
    simp only [List.length_append] at hlen ⊢
    omega

variable (uni) in
/-- A gate with a long name and one with a short name, and a token between them. -/
def twoGates (n : ℕ) (t : Tok (Entry uni)) : Source uni :=
  probe uni [newline, .item (probeEntry uni n [.item probeSpec.goSpec]), .comma, t,
    .item (probeEntry uni 0 [.item probeSpec.goSpec])]

theorem comments_probeEntry (n : ℕ) :
    (probeEntry uni n [.item probeSpec.goSpec]).comments = [] := by
  simp [Entry.comments, probeEntry, Tok.comments, probeSpec.comments_goSpec]

theorem text_twoGates (n : ℕ) (c : Comment) : (twoGates uni n (.comment c)).text =
    varMarker ++ (mapType ++ '{' ::
      ((['\n'] ++ ((probeEntry uni n [.item probeSpec.goSpec]).text ++ [',', '/', '/'])) ++
        (c.text ++ '\n' :: restText))) := by
  rw [← restText_eq uni]
  simp [Source.text, Source.body, twoGates, probe, noHeader, newline, Tok.text]

/-- Behind a comment that names the marker the block of the gate that follows is read, and
not the gate in front, whose name does not fit in there. -/
theorem Unread.marker (h : Unread uni c) : ¬ varMarker <:+: c.text := by
  intro hocc
  obtain ⟨n, hn⟩ : ∃ n, n = (c.text ++ '\n' :: restText).length := ⟨_, rfl⟩
  have hown : (twoGates uni n newline).comments = [] := by
    simp [Source.comments, twoGates, probe, Tok.comments, newline, comments_probeEntry]
  have hbetween : Source.Commented c (twoGates uni n newline) (twoGates uni n (.comment c)) :=
    ⟨rfl, rfl, Within.here (Insert.lineEnd [_, _, _] [_] rfl)⟩
  obtain ⟨r, hr, hlong⟩ := h.mem_histories hown hbetween
    (e := probeEntry uni n [.item probeSpec.goSpec])
    (by simp [twoGates, probe, newline, entriesRead, isDotted_probeKey, probeEntry])
    (List.cons_ne_nil _ _)
  have hids : scan (declaration uni) 0 true (twoGates uni n (.comment c)).text = [] :=
    Source.identifiers_eq _
  have hbefore : Apart varMarker
      (['\n'] ++ ((probeEntry uni n [.item probeSpec.goSpec]).text ++ [',', '/', '/'])) := by
    refine Apart.append (by decide) (Apart.append ?_ (by decide))
    exact Entry.apart_varMarker (by simp [comments_probeEntry])
  cases hblock : gateBlock (twoGates uni n (.comment c)).text with
  | error e =>
    rw [parseHistories, hblock] at hr
    cases hr
  | ok body =>
    have hname := length_of_mem_parseHistories hids hblock hr _ hlong
    rw [text_twoGates] at hblock
    have hbody := length_of_gateBlock hbefore (by decide) (by decide) hocc hblock
    have hlength : (String.ofList (nameOf (twoGates uni n newline).identifiers
        (((probeKey uni n).text.splitOn '.').getLastD []))).length = n + 1 := by
      rw [splitOn_probeKey, twoGates, identifiers_probe]
      simp [nameOf, probeKey]
    have hfit : n + 1 ≤ body.length := hlength.symm.le.trans hname
    omega

end Marker

theorem oneSpace_ne_nil : oneSpace.text ≠ [] := by decide

def barGate : GateDecl where
  ident := ⟨"Bar".toList, by decide, by decide⟩
  name := ⟨"Bar".toList, by decide, by decide⟩
  package := none
  align := oneSpace
  align_ne_nil := oneSpace_ne_nil
  specs := [probeSpec]
  specs_ne_nil := by decide
  nodup := by decide

def oldSpec : Comment where
  text := " \x7bVersion: version.MustParse(\"1.29\"), Default: false, ".toList ++
    "PreRelease: featuregate.Alpha\x7d".toList
  line := by decide

def oldSpecEntry : Entry fun _ => false :=
  { barGate.entry _ with
    toks := .comment oldSpec :: (barGate.specs.flatMap SpecDecl.lineToks ++ [tab]) }

def oldSpecSource : Source fun _ => false :=
  { canonicalSource _ [barGate] [barGate] with
    toks := [newline, tab, .item oldSpecEntry, .comma, newline] }

end K8sLearn.Gates.Go
