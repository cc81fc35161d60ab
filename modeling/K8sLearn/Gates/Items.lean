import K8sLearn.Gates.Source

/-! # Items and comments

A comment is harmless when none of the extractor's loops sees anything in it. `balanced`
passes over harmless comments, and the searches for the fields of an item find the fields
and nothing in its comments. The items of an entry are read as its tokens say.
-/

namespace K8sLearn.Gates.Go

open Scan

variable {uni : Char → Bool}

variable (uni) in
/-- Nothing in a comment is seen by the loops of `parse_histories`: its braces and quotes
balance, every block that the loop over items would find in it is closed in it, it has no
field, not even the beginning of a version that a later comment could end, and it does not
name the marker. -/
structure Harmless (c : Str) : Prop where
  steady : Steady c
  items : .error .unbalanced ∉ scan itemAt 0 true c
  version : search (field versionKey versionValue) (c ++ ['\n', '"', ')']) = none
  default : search (field defaultKey boolValue) c = none
  stage : search (field preReleaseKey (stageValue uni)) c = none
  marker : ¬ varMarker <:+: c

section Characters

theorem isSpace_of_isBlank {c : Char} (h : isBlank c = true) : Str.isSpace c = true := by
  have hc : c = ' ' ∨ c = '\t' ∨ c = '\n' := by simpa [isBlank] using h
  rcases hc with rfl | rfl | rfl <;> rfl

theorem Pad.isSpace (pad : Pad) : ∀ c ∈ pad.text, Str.isSpace c = true :=
  fun c hc => isSpace_of_isBlank (pad.blank c hc).1

theorem Pad.not_mem (pad : Pad) {a : Char} (ha : Str.isSpace a = false) : a ∉ pad.text := by
  intro h
  rw [pad.isSpace a h] at ha
  exact Bool.noConfusion ha

theorem Pad.newline_not_mem (pad : Pad) : '\n' ∉ pad.text := fun h => (pad.blank _ h).2 rfl

theorem VersionText.not_mem (v : VersionText) {a : Char} (ha : a.isDigit = false)
    (ha' : a ≠ '.') : a ∉ v.text := by
  intro h
  rcases v.digits a h with h | h
  · rw [h] at ha
    exact Bool.noConfusion ha
  · exact ha' h

theorem VersionText.ne_nil (v : VersionText) : v.text ≠ [] := by
  intro h
  have hv := v.parses
  have hnil : versionTuple [] = none := by decide
  rw [h, hnil] at hv
  cases hv

theorem Key.not_mem (key : Key uni) {a : Char} (ha : isKeyChar uni a = false) : a ∉ key.text := by
  intro h
  rw [(key.chars a h).1] at ha
  exact Bool.noConfusion ha

theorem Key.newline_not_mem (key : Key uni) : '\n' ∉ key.text := key.not_mem rfl

end Characters

section Steadiness

theorem steady_of_not_mem {x : Str} (hq : '"' ∉ x) (ho : '{' ∉ x) (hc : '}' ∉ x) : Steady x := by
  apply steady_plain
  intro c hmem
  simp only [List.mem_cons, List.not_mem_nil, or_false, not_or]
  refine ⟨?_, ?_, ?_⟩ <;> rintro rfl <;> contradiction

theorem Pad.steady (pad : Pad) : Steady pad.text :=
  steady_of_not_mem (pad.not_mem rfl) (pad.not_mem rfl) (pad.not_mem rfl)

theorem steady_boolLit (b : Bool) : Steady (boolLit b) := by cases b <;> decide

theorem Stage.steady (stage : Stage) : Steady stage.text := by cases stage <;> decide

theorem Field.steady (f : Field) : Steady f.text := by
  cases f with
  | version pad v =>
    have hopen : mustParse = "version.MustParse(".toList ++ ['"'] := by decide
    have hquoted : Steady ('"' :: (v.text ++ ['"'])) := by
      apply steady_quoted
      intro c hc
      constructor <;> rintro rfl
      · exact v.not_mem rfl (by decide) hc
      · exact v.not_mem rfl (by decide) hc
    have hvalue : Steady (mustParse ++ (v.text ++ ['"', ')'])) := by
      have h := ((by decide : Steady "version.MustParse(".toList).append hquoted).append
        (by decide : Steady [')'])
      rw [hopen]
      simpa using h
    exact (by decide : Steady versionKey).append (pad.steady.append hvalue)
  | default pad b =>
    exact (by decide : Steady defaultKey).append (pad.steady.append (steady_boolLit b))
  | preRelease pad stage =>
    exact (by decide : Steady preReleaseKey).append
      (pad.steady.append ((by decide : Steady stageOf).append stage.steady))
  | lockToDefault pad b =>
    exact (by decide : Steady lockToDefaultKey).append (pad.steady.append (steady_boolLit b))

theorem steady_comment {c : Str} (h : Steady c) : Steady ('/' :: '/' :: (c ++ ['\n'])) :=
  (by decide : Steady ['/', '/']).append (h.append (by decide))

variable {α : Type} {f : α → Str} {l : List (Tok α)}

theorem steady_toks (hitem : ∀ a, .item a ∈ l → Steady (f a))
    (hcomment : ∀ c, .comment c ∈ l → Steady c.text) : Steady (l.flatMap (Tok.text f)) := by
  induction l with
  | nil => exact Steady.nil
  | cons t l ih =>
    have hl := ih (fun a ha => hitem a (List.mem_cons_of_mem _ ha))
      fun c hc => hcomment c (List.mem_cons_of_mem _ hc)
    rw [List.flatMap_cons]
    refine Steady.append ?_ hl
    cases t with
    | item a => exact hitem a List.mem_cons_self
    | comma => exact (by decide : Steady [','])
    | blank c hc =>
      apply steady_singleton
      have hc' : c = ' ' ∨ c = '\t' ∨ c = '\n' := by simpa [isBlank] using hc
      rcases hc' with rfl | rfl | rfl <;> decide
    | comment c => exact steady_comment (hcomment c List.mem_cons_self)

theorem mem_comments_of_comment {g : α → List Comment} {c : Comment} (h : .comment c ∈ l) :
    c ∈ l.flatMap (Tok.comments g) :=
  List.mem_flatMap.mpr ⟨_, h, List.mem_singleton.mpr rfl⟩

theorem mem_comments_of_item {g : α → List Comment} {a : α} {c : Comment} (h : .item a ∈ l)
    (hc : c ∈ g a) : c ∈ l.flatMap (Tok.comments g) :=
  List.mem_flatMap.mpr ⟨_, h, hc⟩

theorem Spec.steady_body {s : Spec} (h : ∀ c ∈ s.comments, Steady c.text) : Steady s.body :=
  steady_toks (fun f _ => f.steady) fun c hc => h c (mem_comments_of_comment hc)

theorem Entry.steady_body {e : Entry uni} (h : ∀ c ∈ e.comments, Steady c.text) :
    Steady e.body := by
  apply steady_toks
  · intro s hs
    exact steady_block (s.steady_body fun c hc => h c (mem_comments_of_item hs hc))
  · exact fun c hc => h c (mem_comments_of_comment hc)

theorem Key.steady (key : Key uni) : Steady key.text :=
  steady_of_not_mem (key.not_mem rfl) (key.not_mem rfl) (key.not_mem rfl)

theorem Entry.steady_text {e : Entry uni} (h : ∀ c ∈ e.comments, Steady c.text) :
    Steady e.text :=
  e.key.steady.append ((by decide : Steady [':']).append
    (e.pad.steady.append (steady_block (e.steady_body h))))

theorem Source.steady_body {src : Source uni} (h : ∀ c ∈ src.comments, Steady c.text) :
    Steady src.body := by
  apply steady_toks
  · intro e he
    exact e.steady_text fun c hc => h c (mem_comments_of_item he hc)
  · exact fun c hc => h c (mem_comments_of_comment hc)

end Steadiness

section Fields

variable {β : Type} {key : Str} {value : Str → Option β} {c u w s : Str}

theorem spaces_append (hw : ∀ c ∈ w, Str.isSpace c = true) : spaces (w ++ s) = spaces s :=
  List.dropWhile_append_of_pos hw

theorem spaces_of_head (hs : ∀ a ∈ s.head?, Str.isSpace a = false) : spaces s = s := by
  cases s with
  | nil => rfl
  | cons a s => simp [spaces, hs a rfl]

theorem Pad.spaces_append (pad : Pad) (hs : ∀ a ∈ s.head?, Str.isSpace a = false) :
    spaces (pad.text ++ s) = s := by
  rw [Go.spaces_append pad.isSpace, spaces_of_head hs]

theorem field_eq_none (h : ¬ key <+: s) : field key value s = none := by
  rw [field, lit_eq_none_iff.mpr h]
  rfl

theorem field_append : field key value (key ++ s) = value (spaces s) := by
  rw [field, lit_append]
  rfl

theorem search_of_apart (h : Apart key w) :
    search (field key value) (w ++ s) = search (field key value) s :=
  search_append fun _ hz hne => field_eq_none (h.not_starts hz hne)

theorem apart_slashes (hslash : '/' ∉ key) (hne : key ≠ []) : Apart key ['/', '/'] := by
  cases key with
  | nil => exact absurd rfl hne
  | cons a key =>
    apply apart_of_not_mem
    intro ha
    obtain rfl : a = '/' := by simpa using ha
    exact hslash List.mem_cons_self

theorem search_comment (hslash : '/' ∉ key) (hne : key ≠ [])
    (h : ∀ z, z <:+ c → field key value (z ++ '\n' :: s) = none) :
    search (field key value) ('/' :: '/' :: (c ++ '\n' :: s)) = search (field key value) s := by
  have hcomment : search (field key value) ((c ++ ['\n']) ++ s) = search (field key value) s := by
    apply search_append
    intro z hz hzne
    obtain ⟨z, hz', rfl⟩ := suffix_concat hz hzne
    rw [List.append_assoc]
    exact h z hz'
  rw [List.append_assoc] at hcomment
  exact (search_of_apart (apart_slashes hslash hne)).trans hcomment

/-- The value that begins before the end of a line, behind which `s` stands. -/
def lineValue (value : Str → Option β) (s w : Str) : Option β :=
  if w = [] then none else value (w ++ '\n' :: s)

theorem field_line {z : Str} (hline : '\n' ∉ key) (hs : value (spaces s) = none) :
    field key value (z ++ '\n' :: s) = field key (lineValue value s) z := by
  by_cases hkey : key <+: z
  · obtain ⟨u, rfl⟩ := hkey
    rw [List.append_assoc, field_append, field_append, lineValue]
    unfold spaces at hs ⊢
    rw [List.dropWhile_append]
    split_ifs with h h' h'
    · exact hs
    · exact absurd (by simpa using h) h'
    · exact absurd (by simpa using h') h
    · rfl
  · rw [field_eq_none hkey, field_eq_none]
    exact fun hp => hkey (prefix_of_prefix_append_cons hp hline)

theorem field_eq_none_mono {value' : Str → Option β} (h : ∀ w, value w = none → value' w = none)
    (hs : field key value s = none) : field key value' s = none := by
  unfold field at hs ⊢
  cases hl : lit key s with
  | none => rfl
  | some r =>
    rw [hl] at hs
    exact h _ hs

/-- A value does not begin in what follows a comment. -/
def Calm (s : Str) : Prop := ∀ a ∈ (spaces s).head?, a ∉ ['v', 't', 'f']

theorem value_of_search (h : search (field key value) c = none) (hu : key ++ u <:+ c) :
    value (spaces u) = none := by
  have hfield := search_eq_none_iff.mp h _ hu
  rwa [field_append] at hfield

theorem Calm.not_starts (hs : Calm s) {a : Char} (ha : a ∈ ['v', 't', 'f']) :
    ¬ a :: w <+: spaces s := by
  rintro ⟨r, hr⟩
  exact hs a (by rw [← hr]; rfl) ha

theorem boolValue_eq_none_iff :
    boolValue s = none ↔ ¬ boolLit true <+: s ∧ ¬ boolLit false <+: s := by
  unfold boolValue
  split_ifs with ht hf <;> simp [*]

theorem Calm.boolValue (hs : Calm s) : boolValue (spaces s) = none :=
  boolValue_eq_none_iff.mpr ⟨hs.not_starts (by decide), hs.not_starts (by decide)⟩

theorem lineValue_bool (s : Str) : lineValue boolValue s = boolValue := by
  ext w : 1
  have hlit : ∀ b, boolLit b <+: w ++ '\n' :: s ↔ boolLit b <+: w := by
    intro b
    constructor
    · intro h
      exact prefix_of_prefix_append_cons h (by cases b <;> decide)
    · exact fun h => h.trans (List.prefix_append _ _)
  rw [lineValue]
  split_ifs with hw
  · rw [hw]
    rfl
  · simp only [Gates.boolValue, hlit]

theorem search_bool_comment (hslash : '/' ∉ key) (hline : '\n' ∉ key) (hne : key ≠ [])
    (hc : search (field key boolValue) c = none) (hs : Calm s) :
    search (field key boolValue) ('/' :: '/' :: (c ++ '\n' :: s)) =
      search (field key boolValue) s := by
  apply search_comment hslash hne
  intro z hz
  rw [field_line hline hs.boolValue, lineValue_bool]
  exact search_eq_none_iff.mp hc z hz

theorem Calm.stageValue (hs : Calm s) : stageValue uni (spaces s) = none := by
  have hlit : lit stageOf (spaces s) = none :=
    lit_eq_none_iff.mpr (hs.not_starts (a := 'f') (by decide))
  rw [Gates.stageValue, hlit]
  rfl

theorem lineValue_stage (s : Str) : lineValue (stageValue uni) s = stageValue uni := by
  ext w : 1
  rw [lineValue]
  split_ifs with hw
  · rw [hw]
    rfl
  · by_cases hstage : stageOf <+: w
    · obtain ⟨t, rfl⟩ := hstage
      rw [List.append_assoc, Gates.stageValue, Gates.stageValue, lit_append, lit_append,
        Option.bind_some, Option.bind_some, takeWhile_append_stop rfl]
    · rw [Gates.stageValue, Gates.stageValue, lit_eq_none_iff.mpr hstage,
        lit_eq_none_iff.mpr fun hp => hstage (prefix_of_prefix_append_cons hp (by decide))]

theorem search_stage_comment (hc : search (field preReleaseKey (stageValue uni)) c = none)
    (hs : Calm s) :
    search (field preReleaseKey (stageValue uni)) ('/' :: '/' :: (c ++ '\n' :: s)) =
      search (field preReleaseKey (stageValue uni)) s := by
  apply search_comment (by decide) (by decide)
  intro z hz
  rw [field_line (by decide) hs.stageValue, lineValue_stage]
  exact search_eq_none_iff.mp hc z hz

theorem quoted_append {x r : Str} (hx : x ≠ []) (h : '"' ∉ x) :
    quoted (x ++ '"' :: r) = some (x, r) := by
  have hall : ∀ c ∈ x, decide (c ≠ '"') = true := by
    intro c hc
    rw [decide_eq_true_eq]
    rintro rfl
    exact h hc
  have hhead : ∀ c ∈ ('"' :: r).head?, decide (c ≠ '"') = false := by simp
  rw [quoted, takeWhile_append hall hhead, dropWhile_append hall hhead]
  cases x with
  | nil => exact absurd rfl hx
  | cons c x => rfl

theorem quoted_empty (r : Str) : quoted ('"' :: r) = none := by simp [quoted]

theorem Calm.versionValue (hs : Calm s) : versionValue (spaces s) = none := by
  have hlit : lit mustParse (spaces s) = none :=
    lit_eq_none_iff.mpr (hs.not_starts (a := 'v') (by decide))
  rw [Gates.versionValue, hlit]
  rfl

/-- A version that begins in a line is finished there or not, or its quote is still open. -/
theorem versionValue_cases (w : Str) :
    (∃ o, ∀ t, versionValue (w ++ '\n' :: t) = o) ∨ ∃ y, w = mustParse ++ y ∧ '"' ∉ y := by
  by_cases hw : mustParse <+: w
  · obtain ⟨y, rfl⟩ := hw
    by_cases hy : '"' ∈ y
    · obtain ⟨x, r, rfl, hx⟩ := List.eq_append_cons_of_mem hy
      left
      cases x with
      | nil =>
        refine ⟨none, fun t => ?_⟩
        rw [List.append_assoc, versionValue, lit_append, Option.bind_some, List.nil_append,
          List.cons_append, quoted_empty]
        rfl
      | cons a x =>
        refine ⟨if [')'] <+: r then some (a :: x) else none, fun t => ?_⟩
        have hparen : [')'] <+: r ++ '\n' :: t ↔ [')'] <+: r := by
          constructor
          · exact fun h => prefix_of_prefix_append_cons h (by decide)
          · exact fun h => h.trans (List.prefix_append _ _)
        have hquoted : quoted ((a :: x ++ '"' :: r) ++ '\n' :: t) =
            some (a :: x, r ++ '\n' :: t) := by
          rw [List.append_assoc]
          exact quoted_append (by simp) hx
        rw [List.append_assoc, versionValue, lit_append, Option.bind_some, hquoted,
          Option.bind_some, lit]
        simp only [hparen]
        split_ifs <;> rfl
    · exact Or.inr ⟨y, rfl, hy⟩
  · left
    refine ⟨none, fun t => ?_⟩
    rw [versionValue, lit_eq_none_iff.mpr fun hp =>
      hw (prefix_of_prefix_append_cons hp (by decide))]
    rfl

theorem versionValue_open {y p r : Str} (hy : '"' ∉ y) (hp : '"' ∉ p) :
    versionValue (mustParse ++ y ++ '\n' :: (p ++ '"' :: ')' :: r)) = some (y ++ '\n' :: p) := by
  have hnot : '"' ∉ y ++ '\n' :: p := by simp [hy, hp]
  have hquoted : quoted (y ++ '\n' :: (p ++ '"' :: ')' :: r)) = some (y ++ '\n' :: p, ')' :: r) := by
    simpa using quoted_append (r := ')' :: r) (x := y ++ '\n' :: p) (by simp) hnot
  rw [List.append_assoc, versionValue, lit_append, Option.bind_some, hquoted]
  simp [lit]

/-- A version that a quote and a parenthesis behind the line do not finish is not finished by
anything else. -/
theorem lineValue_version_eq_none {p r t : Str} (hp : '"' ∉ p)
    (h : lineValue versionValue (p ++ '"' :: ')' :: r) w = none) :
    lineValue versionValue t w = none := by
  unfold lineValue at h ⊢
  split_ifs at h ⊢ with hw
  · rfl
  · rcases versionValue_cases w with ⟨o, ho⟩ | ⟨y, rfl, hy⟩
    · rw [ho] at h ⊢
      exact h
    · rw [versionValue_open hy hp] at h
      cases h

theorem search_version_comment
    (hc : search (field versionKey versionValue) (c ++ ['\n', '"', ')']) = none) (hs : Calm s) :
    search (field versionKey versionValue) ('/' :: '/' :: (c ++ '\n' :: s)) =
      search (field versionKey versionValue) s := by
  apply search_comment (by decide) (by decide)
  intro z hz
  have hfield := search_eq_none_iff.mp hc _ (List.suffix_append_self_iff.mpr hz)
  rw [field_line (by decide) rfl] at hfield
  rw [field_line (by decide) hs.versionValue]
  exact field_eq_none_mono (fun _ => lineValue_version_eq_none (p := []) List.not_mem_nil) hfield

end Fields

section Pieces

variable {β : Type} {key : Str} {value : Str → Option β} {s : Str}

theorem Pad.apart (pad : Pad) {a : Char} {w : Str} (ha : Str.isSpace a = false) :
    Apart (a :: w) pad.text :=
  apart_of_not_mem (pad.not_mem ha)

theorem VersionText.apart (v : VersionText) {a : Char} {w : Str} (ha : a.isDigit = false)
    (ha' : a ≠ '.') : Apart (a :: w) v.text :=
  apart_of_not_mem (v.not_mem ha ha')

theorem apart_boolLit {b : Bool} {w : Str} (h : Apart w (boolLit true) ∧ Apart w (boolLit false)) :
    Apart w (boolLit b) := by
  cases b
  · exact h.2
  · exact h.1

theorem Field.apart_versionKey {f : Field} (h : f.version? = none) : Apart versionKey f.text := by
  cases f with
  | version pad v => cases h
  | default pad b =>
    exact Apart.append (by decide) ((pad.apart rfl).append (apart_boolLit (by decide)))
  | preRelease pad stage =>
    exact Apart.append (by decide) ((pad.apart rfl).append
      (Apart.append (by decide) (by cases stage <;> decide)))
  | lockToDefault pad b =>
    exact Apart.append (by decide) ((pad.apart rfl).append (apart_boolLit (by decide)))

theorem Field.apart_defaultKey {f : Field} (h : f.default? = none) : Apart defaultKey f.text := by
  cases f with
  | version pad v =>
    exact Apart.append (by decide) ((pad.apart rfl).append
      (Apart.append (by decide) ((v.apart rfl (by decide)).append (by decide))))
  | default pad b => cases h
  | preRelease pad stage =>
    exact Apart.append (by decide) ((pad.apart rfl).append
      (Apart.append (by decide) (by cases stage <;> decide)))
  | lockToDefault pad b => cases h

theorem Field.apart_preReleaseKey {f : Field} (h : f.stage? = none) :
    Apart preReleaseKey f.text := by
  cases f with
  | version pad v =>
    exact Apart.append (by decide) ((pad.apart rfl).append
      (Apart.append (by decide) ((v.apart rfl (by decide)).append (by decide))))
  | default pad b =>
    exact Apart.append (by decide) ((pad.apart rfl).append (apart_boolLit (by decide)))
  | preRelease pad stage => cases h
  | lockToDefault pad b =>
    exact Apart.append (by decide) ((pad.apart rfl).append (apart_boolLit (by decide)))

theorem Field.apart_lockToDefaultKey {f : Field} (h : f.lock? = none) :
    Apart lockToDefaultKey f.text := by
  cases f with
  | version pad v =>
    exact Apart.append (by decide) ((pad.apart rfl).append
      (Apart.append (by decide) ((v.apart rfl (by decide)).append (by decide))))
  | default pad b =>
    exact Apart.append (by decide) ((pad.apart rfl).append (apart_boolLit (by decide)))
  | preRelease pad stage =>
    exact Apart.append (by decide) ((pad.apart rfl).append
      (Apart.append (by decide) (by cases stage <;> decide)))
  | lockToDefault pad b => cases h

def Ends (uni : Char → Bool) (s : Str) : Prop := ∀ a ∈ s.head?, isWord uni a = false

theorem search_of_version (pad : Pad) (v : VersionText) :
    search (field versionKey versionValue) ((Field.version pad v).text ++ s) = some v.text := by
  apply search_of_some
  have hspaces : spaces (pad.text ++ (mustParse ++ (v.text ++ '"' :: ')' :: s))) =
      mustParse ++ (v.text ++ '"' :: ')' :: s) := by
    apply pad.spaces_append
    intro a ha
    obtain rfl : 'v' = a := Option.some.inj ha
    rfl
  have hquoted := quoted_append (r := ')' :: s) v.ne_nil (v.not_mem rfl (by decide))
  have hparen : lit [')'] (')' :: s) = some s := lit_append [')'] s
  simp only [Field.text, List.append_assoc, List.cons_append, List.nil_append]
  rw [field_append, hspaces, versionValue, lit_append, Option.bind_some, hquoted,
    Option.bind_some, hparen]
  rfl

theorem boolValue_append (b : Bool) : boolValue (boolLit b ++ s) = some b := by
  have hfalse : ¬ boolLit true <+: boolLit false ++ s := by
    rintro ⟨r, hr⟩
    exact absurd (List.cons.inj hr).1 (by decide)
  cases b with
  | false => rw [boolValue, if_neg hfalse, if_pos (List.prefix_append _ _)]
  | true => rw [boolValue, if_pos (List.prefix_append _ _)]

theorem field_of_bool (key : Str) (pad : Pad) (b : Bool) :
    field key boolValue (key ++ (pad.text ++ (boolLit b ++ s))) = some b := by
  have hspaces : spaces (pad.text ++ (boolLit b ++ s)) = boolLit b ++ s := by
    apply pad.spaces_append
    intro a ha
    cases b with
    | false => obtain rfl : 'f' = a := Option.some.inj ha; rfl
    | true => obtain rfl : 't' = a := Option.some.inj ha; rfl
  rw [field_append, hspaces, boolValue_append]

theorem search_of_default {f : Field} {b : Bool} (h : f.default? = some b) :
    search (field defaultKey boolValue) (f.text ++ s) = some b := by
  cases f with
  | version pad v => cases h
  | default pad b =>
    obtain rfl := Option.some.inj h
    apply search_of_some
    simpa only [Field.text, List.append_assoc] using field_of_bool defaultKey pad b
  | preRelease pad stage => cases h
  | lockToDefault pad b =>
    obtain rfl := Option.some.inj h
    -- the expression matches behind `LockTo`
    have hkey : lockToDefaultKey = "LockTo".toList ++ defaultKey := by decide
    simp only [Field.text, hkey, List.append_assoc]
    rw [search_of_apart (by decide)]
    exact search_of_some (field_of_bool defaultKey pad b)

theorem search_of_lock (pad : Pad) (b : Bool) :
    search (field lockToDefaultKey boolValue) ((Field.lockToDefault pad b).text ++ s) =
      some b := by
  apply search_of_some
  simpa only [Field.text, List.append_assoc] using field_of_bool lockToDefaultKey pad b

theorem isWord_ascii {c : Char} (h : c.toNat < 128) : isWord uni c = (c.isAlphanum || c = '_') := by
  rw [isWord, if_pos h]

theorem Stage.isWord (stage : Stage) : ∀ c ∈ stage.text, isWord uni c = true := by
  have hascii : ∀ c ∈ stage.text, c.toNat < 128 ∧ (c.isAlphanum || c = '_') = true := by
    cases stage <;> decide
  intro c hc
  rw [isWord_ascii (hascii c hc).1]
  exact (hascii c hc).2

theorem search_of_stage (pad : Pad) (stage : Stage) (hs : Ends uni s) :
    search (field preReleaseKey (stageValue uni)) ((Field.preRelease pad stage).text ++ s) =
      some stage.text := by
  apply search_of_some
  have hspaces : spaces (pad.text ++ (stageOf ++ (stage.text ++ s))) =
      stageOf ++ (stage.text ++ s) := by
    apply pad.spaces_append
    intro a ha
    obtain rfl : 'f' = a := Option.some.inj ha
    rfl
  have hne : stage.text ≠ [] := by cases stage <;> decide
  simp only [Field.text, List.append_assoc]
  rw [field_append, hspaces, stageValue, lit_append, Option.bind_some,
    takeWhile_append stage.isWord hs, if_neg hne]

end Pieces

section FieldSearch

variable {β γ : Type} {key : Str} {value : Str → Option β} {l : List (Tok Field)}

theorem calm_toks (l : List (Tok Field)) : Calm (l.flatMap (Tok.text Field.text)) := by
  induction l with
  | nil => simp [Calm, spaces]
  | cons t l ih =>
    rw [List.flatMap_cons]
    intro a ha
    cases t with
    | item f => cases f <;> (obtain rfl := Option.some.inj ha; decide)
    | comma => obtain rfl := Option.some.inj ha; decide
    | blank c hc =>
      rw [Tok.text, spaces_append (by simpa using isSpace_of_isBlank hc)] at ha
      exact ih a ha
    | comment c => obtain rfl := Option.some.inj ha; decide

theorem ends_toks (hl : ∀ t ∈ l.head?, t.isItem = false) :
    Ends uni (l.flatMap (Tok.text Field.text)) := by
  cases l with
  | nil => simp [Ends]
  | cons t l =>
    rw [List.flatMap_cons]
    intro a ha
    cases t with
    | item f => exact absurd (hl _ rfl) (by simp [Tok.isItem])
    | comma => obtain rfl := Option.some.inj ha; rfl
    | blank c hc =>
      obtain rfl : c = a := Option.some.inj ha
      have hc' : c = ' ' ∨ c = '\t' ∨ c = '\n' := by simpa [isBlank] using hc
      rcases hc' with rfl | rfl | rfl <;> rfl
    | comment c => obtain rfl := Option.some.inj ha; rfl

variable (uni) in
theorem search_toks {pick : Field → Option γ} {g : γ → β} (hne : key ≠ [])
    (hchars : ∀ a ∈ [',', ' ', '\t', '\n'], Apart key [a])
    (hchain : l.IsChain fun s t => ¬ (s.isItem = true ∧ t.isItem = true))
    (hcomment : ∀ c s, .comment c ∈ l → Calm s →
      search (field key value) ('/' :: '/' :: (c.text ++ '\n' :: s)) =
        search (field key value) s)
    (hother : ∀ f : Field, pick f = none → Apart key f.text)
    (hown : ∀ (f : Field) a s, pick f = some a → Ends uni s →
      search (field key value) (f.text ++ s) = some (g a)) :
    search (field key value) (l.flatMap (Tok.text Field.text)) =
      ((l.filterMap Tok.item?).findSome? pick).map g := by
  have hchar : ∀ a s, a ∈ [',', ' ', '\t', '\n'] →
      search (field key value) (a :: s) = search (field key value) s :=
    fun a s ha => search_of_apart (hchars a ha)
  induction l with
  | nil =>
    rw [List.flatMap_nil, search, field_eq_none (by simpa using hne)]
    rfl
  | cons t l ih =>
    have htail := ih hchain.tail fun c s hc => hcomment c s (List.mem_cons_of_mem _ hc)
    rw [List.flatMap_cons]
    cases t with
    | item f =>
      rw [List.filterMap_cons, Tok.item?, List.findSome?_cons, Tok.text]
      cases hf : pick f with
      | none => rw [search_of_apart (hother f hf), htail]
      | some a =>
        apply hown f a _ hf
        apply ends_toks
        intro t ht
        cases l with
        | nil => cases ht
        | cons t' l =>
          obtain rfl : t' = t := Option.some.inj ht
          have hitem := (List.isChain_cons_cons.mp hchain).1
          simpa [Tok.isItem] using hitem
    | comma => exact (hchar ',' _ (by decide)).trans htail
    | blank c hc =>
      have hc' : c ∈ [',', ' ', '\t', '\n'] := List.mem_cons_of_mem _ (by simpa [isBlank] using hc)
      exact (hchar c _ hc').trans htail
    | comment c =>
      have hc := hcomment c _ List.mem_cons_self (calm_toks l)
      rw [Tok.text, List.cons_append, List.cons_append, List.append_assoc]
      exact hc.trans htail

end FieldSearch

section Items

variable {c x y s : Str}

theorem search_lock_of_default (h : search (field defaultKey boolValue) c = none) :
    search (field lockToDefaultKey boolValue) c = none := by
  rw [search_eq_none_iff]
  intro z hz
  by_cases hkey : lockToDefaultKey <+: z
  · obtain ⟨u, rfl⟩ := hkey
    have hsplit : lockToDefaultKey = "LockTo".toList ++ defaultKey := by decide
    have hsuffix : defaultKey ++ u <:+ c := by
      rw [hsplit, List.append_assoc] at hz
      exact (List.suffix_append _ _).trans hz
    rw [field_append]
    exact value_of_search h hsuffix
  · exact field_eq_none hkey

section Fields

variable {t : Spec} (h : ∀ c ∈ t.comments, Harmless uni c.text)
include h

theorem Spec.harmless_comment {c : Comment} (hc : .comment c ∈ t.toks) : Harmless uni c.text :=
  h c (mem_comments_of_comment hc)

theorem Spec.search_version : search (field versionKey versionValue) t.body =
    (t.fields.findSome? Field.version?).map VersionText.text := by
  refine search_toks uni (by decide) (by decide) t.apart
    (fun c s hc hs => search_version_comment (Spec.harmless_comment h hc).version hs)
    (fun f hf => f.apart_versionKey hf) ?_
  rintro (⟨pad, v⟩ | _ | _ | _) a s hf -
  · obtain rfl := Option.some.inj hf
    exact search_of_version pad v
  all_goals cases hf

theorem Spec.search_default : search (field defaultKey boolValue) t.body =
    (t.fields.findSome? Field.default?).map id :=
  search_toks uni (by decide) (by decide) t.apart
    (fun c s hc hs => search_bool_comment (by decide) (by decide) (by decide)
      (Spec.harmless_comment h hc).default hs)
    (fun f hf => f.apart_defaultKey hf) fun f a s hf _ => search_of_default hf

theorem Spec.search_stage : search (field preReleaseKey (stageValue uni)) t.body =
    (t.fields.findSome? Field.stage?).map Stage.text := by
  refine search_toks uni (by decide) (by decide) t.apart
    (fun c s hc hs => search_stage_comment (Spec.harmless_comment h hc).stage hs)
    (fun f hf => f.apart_preReleaseKey hf) ?_
  rintro (_ | _ | ⟨pad, stage⟩ | _) a s hf hs
  case preRelease =>
    obtain rfl := Option.some.inj hf
    exact search_of_stage pad stage hs
  all_goals cases hf

theorem Spec.search_lock : search (field lockToDefaultKey boolValue) t.body =
    (t.fields.findSome? Field.lock?).map id := by
  refine search_toks uni (by decide) (by decide) t.apart
    (fun c s hc hs => search_bool_comment (by decide) (by decide) (by decide)
      (search_lock_of_default (Spec.harmless_comment h hc).default) hs)
    (fun f hf => f.apart_lockToDefaultKey hf) ?_
  rintro (_ | _ | _ | ⟨pad, b⟩) a s hf -
  case lockToDefault =>
    obtain rfl := Option.some.inj hf
    exact search_of_lock pad b
  all_goals cases hf

/-- An item of a source with harmless comments gives the spec that its fields say. -/
theorem Spec.parseItem_body : parseItem uni t.body = .ok t.spec := by
  rw [parseItem, Spec.search_version h, Spec.search_default h, Spec.search_stage h,
    Spec.search_lock h, Spec.spec]
  cases t.fields.findSome? Field.version? with
  | none => rfl
  | some v =>
    cases t.fields.findSome? Field.default? with
    | none => rfl
    | some b =>
      cases t.fields.findSome? Field.stage? with
      | none => rfl
      | some stage => simp [v.parses]

end Fields

theorem scan_itemAt_flag (n : ℕ) (b b' : Bool) (s : Str) :
    scan itemAt n b s = scan itemAt n b' s :=
  scan_flag (fun _ _ _ => rfl) n b b' s

theorem scan_itemAt_cons {a : Char} (b : Bool) (ha : a ≠ '{') :
    scan itemAt 0 b (a :: s) = scan itemAt 0 true s := by
  rw [scan_cons_of_none (by simp [itemAt, ha]), scan_itemAt_flag]

theorem scan_itemAt_block (b : Bool) (h : balanced ('{' :: (y ++ '}' :: s)) = some (y, s)) :
    scan itemAt 0 b ('{' :: (y ++ '}' :: s)) = .ok y :: scan itemAt 0 true s := by
  have hmatch : itemAt b (('{' :: (y ++ ['}'])) ++ s) = some (.ok y, s) := by
    simp only [List.cons_append, List.append_assoc, List.nil_append]
    simp [itemAt, blockAt, h]
  have hscan := scan_of_match (by simp) hmatch
  simp only [List.cons_append, List.append_assoc, List.nil_append] at hscan
  rw [hscan, scan_itemAt_flag]

theorem scan_itemAt_append (h : .error .unbalanced ∉ scan itemAt 0 true x) :
    scan itemAt 0 true (x ++ s) = scan itemAt 0 true x ++ scan itemAt 0 true s := by
  induction hn : x.length using Nat.strong_induction_on generalizing x with
  | _ n ih =>
    cases x with
    | nil => rfl
    | cons a x =>
      by_cases ha : a = '{'
      · subst ha
        cases hb : balanced ('{' :: x) with
        | none =>
          have hmatch : itemAt true ('{' :: x) = some (.error .unbalanced, []) := by
            simp [itemAt, blockAt, hb]
          rw [scan_cons_of_some hmatch] at h
          exact absurd List.mem_cons_self h
        | some p =>
          obtain ⟨y, r⟩ := p
          obtain ⟨rfl, hlocal⟩ := Cursor.close_eq_some hb
          rw [scan_itemAt_block true (hlocal r)] at h ⊢
          have hrest := ih r.length (by simp at hn; omega)
            (fun hr => h (List.mem_cons_of_mem _ hr)) rfl
          have hlong := scan_itemAt_block true (hlocal (r ++ s))
          simp only [List.cons_append, List.append_assoc] at hlong ⊢
          rw [hlong, hrest]
      · rw [scan_itemAt_cons true ha] at h
        rw [List.cons_append, scan_itemAt_cons true ha, scan_itemAt_cons true ha]
        exact ih x.length (by simp at hn; omega) h rfl

theorem infix_of_mem_scan_itemAt (h : .ok y ∈ scan itemAt 0 true x) : y <:+: x := by
  obtain ⟨b, z, r, hz, hm⟩ := mem_scan h
  simp only [itemAt] at hm
  split_ifs at hm
  cases hb : balanced z with
  | none => simp [blockAt, hb] at hm
  | some p =>
    obtain ⟨y', r'⟩ := p
    obtain ⟨rfl, rfl⟩ : y' = y ∧ r' = r := by simpa [blockAt, hb] using hm
    cases z with
    | nil => cases hb
    | cons a z =>
      obtain ⟨rfl, -⟩ := Cursor.close_eq_some hb
      exact List.IsInfix.trans ⟨[a], '}' :: r', by simp⟩ hz.isInfix

theorem search_bool_infix {key : Str} (h : search (field key boolValue) c = none)
    (hy : y <:+: c) : search (field key boolValue) y = none := by
  obtain ⟨a, b, rfl⟩ := hy
  rw [search_eq_none_iff]
  intro z hz
  by_cases hkey : key <+: z
  · obtain ⟨u, rfl⟩ := hkey
    have hsuffix : key ++ (u ++ b) <:+ a ++ y ++ b := by
      rw [← List.append_assoc]
      exact List.suffix_append_self_iff.mpr (hz.trans (List.suffix_append a y))
    have hvalue := boolValue_eq_none_iff.mp (value_of_search h hsuffix)
    rw [field_append, boolValue_eq_none_iff]
    have hmono : ∀ w, w ≠ [] → w <+: spaces u → w <+: spaces (u ++ b) := by
      intro w hw hp
      unfold spaces at hp ⊢
      rw [List.dropWhile_append, if_neg]
      · exact hp.trans (List.prefix_append _ _)
      · intro he
        rw [List.isEmpty_iff] at he
        rw [he] at hp
        exact hw (List.prefix_nil.mp hp)
    exact ⟨fun hp => hvalue.1 (hmono _ (by decide) hp), fun hp => hvalue.2 (hmono _ (by decide) hp)⟩
  · exact field_eq_none hkey

theorem Harmless.readItem (h : Harmless uni c) {e : Except ParseError Str}
    (he : e ∈ scan itemAt 0 true c) : readItem uni e = .ok none := by
  cases e with
  | error e =>
    obtain ⟨b, z, r, -, hm⟩ := mem_scan he
    simp only [itemAt, blockAt] at hm
    split_ifs at hm
    split at hm
    · cases hm
    · obtain ⟨rfl, -⟩ : ParseError.unbalanced = e ∧ [] = r := by simpa using hm
      exact absurd he h.items
  | ok y =>
    have hnone := search_bool_infix h.default (infix_of_mem_scan_itemAt he)
    change parseItem uni y = _
    rw [parseItem, hnone]
    cases search (field versionKey versionValue) y <;> rfl

theorem scan_itemAt_comment (h : Harmless uni c) (b : Bool) :
    scan itemAt 0 b ('/' :: '/' :: (c ++ '\n' :: s)) =
      scan itemAt 0 true c ++ scan itemAt 0 true s := by
  rw [scan_itemAt_cons b (by decide), scan_itemAt_cons true (by decide),
    scan_itemAt_append h.items, scan_itemAt_cons true (by decide)]

theorem collectM_items {l : List (Tok Spec)} (b : Bool)
    (hl : ∀ c ∈ l.flatMap (Tok.comments Spec.comments), Harmless uni c.text) :
    Lists.collectM (readItem uni) (scan itemAt 0 b (l.flatMap (Tok.text Spec.text))) =
      .ok ((l.filterMap Tok.item?).filterMap Spec.spec) := by
  induction l generalizing b with
  | nil => cases b <;> rfl
  | cons t l ih =>
    have htail : ∀ b, _ := fun b => ih b fun c hc => hl c (by simp [hc])
    rw [List.flatMap_cons]
    cases t with
    | item t =>
      have hcomments : ∀ c ∈ t.comments, Harmless uni c.text :=
        fun c hc => hl c (mem_comments_of_item List.mem_cons_self hc)
      have hblock := scan_itemAt_block b (balanced_block (s := l.flatMap (Tok.text Spec.text))
        (t.steady_body fun c hc => (hcomments c hc).steady))
      have hitem : readItem uni (.ok t.body) = .ok t.spec := Spec.parseItem_body hcomments
      simp only [Tok.text, Spec.text, List.cons_append, List.append_assoc, List.nil_append]
      rw [hblock, Lists.collectM_cons hitem, htail true,
        List.filterMap_cons, Tok.item?, List.filterMap_cons]
      cases t.spec <;> rfl
    | comma => rw [Tok.text, List.singleton_append, scan_itemAt_cons b (by decide), htail]; rfl
    | blank c hc =>
      have hne : c ≠ '{' := by
        rintro rfl
        exact absurd hc (by decide)
      rw [Tok.text, List.singleton_append, scan_itemAt_cons b hne, htail]
      rfl
    | comment c =>
      have hc := hl c (mem_comments_of_comment List.mem_cons_self)
      simp only [Tok.text, List.cons_append, List.append_assoc, List.nil_append]
      rw [scan_itemAt_comment hc, Lists.collectM_append_of_none fun e he => hc.readItem he,
        htail]
      rfl

theorem Entry.parseSpecs_body {e : Entry uni} (h : ∀ c ∈ e.comments, Harmless uni c.text) :
    parseSpecs uni e.body = .ok e.specs :=
  collectM_items true h

end Items

end K8sLearn.Gates.Go
