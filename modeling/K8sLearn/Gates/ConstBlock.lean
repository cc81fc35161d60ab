import K8sLearn.Gates.RoundTrip

/-! # A block of constants with comments

How `parse_go_file` reads a block of constants with lines of comment in it: where counting brackets
cuts the block, where the marker of the map is found, and what each line leaves pending for the
constant below it.
-/

namespace K8sLearn.Gates.Go

open Scan Autok8s

structure CommentLine where
  indent : Pad
  comment : Comment

inductive BlockLine
  | comment (c : CommentLine)
  | const (g : GateDecl)

section Text

def CommentLine.line (c : CommentLine) : Str := c.indent.text ++ '/' :: '/' :: c.comment.text

def CommentLine.text (c : CommentLine) : Str := c.line ++ ['\n']

def commentText (cs : List CommentLine) : Str := cs.flatMap CommentLine.text

def BlockLine.text : BlockLine → Str
  | .comment c => c.text
  | .const g => g.constText

def BlockLine.comment? : BlockLine → Option CommentLine
  | .comment c => some c
  | .const _ => none

def BlockLine.const? : BlockLine → Option GateDecl
  | .comment _ => none
  | .const g => some g

def commentsOf (block : List BlockLine) : List CommentLine := block.filterMap BlockLine.comment?

def constsOf (block : List BlockLine) : List GateDecl := block.filterMap BlockLine.const?

def commentedSource (block : List BlockLine) (gates : List GateDecl) : Str :=
  framed (block.flatMap BlockLine.text) gates

def withAbove (above : List CommentLine) : List BlockLine → List (List CommentLine × GateDecl)
  | [] => []
  | .comment c :: block => withAbove (above ++ [c]) block
  | .const g :: block => (above, g) :: withAbove [] block

def namesAndSpecs (m : FeatureGateMap) : List (Str × String × List Autok8s.Spec) :=
  m.gates.map fun e => (e.1, e.2.name, e.2.specs)

variable (t : TextTables)

def linkOf (cs : List CommentLine) : Option Str := extractKep t (commentText cs)

/-- The comments change no name and no spec, and every gate has the link of the comment lines
directly above its constant. -/
def Undisturbed (block : List BlockLine) (gates : List GateDecl) : Prop :=
  ∃ m m₀, parseGoFile t (commentedSource block gates) = .ok m ∧
    parseGoFile t (render (constsOf block) gates) = .ok m₀ ∧
    namesAndSpecs m = namesAndSpecs m₀ ∧
    ∀ p ∈ withAbove [] block, ∃ gate, m.gates.lookup p.2.name.text = some gate ∧
      gate.kep = linkOf t p.1

end Text

section Depth

variable {o c : Char} {d e : ℕ} {x y s : Str}

/-- How many brackets are open behind a text, unless it closes more than are open. -/
def depth (o c : Char) : ℕ → Str → Option ℕ
  | d, [] => some d
  | d, a :: s =>
    if a = o then depth o c (d + 1) s
    else if a = c then
      match d with
      | 0 => none
      | d + 1 => depth o c d s
    else depth o c d s

theorem depth_of_ne {a : Char} (ho : a ≠ o) (hc : a ≠ c) :
    depth o c d (a :: s) = depth o c d s := by
  cases d <;> simp [depth, ho, hc]

theorem depth_open : depth o c d (o :: s) = depth o c (d + 1) s := by
  cases d <;> simp [depth]

theorem depth_close (h : o ≠ c) : depth o c (d + 1) (c :: s) = depth o c d s := by
  simp [depth, Ne.symm h]

theorem depth_append : depth o c d (x ++ y) = (depth o c d x).bind fun e => depth o c e y := by
  induction x generalizing d with
  | nil => rfl
  | cons a x ih =>
    by_cases ho : a = o
    · subst ho
      rw [List.cons_append, depth_open, depth_open, ih]
    · by_cases hc : a = c
      · subst hc
        cases d with
        | zero => simp [depth, ho]
        | succ d => rw [List.cons_append, depth_close (Ne.symm ho), depth_close (Ne.symm ho), ih]
      · rw [List.cons_append, depth_of_ne ho hc, depth_of_ne ho hc, ih]

theorem depth_of_not_mem (ho : o ∉ x) (hc : c ∉ x) : depth o c d x = some d := by
  induction x with
  | nil => rfl
  | cons a x ih =>
    simp only [List.mem_cons, not_or] at ho hc
    rw [depth_of_ne (Ne.symm ho.1) (Ne.symm hc.1), ih ho.2 hc.2]

theorem matching_of_depth (h : depth o c d x = some e) :
    matching o c d (x ++ s) = (matching o c e s).map fun p => (x ++ p.1, p.2) := by
  induction x generalizing d with
  | nil =>
    obtain rfl := Option.some.inj h
    simp
  | cons a x ih =>
    by_cases ho : a = o
    · subst ho
      rw [depth_open] at h
      rw [List.cons_append, matching_open, ih h, Option.map_map]
      rfl
    · by_cases hc : a = c
      · subst hc
        cases d with
        | zero => simp [depth, ho] at h
        | succ d =>
          rw [depth_close (Ne.symm ho)] at h
          have hstep : matching o a (d + 1) (a :: (x ++ s)) =
              (matching o a d (x ++ s)).map fun p => (a :: p.1, p.2) := by simp [matching, ho]
          rw [List.cons_append, hstep, ih h, Option.map_map]
          rfl
      · rw [depth_of_ne ho hc] at h
        rw [List.cons_append, matching_of_ne ho hc, ih h, Option.map_map]
        rfl

/-- A text that closes more than is open decides where the block ends. -/
theorem matching_of_depth_eq_none (h : depth o c d x = none) :
    ∃ y r, ∀ s, matching o c d (x ++ s) = some (y, r ++ s) := by
  induction x generalizing d with
  | nil => cases h
  | cons a x ih =>
    by_cases ho : a = o
    · subst ho
      rw [depth_open] at h
      obtain ⟨y, r, hy⟩ := ih h
      refine ⟨a :: y, r, fun s => ?_⟩
      rw [List.cons_append, matching_open, hy]
      rfl
    · by_cases hc : a = c
      · subst hc
        cases d with
        | zero => exact ⟨[], x, fun s => by simp [matching, ho]⟩
        | succ d =>
          rw [depth_close (Ne.symm ho)] at h
          obtain ⟨y, r, hy⟩ := ih h
          exact ⟨a :: y, r, fun s => by simp [matching, ho, hy]⟩
      · rw [depth_of_ne ho hc] at h
        obtain ⟨y, r, hy⟩ := ih h
        refine ⟨a :: y, r, fun s => ?_⟩
        rw [List.cons_append, matching_of_ne ho hc, hy]
        rfl

theorem matching_eq_none (h : depth o c d x = some e) : matching o c d x = none := by
  have hend := matching_of_depth (s := []) h
  rw [List.append_nil] at hend
  rw [hend]
  rfl

def Level (o c : Char) (x : Str) : Prop := ∀ d, depth o c d x = some d

theorem level_of_not_mem (ho : o ∉ x) (hc : c ∉ x) : Level o c x := fun _ => depth_of_not_mem ho hc

theorem Level.append (hx : Level o c x) (hy : Level o c y) : Level o c (x ++ y) := by
  intro d
  rw [depth_append, hx, Option.bind_some, hy]

theorem Level.block (hoc : o ≠ c) (hx : Level o c x) : Level o c (o :: (x ++ [c])) := by
  intro d
  rw [depth_open, depth_append, hx, Option.bind_some, depth_close hoc]
  rfl

theorem Level.flatMap {α : Type*} {f : α → Str} (h : ∀ a, Level o c (f a)) (l : List α) :
    Level o c (l.flatMap f) := by
  induction l with
  | nil => exact fun _ => rfl
  | cons a l ih => exact (h a).append ih

end Depth

section Blocks

variable {block : List BlockLine} {gates : List GateDecl}

theorem GateDecl.level_constText (g : GateDecl) : Level '(' ')' g.constText :=
  level_of_not_mem (g.paren_not_mem_constText (by decide)) (g.paren_not_mem_constText (by decide))

theorem depth_block (d : ℕ) (block : List BlockLine) :
    depth '(' ')' d (block.flatMap BlockLine.text) =
      depth '(' ')' d (commentText (commentsOf block)) := by
  induction block generalizing d with
  | nil => rfl
  | cons b block ih =>
    cases b with
    | comment c =>
      have hcons : commentText (commentsOf (.comment c :: block)) =
          c.text ++ commentText (commentsOf block) := rfl
      rw [hcons, List.flatMap_cons, depth_append, depth_append]
      exact Option.bind_congr fun e _ => ih e
    | const g =>
      rw [List.flatMap_cons, depth_append, BlockLine.text, g.level_constText, Option.bind_some, ih]
      rfl

theorem SpecDecl.level_text (s : SpecDecl) : Level '(' ')' s.text := by
  have hversion : ∀ a, a ≠ '.' → a.isDigit = false → a ∉ s.versionText := by
    intro a hdot hdigit ha
    rcases digits_versionText s a ha with h | h
    · rw [hdigit] at h
      exact Bool.noConfusion h
    · exact hdot h
  have hbool : ∀ b, '(' ∉ boolLit b ∧ ')' ∉ boolLit b := by decide
  have hstage : '(' ∉ s.stage.text ∧ ')' ∉ s.stage.text := by cases s.stage <;> decide
  have hlock : '(' ∉ s.lockText ∧ ')' ∉ s.lockText := by
    unfold SpecDecl.lockText
    cases s.lock with
    | none => exact ⟨List.not_mem_nil, List.not_mem_nil⟩
    | some b => cases b <;> decide
  have hquoted : Level '(' ')' ('"' :: s.versionText ++ ['"']) := by
    apply level_of_not_mem
    · simpa using hversion '(' (by decide) rfl
    · simpa using hversion ')' (by decide) rfl
  have hrest : Level '(' ')' (", ".toList ++ (defaultKey ++ ' ' :: (boolLit s.default ++
      (", ".toList ++ (preReleaseKey ++ ' ' :: (stageOf ++ (s.stage.text ++ (s.lockText ++
        "\x7d,\n".toList)))))))) := by
    have hlits : ∀ a ∈ ['(', ')'], ∀ w ∈ [", ".toList, defaultKey, [' '], preReleaseKey, stageOf,
      "\x7d,\n".toList], a ∉ w := by decide
    apply level_of_not_mem <;>
    · simp only [List.mem_append, List.mem_cons]
      grind
  have hhead : Level '(' ')' ("\t\t\x7b".toList ++ (versionKey ++ " version.MustParse".toList)) :=
    level_of_not_mem (by decide) (by decide)
  have htext : s.text = ("\t\t\x7b".toList ++ (versionKey ++ " version.MustParse".toList)) ++
      ('(' :: ('"' :: s.versionText ++ ['"'] ++ [')']) ++ (", ".toList ++ (defaultKey ++ ' ' ::
        (boolLit s.default ++ (", ".toList ++ (preReleaseKey ++ ' ' :: (stageOf ++
          (s.stage.text ++ (s.lockText ++ "\x7d,\n".toList))))))))) := by
    have htabs : "\t\t\x7b".toList = "\t\t".toList ++ ['{'] := by decide
    have hparse : mustParse = "version.MustParse".toList ++ ['(', '"'] := by decide
    have hspace : " version.MustParse".toList = ' ' :: "version.MustParse".toList := by decide
    have hclose : "\"), ".toList = '"' :: ')' :: ", ".toList := by decide
    rw [SpecDecl.text, SpecDecl.fieldsText, hparse, hspace, hclose, htabs]
    simp only [List.append_assoc, List.cons_append, List.nil_append]
  rw [htext]
  exact hhead.append ((hquoted.block (by decide)).append hrest)

theorem GateDecl.level_text (g : GateDecl) : Level '(' ')' g.text := by
  have hkey : Level '(' ')' g.keyText :=
    level_of_not_mem (g.not_mem_keyText rfl) (g.not_mem_keyText rfl)
  have htab : Level '(' ')' ['\t'] := level_of_not_mem (by decide) (by decide)
  have hopen : Level '(' ')' ": \x7b\n".toList := level_of_not_mem (by decide) (by decide)
  have hclose : Level '(' ')' "\t\x7d,\n".toList := level_of_not_mem (by decide) (by decide)
  have hspecs := Level.flatMap SpecDecl.level_text g.specs
  exact htab.append (hkey.append (hopen.append (hspecs.append hclose)))

theorem level_mapText (gates : List GateDecl) : Level '(' ')' (mapText gates) := by
  have hhead : Level '(' ')' (['\n', '\n'] ++ (varMarker ++ (mapType ++ ['{', '\n']))) :=
    level_of_not_mem (by decide) (by decide)
  have hend : Level '(' ')' ['}', '\n'] := level_of_not_mem (by decide) (by decide)
  have htext : mapText gates = (['\n', '\n'] ++ (varMarker ++ (mapType ++ ['{', '\n']))) ++
      (gates.flatMap GateDecl.text ++ ['}', '\n']) := by
    simp only [mapText, List.append_assoc, List.cons_append, List.nil_append]
  rw [htext]
  exact hhead.append ((Level.flatMap GateDecl.level_text gates).append hend)

theorem depth_newline {d : ℕ} {x : Str} : depth '(' ')' d ('\n' :: x) = depth '(' ')' d x :=
  depth_of_ne (by decide) (by decide)

theorem findBlock_const_of_level {x : Str} (h : depth '(' ')' 0 x = some 0)
    (gates : List GateDecl) :
    findBlock constMarker (framed x gates) = .ok ('\n' :: x) := by
  have hmatch : matching '(' ')' 0 ('\n' :: x ++ ')' :: mapText gates) =
      some ('\n' :: x, mapText gates) := by
    rw [matching_of_depth (depth_newline.trans h)]
    simp [matching]
  rw [findBlock_constMarker_framed, hmatch]
  rfl

theorem findBlock_const_of_open {x : Str} {d : ℕ} (h : depth '(' ')' 0 x = some (d + 1))
    (gates : List GateDecl) :
    findBlock constMarker (framed x gates) = .error (.unclosed constMarker) := by
  have hdepth : depth '(' ')' 0 ('\n' :: x ++ ')' :: mapText gates) = some d := by
    rw [depth_append, depth_newline, h, Option.bind_some, depth_close (by decide), level_mapText]
  rw [findBlock_constMarker_framed, matching_eq_none hdepth]
  rfl

theorem findBlock_const_of_closed {x : Str} (h : depth '(' ')' 0 x = none) :
    ∃ y, ∀ (x' : Str) (gates : List GateDecl),
      findBlock constMarker (framed (x ++ x') gates) = .ok y := by
  obtain ⟨y, r, hy⟩ := matching_of_depth_eq_none (depth_newline.trans h)
  refine ⟨y, fun x' gates => ?_⟩
  rw [findBlock_constMarker_framed, ← List.cons_append, List.append_assoc, hy]
  rfl

end Blocks

section Marker

theorem find_line {w x s : Str} {e : Char} (hne : w ≠ []) (he : e ∉ w) :
    find w (x ++ e :: s) = ((find w x).map fun r => r ++ e :: s).or (find w s) := by
  have hnil : ∀ s, ¬ w <+: e :: s := by
    intro s h
    have hstart := prefix_of_prefix_append_cons (x := []) h he
    exact hne (List.prefix_nil.mp hstart)
  induction x with
  | nil =>
    have hempty : find w [] = none := by simpa [find, search] using hne
    rw [hempty]
    simp only [find, List.nil_append, search, hnil, if_false, Option.none_or, Option.map_none]
  | cons a x ih =>
    by_cases hw : w <+: a :: x
    · rw [find_of_starts hw, find_of_starts (hw.trans (List.prefix_append _ _))]
      rfl
    · have hw' : ¬ w <+: a :: (x ++ e :: s) := fun h => hw (prefix_of_prefix_append_cons h he)
      simp only [find, List.cons_append, search, hw, hw', if_false, Option.none_or] at ih ⊢
      exact ih

def MarkerSafe (cs : List CommentLine) : Prop :=
  ∀ s, find varMarker (commentText cs) = some s → '{' ∉ s

theorem find_commentText (c : CommentLine) (cs : List CommentLine) :
    find varMarker (commentText (c :: cs)) =
      ((find varMarker c.line).map fun r => r ++ '\n' :: commentText cs).or
        (find varMarker (commentText cs)) := by
  have hline := find_line (w := varMarker) (x := c.line) (s := commentText cs) (e := '\n') (by decide)
    (by decide)
  rwa [List.append_cons] at hline

theorem GateDecl.brace_not_mem_constText (g : GateDecl) : '{' ∉ g.constText := by
  have hline : '{' ∉ g.constLine :=
    g.not_mem_constLine (by decide) (by decide) (by decide) (by decide)
  simpa [g.constText_eq] using hline

theorem brace_not_mem_block {block : List BlockLine} (h : '{' ∉ commentText (commentsOf block)) :
    '{' ∉ block.flatMap BlockLine.text := by
  intro hmem
  obtain ⟨b, hb, hmem⟩ := List.mem_flatMap.mp hmem
  cases b with
  | comment c => exact h (List.mem_flatMap.mpr ⟨c, List.mem_filterMap.mpr ⟨_, hb, rfl⟩, hmem⟩)
  | const g => exact g.brace_not_mem_constText hmem

theorem find_varMarker_block {block : List BlockLine} (h : MarkerSafe (commentsOf block))
    {s z r : Str} (hs : find varMarker s = some z) (hz : z.dropWhile (fun a => a ≠ '{') = r)
    (hdrop : s.dropWhile (fun a => a ≠ '{') = r) :
    ∃ z, find varMarker (block.flatMap BlockLine.text ++ s) = some z ∧
      z.dropWhile (fun a => a ≠ '{') = r := by
  have hskip : ∀ x : Str, '{' ∉ x → (x ++ s).dropWhile (fun a => a ≠ '{') = r := by
    intro x hx
    rw [List.dropWhile_append_of_pos, hdrop]
    intro a ha
    rw [decide_eq_true_eq]
    rintro rfl
    exact hx ha
  induction block with
  | nil => exact ⟨z, hs, hz⟩
  | cons b block ih =>
    cases b with
    | comment c =>
      have hcomments : commentsOf (.comment c :: block) = c :: commentsOf block := rfl
      have hfind := find_line (w := varMarker) (x := c.line)
        (s := block.flatMap BlockLine.text ++ s) (e := '\n') (by decide) (by decide)
      have htext : (BlockLine.comment c :: block).flatMap BlockLine.text ++ s =
          c.line ++ '\n' :: (block.flatMap BlockLine.text ++ s) := by
        simp [List.flatMap_cons, BlockLine.text, CommentLine.text]
      rw [hcomments, MarkerSafe, find_commentText] at h
      rw [htext, hfind]
      cases hline : find varMarker c.line with
      | none =>
        rw [hline] at h
        exact ih h
      | some r =>
        rw [hline] at h
        have hbrace := h _ rfl
        simp only [List.mem_append, List.mem_cons, not_or] at hbrace
        refine ⟨_, rfl, ?_⟩
        have hrest := hskip (r ++ '\n' :: block.flatMap BlockLine.text) (by
          simp only [List.mem_append, List.mem_cons, not_or]
          exact ⟨hbrace.1, by decide, brace_not_mem_block hbrace.2.2⟩)
        simpa using hrest
    | const g =>
      have hapart : Apart varMarker g.constText := by
        rw [g.constText_eq]
        exact apart_concat (by decide) (not_marker_constLine g)
      rw [List.flatMap_cons, List.append_assoc, BlockLine.text, find_append hapart]
      exact ih h

theorem findBlock_var_of_safe {block : List BlockLine} (h : MarkerSafe (commentsOf block))
    (gates : List GateDecl) :
    findBlock varMarker (commentedSource block gates) =
      .ok ('\n' :: gates.flatMap GateDecl.text) := by
  have hpre : Apart varMarker preamble := by decide
  have hend : Apart varMarker constEnd := by decide
  have hopen : "\x7b\n".toList = ['{', '\n'] := by decide
  have hclose : "\x7d\n".toList = ['}', '\n'] := by decide
  have hmap := dropWhile_bracket (w := varMarker ++ mapType) (o := '{')
    (r := '\n' :: gates.flatMap GateDecl.text ++ '}' :: ['\n']) (by decide)
  have hlast := dropWhile_bracket (w := constEnd ++ (varMarker ++ mapType)) (o := '{')
    (r := '\n' :: gates.flatMap GateDecl.text ++ '}' :: ['\n']) (by decide)
  have hfind : find varMarker (constEnd ++ ((varMarker ++ mapType) ++
      '{' :: ('\n' :: gates.flatMap GateDecl.text ++ '}' :: ['\n']))) =
      some ((varMarker ++ mapType) ++ '{' :: ('\n' :: gates.flatMap GateDecl.text ++ '}' :: ['\n'])) := by
    rw [find_append hend, List.append_assoc]
    exact find_of_starts (List.prefix_append _ _)
  rw [List.append_assoc] at hlast
  obtain ⟨z, hz, hdrop⟩ := find_varMarker_block h hfind hmap hlast
  have hsource : commentedSource block gates = preamble ++ (block.flatMap BlockLine.text ++
      (constEnd ++ ((varMarker ++ mapType) ++
        '{' :: ('\n' :: gates.flatMap GateDecl.text ++ '}' :: ['\n'])))) := by
    rw [commentedSource, framed, hopen, hclose]
    simp only [List.append_assoc, List.cons_append, List.nil_append]
  refine findBlock_varMarker_of_find ?_ hdrop
  rw [hsource, find_append hpre, hz]

end Marker

section Lines

variable (t : TextTables)

def BlockLine.lines : BlockLine → List Str
  | .comment c => Str.splitLines c.text
  | .const g => [g.constLine]

def linesOf (cs : List CommentLine) : List Str := cs.flatMap fun c => Str.splitLines c.text

/-- The comment lines that are pending behind lines without a constant: those behind the last line
that is no comment. -/
def keep (pending : List Str) (line : Str) : List Str :=
  if "//".toList <+: Str.strip line then pending ++ [line] else []

def pendingAfter (lines : List Str) : List Str := lines.foldl keep []

def declaredIn (line : Str) : Option (Str × Str) :=
  if "//".toList <+: Str.strip line then none
  else (declaration (fun _ => false) true line).map Prod.fst

/-- What the comments above a constant say, as far as they are pending. -/
def metaOf (pending : List Str) : Meta :=
  ⟨extractKep t (Str.join ['\n'] pending ++ if pending = [] then [] else ['\n']),
    descLines t pending⟩

theorem constants_line_cases (k : Constants) (line : Str) :
    (∃ ident val, declaredIn line = some (ident, val) ∧ Constants.line t k line =
      ⟨[], upsert (fun _ m => m) val (metaOf t k.pending) k.featMeta,
        upsert (fun _ v => v) ident val k.identToVal⟩) ∨
    declaredIn line = none ∧ Constants.line t k line =
      ⟨keep k.pending line, k.featMeta, k.identToVal⟩ := by
  unfold declaredIn Constants.line keep
  by_cases hcomment : "//".toList <+: Str.strip line
  · exact Or.inr ⟨if_pos hcomment, by rw [if_pos hcomment, if_pos hcomment]⟩
  · simp only [if_neg hcomment]
    cases declaration (fun _ => false) true line with
    | none => exact Or.inr ⟨rfl, rfl⟩
    | some p => exact Or.inl ⟨p.1.1, p.1.2, rfl, rfl⟩

theorem foldl_undeclared {lines : List Str} (h : ∀ l ∈ lines, declaredIn l = none) (k : Constants) :
    lines.foldl (Constants.line t) k =
      ⟨lines.foldl keep k.pending, k.featMeta, k.identToVal⟩ := by
  induction lines generalizing k with
  | nil => rfl
  | cons l lines ih =>
    have hl := h l List.mem_cons_self
    rcases constants_line_cases t k l with ⟨ident, val, hdecl, -⟩ | ⟨-, hline⟩
    · rw [hdecl] at hl
      cases hl
    · rw [List.foldl_cons, hline, ih fun l hl => h l (List.mem_cons_of_mem _ hl)]
      rfl

theorem declaredIn_constLine (g : GateDecl) :
    declaredIn g.constLine = some (g.ident.text, g.name.text) := by
  have hcomment : ¬ "//".toList <+: Str.strip g.constLine := by
    intro h
    have hmem : '/' ∈ Str.strip g.constLine := h.subset (by decide)
    exact g.not_mem_constLine (by decide) (by decide) (by decide) (by decide)
      (Str.mem_of_mem_strip hmem)
  have hdecl : declaration (fun _ => false) true (g.constLine ++ []) =
      some ((g.ident.text, g.name.text), []) := declaration_constLine g
  rw [List.append_nil] at hdecl
  rw [declaredIn, if_neg hcomment, hdecl]
  rfl

theorem constants_constLine (g : GateDecl) (k : Constants) :
    Constants.line t k g.constLine =
      ⟨[], upsert (fun _ m => m) g.name.text (metaOf t k.pending) k.featMeta,
        upsert (fun _ v => v) g.ident.text g.name.text k.identToVal⟩ := by
  rcases constants_line_cases t k g.constLine with ⟨ident, val, hdecl, hline⟩ | ⟨hdecl, -⟩
  · rw [declaredIn_constLine] at hdecl
    obtain ⟨rfl, rfl⟩ := Prod.ext_iff.mp (Option.some.inj hdecl)
    exact hline
  · rw [declaredIn_constLine] at hdecl
    cases hdecl

theorem splitLines_block (block : List BlockLine) (s : Str) :
    Str.splitLines (block.flatMap BlockLine.text ++ s) =
      block.flatMap BlockLine.lines ++ Str.splitLines s := by
  induction block with
  | nil => rfl
  | cons b block ih =>
    rw [List.flatMap_cons, List.flatMap_cons, List.append_assoc, List.append_assoc, ← ih]
    cases b with
    | comment c =>
      have happ := Str.splitLinesFrom_append [] c.line (block.flatMap BlockLine.text ++ s)
      rwa [List.append_cons] at happ
    | const g =>
      have happ := Str.splitLines_line g.isBreak_constLine (block.flatMap BlockLine.text ++ s)
      rw [List.append_cons, ← g.constText_eq] at happ
      exact happ

theorem parseConstBlock_block (block : List BlockLine) :
    parseConstBlock t ('(' :: ('\n' :: block.flatMap BlockLine.text) ++ [')']) =
      Constants.line t ((block.flatMap BlockLine.lines).foldl (Constants.line t) ⟨[], [], []⟩)
        [')'] := by
  have hlines : Str.splitLines ('(' :: ('\n' :: block.flatMap BlockLine.text) ++ [')']) =
      ['('] :: (block.flatMap BlockLine.lines ++ [[')']]) := by
    have hfirst := Str.splitLines_line (x := ['(']) (by decide)
      (block.flatMap BlockLine.text ++ [')'])
    rw [splitLines_block] at hfirst
    exact hfirst
  rw [parseConstBlock, hlines, List.foldl_cons, (constants_bracket t _ rfl).1, List.foldl_append]
  rfl

theorem foldl_block {block : List BlockLine}
    (h : ∀ l ∈ linesOf (commentsOf block), declaredIn l = none)
    (above : List CommentLine) (featMeta : List (Str × Meta)) (identToVal : List (Str × Str)) :
    ∃ pending, (block.flatMap BlockLine.lines).foldl (Constants.line t)
        ⟨pendingAfter (linesOf above), featMeta, identToVal⟩ =
      ⟨pending,
        (withAbove above block).foldl (fun d p => upsert (fun _ m => m) p.2.name.text
          (metaOf t (pendingAfter (linesOf p.1))) d) featMeta,
        (withAbove above block).foldl (fun d p => upsert (fun _ v => v) p.2.ident.text
          p.2.name.text d) identToVal⟩ := by
  induction block generalizing above featMeta identToVal with
  | nil => exact ⟨_, rfl⟩
  | cons b block ih =>
    cases b with
    | comment c =>
      have hcomments : commentsOf (.comment c :: block) = c :: commentsOf block := rfl
      rw [hcomments, linesOf, List.flatMap_cons] at h
      have hpending : (Str.splitLines c.text).foldl keep (pendingAfter (linesOf above)) =
          pendingAfter (linesOf (above ++ [c])) := by
        simp [linesOf, pendingAfter]
      obtain ⟨pending, hfold⟩ := ih (fun l hl => h l (List.mem_append_right _ hl)) (above ++ [c])
        featMeta identToVal
      refine ⟨pending, ?_⟩
      rw [List.flatMap_cons, List.foldl_append, BlockLine.lines,
        foldl_undeclared t fun l hl => h l (List.mem_append_left _ hl), hpending, hfold]
      rfl
    | const g =>
      obtain ⟨pending, hfold⟩ := ih h []
        (upsert (fun _ m => m) g.name.text (metaOf t (pendingAfter (linesOf above))) featMeta)
        (upsert (fun _ v => v) g.ident.text g.name.text identToVal)
      refine ⟨pending, ?_⟩
      rw [List.flatMap_cons, List.foldl_append, BlockLine.lines, List.foldl_cons, List.foldl_nil,
        constants_constLine]
      exact hfold

end Lines

end K8sLearn.Gates.Go
