import K8sLearn.Gates.ConstBlock

/-! # Comments in the block of constants

`parse_go_file` counts the brackets of the comments in the block of constants, takes the marker
of the map where it first stands, be it in a comment, and splits the lines of the block at more
characters than Go does. These are the only ways in which such comments change a name, a spec or
a link.
-/

namespace K8sLearn.Gates.Go

open Scan Autok8s

section Inert

variable (t : TextTables)

/-- Comment lines that are read as comments wherever they stand in the block of constants. -/
structure Inert (cs : List CommentLine) : Prop where
  brackets : depth '(' ')' 0 (commentText cs) = some 0
  marker : MarkerSafe cs
  undeclared : ∀ l ∈ linesOf cs, declaredIn l = none
  links : ∀ r, r <:+: cs → (metaOf t (pendingAfter (linesOf r))).kep = linkOf t r

variable {t} {block : List BlockLine} {gates : List GateDecl} {cs : List CommentLine}

theorem map_snd_withAbove (above : List CommentLine) (block : List BlockLine) :
    (withAbove above block).map Prod.snd = constsOf block := by
  induction block generalizing above with
  | nil => rfl
  | cons b block ih =>
    cases b with
    | comment c => exact ih (above ++ [c])
    | const g => exact congrArg (g :: ·) (ih [])

theorem infix_of_mem_withAbove {above : List CommentLine} {p : List CommentLine × GateDecl}
    (hp : p ∈ withAbove above block) : p.1 <:+: above ++ commentsOf block := by
  induction block generalizing above with
  | nil => cases hp
  | cons b block ih =>
    cases b with
    | comment c =>
      have hinfix : p.1 <:+: above ++ [c] ++ commentsOf block := ih hp
      rwa [List.append_assoc] at hinfix
    | const g =>
      rcases List.mem_cons.mp hp with rfl | hp
      · exact (List.prefix_append above _).isInfix
      · exact (ih hp).trans (List.suffix_append above _).isInfix

theorem parseConstBlock_undeclared (t : TextTables)
    (h : ∀ l ∈ linesOf (commentsOf block), declaredIn l = none)
    (hidents : ((constsOf block).map fun g => g.ident.text).Nodup)
    (hnames : ((constsOf block).map fun g => g.name.text).Nodup) :
    ∃ pending, parseConstBlock t ('(' :: ('\n' :: block.flatMap BlockLine.text) ++ [')']) =
      ⟨pending, (withAbove [] block).map fun p =>
          (p.2.name.text, metaOf t (pendingAfter (linesOf p.1))),
        (withAbove [] block).map fun p => (p.2.ident.text, p.2.name.text)⟩ := by
  have hlast : ∀ l ∈ [[')']], declaredIn l = none := by decide
  have hclose : ∀ k, Constants.line t k [')'] = ⟨keep k.pending [')'], k.featMeta, k.identToVal⟩ :=
    foldl_undeclared t hlast
  rw [← map_snd_withAbove [] block, List.map_map] at hidents hnames
  have hidents' : ((withAbove [] block).map fun p => p.2.ident.text).Nodup := hidents
  have hnames' : ((withAbove [] block).map fun p => p.2.name.text).Nodup := hnames
  obtain ⟨pending, hfold⟩ := foldl_block t h [] [] []
  refine ⟨keep pending [')'], ?_⟩
  rw [parseConstBlock_block]
  have hempty : pendingAfter (linesOf []) = [] := rfl
  rw [hempty] at hfold
  rw [hfold, hclose, foldl_upsert (d := []) hnames', foldl_upsert (d := []) hidents']
  rfl

theorem gateIn_withAbove (t : TextTables) (pending : List Str)
    (hidents : ((constsOf block).map fun g => g.ident.text).Nodup)
    (hnames : ((constsOf block).map fun g => g.name.text).Nodup)
    {p : List CommentLine × GateDecl} (hp : p ∈ withAbove [] block) :
    p.2.gateIn ⟨pending, (withAbove [] block).map fun p =>
          (p.2.name.text, metaOf t (pendingAfter (linesOf p.1))),
        (withAbove [] block).map fun p => (p.2.ident.text, p.2.name.text)⟩ =
      (p.2.ident.text, p.2.name.text, ⟨String.ofList p.2.name.text,
        (metaOf t (pendingAfter (linesOf p.1))).kep, (metaOf t (pendingAfter (linesOf p.1))).desc,
        p.2.sorted.map SpecDecl.goSpecOf⟩) := by
  rw [← map_snd_withAbove [] block, List.map_map] at hidents hnames
  have hval := lookup_of_nodup (fun p : List CommentLine × GateDecl => p.2.ident.text)
    (fun p => p.2.name.text) hidents hp
  have hmeta := lookup_of_nodup (fun p : List CommentLine × GateDecl => p.2.name.text)
    (fun p => metaOf t (pendingAfter (linesOf p.1))) hnames hp
  simp only [GateDecl.gateIn, hval, Option.getD_some, hmeta]
  rfl

theorem parseGoFile_commented (t : TextTables)
    (hbrackets : depth '(' ')' 0 (commentText (commentsOf block)) = some 0)
    (hmarker : MarkerSafe (commentsOf block)) (gates : List GateDecl) :
    parseGoFile t (commentedSource block gates) = .ok ((gates.map fun g =>
      g.gateIn (parseConstBlock t ('(' :: ('\n' :: block.flatMap BlockLine.text) ++ [')']))).foldl
        FeatureGateMap.add ⟨[], []⟩) :=
  parseGoFile_of_blocks t (findBlock_const_of_level ((depth_block 0 block).trans hbrackets) gates)
    (findBlock_var_of_safe hmarker gates)

theorem namesAndSpecs_of_render {m₀ : FeatureGateMap} {consts : List GateDecl}
    (h : Compatible gates)
    (hperm : consts.Perm gates) (hm : parseGoFile t (render consts gates) = .ok m₀) :
    namesAndSpecs m₀ = gates.map fun g =>
      (g.name.text, String.ofList g.name.text, g.sorted.map SpecDecl.goSpecOf) := by
  obtain ⟨aliases, hrender⟩ := parseGoFile_render t h hperm
  obtain rfl := Except.ok.inj (hm.symm.trans hrender)
  simp [namesAndSpecs, GateDecl.featureGate]

/-- Where brackets and marker do no harm and the comments declare nothing, the names and the specs
are those of the gates, and every gate has the link found in what is kept of the comments above
its constant. -/
theorem exists_parseGoFile_commented (t : TextTables)
    (hbrackets : depth '(' ')' 0 (commentText (commentsOf block)) = some 0)
    (hmarker : MarkerSafe (commentsOf block))
    (hundeclared : ∀ l ∈ linesOf (commentsOf block), declaredIn l = none)
    (h : Compatible gates) (hperm : (constsOf block).Perm gates) :
    ∃ m, parseGoFile t (commentedSource block gates) = .ok m ∧
      (namesAndSpecs m = gates.map fun g =>
        (g.name.text, String.ofList g.name.text, g.sorted.map SpecDecl.goSpecOf)) ∧
      ∀ p ∈ withAbove [] block, ∃ gate, m.gates.lookup p.2.name.text = some gate ∧
        gate.kep = (metaOf t (pendingAfter (linesOf p.1))).kep := by
  have hidents := (hperm.map fun g => g.ident.text).nodup_iff.mpr h.idents
  have hnames := (hperm.map fun g => g.name.text).nodup_iff.mpr h.names
  obtain ⟨pending, hconsts⟩ := parseConstBlock_undeclared t hundeclared hidents hnames
  have hgate := fun p hp => gateIn_withAbove t pending hidents hnames (p := p) hp
  have hparse := parseGoFile_commented t hbrackets hmarker gates
  rw [hconsts] at hparse
  generalize hk : (⟨pending, _, _⟩ : Constants) = consts at hparse hgate
  have hrow : ∀ g ∈ gates, (g.gateIn consts).2.1 = g.name.text ∧
      (g.gateIn consts).2.2.name = String.ofList g.name.text ∧
      (g.gateIn consts).2.2.specs = g.sorted.map SpecDecl.goSpecOf := by
    intro g hg
    have hmem := hperm.mem_iff.mpr hg
    rw [← map_snd_withAbove [] block, List.mem_map] at hmem
    obtain ⟨p, hp, rfl⟩ := hmem
    rw [hgate p hp]
    exact ⟨rfl, rfl, rfl⟩
  have hkeys : (gates.map fun g => g.gateIn consts).map (fun g => g.2.1) =
      gates.map fun g => g.name.text := by
    rw [List.map_map]
    exact List.map_congr_left fun g hg => (hrow g hg).1
  have hgates : ((gates.map fun g => g.gateIn consts).foldl FeatureGateMap.add ⟨[], []⟩).gates =
      gates.map fun g => (g.name.text, (g.gateIn consts).2.2) := by
    rw [gates_foldl_add (by rw [hkeys]; exact h.names), List.map_map]
    exact List.map_congr_left fun g hg => Prod.ext (hrow g hg).1 rfl
  refine ⟨_, hparse, ?_, fun p hp => ⟨(p.2.gateIn consts).2.2, ?_, ?_⟩⟩
  · rw [namesAndSpecs, hgates, List.map_map]
    exact List.map_congr_left fun g hg => Prod.ext rfl (Prod.ext (hrow g hg).2.1 (hrow g hg).2.2)
  · have hmem : p.2 ∈ constsOf block := map_snd_withAbove [] block ▸ List.mem_map_of_mem hp
    rw [hgates]
    exact lookup_of_nodup (fun g : GateDecl => g.name.text) (fun g => (g.gateIn consts).2.2) h.names
      (hperm.mem_iff.mp hmem)
  · rw [hgate p hp]

theorem undisturbed_iff_links
    (hbrackets : depth '(' ')' 0 (commentText (commentsOf block)) = some 0)
    (hmarker : MarkerSafe (commentsOf block))
    (hundeclared : ∀ l ∈ linesOf (commentsOf block), declaredIn l = none)
    (h : Compatible gates) (hperm : (constsOf block).Perm gates) :
    Undisturbed t block gates ↔ ∀ p ∈ withAbove [] block,
      (metaOf t (pendingAfter (linesOf p.1))).kep = linkOf t p.1 := by
  obtain ⟨m, hparse, hread, hlinks⟩ :=
    exists_parseGoFile_commented t hbrackets hmarker hundeclared h hperm
  constructor
  · rintro ⟨m', m₀, hm, -, -, hlinks'⟩ p hp
    obtain rfl := Except.ok.inj (hparse.symm.trans hm)
    obtain ⟨gate, hgate, hkep⟩ := hlinks p hp
    obtain ⟨gate', hgate', hkep'⟩ := hlinks' p hp
    obtain rfl := Option.some.inj (hgate.symm.trans hgate')
    exact hkep.symm.trans hkep'
  · intro hkep
    obtain ⟨aliases, hrender⟩ := parseGoFile_render t h hperm
    refine ⟨m, _, hparse, hrender, ?_, fun p hp => ?_⟩
    · rw [hread, namesAndSpecs_of_render h hperm hrender]
    · obtain ⟨gate, hgate, hgkep⟩ := hlinks p hp
      exact ⟨gate, hgate, hgkep.trans (hkep p hp)⟩

theorem Inert.undisturbed (hinert : Inert t (commentsOf block)) (h : Compatible gates)
    (hperm : (constsOf block).Perm gates) : Undisturbed t block gates :=
  (undisturbed_iff_links hinert.brackets hinert.marker hinert.undeclared h hperm).mpr fun p hp =>
    hinert.links p.1 (by simpa using infix_of_mem_withAbove hp)

end Inert

section Necessity

variable {t : TextTables} {cs : List CommentLine} {g g' : GateDecl}

def commentBlock (cs : List CommentLine) : List BlockLine := cs.map .comment

@[simp] theorem commentsOf_nil : commentsOf [] = [] := rfl

@[simp] theorem constsOf_nil : constsOf [] = [] := rfl

@[simp] theorem commentsOf_const_cons (g : GateDecl) (block : List BlockLine) :
    commentsOf (.const g :: block) = commentsOf block := rfl

@[simp] theorem constsOf_const_cons (g : GateDecl) (block : List BlockLine) :
    constsOf (.const g :: block) = g :: constsOf block := rfl

@[simp] theorem commentsOf_append (block block' : List BlockLine) :
    commentsOf (block ++ block') = commentsOf block ++ commentsOf block' :=
  List.filterMap_append

@[simp] theorem commentsOf_commentBlock (cs : List CommentLine) :
    commentsOf (commentBlock cs) = cs := by
  simp [commentsOf, commentBlock, List.filterMap_map, Function.comp_def, BlockLine.comment?]

@[simp] theorem constsOf_append (block block' : List BlockLine) :
    constsOf (block ++ block') = constsOf block ++ constsOf block' :=
  List.filterMap_append

@[simp] theorem constsOf_commentBlock (cs : List CommentLine) :
    constsOf (commentBlock cs) = [] := by
  simp [constsOf, commentBlock, BlockLine.const?]

theorem text_commentBlock (cs : List CommentLine) :
    (commentBlock cs).flatMap BlockLine.text = commentText cs := by
  simp [commentBlock, commentText, List.flatMap_map, BlockLine.text]

theorem compatible_singleton (g : GateDecl) : Compatible [g] :=
  ⟨by simp, by simp, by simp⟩

theorem eq_of_undisturbed {block block' : List BlockLine} (h : Undisturbed t block [g])
    (h' : Undisturbed t block' [g']) (hg : constsOf block = [g]) (hg' : constsOf block' = [g'])
    (heq : parseGoFile t (commentedSource block [g]) =
      parseGoFile t (commentedSource block' [g'])) :
    g.name.text = g'.name.text ∧
      g.sorted.map SpecDecl.goSpecOf = g'.sorted.map SpecDecl.goSpecOf := by
  obtain ⟨m, m₀, hm, hm₀, hnames, -⟩ := h
  obtain ⟨m', m₀', hm', hm₀', hnames', -⟩ := h'
  obtain rfl := Except.ok.inj (hm.symm.trans (heq.trans hm'))
  rw [namesAndSpecs_of_render (compatible_singleton g) (by rw [hg]) hm₀] at hnames
  rw [namesAndSpecs_of_render (compatible_singleton g') (by rw [hg']) hm₀'] at hnames'
  have hrow := (List.cons.inj (hnames.symm.trans hnames')).1
  exact ⟨congrArg Prod.fst hrow, congrArg (fun r => r.2.2) hrow⟩

theorem parseGoFile_congr {src src' : Str}
    (hconst : findBlock constMarker src = findBlock constMarker src')
    (hvar : findBlock varMarker src = findBlock varMarker src') :
    parseGoFile t src = parseGoFile t src' := by
  rw [parseGoFile, parseGoFile, hconst, hvar]

theorem findBlock_const_gates (x : Str) (gates gates' : List GateDecl) :
    findBlock constMarker (framed x gates) = findBlock constMarker (framed x gates') := by
  cases h : depth '(' ')' 0 x with
  | none =>
    obtain ⟨y, hy⟩ := findBlock_const_of_closed h
    have happ := hy []
    rw [List.append_nil] at happ
    rw [happ, happ]
  | some d =>
    cases d with
    | zero => rw [findBlock_const_of_level h, findBlock_const_of_level h]
    | succ d => rw [findBlock_const_of_open h, findBlock_const_of_open h]

theorem find_commentText_append {z : Str} (h : find varMarker (commentText cs) = some z) (s : Str) :
    find varMarker (commentText cs ++ s) = some (z ++ s) := by
  induction cs with
  | nil =>
    have hnone : find varMarker (commentText []) = none := by decide
    rw [hnone] at h
    cases h
  | cons c cs ih =>
    have hline := find_line (w := varMarker) (x := c.line) (s := commentText cs ++ s) (e := '\n')
      (by decide) (by decide)
    have htext : commentText (c :: cs) ++ s = c.line ++ '\n' :: (commentText cs ++ s) := by
      simp [commentText, CommentLine.text]
    rw [find_commentText] at h
    rw [htext, hline]
    cases hc : find varMarker c.line with
    | none =>
      rw [hc] at h
      exact ih h
    | some r =>
      rw [hc] at h
      obtain rfl : r ++ '\n' :: commentText cs = z := Option.some.inj h
      simp

def GateDecl.renamed (g : GateDecl) : GateDecl := { g with name := fooBarGate.name }

def GateDecl.respecified (g : GateDecl) : GateDecl :=
  { g with specs := fooBarGate.specs, specs_ne_nil := by decide, nodup := by decide }

theorem framed_split (x : Str) (gates : List GateDecl) :
    framed x gates = preamble ++ (x ++ ')' :: mapText gates) := by
  have hpre : preamble = "package features\n\n".toList ++ ("const ".toList ++ '(' :: ['\n']) := by
    decide
  rw [framed_eq, hpre]
  simp only [List.append_assoc, List.cons_append, List.nil_append]

theorem closed_rest (gates : List GateDecl) : Closed (')' :: mapText gates) := by
  have hline : Closed ['\n'] := closed_of_not_mem (by decide) (by decide)
  have hhead : Closed (')' :: '\n' :: '\n' :: (varMarker ++ mapType)) :=
    closed_of_not_mem (by decide) (by decide)
  have htext : ')' :: mapText gates = (')' :: '\n' :: '\n' :: (varMarker ++ mapType)) ++
      ('{' :: (('\n' :: gates.flatMap GateDecl.text) ++ ['}']) ++ ['\n']) := by
    simp only [mapText, List.append_assoc, List.cons_append, List.nil_append]
  rw [htext]
  exact hhead.append ((hline.append (Closed.flatMap GateDecl.closed_text gates)).block.append hline)

/-- A marker in the comments with a brace behind it cuts the same block whatever the map says. -/
theorem findBlock_var_of_marker {z : Str} (hz : find varMarker (commentText cs) = some z)
    (hbrace : '{' ∈ z) : ∃ r, ∀ (g : GateDecl) (gates : List GateDecl),
      findBlock varMarker (commentedSource (.const g :: commentBlock cs) gates) = r := by
  obtain ⟨u, v, rfl, hu⟩ := List.eq_append_cons_of_mem hbrace
  have hcut : ∀ (g : GateDecl) (gates : List GateDecl),
      findBlock varMarker (commentedSource (.const g :: commentBlock cs) gates) =
        (matching '{' '}' 0 (v ++ ')' :: mapText gates)).elim
          (.error (.unclosed varMarker)) fun p => .ok p.1 := by
    intro g gates
    have hpre : Apart varMarker preamble := by decide
    have hconst : Apart varMarker g.constText := by
      rw [g.constText_eq]
      exact apart_concat (by decide) (not_marker_constLine g)
    refine findBlock_of_find (s := (u ++ '{' :: v) ++ ')' :: mapText gates) (by decide) (by decide)
      ?_ ?_
    · rw [commentedSource, framed_split, find_append hpre, List.flatMap_cons, List.append_assoc,
        BlockLine.text, find_append hconst, text_commentBlock, find_commentText_append hz]
    · rw [List.append_assoc, List.cons_append, dropWhile_bracket hu]
  cases hdepth : depth '{' '}' 0 v with
  | none =>
    obtain ⟨y, r, hy⟩ := matching_of_depth_eq_none hdepth
    refine ⟨.ok y, fun g gates => ?_⟩
    rw [hcut, hy]
    rfl
  | some d =>
    refine ⟨.error (.unclosed varMarker), fun g gates => ?_⟩
    have hend := closed_rest gates d []
    rw [List.append_nil] at hend
    rw [hcut, matching_of_depth hdepth, hend]
    rfl

theorem markerSafe_of_undisturbed
    (h : ∀ g, Undisturbed t (.const g :: commentBlock cs) [g]) : MarkerSafe cs := by
  intro z hz hbrace
  obtain ⟨r, hr⟩ := findBlock_var_of_marker hz hbrace
  have hconsts : ∀ g, constsOf (.const g :: commentBlock cs) = [g] := by simp
  have hparse : parseGoFile t (commentedSource (.const fooGate :: commentBlock cs) [fooGate]) =
      parseGoFile t (commentedSource (.const fooGate.respecified :: commentBlock cs)
        [fooGate.respecified]) :=
    parseGoFile_congr (findBlock_const_gates _ _ _) ((hr _ _).trans (hr _ _).symm)
  have hspecs := (eq_of_undisturbed (h fooGate) (h fooGate.respecified) (hconsts _) (hconsts _)
    hparse).2
  exact absurd (congrArg List.length hspecs) (by decide)

theorem brackets_of_undisturbed (hmarker : MarkerSafe cs)
    (h : ∀ g, Undisturbed t (commentBlock cs ++ [.const g]) [g]) :
    depth '(' ')' 0 (commentText cs) = some 0 := by
  have hcomments : ∀ g, commentsOf (commentBlock cs ++ [.const g]) = cs := by simp
  have hconsts : ∀ g, constsOf (commentBlock cs ++ [.const g]) = [g] := by simp
  cases hdepth : depth '(' ')' 0 (commentText cs) with
  | none =>
    obtain ⟨y, hy⟩ := findBlock_const_of_closed hdepth
    have hcut : ∀ g, findBlock constMarker (commentedSource (commentBlock cs ++ [.const g]) [g]) =
        .ok y := by
      intro g
      rw [commentedSource, List.flatMap_append, text_commentBlock]
      exact hy _ _
    have hvar : ∀ g, findBlock varMarker (commentedSource (commentBlock cs ++ [.const g]) [g]) =
        .ok ('\n' :: [g].flatMap GateDecl.text) :=
      fun g => findBlock_var_of_safe (by rw [hcomments]; exact hmarker) [g]
    have hparse : parseGoFile t (commentedSource (commentBlock cs ++ [.const fooGate]) [fooGate]) =
        parseGoFile t (commentedSource (commentBlock cs ++ [.const fooGate.renamed])
          [fooGate.renamed]) :=
      parseGoFile_congr ((hcut _).trans (hcut _).symm)
        ((hvar fooGate).trans (hvar fooGate.renamed).symm)
    have hnames := (eq_of_undisturbed (h fooGate) (h fooGate.renamed) (hconsts _) (hconsts _)
      hparse).1
    exact absurd hnames (by decide)
  | some d =>
    cases d with
    | zero => rfl
    | succ d =>
      have hopen : depth '(' ')' 0
          ((commentBlock cs ++ [BlockLine.const fooGate]).flatMap BlockLine.text) =
            some (d + 1) := by
        rw [depth_block, hcomments, hdepth]
      obtain ⟨m, m₀, hm, -⟩ := h fooGate
      rw [parseGoFile, commentedSource, findBlock_const_of_open hopen] at hm
      cases hm

def boundIn (ident line : Str) : Option Str :=
  (declaredIn line).bind fun p => if ident = p.1 then some p.2 else none

theorem lookup_line (t : TextTables) (ident line : Str) (k : Constants) :
    (Constants.line t k line).identToVal.lookup ident =
      (boundIn ident line).or (k.identToVal.lookup ident) := by
  rcases constants_line_cases t k line with ⟨i, val, hdecl, hline⟩ | ⟨hdecl, hline⟩
  · rw [hline, boundIn, hdecl, Option.bind_some]
    refine (lookup_upsert i ident val k.identToVal).trans ?_
    split_ifs <;> rfl
  · rw [hline, boundIn, hdecl]
    rfl

theorem lookup_foldl_line (t : TextTables) (ident : Str) (lines : List Str) (k : Constants) :
    (lines.foldl (Constants.line t) k).identToVal.lookup ident =
      (lines.reverse.findSome? (boundIn ident)).or (k.identToVal.lookup ident) := by
  induction lines using List.reverseRecOn with
  | nil => rfl
  | append_singleton lines l ih =>
    rw [List.foldl_append, List.foldl_cons, List.foldl_nil, lookup_line, ih, List.reverse_append,
      List.reverse_singleton, List.singleton_append, List.findSome?_cons]
    cases boundIn ident l <;> rfl

theorem isWord_of_isNameStart {uni : Char → Bool} {c : Char} (h : isNameStart c = true) :
    isWord uni c = true := by
  have hascii : c.toNat < 128 := by
    have hcases : ((c.isUpper || c.isLower) || decide (c = '_')) = true := h
    simp only [Bool.or_eq_true, decide_eq_true_eq] at hcases
    rcases hcases with (hupper | hlower) | rfl
    · have hle : c.toNat ≤ 'Z'.toNat := (of_decide_eq_true hupper).2
      exact lt_of_le_of_lt hle (by decide)
    · have hle : c.toNat ≤ 'z'.toNat := of_decide_eq_true (Bool.and_eq_true_iff.mp hlower).2
      exact lt_of_le_of_lt hle (by decide)
    · decide
  rw [isWord, if_pos hascii]
  simp only [isNameStart, Char.isAlphanum, Bool.or_eq_true, decide_eq_true_eq] at h ⊢
  tauto

theorem exists_ident {line : Str} {p : Str × Str} (h : declaredIn line = some p) :
    ∃ i : Ident, i.text = p.1 := by
  unfold declaredIn at h
  split_ifs at h
  obtain ⟨q, hdecl, rfl⟩ := Option.map_eq_some_iff.mp h
  rw [declaration, if_pos rfl] at hdecl
  obtain ⟨r, hident, hdecl⟩ := Option.bind_eq_some_iff.mp hdecl
  obtain ⟨s, -, hdecl⟩ := Option.bind_eq_some_iff.mp hdecl
  obtain ⟨u, -, rfl⟩ := Option.map_eq_some_iff.mp hdecl
  cases hs : spaces line with
  | nil =>
    rw [hs] at hident
    cases hident
  | cons c s =>
    rw [hs, identifier] at hident
    split_ifs at hident with hc
    obtain rfl := Option.some.inj hident
    have hword : ∀ a, isWord (fun _ => false) a = true →
        a.toNat < 128 ∧ (a.isAlphanum || a = '_') = true := by
      intro a ha
      unfold isWord at ha
      split_ifs at ha with hascii
      exact ⟨hascii, ha⟩
    refine ⟨⟨c :: s.takeWhile (isWord fun _ => false), by simpa using hc, ?_⟩, rfl⟩
    intro a ha
    rcases List.mem_cons.mp ha with rfl | ha
    · exact hword a (isWord_of_isNameStart hc)
    · exact hword a (List.mem_takeWhile_imp ha)

theorem lines_commentBlock (cs : List CommentLine) :
    (commentBlock cs).flatMap BlockLine.lines = linesOf cs := by
  simp [commentBlock, linesOf, List.flatMap_map, BlockLine.lines]

theorem undeclared_of_undisturbed (hbrackets : depth '(' ')' 0 (commentText cs) = some 0)
    (hmarker : MarkerSafe cs) (h : ∀ g, Undisturbed t (.const g :: commentBlock cs) [g]) :
    ∀ l ∈ linesOf cs, declaredIn l = none := by
  intro l hl
  by_contra hdecl
  obtain ⟨p, hp⟩ := Option.ne_none_iff_exists'.mp hdecl
  obtain ⟨i, hi⟩ := exists_ident hp
  -- the declaration in the comments comes last, so it names the gate
  obtain ⟨v, hv⟩ : ∃ v, (linesOf cs).reverse.findSome? (boundIn i.text) = some v := by
    apply Option.isSome_iff_exists.mp
    rw [List.findSome?_isSome_iff]
    exact ⟨l, List.mem_reverse.mpr hl, by simp [boundIn, hp, hi]⟩
  have hclose : boundIn i.text [')'] = none := by
    have hundeclared : declaredIn [')'] = none := by decide
    rw [boundIn, hundeclared]
    rfl
  have hname : ∀ g : GateDecl, g.ident = i → g.name.text = v := by
    intro g hg
    have hcomments : commentsOf (.const g :: commentBlock cs) = cs := by simp
    have hconsts : constsOf (.const g :: commentBlock cs) = [g] := by simp
    rw [← hcomments] at hbrackets hmarker
    have hparse := parseGoFile_commented t hbrackets hmarker [g]
    obtain ⟨m, m₀, hm, hm₀, hnames, -⟩ := h g
    obtain rfl := Except.ok.inj (hparse.symm.trans hm)
    rw [namesAndSpecs_of_render (compatible_singleton g) (by rw [hconsts]) hm₀] at hnames
    have hkey := congrArg Prod.fst (List.cons.inj hnames).1
    have hlookup : (parseConstBlock t ('(' :: ('\n' :: (BlockLine.const g :: commentBlock cs).flatMap
        BlockLine.text) ++ [')'])).identToVal.lookup g.ident.text = some v := by
      rw [parseConstBlock_block, lookup_line, hg, hclose, Option.none_or, List.flatMap_cons,
        List.foldl_append, lines_commentBlock, lookup_foldl_line, hv]
      rfl
    have hval : (g.gateIn (parseConstBlock t ('(' :: ('\n' :: (BlockLine.const g ::
        commentBlock cs).flatMap BlockLine.text) ++ [')']))).2.1 = v := by
      rw [GateDecl.gateIn, hlookup]
      rfl
    exact hkey.symm.trans hval
  have hfirst := hname { fooGate with ident := i } rfl
  have hsecond := hname { fooGate.renamed with ident := i } rfl
  have hne : fooGate.name.text ≠ fooBarGate.name.text := by decide
  exact hne (hfirst.trans hsecond.symm)

theorem withAbove_commentBlock (above : List CommentLine) (cs : List CommentLine)
    (block : List BlockLine) :
    withAbove above (commentBlock cs ++ block) = withAbove (above ++ cs) block := by
  induction cs generalizing above with
  | nil => simp [commentBlock]
  | cons c cs ih =>
    have hcons := ih (above ++ [c])
    rw [List.append_assoc] at hcons
    exact hcons

theorem compatible_fooGates : Compatible [fooGate, fooBarGate] :=
  ⟨by decide, by decide, by decide⟩

theorem link_of_undisturbed {pre r post : List CommentLine}
    (hbrackets : depth '(' ')' 0 (commentText (pre ++ r ++ post)) = some 0)
    (hmarker : MarkerSafe (pre ++ r ++ post))
    (hundeclared : ∀ l ∈ linesOf (pre ++ r ++ post), declaredIn l = none)
    (h : Undisturbed t (commentBlock pre ++ (.const fooGate :: (commentBlock r ++
      (.const fooBarGate :: commentBlock post)))) [fooGate, fooBarGate]) :
    (metaOf t (pendingAfter (linesOf r))).kep = linkOf t r := by
  have hcomments : commentsOf (commentBlock pre ++ (.const fooGate :: (commentBlock r ++
      (.const fooBarGate :: commentBlock post)))) = pre ++ r ++ post := by simp
  rw [← hcomments] at hbrackets hmarker hundeclared
  have hmem : (r, fooBarGate) ∈ withAbove [] (commentBlock pre ++ (.const fooGate ::
      (commentBlock r ++ (.const fooBarGate :: commentBlock post)))) := by
    rw [withAbove_commentBlock, withAbove, withAbove_commentBlock]
    simp [withAbove]
  exact (undisturbed_iff_links hbrackets hmarker hundeclared compatible_fooGates
    (by simp)).mp h _ hmem

/-- Comment lines in the block of constants disturb no source if and only if they are inert: their
brackets are paired, no brace follows the marker of the map in them, and what `splitlines` splits
off their text declares no constant and hides and shows no link. -/
theorem undisturbed_iff_inert (t : TextTables) (cs : List CommentLine) :
    (∀ (block : List BlockLine) (gates : List GateDecl), Compatible gates →
      (constsOf block).Perm gates → commentsOf block = cs → Undisturbed t block gates) ↔
    Inert t cs := by
  constructor
  · intro h
    have hfirst : ∀ g, Undisturbed t (.const g :: commentBlock cs) [g] :=
      fun g => h _ _ (compatible_singleton g) (by simp) (by simp)
    have hlast : ∀ g, Undisturbed t (commentBlock cs ++ [.const g]) [g] :=
      fun g => h _ _ (compatible_singleton g) (by simp) (by simp)
    have hmarker := markerSafe_of_undisturbed hfirst
    have hbrackets := brackets_of_undisturbed hmarker hlast
    have hundeclared := undeclared_of_undisturbed hbrackets hmarker hfirst
    refine ⟨hbrackets, hmarker, hundeclared, ?_⟩
    rintro r ⟨pre, post, rfl⟩
    exact link_of_undisturbed hbrackets hmarker hundeclared
      (h _ _ compatible_fooGates (by simp) (by simp))
  · rintro h block gates hcompatible hperm rfl
    exact h.undisturbed hcompatible hperm

/-- A gate whose comment closes a bracket that is not open. -/
def numberedBlock : List BlockLine :=
  [.comment ⟨⟨['\t'], by decide⟩, ⟨" 1) graduated".toList, by decide⟩⟩, .const fooGate]

/-- The block of constants ends in the comment, and the gate is filed under its identifier. -/
theorem not_undisturbed_numbered :
    ¬ ∀ (block : List BlockLine) (gates : List GateDecl), Compatible gates →
      (constsOf block).Perm gates → Undisturbed .ascii block gates := by
  intro h
  have hkeys : (parseGoFile .ascii (commentedSource numberedBlock [fooGate])).map
      (fun m => m.gates.map Prod.fst) = .ok ["Foo".toList] := by decide +kernel
  obtain ⟨m, m₀, hm, hm₀, hnames, -⟩ :=
    h numberedBlock [fooGate] (compatible_singleton fooGate) (List.Perm.refl _)
  rw [namesAndSpecs_of_render (compatible_singleton fooGate) (List.Perm.refl _) hm₀] at hnames
  rw [hm] at hkeys
  have hname := congrArg (List.map Prod.fst) hnames
  rw [namesAndSpecs, List.map_map] at hname
  have hfoo : m.gates.map Prod.fst = ["Foo".toList] := Except.ok.inj hkeys
  have hne : ["Foo".toList] ≠ [fooGate.name.text] := by decide
  exact hne (hfoo.symm.trans hname)

end Necessity

section Plain

theorem CommentLine.starts_strip_line (c : CommentLine) : "//".toList <+: Str.strip c.line := by
  have hleft : c.line.dropWhile Str.isSpace = '/' :: '/' :: c.comment.text :=
    dropWhile_append c.indent.isSpace (by simp [Str.isSpace])
  rw [Str.strip, hleft, List.reverse_cons, List.reverse_cons, List.append_assoc,
    List.singleton_append, dropWhile_append_stop rfl]
  exact ⟨(c.comment.text.reverse.dropWhile Str.isSpace).reverse, by simp⟩

variable {t : TextTables} {cs : List CommentLine}

theorem linesOf_plain (h : ∀ c ∈ cs, ∀ a ∈ c.comment.text, Str.isBreak a = false) :
    linesOf cs = cs.map CommentLine.line := by
  rw [linesOf, List.map_eq_flatMap]
  apply List.flatMap_congr
  intro c hc
  have hline : ∀ a ∈ c.line, Str.isBreak a = false := by
    intro a ha
    simp only [CommentLine.line, List.mem_append, List.mem_cons] at ha
    rcases ha with ha | rfl | rfl | ha
    · exact c.indent.isBreak_text a ha
    · rfl
    · rfl
    · exact h c hc a ha
  exact Str.splitLines_line hline []

theorem foldl_keep_lines (cs : List CommentLine) (pending : List Str) :
    (cs.map CommentLine.line).foldl keep pending = pending ++ cs.map CommentLine.line := by
  induction cs generalizing pending with
  | nil => simp
  | cons c cs ih =>
    rw [List.map_cons, List.foldl_cons, keep, if_pos c.starts_strip_line, ih, List.append_assoc]
    rfl

theorem join_lines (cs : List CommentLine) :
    Str.join ['\n'] (cs.map CommentLine.line) ++
      (if cs.map CommentLine.line = [] then [] else ['\n']) = commentText cs := by
  induction cs with
  | nil => rfl
  | cons c cs ih =>
    cases cs with
    | nil => simp [Str.join, commentText, CommentLine.text]
    | cons c' cs =>
      have hcons : Str.join ['\n'] ((c :: c' :: cs).map CommentLine.line) =
          c.line ++ '\n' :: Str.join ['\n'] ((c' :: cs).map CommentLine.line) := by
        simp [Str.join]
      rw [List.map_cons, if_neg (List.cons_ne_nil _ _)] at ih
      rw [hcons, if_neg (by simp), List.append_assoc, List.cons_append, List.map_cons, ih]
      simp [commentText, CommentLine.text]

/-- In comments of which every line is one line to `splitlines`, too, only the brackets and the
marker matter. -/
theorem inert_iff_of_plain (h : ∀ c ∈ cs, ∀ a ∈ c.comment.text, Str.isBreak a = false) :
    Inert t cs ↔ depth '(' ')' 0 (commentText cs) = some 0 ∧ MarkerSafe cs := by
  refine ⟨fun hinert => ⟨hinert.brackets, hinert.marker⟩, fun ⟨hbrackets, hmarker⟩ =>
    ⟨hbrackets, hmarker, fun l hl => ?_, fun r hr => ?_⟩⟩
  · rw [linesOf_plain h] at hl
    obtain ⟨c, -, rfl⟩ := List.mem_map.mp hl
    exact if_pos c.starts_strip_line
  · rw [linesOf_plain fun c hc => h c (hr.subset hc), pendingAfter, foldl_keep_lines,
      List.nil_append, metaOf, join_lines, linkOf]

end Plain

end K8sLearn.Gates.Go
