import K8sLearn.Lib.Spaces

/-! # Headings and paragraphs of a blog

`HeadingParser` receives the tags and texts of a page and notes its headings, and its paragraphs
with the heading they stand under. A page is laid out in sections: a heading of the second or
third level, the headings of the fourth level in it, and its paragraphs. What the parser notes is
always the layout of a page.
-/

namespace K8sLearn.Blog

inductive Level
  | h2 | h3 | h4
deriving DecidableEq

inductive Tag
  | heading (level : Level)
  | li
  | p
  | other
deriving DecidableEq

/-- What `HTMLParser` calls the parser with. -/
inductive Event
  | start (tag : Tag)
  | data (text : Str)
  | close (tag : Tag)

/-- `HeadingParser`, without the list items that it notes besides. -/
structure HeadingParser where
  level : Option Level
  buffer : Str
  headings : List (Level × Str)
  currentH2 : Str
  currentH3 : Str
  inLi : Bool
  inHeading : Bool
  paragraphs : List (Str × Str)
  paraBuffer : List Str
  paraHeading : Str

namespace HeadingParser

def init : HeadingParser := ⟨none, [], [], [], [], false, false, [], [], []⟩

/-- `self.current_h3 or self.current_h2`. -/
def current (q : HeadingParser) : Str := if q.currentH3 = [] then q.currentH2 else q.currentH3

variable (unescape : Str → Str)

/-- `" ".join(html.unescape("".join(buffer)).split())`. -/
def textOf (buffer : Str) : Str := Str.squeeze (unescape buffer)

def noted (q : HeadingParser) : List (Str × Str) :=
  let text := textOf unescape q.paraBuffer.flatten
  if text ≠ [] ∧ q.paraHeading ≠ [] then q.paragraphs ++ [(q.paraHeading, text)]
  else q.paragraphs

def handleStarttag (q : HeadingParser) : Tag → HeadingParser
  | .heading level =>
    let q := if q.paraBuffer ≠ [] ∧ q.paraHeading ≠ [] then
        { q with paragraphs := q.noted unescape, paraBuffer := [] }
      else q
    { q with level := some level, buffer := [], inHeading := true }
  | .li => { q with inLi := true }
  | .p => if q.inHeading then q else { q with paraBuffer := [] }
  | .other => q

def handleData (q : HeadingParser) (data : Str) : HeadingParser :=
  if q.level.isSome then { q with buffer := q.buffer ++ data }
  else if q.inLi || q.inHeading then q
  else { q with paraBuffer := q.paraBuffer ++ [data] }

def withHeading (q : HeadingParser) (level : Level) (text : Str) : HeadingParser :=
  if text = [] then q
  else
    let q := { q with headings := q.headings ++ [(level, text)] }
    match level with
    | .h2 => { q with currentH2 := text, currentH3 := [] }
    | .h3 => { q with currentH3 := text }
    | .h4 => q

def handleEndtag (q : HeadingParser) (tag : Tag) : HeadingParser :=
  if q.level.map Tag.heading = some tag then
    let q := (q.level.map fun level => q.withHeading level (textOf unescape q.buffer)).getD q
    { q with level := none, buffer := [], inHeading := false, paraHeading := q.current }
  else if tag = .li ∧ q.inLi then { q with inLi := false }
  else if tag = .p ∧ q.inHeading = false ∧ q.paraBuffer ≠ [] then
    { q with paragraphs := q.noted unescape, paraBuffer := [] }
  else q

def step (q : HeadingParser) : Event → HeadingParser
  | .start tag => q.handleStarttag unescape tag
  | .data text => q.handleData text
  | .close tag => q.handleEndtag unescape tag

def feed (events : List Event) : HeadingParser := events.foldl (step unescape) init

end HeadingParser

def normalizeHeading (value : Str) : Str := Str.strip (Str.collapseSpaces value)

/-- A heading of the second or third level with what stands under it. -/
structure Section where
  level : Level
  heading : Str
  subheadings : List Str
  texts : List Str
  level_ne : level ≠ .h4
  heading_ne : heading ≠ []
  normal : normalizeHeading heading = heading

namespace Section

def headings (s : Section) : List (Level × Str) :=
  (s.level, s.heading) :: s.subheadings.map fun heading => (Level.h4, heading)

def paragraphs (s : Section) : List (Str × Str) := s.texts.map fun text => (s.heading, text)

end Section

/-- The headings of the fourth level before all sections, and the sections. -/
structure Page where
  lead : List Str
  sections : List Section

namespace Page

def headings (page : Page) : List (Level × Str) :=
  page.lead.map (fun heading => (Level.h4, heading)) ++ page.sections.flatMap Section.headings

def paragraphs (page : Page) : List (Str × Str) := page.sections.flatMap Section.paragraphs

def current (page : Page) : Str := (page.sections.getLast?.map Section.heading).getD []

end Page

section Layout

def LaidOut (headings : List (Level × Str)) (paragraphs : List (Str × Str)) (current : Str) :
    Prop :=
  ∃ page : Page, page.headings = headings ∧ page.paragraphs = paragraphs ∧ page.current = current

variable {headings : List (Level × Str)} {paragraphs : List (Str × Str)} {current text : Str}

theorem LaidOut.paragraph (h : LaidOut headings paragraphs current) (hcurrent : current ≠ [])
    (text : Str) : LaidOut headings (paragraphs ++ [(current, text)]) current := by
  obtain ⟨⟨lead, sections⟩, rfl, rfl, rfl⟩ := h
  rcases sections.eq_nil_or_concat with rfl | ⟨before, last, rfl⟩
  · exact absurd rfl hcurrent
  · refine ⟨⟨lead, before ++ [{ last with texts := last.texts ++ [text] }]⟩, ?_, ?_, ?_⟩
    all_goals simp [Page.headings, Page.paragraphs, Page.current, Section.headings,
      Section.paragraphs]

theorem LaidOut.subheading (h : LaidOut headings paragraphs current) (text : Str) :
    LaidOut (headings ++ [(.h4, text)]) paragraphs current := by
  obtain ⟨⟨lead, sections⟩, rfl, rfl, rfl⟩ := h
  rcases sections.eq_nil_or_concat with rfl | ⟨before, last, rfl⟩
  · refine ⟨⟨lead ++ [text], []⟩, ?_, rfl, rfl⟩
    simp [Page.headings]
  · refine ⟨⟨lead, before ++ [{ last with subheadings := last.subheadings ++ [text] }]⟩, ?_, ?_, ?_⟩
    all_goals simp [Page.headings, Page.paragraphs, Page.current, Section.headings,
      Section.paragraphs]

theorem LaidOut.newSection (h : LaidOut headings paragraphs current) {level : Level}
    (hlevel : level ≠ .h4) (hne : text ≠ []) (hnormal : normalizeHeading text = text) :
    LaidOut (headings ++ [(level, text)]) paragraphs text := by
  obtain ⟨⟨lead, sections⟩, rfl, rfl, rfl⟩ := h
  refine ⟨⟨lead, sections ++ [⟨level, text, [], [], hlevel, hne, hnormal⟩]⟩, ?_, ?_, ?_⟩
  all_goals simp [Page.headings, Page.paragraphs, Page.current, Section.headings,
    Section.paragraphs]

end Layout

namespace HeadingParser

variable (unescape : Str → Str)

/-- What the parser has noted is laid out, and paragraphs go under the last section. -/
structure Tidy (q : HeadingParser) : Prop where
  laidOut : LaidOut q.headings q.paragraphs q.paraHeading
  current_eq : q.current = q.paraHeading

variable {unescape} {q : HeadingParser}

theorem Tidy.laidOut_current (h : q.Tidy) : LaidOut q.headings q.paragraphs q.current := by
  rw [h.current_eq]
  exact h.laidOut

theorem Tidy.noted (h : q.Tidy) : LaidOut q.headings (q.noted unescape) q.paraHeading := by
  unfold HeadingParser.noted
  dsimp only
  split_ifs with hnote
  · exact h.laidOut.paragraph hnote.2 _
  · exact h.laidOut

theorem Tidy.handleStarttag (h : q.Tidy) (tag : Tag) : (q.handleStarttag unescape tag).Tidy := by
  cases tag with
  | heading level =>
    rw [HeadingParser.handleStarttag]
    split_ifs
    · exact ⟨h.noted, h.current_eq⟩
    · exact ⟨h.laidOut, h.current_eq⟩
  | li => exact ⟨h.laidOut, h.current_eq⟩
  | p =>
    rw [HeadingParser.handleStarttag]
    split_ifs
    · exact h
    · exact ⟨h.laidOut, h.current_eq⟩
  | other => exact h

theorem Tidy.handleData (h : q.Tidy) (data : Str) : (q.handleData data).Tidy := by
  unfold HeadingParser.handleData
  split_ifs
  · exact ⟨h.laidOut, h.current_eq⟩
  · exact h
  · exact ⟨h.laidOut, h.current_eq⟩

theorem Tidy.withHeading (h : q.Tidy) (level : Level) {text : Str}
    (hnormal : normalizeHeading text = text) :
    LaidOut (q.withHeading level text).headings (q.withHeading level text).paragraphs
      (q.withHeading level text).current := by
  unfold HeadingParser.withHeading
  split_ifs with hne
  · exact h.laidOut_current
  · cases level with
    | h2 => exact h.laidOut.newSection (by decide) hne hnormal
    | h3 =>
      have hcurrent : HeadingParser.current { q with
          headings := q.headings ++ [(.h3, text)], currentH3 := text } = text := if_neg hne
      dsimp only
      rw [hcurrent]
      exact h.laidOut.newSection (by decide) hne hnormal
    | h4 => exact h.laidOut_current.subheading text

theorem Tidy.handleEndtag (h : q.Tidy) (tag : Tag) : (q.handleEndtag unescape tag).Tidy := by
  unfold HeadingParser.handleEndtag
  split_ifs
  · cases hlevel : q.level with
    | none => exact ⟨h.laidOut_current, rfl⟩
    | some level =>
      exact ⟨h.withHeading level (Str.strip_collapse_squeeze (unescape q.buffer)), rfl⟩
  · exact ⟨h.laidOut, h.current_eq⟩
  · exact ⟨h.noted, h.current_eq⟩
  · exact h

theorem Tidy.step (h : q.Tidy) (event : Event) : (q.step unescape event).Tidy := by
  cases event with
  | start tag => exact h.handleStarttag tag
  | data text => exact h.handleData text
  | close tag => exact h.handleEndtag tag

theorem tidy_foldl (h : q.Tidy) (events : List Event) :
    (events.foldl (HeadingParser.step unescape) q).Tidy := by
  induction events generalizing q with
  | nil => exact h
  | cons event events ih => exact ih (h.step event)

theorem exists_page (unescape : Str → Str) (events : List Event) :
    ∃ page : Page, (feed unescape events).headings = page.headings ∧
      (feed unescape events).paragraphs = page.paragraphs := by
  have hinit : init.Tidy := ⟨⟨⟨[], []⟩, rfl, rfl, rfl⟩, rfl⟩
  have htidy : (feed unescape events).Tidy := tidy_foldl hinit events
  obtain ⟨page, hheadings, hparagraphs, -⟩ := htidy.laidOut
  exact ⟨page, hheadings.symm, hparagraphs.symm⟩

end HeadingParser

end K8sLearn.Blog
