import K8sLearn.Lib.Collect
import K8sLearn.Lib.Interleaving
import K8sLearn.Papers.Chunking
import K8sLearn.Papers.Paper

/-! # Keeping the full texts

`ensure_chunks` stores the chunks of a paper that has none: those of its PDF, or of its abstract
where the PDF cannot be had. Calls wait for the response of a server, and other calls, for the same
paper too, go on meanwhile. Whatever their order, the chunks of a paper are those of one text.
-/

namespace K8sLearn.Papers

open Interleaving Str Windows

/-- The digest that names the files, and the texts of the pages that are read in a PDF, or the
error. -/
structure Reader where
  digest : Str → Str
  pages : List UInt8 → Except Str (List Str)

inductive Status
  | cached
  | downloaded
  | failed
  | abstractOnly
  | noOpenText
  deriving DecidableEq

/-- What `ensure_chunks` returns; the text is that of `source`, or of `error` where it failed. -/
structure Ensured where
  status : Status
  chunkCount : ℕ
  text : Str
  deriving DecidableEq

/-- The table of the chunks, the files in the directory of the PDFs, the papers of the calls that
wait for a response, and the results that calls have returned. -/
structure Texts where
  rows : List ChunkRow
  pdfs : List (Str × List UInt8)
  waiting : List Paper
  results : List (Paper × Ensured)

/-- A call of `ensure_chunks`, up to its request or its end, and the response to the request of a
call that waits, after which the call runs to its end. -/
inductive Action
  | call (paper : Paper)
  | response (place : ℕ) (url : Str) (data : Except Str (List UInt8))

section Ensure

variable (rd : Reader)

/-- `re.sub(r"-\s*\n\s*", "", s)`, inside a match or not. -/
def joinHyphens : Bool → Str → Str
  | _, [] => []
  | removing, c :: s =>
    if removing && isSpace c then joinHyphens true s
    else if c = '-' ∧ '\n' ∈ s.takeWhile isSpace then joinHyphens true s
    else c :: joinHyphens false s

def pdfText (pages : List Str) : Str :=
  strip (collapseSpaces (joinHyphens false (join "\n".toList (pages.take 30))))

def pdfFile (url : Str) : Str := rd.digest url ++ ".pdf".toList

/-- `data.startswith(b"%PDF")`. -/
def isPdf (data : List UInt8) : Bool := [37, 80, 68, 70] <+: data

/-- The chunks of a text, of the sizes of the service; the loop always ends. -/
def chunksOf (text : Str) : List Str :=
  (chunkText (squeeze text).length text chunkSize chunkOverlap).getD []

/-- The end of a call without the text of a PDF. -/
def fromAbstract (s : Texts) (paper : Paper) : Texts :=
  if paper.abstract ≠ [] then
    let r := saveChunks rd.digest s.rows paper.sourceId (chunksOf paper.abstract) true
    { s with
      rows := r.1
      results := s.results ++ [(paper, ⟨.abstractOnly, r.2, "abstract".toList⟩)] }
  else { s with results := s.results ++ [(paper, ⟨.noOpenText, 0, []⟩)] }

/-- The end of a call with a PDF at hand, or with the error of the download. -/
def fromPdf (s : Texts) (paper : Paper) (url : Str) (data : Except Str (List UInt8)) : Texts :=
  match data.bind rd.pages with
  | .error e =>
    if paper.abstract = [] then { s with results := s.results ++ [(paper, ⟨.failed, 0, e⟩)] }
    else fromAbstract rd s paper
  | .ok pages =>
    let r := saveChunks rd.digest s.rows paper.sourceId (chunksOf (pdfText pages)) true
    if r.2 ≠ 0 then
      { s with rows := r.1, results := s.results ++ [(paper, ⟨.downloaded, r.2, url⟩)] }
    else fromAbstract rd { s with rows := r.1 } paper

def pdfUrlOf (paper : Paper) : Option Str := paper.pdfUrl.filter fun url => !url.isEmpty

/-- `ensure_chunks` up to its request: a call ends at once where chunks are there, where the paper
has no PDF, and where the PDF is on disk. -/
def ensureChunks (s : Texts) (paper : Paper) : Texts :=
  let existing := getChunks s.rows paper.sourceId
  if existing ≠ [] then
    { s with
      results := s.results ++ [(paper, ⟨.cached, existing.length, "database".toList⟩)] }
  else
    match pdfUrlOf paper with
    | none => fromAbstract rd s paper
    | some url =>
      match s.pdfs.lookup (pdfFile rd url) with
      | some (b :: data) => fromPdf rd s paper url (.ok (b :: data))
      | _ => { s with waiting := s.waiting ++ [paper] }

/-- The rest of a call after its request: a response that is no PDF is an error, and a PDF is
written to disk. -/
def resume (s : Texts) (paper : Paper) (url : Str) : Except Str (List UInt8) → Texts
  | .error e => fromPdf rd s paper url (.error e)
  | .ok data =>
    if isPdf data then
      fromPdf rd { s with pdfs := upsert (fun _ b => b) (pdfFile rd url) data s.pdfs } paper url
        (.ok data)
    else fromPdf rd s paper url (.error "下载内容不是 PDF".toList)

def advance (s : Texts) : Action → Option Texts
  | .call paper => some (ensureChunks rd s paper)
  | .response place url data =>
    match s.waiting[place]? with
    | none => none
    | some paper =>
      if pdfUrlOf paper = some url then
        some (resume rd { s with waiting := s.waiting.eraseIdx place } paper url data)
      else none

end Ensure

section Stored

def stored (chunks : List Str) : List Str :=
  (chunks.filter fun c => minChunk ≤ (squeeze c).length).map squeeze

theorem foldl_saveChunks_stored (digest : Str → Str) (paperId : Str) (chunks : List Str)
    (s : List ChunkRow × ℕ) :
    (chunks.foldl (fun s text =>
      if (squeeze text).length < minChunk then s
      else (s.1 ++ [⟨paperId, squeeze text, digest (squeeze text)⟩], s.2 + 1)) s) =
    (s.1 ++ (stored chunks).map fun text => ⟨paperId, text, digest text⟩,
      s.2 + (stored chunks).length) := by
  induction chunks generalizing s with
  | nil => simp [stored]
  | cons c chunks ih =>
    rw [List.foldl_cons, ih]
    by_cases hc : (squeeze c).length < minChunk
    · have hskip : stored (c :: chunks) = stored chunks := by
        rw [stored, List.filter_cons_of_neg (by simpa using hc), stored]
      rw [if_pos hc, hskip]
    · have hkeep : stored (c :: chunks) = squeeze c :: stored chunks := by
        rw [stored, List.filter_cons_of_pos (by simpa using hc), List.map_cons, stored]
      rw [if_neg hc, hkeep]
      simp only [List.map_cons, List.length_cons, List.append_assoc, List.singleton_append,
        Prod.mk.injEq, true_and]
      omega

theorem saveChunks_replace (digest : Str → Str) (rows : List ChunkRow) (paperId : Str)
    (chunks : List Str) :
    (saveChunks digest rows paperId chunks true).2 = (stored chunks).length ∧
      ∀ id, getChunks (saveChunks digest rows paperId chunks true).1 id =
        if id = paperId ∧ chunks ≠ [] then stored chunks else getChunks rows id := by
  by_cases hne : chunks = []
  · subst hne
    exact ⟨rfl, fun id => by rw [if_neg fun h => h.2 rfl]; rfl⟩
  simp only [saveChunks, if_neg hne, foldl_saveChunks_stored]
  refine ⟨Nat.zero_add _, fun id => ?_⟩
  simp only [getChunks, List.filter_append, List.map_append, if_true, List.filter_filter]
  by_cases hid : id = paperId
  · subst hid
    rw [if_pos ⟨rfl, hne⟩, List.filter_eq_nil_iff.mpr (by simp), List.filter_eq_self.mpr (by simp),
      List.map_map]
    exact List.map_id _
  · rw [if_neg fun h => hid h.1]
    have hnew : ((stored chunks).map fun text => (⟨paperId, text, digest text⟩ : ChunkRow)).filter
        (fun row => decide (row.paperId = id)) = [] := by
      refine List.filter_eq_nil_iff.mpr fun row hrow => ?_
      obtain ⟨text, -, rfl⟩ := List.mem_map.mp hrow
      exact fun h => hid (of_decide_eq_true h).symm
    rw [hnew, List.map_nil, List.append_nil]
    congr 1
    refine List.filter_congr fun row _ => ?_
    by_cases hrow : row.paperId = id
    · simp [hrow, hid]
    · simp [hrow]

theorem chunkText_chunksOf (text : Str) :
    chunkText (squeeze text).length text chunkSize chunkOverlap = some (chunksOf text) := by
  by_cases ht : squeeze text = []
  · rw [chunksOf, chunkText, if_pos ht, Option.getD_some]
  · obtain ⟨chunks, -, hrun⟩ := exists_chunkText (show chunkOverlap < chunkSize by decide) ht
    rw [chunksOf, hrun _ le_rfl, Option.getD_some]

theorem stored_covers {text : Str} (h : stored (chunksOf text) ≠ []) :
    stored (chunksOf text) = (chunksOf text).map squeeze ∧
      glue chunkOverlap (chunksOf text) = squeeze text ∧
        ∀ i (hi : i < (squeeze text).length), isSpace (squeeze text)[i] = false →
          ∃ saved ∈ stored (chunksOf text), ∃ k ≤ i, i < k + saved.length ∧
            saved <+: (squeeze text).drop k := by
  have hs : chunkOverlap < chunkSize := by decide
  have ht : squeeze text ≠ [] := by
    rintro ht
    rw [chunksOf, chunkText, if_pos ht] at h
    exact h rfl
  obtain ⟨chunks, hcut, hrun⟩ := exists_chunkText hs ht
  have hchunks : chunksOf text = chunks := by rw [chunksOf, hrun _ le_rfl, Option.getD_some]
  rw [hchunks] at h ⊢
  have hmin : minChunk ≤ (squeeze text).length := by
    obtain ⟨saved, hsaved⟩ := List.exists_mem_of_ne_nil _ h
    obtain ⟨c, hc, -⟩ := List.mem_map.mp hsaved
    obtain ⟨hc, hlen⟩ := List.mem_filter.mp hc
    obtain ⟨a, b, heq, -⟩ := ((spaced_squeeze text).of_isInfix (hcut.isInfix c hc)).exists_squeeze
    have hle := (hcut.isInfix c hc).length_le
    have hsum := congrArg List.length heq
    have hlen := of_decide_eq_true hlen
    simp only [List.length_append] at hsum
    omega
  have hall : stored chunks = chunks.map squeeze := by
    rw [stored, List.filter_eq_self.mpr]
    exact fun c hc => decide_eq_true
      (minChunk_le_squeeze hmin (hcut.isInfix c hc) (hcut.le_length hs c hc))
  refine ⟨hall, hcut.glue_eq hs, fun i hi hns => ?_⟩
  obtain ⟨c, hc, k, hk, hik, hp⟩ := hcut.exists_window hs hi
  refine ⟨squeeze c, ?_, exists_offset_squeeze (spaced_squeeze text) hi hns hk hik hp⟩
  rw [hall]
  exact List.mem_map_of_mem hc

end Stored

section Step

variable (rd : Reader) {s s' : Texts} {a : Action} {paper : Paper} {url : Str}
  {data : Except Str (List UInt8)}

/-- A text that a call can store for its paper: the abstract, or what the file of its PDF says. -/
def Available (s : Texts) (paper : Paper) (text : Str) : Prop :=
  text = paper.abstract ∨ ∃ url data pages, pdfUrlOf paper = some url ∧
    s.pdfs.lookup (pdfFile rd url) = some data ∧ rd.pages data = .ok pages ∧ text = pdfText pages

/-- What the end of a call that found no chunks does to the chunks, and what it returns. -/
structure Ends (s s' : Texts) (paper : Paper) : Prop where
  others : ∀ id ≠ paper.sourceId, getChunks s'.rows id = getChunks s.rows id
  own : getChunks s'.rows paper.sourceId = getChunks s.rows paper.sourceId ∨
    ∃ text, Available rd s' paper text ∧
      getChunks s'.rows paper.sourceId = stored (chunksOf text)
  result : ∃ r, s'.results = s.results ++ [(paper, r)] ∧
    (r.chunkCount ≠ 0 → r.chunkCount = (getChunks s'.rows paper.sourceId).length)

@[simp] theorem fromAbstract_waiting : (fromAbstract rd s paper).waiting = s.waiting := by
  unfold fromAbstract
  split_ifs <;> rfl

@[simp] theorem fromAbstract_pdfs : (fromAbstract rd s paper).pdfs = s.pdfs := by
  unfold fromAbstract
  split_ifs <;> rfl

@[simp] theorem fromPdf_waiting : (fromPdf rd s paper url data).waiting = s.waiting := by
  unfold fromPdf
  split
  · split_ifs <;> simp
  · dsimp only
    split_ifs <;> simp

@[simp] theorem fromPdf_pdfs : (fromPdf rd s paper url data).pdfs = s.pdfs := by
  unfold fromPdf
  split
  · split_ifs <;> simp
  · dsimp only
    split_ifs <;> simp

theorem fromAbstract_ends (s : Texts) (paper : Paper) :
    Ends rd s (fromAbstract rd s paper) paper := by
  unfold fromAbstract
  split_ifs with habstract
  · obtain ⟨hcount, hget⟩ := saveChunks_replace rd.digest s.rows paper.sourceId
      (chunksOf paper.abstract)
    constructor
    · exact fun id hid => (hget id).trans (if_neg fun h => hid h.1)
    · by_cases hne : chunksOf paper.abstract = []
      · exact Or.inl ((hget _).trans (if_neg fun h => h.2 hne))
      · exact Or.inr ⟨paper.abstract, Or.inl rfl, (hget _).trans (if_pos ⟨rfl, hne⟩)⟩
    · refine ⟨_, rfl, fun hpos => hcount.trans ?_⟩
      have hne : chunksOf paper.abstract ≠ [] := by
        rintro hnil
        rw [hnil] at hcount
        exact hpos (by rw [hnil]; exact hcount)
      exact congrArg List.length ((hget _).trans (if_pos ⟨rfl, hne⟩)).symm
  · exact ⟨fun _ _ => rfl, Or.inl rfl, _, rfl, fun h => absurd rfl h⟩

theorem fromPdf_ends (s : Texts) (data : Except Str (List UInt8)) (hurl : pdfUrlOf paper = some url)
    (hdisk : ∀ d, data = .ok d → s.pdfs.lookup (pdfFile rd url) = some d) :
    Ends rd s (fromPdf rd s paper url data) paper := by
  unfold fromPdf
  split
  · split_ifs
    · exact ⟨fun _ _ => rfl, Or.inl rfl, _, rfl, fun h => absurd rfl h⟩
    · exact fromAbstract_ends rd s paper
  · rename_i pages hpages
    obtain ⟨d, rfl, hd⟩ : ∃ d, data = .ok d ∧ rd.pages d = .ok pages := by
      cases data with
      | error e => cases hpages
      | ok d => exact ⟨d, rfl, hpages⟩
    obtain ⟨hcount, hget⟩ := saveChunks_replace rd.digest s.rows paper.sourceId
      (chunksOf (pdfText pages))
    have hothers : ∀ id ≠ paper.sourceId, getChunks (saveChunks rd.digest s.rows paper.sourceId
        (chunksOf (pdfText pages)) true).1 id = getChunks s.rows id :=
      fun id hid => (hget id).trans (if_neg fun h => hid h.1)
    have hown : getChunks (saveChunks rd.digest s.rows paper.sourceId
        (chunksOf (pdfText pages)) true).1 paper.sourceId = getChunks s.rows paper.sourceId ∨
        getChunks (saveChunks rd.digest s.rows paper.sourceId
          (chunksOf (pdfText pages)) true).1 paper.sourceId =
           stored (chunksOf (pdfText pages)) := by
      by_cases hne : chunksOf (pdfText pages) = []
      · exact Or.inl ((hget _).trans (if_neg fun h => h.2 hne))
      · exact Or.inr ((hget _).trans (if_pos ⟨rfl, hne⟩))
    have havailable : ∀ s' : Texts, s'.pdfs = s.pdfs → Available rd s' paper (pdfText pages) :=
      fun s' hs' => Or.inr ⟨url, d, pages, hurl, by rw [hs', hdisk d rfl], hd, rfl⟩
    dsimp only
    split_ifs with hpos
    · constructor
      · exact hothers
      · exact hown.imp_right fun h => ⟨_, havailable _ rfl, h⟩
      · refine ⟨_, rfl, fun _ => hcount.trans ?_⟩
        have hne : chunksOf (pdfText pages) ≠ [] := by
          rintro hnil
          rw [hnil] at hpos
          exact hpos rfl
        exact congrArg List.length ((hget _).trans (if_pos ⟨rfl, hne⟩)).symm
    · obtain ⟨hothers', hown', hresult⟩ := fromAbstract_ends rd { s with rows :=
        (saveChunks rd.digest s.rows paper.sourceId (chunksOf (pdfText pages)) true).1 } paper
      refine ⟨fun id hid => (hothers' id hid).trans (hothers id hid), ?_, hresult⟩
      rcases hown' with h | h
      · rcases hown with hkeep | hnew
        · exact Or.inl (h.trans hkeep)
        · exact Or.inr ⟨_, havailable _ (fromAbstract_pdfs rd), h.trans hnew⟩
      · exact Or.inr h

theorem ensureChunks_cases (s : Texts) (paper : Paper) :
    (getChunks s.rows paper.sourceId ≠ [] ∧ ensureChunks rd s paper =
      { s with results := s.results ++ [(paper,
          ⟨.cached, (getChunks s.rows paper.sourceId).length, "database".toList⟩)] }) ∨
    (getChunks s.rows paper.sourceId = [] ∧
      ensureChunks rd s paper = { s with waiting := s.waiting ++ [paper] }) ∨
    (getChunks s.rows paper.sourceId = [] ∧ Ends rd s (ensureChunks rd s paper) paper ∧
      (ensureChunks rd s paper).waiting = s.waiting ∧ (ensureChunks rd s paper).pdfs = s.pdfs) := by
  unfold ensureChunks
  dsimp only
  split_ifs with hne
  · exact Or.inl ⟨hne, rfl⟩
  · have hnil := not_not.mp hne
    cases hurl : pdfUrlOf paper with
    | none => exact Or.inr (Or.inr ⟨hnil, fromAbstract_ends rd s paper, by simp, by simp⟩)
    | some url =>
      dsimp only
      split
      · rename_i b data hdata
        exact Or.inr (Or.inr ⟨hnil, fromPdf_ends rd s _ hurl (by rintro d ⟨⟩; exact hdata), by simp,
          by simp⟩)
      · exact Or.inr (Or.inl ⟨hnil, rfl⟩)

theorem resume_ends (s : Texts) (data : Except Str (List UInt8))
    (hurl : pdfUrlOf paper = some url) :
    Ends rd s (resume rd s paper url data) paper ∧
      (resume rd s paper url data).waiting = s.waiting ∧
        ∀ e ∈ (resume rd s paper url data).pdfs, e ∈ s.pdfs ∨
          e.1 = pdfFile rd url ∧ data = .ok e.2 ∧ isPdf e.2 = true := by
  cases data with
  | error e =>
    unfold resume
    dsimp only
    refine ⟨fromPdf_ends rd s _ hurl (by rintro d ⟨⟩), by simp, fun e he => Or.inl ?_⟩
    simpa using he
  | ok d =>
    unfold resume
    dsimp only
    split_ifs with hd
    · refine ⟨?_, by simp, fun e he => ?_⟩
      · obtain ⟨hothers, hown, hresult⟩ := fromPdf_ends rd { s with
          pdfs := upsert (fun _ b => b) (pdfFile rd url) d s.pdfs } (.ok d) hurl (by
            rintro _ ⟨⟩
            rw [lookup_upsert, if_pos rfl])
        exact ⟨hothers, hown, hresult⟩
      · rw [fromPdf_pdfs] at he
        rcases mem_upsert he with h | rfl | ⟨_, _, rfl⟩
        · exact Or.inl h
        · exact Or.inr ⟨rfl, rfl, hd⟩
        · exact Or.inr ⟨rfl, rfl, hd⟩
    · refine ⟨fromPdf_ends rd s _ hurl (by rintro d ⟨⟩), by simp, fun e he => Or.inl ?_⟩
      simpa using he

end Step

section Runs

variable (rd : Reader)

def Texts.empty : Texts := ⟨[], [], [], []⟩

def Served (actions : List Action) (file : Str) (data : List UInt8) : Prop :=
  isPdf data = true ∧ ∃ place url, pdfFile rd url = file ∧
    Action.response place url (.ok data) ∈ actions

/-- The texts of a paper: the abstracts in the calls for it, and what the PDFs say that were served
for its URLs. -/
def Offered (actions : List Action) (id text : Str) : Prop :=
  ∃ paper, Action.call paper ∈ actions ∧ paper.sourceId = id ∧
    (text = paper.abstract ∨ ∃ url data pages, pdfUrlOf paper = some url ∧
      Served rd actions (pdfFile rd url) data ∧ rd.pages data = .ok pages ∧ text = pdfText pages)

def lastResult (s : Texts) (id : Str) : Option Ensured :=
  ((s.results.filter fun e => e.1.sourceId = id).getLast?).map Prod.snd

structure Kept (actions : List Action) (s : Texts) : Prop where
  waiting : ∀ paper ∈ s.waiting, Action.call paper ∈ actions
  pdfs : ∀ e ∈ s.pdfs, Served rd actions e.1 e.2
  chunks : ∀ id, getChunks s.rows id = [] ∨
    ∃ text, Offered rd actions id text ∧ getChunks s.rows id = stored (chunksOf text)
  result : ∀ id r, lastResult s id = some r → r.chunkCount ≠ 0 →
    r.chunkCount = (getChunks s.rows id).length

variable {rd} {s s' : Texts} {a : Action} {past : List Action} {paper : Paper} {id : Str}

theorem Served.mono {file : Str} {data : List UInt8} {actions : List Action} (hsub : past ⊆ actions)
    (h : Served rd past file data) : Served rd actions file data := by
  obtain ⟨hpdf, place, url, hfile, hmem⟩ := h
  exact ⟨hpdf, place, url, hfile, hsub hmem⟩

theorem Offered.mono {text : Str} {actions : List Action} (hsub : past ⊆ actions)
    (h : Offered rd past id text) : Offered rd actions id text := by
  obtain ⟨paper, hcall, hid, htext⟩ := h
  refine ⟨paper, hsub hcall, hid, htext.imp_right ?_⟩
  rintro ⟨url, data, pages, hurl, hserved, h⟩
  exact ⟨url, data, pages, hurl, hserved.mono hsub, h⟩

theorem lastResult_concat {r : Ensured} (h : s'.results = s.results ++ [(paper, r)]) :
    lastResult s' id = if paper.sourceId = id then some r else lastResult s id := by
  rw [lastResult, h, List.filter_append]
  split_ifs with hid
  · rw [List.filter_cons_of_pos (by simpa using hid)]
    simp
  · rw [List.filter_cons_of_neg (by simpa using hid), List.filter_nil, List.append_nil, lastResult]

theorem Kept.of_ends {actions : List Action} (h : Kept rd past s) (hsub : past ⊆ actions)
    (hends : Ends rd s s' paper) (hcall : Action.call paper ∈ actions)
    (hwaiting : ∀ p ∈ s'.waiting, Action.call p ∈ actions)
    (hpdfs : ∀ e ∈ s'.pdfs, Served rd actions e.1 e.2) : Kept rd actions s' where
  waiting := hwaiting
  pdfs := hpdfs
  chunks id := by
    have hold : getChunks s.rows id = [] ∨
        ∃ text, Offered rd actions id text ∧ getChunks s.rows id = stored (chunksOf text) :=
      (h.chunks id).imp_right fun ⟨text, htext, hget⟩ => ⟨text, htext.mono hsub, hget⟩
    by_cases hid : id = paper.sourceId
    · subst hid
      rcases hends.own with hkeep | ⟨text, havailable, hget⟩
      · rwa [hkeep]
      · refine Or.inr ⟨text, ⟨paper, hcall, rfl, havailable.imp_right ?_⟩, hget⟩
        rintro ⟨url, data, pages, hurl, hdisk, hread⟩
        obtain ⟨l, l', hl, -⟩ := List.lookup_eq_some_iff.mp hdisk
        exact ⟨url, data, pages, hurl, hpdfs (pdfFile rd url, data) (by simp [hl]), hread⟩
    · rwa [hends.others id hid]
  result id r hr hpos := by
    obtain ⟨r', hresults, hcount⟩ := hends.result
    rw [lastResult_concat hresults] at hr
    split_ifs at hr with hid
    · subst hid
      obtain rfl := Option.some.inj hr
      exact hcount hpos
    · rw [hends.others id (Ne.symm hid)]
      exact h.result id r hr hpos

theorem Kept.advance (h : Kept rd past s) (hs : advance rd s a = some s') :
    Kept rd (past ++ [a]) s' := by
  have hsub : past ⊆ past ++ [a] := List.subset_append_left _ _
  have hlast : a ∈ past ++ [a] := List.mem_append_right _ (List.mem_singleton_self a)
  have hwaiting : ∀ p ∈ s.waiting, Action.call p ∈ past ++ [a] := fun p hp => hsub (h.waiting p hp)
  have hpdfs : ∀ e ∈ s.pdfs, Served rd (past ++ [a]) e.1 e.2 := fun e he => (h.pdfs e he).mono hsub
  cases a with
  | call paper =>
    obtain rfl := Option.some.inj hs
    rcases ensureChunks_cases rd s paper with ⟨-, heq⟩ | ⟨-, heq⟩ | ⟨-, hends, hw, hp⟩
    · rw [heq]
      refine h.of_ends hsub ⟨fun _ _ => rfl, Or.inl rfl, _, rfl, fun _ => rfl⟩ hlast hwaiting hpdfs
    · rw [heq]
      refine ⟨fun p hp => ?_, hpdfs, fun id => ?_, h.result⟩
      · rcases List.mem_append.mp hp with hp | hp
        · exact hwaiting p hp
        · rwa [List.mem_singleton.mp hp]
      · exact (h.chunks id).imp_right fun ⟨text, htext, hget⟩ => ⟨text, htext.mono hsub, hget⟩
    · exact h.of_ends hsub hends hlast (by rwa [hw]) (by rwa [hp])
  | response place url data =>
    rw [Papers.advance] at hs
    cases hplace : s.waiting[place]? with
    | none =>
      rw [hplace] at hs
      cases hs
    | some paper =>
      simp only [hplace] at hs
      split_ifs at hs with hurl
      obtain rfl := Option.some.inj hs
      obtain ⟨hends, hw, hp⟩ := resume_ends rd { s with
        waiting := s.waiting.eraseIdx place } data hurl
      refine h.of_ends hsub ⟨hends.others, hends.own, hends.result⟩
        (hwaiting paper (List.mem_of_getElem? hplace)) (fun p hp => ?_) fun e he => ?_
      · rw [hw] at hp
        exact hwaiting p (List.mem_of_mem_eraseIdx hp)
      · rcases hp e he with he | ⟨hfile, rfl, hpdf⟩
        · exact hpdfs e he
        · exact ⟨hpdf, place, url, hfile.symm, hlast⟩

theorem kept_run {actions : List Action} (h : run (Papers.advance rd) .empty actions = some s) :
    Kept rd actions s := by
  have hinit : Kept rd [] .empty := by
    constructor
    · exact List.forall_mem_nil _
    · exact List.forall_mem_nil _
    · exact fun _ => Or.inl rfl
    · rintro _ _ ⟨⟩
  exact history_run hinit (fun h => h.advance) h

/-- Whatever calls and responses come in whatever order, the chunks of a paper are those of one of
its texts, all of them: no chunk of another text is among them, and no part of the text is missing.
The last call for the paper that has ended told how many they are, if it told of any. -/
theorem ensureChunks_run {actions : List Action}
    (h : run (Papers.advance rd) .empty actions = some s) (id : Str) :
    (getChunks s.rows id = [] ∨ ∃ text, Offered rd actions id text ∧
      getChunks s.rows id = (chunksOf text).map squeeze ∧
      chunkText (squeeze text).length text chunkSize chunkOverlap = some (chunksOf text) ∧
      glue chunkOverlap (chunksOf text) = squeeze text ∧
      ∀ i (hi : i < (squeeze text).length), isSpace (squeeze text)[i] = false →
        ∃ saved ∈ getChunks s.rows id, ∃ k ≤ i, i < k + saved.length ∧
          saved <+: (squeeze text).drop k) ∧
    ∀ r, lastResult s id = some r → r.chunkCount ≠ 0 →
      r.chunkCount = (getChunks s.rows id).length := by
  have hkept := kept_run h
  constructor
  · rcases hkept.chunks id with hnil | ⟨text, htext, hget⟩
    · exact Or.inl hnil
    · rcases eq_or_ne (getChunks s.rows id) [] with hnil | hne
      · exact Or.inl hnil
      · rw [hget] at hne
        obtain ⟨hall, hglue, hcovers⟩ := stored_covers hne
        refine Or.inr ⟨text, htext, hget.trans hall, chunkText_chunksOf text, hglue, ?_⟩
        rwa [hget]
  · exact hkept.result id

def openPaper : Paper where
  source := "arxiv".toList
  sourceId := "arxiv:1706.03762".toList
  doi := none
  title := "Attention".toList
  abstract := List.replicate 90 'a'
  year := none
  journal := none
  authors := []
  institutions := []
  concepts := []
  citedByCount := 0
  isOa := true
  landingPageUrl := none
  pdfUrl := some "https://arxiv.org/pdf/1706.03762".toList

def onePage : Reader := ⟨fun url => url, fun _ => .ok [List.replicate 100 'b']⟩

/-- The responses of a run in which one of two calls gets the PDF first and the other one fails. -/
def twoCalls : List Action :=
  [.call openPaper, .call openPaper,
    .response 1 "https://arxiv.org/pdf/1706.03762".toList (.ok [37, 80, 68, 70]),
    .response 0 "https://arxiv.org/pdf/1706.03762".toList (.error "timeout".toList)]

def afterTwoCalls : Texts := (run (Papers.advance onePage) .empty twoCalls).getD .empty

theorem ensureChunks_run_twoCalls :
    run (Papers.advance onePage) .empty twoCalls = some afterTwoCalls ∧
    ∀ r, lastResult afterTwoCalls openPaper.sourceId = some r → r.chunkCount ≠ 0 →
      r.chunkCount = (getChunks afterTwoCalls.rows openPaper.sourceId).length := by
  have h : run (Papers.advance onePage) .empty twoCalls = some afterTwoCalls := rfl
  exact ⟨h, (ensureChunks_run h openPaper.sourceId).2⟩

/-- Between the two states the chunks of a paper have not changed, and its calls have told that
there are `n`. -/
structure Settled (id : Str) (n : ℕ) (s s' : Texts) : Prop where
  chunks : getChunks s'.rows id = getChunks s.rows id
  idle : ∀ p ∈ s'.waiting, p.sourceId ≠ id
  results : ∃ new, s'.results = s.results ++ new ∧ ∀ e ∈ new, e.1.sourceId = id →
    e.2 = ⟨.cached, n, "database".toList⟩

theorem advance_of_chunks (hne : getChunks s.rows id ≠ [])
    (hidle : ∀ p ∈ s.waiting, p.sourceId ≠ id) (hs : advance rd s a = some s') :
    Settled id (getChunks s.rows id).length s s' := by
  cases a with
  | call paper =>
    obtain rfl := Option.some.inj hs
    rcases ensureChunks_cases rd s paper with ⟨-, heq⟩ | ⟨hnil, heq⟩ | ⟨hnil, hends, hw, -⟩
    · rw [heq]
      refine ⟨rfl, hidle, _, rfl, fun e he hid => ?_⟩
      rw [List.mem_singleton.mp he] at hid ⊢
      exact hid ▸ rfl
    · rw [heq]
      refine ⟨rfl, fun p hp => ?_, [], (List.append_nil _).symm, fun _ h => nomatch h⟩
      rcases List.mem_append.mp hp with hp | hp
      · exact hidle p hp
      · rw [List.mem_singleton.mp hp]
        exact fun hid => hne (hid ▸ hnil)
    · have hid : id ≠ paper.sourceId := fun hid => hne (hid ▸ hnil)
      obtain ⟨r, hresults, -⟩ := hends.result
      refine ⟨hends.others id hid, by rwa [hw], _, hresults, fun e he hid' => ?_⟩
      rw [List.mem_singleton.mp he] at hid'
      exact absurd hid'.symm hid
  | response place url data =>
    rw [Papers.advance] at hs
    cases hplace : s.waiting[place]? with
    | none =>
      rw [hplace] at hs
      cases hs
    | some paper =>
      simp only [hplace] at hs
      split_ifs at hs with hurl
      obtain rfl := Option.some.inj hs
      obtain ⟨hends, hw, -⟩ := resume_ends rd { s with
        waiting := s.waiting.eraseIdx place } data hurl
      have hid : id ≠ paper.sourceId := (hidle paper (List.mem_of_getElem? hplace)).symm
      obtain ⟨r, hresults, -⟩ := hends.result
      refine ⟨hends.others id hid, fun p hp => ?_, _, hresults, fun e he hid' => ?_⟩
      · rw [hw] at hp
        exact hidle p (List.mem_of_mem_eraseIdx hp)
      · rw [List.mem_singleton.mp he] at hid'
        exact absurd hid'.symm hid

/-- Once a call for a paper has told of chunks and no call for it waits any more, its chunks stay as
they are, and every later call for it finds as many. -/
theorem ensureChunks_settled {actions later : List Action} {r : Ensured}
    (h : run (Papers.advance rd) .empty actions = some s) (hlast : lastResult s id = some r)
    (hpos : r.chunkCount ≠ 0) (hidle : ∀ p ∈ s.waiting, p.sourceId ≠ id)
    (hlater : run (Papers.advance rd) s later = some s') :
    getChunks s'.rows id = getChunks s.rows id ∧ (getChunks s.rows id).length = r.chunkCount ∧
      ∃ new, s'.results = s.results ++ new ∧ ∀ e ∈ new, e.1.sourceId = id →
        e.2 = ⟨.cached, r.chunkCount, "database".toList⟩ := by
  have hlen := (kept_run h).result id r hlast hpos
  have hne : getChunks s.rows id ≠ [] := by
    rintro hnil
    exact hpos (hlen.trans (congrArg List.length hnil))
  have hstays : Settled id r.chunkCount s s' := by
    refine @history_run _ _ _ s s' later (fun _ s₁ => Settled id r.chunkCount s s₁)
      ⟨rfl, hidle, [], (List.append_nil _).symm, List.forall_mem_nil _⟩ ?_ hlater
    rintro _ s₁ a s₂ ⟨hget, hidle, new, hnew, hcached⟩ hs
    obtain ⟨hget', hidle', new', hnew', hcached'⟩ := advance_of_chunks (hget ▸ hne) hidle hs
    refine ⟨hget'.trans hget, hidle', new ++ new', ?_, fun e he hid => ?_⟩
    · rw [hnew', hnew, List.append_assoc]
    · rcases List.mem_append.mp he with he | he
      · exact hcached e he hid
      · rw [hcached' e he hid, hget, ← hlen]
  exact ⟨hstays.chunks, hlen.symm, hstays.results⟩

theorem ensureChunks_settled_twoCalls : ∃ s',
    run (Papers.advance onePage) afterTwoCalls [.call openPaper] = some s' ∧
      getChunks s'.rows openPaper.sourceId = getChunks afterTwoCalls.rows openPaper.sourceId := by
  have h : run (Papers.advance onePage) .empty twoCalls = some afterTwoCalls := rfl
  have hlater : run (Papers.advance onePage) afterTwoCalls [.call openPaper] =
      some (ensureChunks onePage afterTwoCalls openPaper) := rfl
  have hlast : lastResult afterTwoCalls openPaper.sourceId =
      some ⟨.abstractOnly, 1, "abstract".toList⟩ := by decide +kernel
  exact ⟨_, hlater, (ensureChunks_settled h hlast Nat.one_ne_zero (by rintro p ⟨⟩) hlater).1⟩

end Runs

end K8sLearn.Papers
