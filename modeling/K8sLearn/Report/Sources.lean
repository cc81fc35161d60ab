import Mathlib.Data.Char
import Mathlib.Data.List.Lex
import Mathlib.Data.List.Sort
import Mathlib.Data.Prod.Lex
import Mathlib.Data.Set.Function
import K8sLearn.Lib.Collect
import K8sLearn.Lib.Encoding
import K8sLearn.Lib.Lists
import K8sLearn.Lib.Scan
import K8sLearn.Lib.Text

/-! # Downloading the sources

`fetch_official` downloads the sources that a run directory asks for and keeps an index of them.
A file is written at once, the index at the end, and a run that fails before leaves the old index.
A URL in the index is not fetched again as long as its file is there. Over any runs, failed ones and
runs of other versions included, the index tells the truth about the files, until a run writes a
record that cannot be encoded: that empties the index for good.
-/

namespace K8sLearn.Fetch

abbrev Bytes := List UInt8

/-- What the script takes from the standard library: the digest of bytes, the bytes of a text and
the suffix of the path of a URL. -/
structure Platform where
  sha256 : Bytes → Str
  encode : Str → Bytes
  suffix : Str → Str

structure Config where
  versions : List (ℕ × ℕ)
  refs : List ((ℕ × ℕ) × Str)

/-- A record of `source-index.json`. -/
structure Source where
  type : Str
  url : Str
  path : Str
  sha256 : Str
  bytes : ℕ
  fetchedAt : Str

/-- `source-index.json`: none yet, emptied by a write that failed, or its records. -/
inductive Index where
  | absent
  | emptied
  | written (sources : List Source)

structure Request where
  type : Str
  url : Str
  filename : Str

/-- The run directory: the index and the files of `sources`. -/
structure RunDir where
  index : Index
  files : List (Str × Bytes)

section Requests

def fmt (v : ℕ × ℕ) : Str := Nat.toDigits 10 v.1 ++ '.' :: Nat.toDigits 10 v.2

/-- `init_run`, with the first version given or defaulted; an empty ref is none. -/
def initRun (start stop : ℕ × ℕ) (fromRef toRef : Option Str) : Option Config :=
  if start.1 ≠ stop.1 ∨ stop.2 < start.2 then none
  else
    let versions := (List.range' start.2 (stop.2 + 1 - start.2)).map fun m => (start.1, m)
    let refs := versions.map fun v => (v, 'v' :: fmt v ++ ".0".toList)
    let refs := match fromRef with
      | some (c :: ref) => upsert (fun _ a => a) start (c :: ref) refs
      | _ => refs
    let refs := match toRef with
      | some (c :: ref) => upsert (fun _ a => a) stop (c :: ref) refs
      | _ => refs
    some ⟨versions, refs⟩

def rawUrl (ref : Str) : Str :=
  "https://raw.githubusercontent.com/kubernetes/kubernetes/".toList ++ ref

def featuresUrl (ref : Str) : Str := rawUrl ref ++ "/pkg/features/kube_features.go".toList

def changelogUrl (ref : Str) (v : ℕ × ℕ) : Str :=
  rawUrl ref ++ "/CHANGELOG/CHANGELOG-".toList ++ fmt v ++ ".md".toList

def versionedUrl (ref : Str) : Str :=
  rawUrl ref ++ "/pkg/features/versioned_kube_features.go".toList

/-- `f"{kind}-{version}-{ref}{suffix}"`. -/
def refName (kind : String) (v : ℕ × ℕ) (ref : Str) (suffix : String) : Str :=
  kind.toList ++ (fmt v ++ '-' :: (ref ++ suffix.toList))

def versionRequests (v : ℕ × ℕ) (ref : Str) : List Request :=
  [⟨"kube_features".toList, featuresUrl ref, refName "kube_features-" v ref ".go"⟩,
   ⟨"changelog".toList, changelogUrl ref v, refName "changelog-" v ref ".md"⟩]

/-- The gates were kept in two files up to version 1.32. -/
def extraRequests (v : ℕ × ℕ) (ref : Str) : List Request :=
  if v.1 < 1 ∨ v.1 = 1 ∧ v.2 ≤ 32 then
    [⟨"kube_features_extra".toList, versionedUrl ref,
      refName "versioned_kube_features-" v ref ".go"⟩]
  else []

variable (p : Platform)

/-- `f"extra-{digest}{suffix}"`. -/
def addedName (url : Str) : Str :=
  "extra-".toList ++ (p.sha256 (p.encode url)).take 12 ++
    (if p.suffix url = [] then ".html".toList else p.suffix url)

/-- An `--add TYPE=URL`; without the sign the script exits, and the digest needs the bytes of the
URL. -/
def addRequest (item : Str) : Option Request :=
  let url := (item.dropWhile (· ≠ '=')).tail
  if '=' ∈ item ∧ Str.encodable url then
    some ⟨item.takeWhile (· ≠ '='), url, addedName p url⟩
  else none

def requests (cfg : Config) (adds : List Str) : Option (List Request) :=
  (cfg.versions.mapM fun v => (cfg.refs.lookup v).map (versionRequests v)).bind fun fixed =>
  (adds.mapM (addRequest p)).map fun added =>
    fixed.flatten ++ (cfg.refs.flatMap fun e => extraRequests e.1 e.2) ++ added

end Requests

section Fetch

/-- What an attempt to download gives; only an error of the connection is tried again. -/
inductive Response where
  | payload (b : Bytes)
  | failed
  | crashed

def download (net : ℕ → Response) : ℕ → Option Bytes
  | 0 => none
  | n + 1 => match net n with
    | .payload b => some b
    | .failed => download net n
    | .crashed => none

/-- The dictionary by URL and the files of `sources`. -/
structure Fetching where
  byUrl : List (Str × Source)
  files : List (Str × Bytes)

variable (p : Platform)

def sourcePath (filename : Str) : Str := "sources/".toList ++ filename

/-- A round of the loop, and whether it went through. A file is written into `sources` only. -/
def fetchOne (s : Fetching) (r : Request) (now : Str) (payload : Option Bytes) : Fetching × Bool :=
  if (s.byUrl.lookup r.url).isSome ∧ (s.files.lookup r.filename).isSome then (s, true)
  else match payload with
    | none => (s, false)
    | some b =>
      if '/' ∈ r.filename then (s, false)
      else
        let source : Source :=
          ⟨r.type, r.url, sourcePath r.filename, p.sha256 b, b.length, now⟩
        ({ byUrl := upsert (fun _ a => a) r.url source s.byUrl
           files := upsert (fun _ a => a) r.filename b s.files }, true)

/-- A request with the time and the outcome of its download. -/
structure Attempt where
  request : Request
  now : Str
  payload : Option Bytes

def fetchLoop (s : Fetching) : List Attempt → Fetching × Bool
  | [] => (s, true)
  | a :: rest =>
    let next := fetchOne p s a.request a.now a.payload
    if next.2 then fetchLoop next.1 rest else next

/-- A call of the script: its configuration and arguments, and the network and the clock it meets,
by the number of the request. -/
structure Run where
  cfg : Config
  adds : List Str
  net : ℕ → ℕ → Response
  now : ℕ → Str

def Run.attempts (run : Run) (rs : List Request) : List Attempt :=
  rs.zipIdx.map fun r => ⟨r.1, run.now r.2, download (run.net r.2) 3⟩

/-- `sorted(by_url.values(), key=lambda item: (item["type"], item["url"]))`. -/
def sortSources (l : List Source) : List Source :=
  l.insertionSort fun a b => toLex (a.type, a.url) ≤ toLex (b.type, b.url)

/-- The texts of a record that are not made of ASCII only. -/
def Source.encodable (s : Source) : Bool :=
  Str.encodable s.type && Str.encodable s.url && Str.encodable s.path

/-- `index_path.write_text(..)`, which empties the file before it encodes the text. -/
def writeIndex (sources : List Source) : Index :=
  if sources.all Source.encodable then .written sources else .emptied

def Index.read : Index → Option (List Source)
  | .absent => some []
  | .emptied => none
  | .written sources => some sources

/-- `main` of `fetch_official`, and whether it succeeded. -/
def fetch (run : Run) (dir : RunDir) : RunDir × Bool :=
  match dir.index.read, requests p run.cfg run.adds with
  | some sources, some rs =>
    let byUrl := sources.foldl (fun d s => upsert (fun _ a => a) s.url s d) []
    let (s, ok) := fetchLoop p ⟨byUrl, dir.files⟩ (run.attempts rs)
    if ok then
      match writeIndex (sortSources (s.byUrl.map Prod.snd)) with
      | .written sources => (⟨.written sources, s.files⟩, true)
      | index => (⟨index, s.files⟩, false)
    else (⟨dir.index, s.files⟩, false)
  | _, _ => (dir, false)

def reach (runs : List Run) : RunDir :=
  runs.foldl (fun dir run => (fetch p run dir).1) ⟨.absent, []⟩

end Fetch

section Names

variable {p : Platform} {added : Set Str} {r r' : Request}

def Request.Fixed (r : Request) : Prop := ∃ v ref, r ∈ versionRequests v ref ++ extraRequests v ref

def Request.Known (p : Platform) (added : Set Str) (r : Request) : Prop :=
  r.Fixed ∨ r.url ∈ added ∧ r.filename = addedName p r.url

theorem known_of_mem_requests {cfg : Config} {adds : List Str} {rs : List Request}
    (h : requests p cfg adds = some rs) (hr : r ∈ rs) :
    r.Fixed ∨ ∃ item ∈ adds, addRequest p item = some r := by
  obtain ⟨fixed, hfixed, h⟩ := Option.bind_eq_some_iff.mp h
  obtain ⟨extra, hextra, rfl⟩ := Option.map_eq_some_iff.mp h
  rcases List.mem_append.mp hr with hr | hr
  · rcases List.mem_append.mp hr with hr | hr
    · obtain ⟨l, hl, hr⟩ := List.mem_flatten.mp hr
      obtain ⟨v, -, hv⟩ := (Lists.of_mapM_eq_some hfixed).2 l hl
      obtain ⟨ref, -, rfl⟩ := Option.map_eq_some_iff.mp hv
      exact Or.inl ⟨v, ref, List.mem_append_left _ hr⟩
    · obtain ⟨e, -, hr⟩ := List.mem_flatMap.mp hr
      exact Or.inl ⟨e.1, e.2, List.mem_append_right _ hr⟩
  · obtain ⟨item, hitem, hr⟩ := (Lists.of_mapM_eq_some hextra).2 r hr
    exact Or.inr ⟨item, hitem, hr⟩

theorem filename_addRequest {item : Str} (h : addRequest p item = some r) :
    r.filename = addedName p r.url := by
  unfold addRequest at h
  dsimp only at h
  split_ifs at h
  obtain rfl := Option.some.inj h
  rfl

theorem not_mem_fmt (v : ℕ × ℕ) : '-' ∉ fmt v := by
  intro h
  have hdigit : ∀ n, '-' ∉ Nat.toDigits 10 n :=
    fun n hn => absurd (Str.isDigit_of_mem_toDigits hn) (by decide)
  rcases List.mem_append.mp h with h | h
  · exact hdigit _ h
  · rcases List.mem_cons.mp h with h | h
    · cases h
    · exact hdigit _ h

theorem refName_inj {kind suffix : String} {v v' : ℕ × ℕ} {ref ref' : Str}
    (h : refName kind v ref suffix = refName kind v' ref' suffix) :
    fmt v = fmt v' ∧ ref = ref' := by
  have htail : fmt v ++ '-' :: (ref ++ suffix.toList) = fmt v' ++ '-' :: (ref' ++ suffix.toList) :=
    List.append_cancel_left h
  have hfmt : ∀ v : ℕ × ℕ, ∀ c ∈ fmt v, decide (c ≠ '-') = true :=
    fun v c hc => decide_eq_true fun heq => not_mem_fmt v (heq ▸ hc)
  have hversion : fmt v = fmt v' := by
    have htake := congrArg (List.takeWhile fun c => decide (c ≠ '-')) htail
    rwa [Scan.takeWhile_append (hfmt v) (by simp),
      Scan.takeWhile_append (hfmt v') (by simp)] at htake
  rw [hversion] at htail
  have href := List.append_cancel_left htail
  exact ⟨hversion, List.append_cancel_right (List.cons.inj href).2⟩

theorem Request.Fixed.cases (h : r.Fixed) : ∃ v ref,
    r = ⟨"kube_features".toList, featuresUrl ref, refName "kube_features-" v ref ".go"⟩ ∨
    r = ⟨"changelog".toList, changelogUrl ref v, refName "changelog-" v ref ".md"⟩ ∨
    r = ⟨"kube_features_extra".toList, versionedUrl ref,
      refName "versioned_kube_features-" v ref ".go"⟩ := by
  obtain ⟨v, ref, h⟩ := h
  refine ⟨v, ref, ?_⟩
  rcases List.mem_append.mp h with h | h
  · rcases List.mem_cons.mp h with rfl | h
    · exact Or.inl rfl
    · exact Or.inr (Or.inl (List.mem_singleton.mp h))
  · rw [extraRequests] at h
    split_ifs at h
    · exact Or.inr (Or.inr (List.mem_singleton.mp h))
    · cases h

theorem head?_refName (kind : String) (v : ℕ × ℕ) (ref : Str) (suffix : String)
    (hkind : kind.toList ≠ []) : (refName kind v ref suffix).head? = kind.toList.head? := by
  rw [refName, List.head?_append_of_ne_nil _ hkind]

theorem url_eq_of_filename (hadded : Set.InjOn (addedName p) added) (h : r.Known p added)
    (h' : r'.Known p added) (hname : r.filename = r'.filename) : r.url = r'.url := by
  have hextra : ∀ url, (addedName p url).head? = some 'e' := fun _ => rfl
  have hfixed : ∀ r : Request, r.Fixed → r.filename.head? ≠ some 'e' := by
    rintro r hr
    obtain ⟨v, ref, rfl | rfl | rfl⟩ := hr.cases
    all_goals
      rw [head?_refName _ _ _ _ (by decide)]
      decide
  rcases h with h | ⟨hmem, h⟩
  · rcases h' with h' | ⟨-, h'⟩
    · obtain ⟨v, ref, rfl | rfl | rfl⟩ := h.cases <;>
        obtain ⟨v', ref', rfl | rfl | rfl⟩ := h'.cases
      all_goals
        dsimp only at hname ⊢
        -- names of two kinds begin with two letters
        have hhead := congrArg List.head? hname
        rw [head?_refName _ _ _ _ (by decide), head?_refName _ _ _ _ (by decide)] at hhead
        first
        | exact absurd hhead (by decide)
        | (obtain ⟨hversion, rfl⟩ := refName_inj hname
           simp [changelogUrl, hversion])
    · exact absurd (by rw [hname, h', hextra]) (hfixed r h)
  · rcases h' with h' | ⟨hmem', h'⟩
    · exact absurd (by rw [← hname, h, hextra]) (hfixed r' h')
    · exact hadded hmem hmem' (by rw [← h, ← h', hname])

end Names

section Invariant

variable {p : Platform} {added : Set Str}

/-- The file of a record is there, and the record tells its digest and its length. -/
def Stored (p : Platform) (added : Set Str) (files : List (Str × Bytes)) (s : Source) : Prop :=
  ∃ (r : Request) (b : Bytes), r.Known p added ∧ s.type = r.type ∧ s.url = r.url ∧
    s.path = sourcePath r.filename ∧ files.lookup r.filename = some b ∧
    s.sha256 = p.sha256 b ∧ s.bytes = b.length

structure Sound (p : Platform) (added : Set Str) (s : Fetching) : Prop where
  nodup : (s.byUrl.map Prod.fst).Nodup
  stored : ∀ e ∈ s.byUrl, e.2.url = e.1 ∧ Stored p added s.files e.2

/-- The files of the records that are filed under their URLs are not written again. -/
def Keeps (p : Platform) (added : Set Str) (s s' : Fetching) : Prop :=
  (∀ url ∈ s.byUrl.map Prod.fst, url ∈ s'.byUrl.map Prod.fst) ∧
  ∀ r : Request, r.Known p added → r.url ∈ s.byUrl.map Prod.fst →
    ∀ b, s.files.lookup r.filename = some b → s'.files.lookup r.filename = some b

theorem Keeps.refl (s : Fetching) : Keeps p added s s := ⟨fun _ h => h, fun _ _ _ _ h => h⟩

theorem Keeps.trans {s s' s'' : Fetching} (h : Keeps p added s s') (h' : Keeps p added s' s'') :
    Keeps p added s s'' :=
  ⟨fun url hu => h'.1 url (h.1 url hu),
    fun r hr hu b hb => h'.2 r hr (h.1 _ hu) b (h.2 r hr hu b hb)⟩

theorem Keeps.stored {s s' : Fetching} (h : Keeps p added s s') {source : Source}
    (hu : source.url ∈ s.byUrl.map Prod.fst) (hs : Stored p added s.files source) :
    Stored p added s'.files source := by
  obtain ⟨r, b, hr, ht, hurl, hpath, hb, hrest⟩ := hs
  exact ⟨r, b, hr, ht, hurl, hpath, h.2 r hr (hurl ▸ hu) b hb, hrest⟩

theorem mem_keys_iff_isSome {α : Type*} {d : List (Str × α)} {k : Str} :
    k ∈ d.map Prod.fst ↔ (d.lookup k).isSome := by
  induction d with
  | nil => simp
  | cons e d ih =>
    rw [List.map_cons, List.mem_cons, ih, List.lookup_cons]
    by_cases h : k = e.1
    · simp [h]
    · simp [h, beq_false_of_ne h]

section Step

variable (hadded : Set.InjOn (addedName p) added) {s : Fetching} {r : Request}
include hadded

theorem fetchOne_sound (hs : Sound p added s) (hr : r.Known p added) (now : Str)
    (payload : Option Bytes) : Sound p added (fetchOne p s r now payload).1 ∧
      Keeps p added s (fetchOne p s r now payload).1 ∧
      ((fetchOne p s r now payload).2 = true →
        r.url ∈ (fetchOne p s r now payload).1.byUrl.map Prod.fst) := by
  unfold fetchOne
  by_cases hcached : (s.byUrl.lookup r.url).isSome ∧ (s.files.lookup r.filename).isSome
  · rw [if_pos hcached]
    exact ⟨hs, Keeps.refl s, fun _ => mem_keys_iff_isSome.mpr hcached.1⟩
  rw [if_neg hcached]
  cases payload with
  | none => exact ⟨hs, Keeps.refl s, fun h => by cases h⟩
  | some b =>
    dsimp only
    split_ifs with hslash
    · exact ⟨hs, Keeps.refl s, fun h => by cases h⟩
    have hkeeps : Keeps p added s
        { byUrl := upsert (fun _ a => a) r.url ⟨r.type, r.url, sourcePath r.filename,
            p.sha256 b, b.length, now⟩ s.byUrl
          files := upsert (fun _ a => a) r.filename b s.files } := by
      refine ⟨fun url hu => mem_keys_upsert.mpr (Or.inr hu), fun r' hr' hu b' hb' => ?_⟩
      dsimp only
      rw [lookup_upsert, if_neg, hb']
      -- a file with a record under its URL would have been taken from the cache
      intro hname
      have hurl := url_eq_of_filename hadded hr' hr hname
      refine hcached ⟨mem_keys_iff_isSome.mp (hurl ▸ hu), ?_⟩
      rw [← hname, hb']
      rfl
    refine ⟨⟨nodup_keys_upsert hs.nodup, ?_⟩, hkeeps, fun _ => mem_keys_upsert.mpr (Or.inl rfl)⟩
    intro e he
    rcases (mem_upsert_iff hs.nodup).mp he with ⟨-, he⟩ | ⟨hkey, hval⟩
    · obtain ⟨hurl, hstored⟩ := hs.stored e he
      exact ⟨hurl, hkeeps.stored (hurl ▸ List.mem_map_of_mem he) hstored⟩
    · have hval : e.2 = ⟨r.type, r.url, sourcePath r.filename, p.sha256 b, b.length, now⟩ := by
        rcases hval with ⟨_, -, hval⟩ | ⟨-, hval⟩
        · exact hval
        · exact hval
      rw [hval, hkey]
      exact ⟨rfl, r, b, hr, rfl, rfl, rfl, by rw [lookup_upsert, if_pos rfl], rfl, rfl⟩

theorem fetchLoop_sound (hs : Sound p added s) {attempts : List Attempt}
    (hr : ∀ a ∈ attempts, a.request.Known p added) : Sound p added (fetchLoop p s attempts).1 ∧
      Keeps p added s (fetchLoop p s attempts).1 ∧
      ((fetchLoop p s attempts).2 = true → ∀ a ∈ attempts,
        a.request.url ∈ (fetchLoop p s attempts).1.byUrl.map Prod.fst) := by
  induction attempts generalizing s with
  | nil => exact ⟨hs, Keeps.refl s, fun _ a ha => by cases ha⟩
  | cons a attempts ih =>
    obtain ⟨ha, hattempts⟩ := List.forall_mem_cons.mp hr
    obtain ⟨hsound, hkeeps, hmem⟩ := fetchOne_sound hadded hs ha a.now a.payload
    rw [fetchLoop]
    split_ifs with hok
    · obtain ⟨hsound', hkeeps', hmem'⟩ := ih hsound hattempts
      refine ⟨hsound', hkeeps.trans hkeeps', fun hok' => List.forall_mem_cons.mpr ⟨?_, hmem' hok'⟩⟩
      exact hkeeps'.1 _ (hmem hok)
    · exact ⟨hsound, hkeeps, fun hok' => absurd hok' hok⟩

end Step

def RunDir.sources (dir : RunDir) : List Source := dir.index.read.getD []

/-- The index has one record for a URL, in its order, and tells the truth about the files. -/
structure Consistent (p : Platform) (added : Set Str) (dir : RunDir) : Prop where
  nodup : (dir.sources.map Source.url).Nodup
  sorted : dir.sources.Pairwise fun a b => toLex (a.type, a.url) ≤ toLex (b.type, b.url)
  encodable : ∀ s ∈ dir.sources, s.encodable = true
  stored : ∀ s ∈ dir.sources, Stored p added dir.files s

/-- The records of `dir` have successors in `dir'`, if that is not emptied, and the files of their
URLs are as they were. With an emptied index nothing changes. -/
structure Extends (p : Platform) (added : Set Str) (dir dir' : RunDir) : Prop where
  stays : dir.index = .emptied → dir' = dir
  records : dir'.index ≠ .emptied → ∀ s ∈ dir.sources, ∃ s' ∈ dir'.sources, s'.url = s.url
  files : ∀ r : Request, r.Known p added → (∃ s ∈ dir.sources, s.url = r.url) →
    ∀ b, dir.files.lookup r.filename = some b → dir'.files.lookup r.filename = some b

theorem consistent_of_sources_eq_nil {dir : RunDir} (h : dir.sources = []) :
    Consistent p added dir := by
  constructor <;> rw [h]
  · exact List.nodup_nil
  · exact List.Pairwise.nil
  · exact List.forall_mem_nil _
  · exact List.forall_mem_nil _

theorem Extends.refl (dir : RunDir) : Extends p added dir dir :=
  ⟨fun _ => rfl, fun _ s hs => ⟨s, hs, rfl⟩, fun _ _ _ _ h => h⟩

theorem Extends.trans {dir dir' dir'' : RunDir} (h : Extends p added dir dir')
    (h' : Extends p added dir' dir'') : Extends p added dir dir'' := by
  have hnext : dir'.index ≠ .emptied → ∀ url, (∃ s ∈ dir.sources, s.url = url) →
      ∃ s ∈ dir'.sources, s.url = url := by
    rintro hne url ⟨s, hs, rfl⟩
    exact h.records hne s hs
  constructor
  · intro hempty
    obtain rfl := h.stays hempty
    exact h'.stays hempty
  · intro hne s hs
    have hne' : dir'.index ≠ .emptied := fun hempty => hne (h'.stays hempty ▸ hempty)
    obtain ⟨s', hs', hurl⟩ := h.records hne' s hs
    obtain ⟨s'', hs'', hurl'⟩ := h'.records hne s' hs'
    exact ⟨s'', hs'', hurl'.trans hurl⟩
  · intro r hr hs b hb
    by_cases hempty : dir'.index = .emptied
    · rw [h'.stays hempty]
      exact h.files r hr hs b hb
    · exact h'.files r hr (hnext hempty _ hs) b (h.files r hr hs b hb)

def addedUrls (p : Platform) (runs : List Run) : Set Str :=
  {url | ∃ run ∈ runs, ∃ item ∈ run.adds, ∃ r, addRequest p item = some r ∧ r.url = url}

section Fetch

variable {dir : RunDir} {run : Run}

theorem byUrl_eq (h : Consistent p added dir) :
    dir.sources.foldl (fun d s => upsert (fun _ a => a) s.url s d) [] =
      dir.sources.map fun s => (s.url, s) :=
  @foldl_upsert _ _ _ (fun _ a => a) [] _ Source.url id dir.sources (by simpa using h.nodup)

theorem sound_of_consistent (h : Consistent p added dir) :
    Sound p added ⟨dir.sources.map fun s => (s.url, s), dir.files⟩ where
  nodup := by
    rw [List.map_map]
    exact h.nodup
  stored e he := by
    obtain ⟨s, hs, rfl⟩ := List.mem_map.mp he
    exact ⟨rfl, h.stored s hs⟩

theorem map_request_attempts (run : Run) (rs : List Request) :
    (run.attempts rs).map Attempt.request = rs := by
  rw [Run.attempts, List.map_map]
  exact List.zipIdx_map_fst 0 rs

theorem mem_of_mem_attempts {rs : List Request} {a : Attempt} (ha : a ∈ run.attempts rs) :
    a.request ∈ rs :=
  map_request_attempts run rs ▸ List.mem_map_of_mem ha

theorem known_of_mem_attempts (hrun : addedUrls p [run] ⊆ added) {rs : List Request}
    (hrs : requests p run.cfg run.adds = some rs) {a : Attempt} (ha : a ∈ run.attempts rs) :
    a.request.Known p added := by
  rcases known_of_mem_requests hrs (mem_of_mem_attempts ha) with hfixed | ⟨item, hitem, hadd⟩
  · exact Or.inl hfixed
  · exact Or.inr ⟨hrun ⟨run, List.mem_singleton.mpr rfl, item, hitem, a.request, hadd, rfl⟩,
      filename_addRequest hadd⟩

def Request.encodable (r : Request) : Bool :=
  Str.encodable r.type && Str.encodable r.url && Str.encodable (sourcePath r.filename)

theorem encodable_fetchOne {s : Fetching} {r : Request} (hs : ∀ e ∈ s.byUrl, e.2.encodable = true)
    (hr : r.encodable = true) (now : Str) (payload : Option Bytes) :
    ∀ e ∈ (fetchOne p s r now payload).1.byUrl, e.2.encodable = true := by
  unfold fetchOne
  by_cases hcached : (s.byUrl.lookup r.url).isSome ∧ (s.files.lookup r.filename).isSome
  · rw [if_pos hcached]
    exact hs
  rw [if_neg hcached]
  cases payload with
  | none => exact hs
  | some b =>
    dsimp only
    split_ifs
    · exact hs
    · intro e he
      rcases mem_upsert he with he | rfl | ⟨_, _, rfl⟩
      · exact hs e he
      · exact hr
      · exact hr

theorem encodable_fetchLoop {s : Fetching} {attempts : List Attempt}
    (hs : ∀ e ∈ s.byUrl, e.2.encodable = true)
    (hr : ∀ a ∈ attempts, a.request.encodable = true) :
    ∀ e ∈ (fetchLoop p s attempts).1.byUrl, e.2.encodable = true := by
  induction attempts generalizing s with
  | nil => exact hs
  | cons a attempts ih =>
    obtain ⟨ha, hattempts⟩ := List.forall_mem_cons.mp hr
    have hone := encodable_fetchOne (p := p) hs ha a.now a.payload
    rw [fetchLoop]
    split_ifs
    · exact ih hone hattempts
    · exact hone

theorem mem_sortSources {s : Fetching} (hs : Sound p added s) :
    ((sortSources (s.byUrl.map Prod.snd)).map Source.url).Nodup ∧
      ∀ url ∈ s.byUrl.map Prod.fst,
        ∃ source ∈ sortSources (s.byUrl.map Prod.snd), source.url = url := by
  have hperm : (sortSources (s.byUrl.map Prod.snd)).Perm (s.byUrl.map Prod.snd) :=
    List.perm_insertionSort _ _
  have hkeys : (s.byUrl.map Prod.snd).map Source.url = s.byUrl.map Prod.fst := by
    rw [List.map_map]
    exact List.map_congr_left fun e he => (hs.stored e he).1
  refine ⟨(hperm.map Source.url).nodup_iff.mpr (hkeys ▸ hs.nodup), fun url hurl => ?_⟩
  obtain ⟨source, hsource, rfl⟩ := List.mem_map.mp (hkeys ▸ hurl)
  exact ⟨source, hperm.mem_iff.mpr hsource, rfl⟩

theorem fetch_cases (h : Consistent p added dir) (hrun : addedUrls p [run] ⊆ added)
    (hadded : Set.InjOn (addedName p) added) :
    fetch p run dir = (dir, false) ∨
    ∃ rs s ok, dir.index ≠ .emptied ∧ requests p run.cfg run.adds = some rs ∧ Sound p added s ∧
      Keeps p added ⟨dir.sources.map fun s => (s.url, s), dir.files⟩ s ∧
      (ok = true → ∀ r ∈ rs, r.url ∈ s.byUrl.map Prod.fst) ∧
      ((∀ r ∈ rs, r.encodable = true) → ∀ e ∈ s.byUrl, e.2.encodable = true) ∧
      (ok = false ∧ fetch p run dir = (⟨dir.index, s.files⟩, false) ∨ ok = true ∧
        ((sortSources (s.byUrl.map Prod.snd)).all Source.encodable = true ∧
          fetch p run dir = (⟨.written (sortSources (s.byUrl.map Prod.snd)), s.files⟩, true) ∨
        (sortSources (s.byUrl.map Prod.snd)).all Source.encodable = false ∧
          fetch p run dir = (⟨.emptied, s.files⟩, false))) := by
  cases hread : dir.index.read with
  | none => exact Or.inl (by rw [fetch, hread])
  | some sources =>
    cases hrs : requests p run.cfg run.adds with
    | none => exact Or.inl (by rw [fetch, hread, hrs])
    | some rs =>
      right
      have hsources : dir.sources = sources := by rw [RunDir.sources, hread, Option.getD_some]
      have hne : dir.index ≠ .emptied := by
        intro hempty
        rw [hempty] at hread
        cases hread
      have hbyUrl := byUrl_eq h
      rw [hsources] at hbyUrl
      obtain ⟨hsound, hkeeps, hmem⟩ := fetchLoop_sound hadded (sound_of_consistent h)
        fun a ha => known_of_mem_attempts hrun hrs ha
      have hbefore : ∀ e ∈ dir.sources.map fun s => (s.url, s), e.2.encodable = true := by
        intro e he
        obtain ⟨s, hs, rfl⟩ := List.mem_map.mp he
        exact h.encodable s hs
      have hencodable : (∀ a ∈ run.attempts rs, a.request.encodable = true) → ∀ e ∈ (fetchLoop p
          ⟨dir.sources.map fun s => (s.url, s), dir.files⟩ (run.attempts rs)).1.byUrl,
          e.2.encodable = true :=
        encodable_fetchLoop hbefore
      have hattempt : ∀ r ∈ rs, ∃ a ∈ run.attempts rs, a.request = r := by
        intro r hr
        rw [← map_request_attempts run rs] at hr
        exact List.mem_map.mp hr
      have hfetch : ∀ s ok, fetchLoop p ⟨sources.map fun s => (s.url, s), dir.files⟩
          (run.attempts rs) = (s, ok) → fetch p run dir = if ok then
            match writeIndex (sortSources (s.byUrl.map Prod.snd)) with
            | .written sources => (⟨.written sources, s.files⟩, true)
            | index => (⟨index, s.files⟩, false)
          else (⟨dir.index, s.files⟩, false) := by
        intro s ok hloop
        rw [fetch, hread, hrs]
        dsimp only
        rw [hbyUrl, hloop]
      rw [hsources] at hsound hkeeps hmem hencodable ⊢
      generalize fetchLoop p ⟨sources.map fun s => (s.url, s), dir.files⟩ (run.attempts rs) =
        result at hsound hkeeps hmem hencodable hfetch
      obtain ⟨s, ok⟩ := result
      refine ⟨rs, s, ok, hne, rfl, hsound, hkeeps, fun hok r hr => ?_,
        fun hall => hencodable fun a ha => hall _ (mem_of_mem_attempts ha), ?_⟩
      · obtain ⟨a, ha, rfl⟩ := hattempt r hr
        exact hmem hok a ha
      · rw [hfetch s ok rfl]
        cases ok with
        | false => exact Or.inl ⟨rfl, rfl⟩
        | true =>
          refine Or.inr ⟨rfl, ?_⟩
          rw [writeIndex]
          cases hall : (sortSources (s.byUrl.map Prod.snd)).all Source.encodable with
          | false => exact Or.inr ⟨rfl, rfl⟩
          | true => exact Or.inl ⟨rfl, rfl⟩

/-- One call keeps the index consistent, and loses no record and no file of one, unless it empties
the index. When it succeeds, the URLs it asked for are in the index. -/
theorem fetch_consistent (hadded : Set.InjOn (addedName p) added) (h : Consistent p added dir)
    (hrun : addedUrls p [run] ⊆ added) : Consistent p added (fetch p run dir).1 ∧
      Extends p added dir (fetch p run dir).1 ∧ ((fetch p run dir).2 = true →
        (fetch p run dir).1.index ≠ .emptied ∧ ∃ rs, requests p run.cfg run.adds = some rs ∧
          ∀ r ∈ rs, ∃ s ∈ (fetch p run dir).1.sources, s.url = r.url) := by
  rcases fetch_cases h hrun hadded with hsame | ⟨rs, s, ok, hne, hrs, hsound, hkeeps, hmem, -, hcases⟩
  · rw [hsame]
    exact ⟨h, Extends.refl dir, fun hok => by cases hok⟩
  have hurls : ∀ source ∈ dir.sources,
      source.url ∈ (dir.sources.map fun s => (s.url, s)).map Prod.fst := by
    intro source hsource
    rw [List.map_map]
    exact List.mem_map_of_mem hsource
  have hfiles : ∀ r : Request, r.Known p added → (∃ source ∈ dir.sources, source.url = r.url) →
      ∀ b, dir.files.lookup r.filename = some b → s.files.lookup r.filename = some b := by
    rintro r hr ⟨source, hsource, hurl⟩
    exact hkeeps.2 r hr (hurl ▸ hurls source hsource)
  obtain ⟨hnodup, hmem'⟩ := mem_sortSources hsound
  rcases hcases with ⟨-, heq⟩ | ⟨hok, ⟨hall, heq⟩ | ⟨-, heq⟩⟩
  · rw [heq]
    refine ⟨⟨h.nodup, h.sorted, h.encodable, fun source hsource => ?_⟩,
      ⟨fun hempty => absurd hempty hne, fun _ source hsource => ⟨source, hsource, rfl⟩, hfiles⟩,
      fun hok => by cases hok⟩
    exact hkeeps.stored (hurls source hsource) (h.stored source hsource)
  · rw [heq]
    refine ⟨⟨hnodup, List.pairwise_insertionSort _ _, List.all_eq_true.mp hall,
      fun source hsource => ?_⟩, ⟨fun hempty => absurd hempty hne, fun _ source hsource => ?_, hfiles⟩,
      fun _ => ⟨Index.noConfusion, rs, hrs, fun r hr => hmem' _ (hmem hok r hr)⟩⟩
    · obtain ⟨e, he, rfl⟩ := List.mem_map.mp ((List.perm_insertionSort _ _).mem_iff.mp hsource)
      exact (hsound.stored e he).2
    · exact hmem' _ (hkeeps.1 _ (hurls source hsource))
  · rw [heq]
    exact ⟨consistent_of_sources_eq_nil rfl,
      ⟨fun hempty => absurd hempty hne, fun hnot => absurd rfl hnot, hfiles⟩, fun hok => by cases hok⟩

theorem exists_of_emptied (hadded : Set.InjOn (addedName p) added) (h : Consistent p added dir)
    (hrun : addedUrls p [run] ⊆ added) (hne : dir.index ≠ .emptied)
    (hempty : (fetch p run dir).1.index = .emptied) :
    ∃ rs, requests p run.cfg run.adds = some rs ∧ ∃ r ∈ rs, r.encodable = false := by
  rcases fetch_cases h hrun hadded with hsame | ⟨rs, s, ok, -, hrs, -, -, -, hencodable, hcases⟩
  · rw [hsame] at hempty
    exact absurd hempty hne
  rcases hcases with ⟨-, heq⟩ | ⟨-, ⟨-, heq⟩ | ⟨hall, -⟩⟩
  · rw [heq] at hempty
    exact absurd hempty hne
  · rw [heq] at hempty
    cases hempty
  · refine ⟨rs, hrs, ?_⟩
    by_contra! hgood
    have hrecords := hencodable fun r hr => Bool.eq_true_of_not_eq_false (hgood r hr)
    refine absurd (List.all_eq_true.mpr fun source hsource => ?_) (Bool.eq_false_iff.mp hall)
    obtain ⟨e, he, rfl⟩ := List.mem_map.mp ((List.perm_insertionSort _ _).mem_iff.mp hsource)
    exact hrecords e he

theorem reach_concat (p : Platform) (runs : List Run) (run : Run) :
    reach p (runs ++ [run]) = (fetch p run (reach p runs)).1 := by
  rw [reach, List.foldl_append]
  rfl

theorem addedUrls_mono {runs runs' : List Run} (h : runs ⊆ runs') :
    addedUrls p runs ⊆ addedUrls p runs' := by
  rintro url ⟨run, hrun, hrest⟩
  exact ⟨run, h hrun, hrest⟩

theorem consistent_reach {runs : List Run} (hadded : Set.InjOn (addedName p) added)
    (hruns : addedUrls p runs ⊆ added) : Consistent p added (reach p runs) := by
  induction runs using List.reverseRecOn with
  | nil => exact consistent_of_sources_eq_nil rfl
  | append_singleton runs run ih =>
    rw [reach_concat]
    exact (fetch_consistent hadded (ih ((addedUrls_mono (by simp)).trans hruns))
      ((addedUrls_mono (by simp)).trans hruns)).1

theorem extends_reach {runs later : List Run} (hadded : Set.InjOn (addedName p) added)
    (hruns : addedUrls p (runs ++ later) ⊆ added) :
    Extends p added (reach p runs) (reach p (runs ++ later)) := by
  induction later using List.reverseRecOn with
  | nil =>
    rw [List.append_nil]
    exact Extends.refl _
  | append_singleton later run ih =>
    rw [← List.append_assoc] at hruns ⊢
    have hbefore : addedUrls p (runs ++ later) ⊆ added :=
      (addedUrls_mono (List.subset_append_left _ _)).trans hruns
    rw [reach_concat]
    exact (ih hbefore).trans (fetch_consistent hadded (consistent_reach hadded hbefore)
      ((addedUrls_mono (by simp)).trans hruns)).2.1

end Fetch

end Invariant

theorem exists_run_of_emptied {p : Platform} {runs : List Run} {added : Set Str}
    (hadded : Set.InjOn (addedName p) added) (hruns : addedUrls p runs ⊆ added)
    (hempty : (reach p runs).index = .emptied) :
    ∃ run ∈ runs, ∃ rs, requests p run.cfg run.adds = some rs ∧ ∃ r ∈ rs, r.encodable = false := by
  induction runs using List.reverseRecOn with
  | nil => cases hempty
  | append_singleton runs run ih =>
    have hbefore : addedUrls p runs ⊆ added := (addedUrls_mono (by simp)).trans hruns
    by_cases hne : (reach p runs).index = .emptied
    · obtain ⟨run', hrun', hrest⟩ := ih hbefore hne
      exact ⟨run', List.mem_append_left _ hrun', hrest⟩
    · rw [reach_concat] at hempty
      exact ⟨run, by simp, exists_of_emptied hadded (consistent_reach hadded hbefore)
        ((addedUrls_mono (by simp)).trans hruns) hne hempty⟩

/-- Over any calls, failed ones included: the index has one record for a URL, in its order, and
each tells the digest and the length of a file that is there. Later calls change no file of a record
and, unless they empty the index, lose no record, and a call that succeeds indexes all it asked for.
The index is emptied only for a request that cannot be encoded, and from then on all calls fail.
Only the shortened digests in the names of added sources must not collide. -/
theorem fetch_runs (p : Platform) (runs later : List Run)
    (hadded : Set.InjOn (addedName p) (addedUrls p (runs ++ later))) :
    let dir := reach p runs
    let dir' := reach p (runs ++ later)
    ((dir.sources.map Source.url).Nodup ∧
      dir.sources.Pairwise fun a b => toLex (a.type, a.url) ≤ toLex (b.type, b.url)) ∧
    (∀ s ∈ dir.sources, (dir'.index ≠ .emptied → ∃ s' ∈ dir'.sources, s'.url = s.url) ∧
      ∃ name b, s.path = sourcePath name ∧ dir.files.lookup name = some b ∧
        s.sha256 = p.sha256 b ∧ s.bytes = b.length ∧ dir'.files.lookup name = some b) ∧
    (∀ run rest, later = run :: rest → (fetch p run dir).2 = true → dir'.index ≠ .emptied →
      ∃ rs, requests p run.cfg run.adds = some rs ∧
        ∀ r ∈ rs, ∃ s ∈ dir'.sources, s.url = r.url) ∧
    (dir.index = .emptied → dir' = dir ∧ (∀ run, (fetch p run dir).2 = false) ∧
      ∃ run ∈ runs, ∃ rs, requests p run.cfg run.adds = some rs ∧
        ∃ r ∈ rs, r.encodable = false) := by
  intro dir dir'
  have hruns : addedUrls p runs ⊆ addedUrls p (runs ++ later) :=
    addedUrls_mono (List.subset_append_left runs later)
  have hconsistent := consistent_reach hadded hruns
  have hextends := extends_reach hadded (Set.Subset.refl _)
  refine ⟨⟨hconsistent.nodup, hconsistent.sorted⟩,
    fun s hs => ⟨fun hne => hextends.records hne s hs, ?_⟩, ?_, fun hempty => ⟨hextends.stays hempty,
      fun run => ?_, exists_run_of_emptied hadded hruns hempty⟩⟩
  · obtain ⟨r, b, hr, -, hurl, hpath, hb, hsha, hbytes⟩ := hconsistent.stored s hs
    exact ⟨r.filename, b, hpath, hb, hsha, hbytes, hextends.files r hr ⟨s, hs, hurl⟩ b hb⟩
  · rintro run rest rfl hok hne
    obtain ⟨-, -, hmem⟩ := fetch_consistent hadded hconsistent
      (addedUrls_mono (by simp : [run] ⊆ runs ++ run :: rest))
    obtain ⟨-, rs, hrs, hindexed⟩ := hmem hok
    refine ⟨rs, hrs, fun r hr => ?_⟩
    obtain ⟨s, hs, hurl⟩ := hindexed r hr
    have hsplit : runs ++ run :: rest = (runs ++ [run]) ++ rest := by simp
    rw [← reach_concat] at hs
    have hlast := extends_reach hadded (hsplit ▸ Set.Subset.refl _ :
      addedUrls p ((runs ++ [run]) ++ rest) ⊆ addedUrls p (runs ++ run :: rest))
    rw [← hsplit] at hlast
    obtain ⟨s', hs', hurl'⟩ := hlast.records hne s hs
    exact ⟨s', hs', hurl'.trans hurl⟩
  · rw [fetch, hempty]
    rfl

section Blog

def lengthPlatform : Platform where
  sha256 b := Nat.toDigits 10 b.length
  encode s := s.map fun c => c.toNat.toUInt8
  suffix _ := []

/-- A call for one version and its release blog, with a network that fails once. -/
def blogRun : Run where
  cfg := ⟨[(1, 36)], [((1, 36), "v1.36.0".toList)]⟩
  adds := ["release_blog=https://kubernetes.io/blog/kubernetes-v1-36-release".toList]
  net i n := if i = 1 ∧ n = 2 then .failed else .payload [1, 2, 3]
  now _ := "2026-04-22".toList

theorem injOn_blogRun (runs : List Run) (hruns : ∀ run ∈ runs, run = blogRun) :
    Set.InjOn (addedName lengthPlatform) (addedUrls lengthPlatform runs) := by
  have hurl : ∀ url ∈ addedUrls lengthPlatform runs,
      url = "https://kubernetes.io/blog/kubernetes-v1-36-release".toList := by
    rintro url ⟨run, hrun, item, hitem, r, hr, rfl⟩
    obtain rfl := hruns run hrun
    obtain rfl := List.mem_singleton.mp hitem
    obtain rfl := Option.some.inj hr
    decide
  intro url hmem url' hmem' _
  rw [hurl url hmem, hurl url' hmem']

theorem fetch_runs_blog : ∃ rs, requests lengthPlatform blogRun.cfg blogRun.adds = some rs ∧
    ∀ r ∈ rs, ∃ s ∈ (reach lengthPlatform [blogRun, blogRun]).sources, s.url = r.url := by
  obtain ⟨-, -, hlater, -⟩ := fetch_runs lengthPlatform [] [blogRun, blogRun]
    (injOn_blogRun _ (by simp))
  have hwritten : (reach lengthPlatform [blogRun, blogRun]).index.read.isSome = true := by
    decide +kernel
  refine hlater blogRun [blogRun] rfl (by decide +kernel) fun hempty => ?_
  change (reach lengthPlatform [blogRun, blogRun]).index = .emptied at hempty
  rw [hempty] at hwritten
  cases hwritten

end Blog

end K8sLearn.Fetch
