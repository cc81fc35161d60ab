import K8sLearn.Report.Sources

/-! # Packaging the data

`package_output` copies the feature-gate source of every version beside the report, after it has
found its record by URL and checked its digest, and lists the references. What it needs of the
downloads always holds after a call of `fetch_official` that went through, so only the refs and the
URLs of the documents can stop it. The text of `reference.md` is left to a parameter.
-/

namespace K8sLearn.Fetch

def officialHosts : List Str :=
  ["kubernetes.io/".toList, "github.com/kubernetes/".toList,
    "raw.githubusercontent.com/kubernetes/".toList, "kep.k8s.io/".toList]

def officialUrl (url : Str) : Bool :=
  "https://".toList <+: url && Str.containsAny officialHosts url

/-- The characters `[A-Za-z0-9._-]`. -/
def safeRef (ref : Str) : Bool :=
  ref ≠ [] && ref.all fun c => c.isAlphanum || c = '.' || c = '_' || c = '-'

/-- `contained_file`, with the bytes of the file. -/
def RunDir.read (dir : RunDir) (path : Str) : Option Bytes :=
  if "sources/".toList <+: path then dir.files.lookup (path.drop 8) else none

structure SourceRow where
  version : ℕ × ℕ
  ref : Str
  url : Str
  sha256 : Str
  payload : Bytes

structure Reference where
  type : Str
  url : Str
  sha256 : Str

/-- The data directory and the references it lists. -/
structure Package where
  rows : List SourceRow
  references : List Reference
  data : List (Str × Bytes)

section Copy

variable (p : Platform) (cfg : Config) (dir : RunDir)

def featureSources (ref : Str) : List Source :=
  (dir.sources.filter fun s => s.type = "kube_features".toList).filter fun s =>
    s.url = featuresUrl ref

/-- A round of the loop over the versions; `mkdir` needs a new directory. -/
def copyVersion (made : List SourceRow) (v : ℕ × ℕ) : Option SourceRow :=
  (cfg.refs.lookup v).bind fun ref =>
  match featureSources dir ref with
  | [record] => (dir.read record.path).bind fun payload =>
    if p.sha256 payload ≠ record.sha256 then none
    else if !safeRef ref then none
    else if ref ∈ [".".toList, "..".toList] ++ made.map SourceRow.ref then none
    else some ⟨v, ref, featuresUrl ref, record.sha256, payload⟩
  | _ => none

def copyVersions (made : List SourceRow) : List (ℕ × ℕ) → Option (List SourceRow)
  | [] => some made
  | v :: rest => (copyVersion p cfg dir made v).bind fun row => copyVersions (made ++ [row]) rest

/-- `collect_references`; the URLs of the documents are those of the analysis and of the catalog. -/
def collectReferences (documents : List Str) : Option (List Reference) :=
  if dir.sources.all fun s => officialUrl s.url then
    let byUrl := dir.sources.foldl
      (fun d s => upsert (fun _ a => a) s.url (⟨s.type, s.url, s.sha256⟩ : Reference) d) []
    if documents.all fun url => url = [] || officialUrl url then
      let byUrl := (documents.filter fun url => url ≠ []).foldl
        (fun d url => upsert (fun r _ => r) url ⟨"analysis_reference".toList, url, []⟩ d) byUrl
      some ((byUrl.map Prod.snd).insertionSort
        fun a b => toLex (a.type, a.url) ≤ toLex (b.type, b.url))
    else none
  else none

def blogMarkers (v : ℕ × ℕ) : List Str :=
  let text := Str.replace ['.'] ['-'] (fmt v)
  ["kubernetes-v".toList ++ text ++ "-release".toList,
    "kubernetes-v".toList ++ text ++ "-sneak-peek".toList]

def releaseBlogs (references : List Reference) (v : ℕ × ℕ) : List Reference :=
  (references.filter fun r => r.type = "release_blog".toList).filter fun r =>
    Str.containsAny (blogMarkers v) r.url

def dataName (ref : Str) : Str := ref ++ "/features.go".toList

def referenceName : Str := "reference.md".toList

/-- `main` of `package_output` after its arguments are checked: the data directory, unless the
script exits or raises. -/
def package (markdown : List SourceRow → List Reference → Bytes) (documents : List Str) :
    Option Package :=
  (copyVersions p cfg dir [] cfg.versions).bind fun rows =>
  (collectReferences dir documents).bind fun references =>
  if cfg.versions.all fun v => (releaseBlogs references v).length = 1 then
    if referenceName ∈ rows.map SourceRow.ref then none
    else
      let data := rows.map (fun row => (dataName row.ref, row.payload)) ++
        [(referenceName, markdown rows references)]
      some ⟨rows, references, data⟩
  else none

end Copy

section Fetched

variable {p : Platform} {cfg : Config} {dir : RunDir}

def Config.refOf (cfg : Config) (v : ℕ × ℕ) : Str := (cfg.refs.lookup v).getD []

/-- What the copies need of the downloads: one record for the source of a version, whose file is
there and has its digest. -/
def Fetched (p : Platform) (cfg : Config) (dir : RunDir) (v : ℕ × ℕ) : Prop :=
  cfg.refs.lookup v = some (cfg.refOf v) ∧ ∃ record payload,
    featureSources dir (cfg.refOf v) = [record] ∧ dir.read record.path = some payload ∧
      p.sha256 payload = record.sha256

/-- The refs that can be names of new directories beside each other. -/
def Placeable (refs : List Str) : Prop :=
  refs.Nodup ∧ ∀ ref ∈ refs, safeRef ref = true ∧ ref ∉ [".".toList, "..".toList]

def defaultRef (v : ℕ × ℕ) : Str := 'v' :: fmt v ++ ".0".toList

theorem defaultRef_inj {major m n : ℕ} (h : defaultRef (major, m) = defaultRef (major, n)) :
    m = n := by
  have hfmt : fmt (major, m) = fmt (major, n) :=
    (List.cons.inj (List.append_cancel_right h)).2
  exact Str.toDigits_injective (List.cons.inj (List.append_cancel_left hfmt)).2

theorem safeRef_defaultRef (v : ℕ × ℕ) : safeRef (defaultRef v) = true := by
  have hdigit : ∀ n, ∀ c ∈ Nat.toDigits 10 n, (c.isAlphanum || c = '.' || c = '_' || c = '-') := by
    rintro n c hc
    simp [Char.isAlphanum, Str.isDigit_of_mem_toDigits hc]
  have hfmt : ∀ c ∈ fmt v, (c.isAlphanum || c = '.' || c = '_' || c = '-') := by
    rintro c hc
    rcases List.mem_append.mp hc with hc | hc
    · exact hdigit v.1 c hc
    · rcases List.mem_cons.mp hc with rfl | hc
      · rfl
      · exact hdigit v.2 c hc
  have hend : ∀ c ∈ ".0".toList, (c.isAlphanum || c = '.' || c = '_' || c = '-') := by decide
  rw [safeRef, Bool.and_eq_true]
  refine ⟨by simp [defaultRef], List.all_eq_true.mpr ?_⟩
  rintro c hc
  rcases List.mem_append.mp hc with hc | hc
  · rcases List.mem_cons.mp hc with rfl | hc
    · rfl
    · exact hfmt c hc
  · exact hend c hc

theorem placeable_initRun {start stop : ℕ × ℕ}
    (h : initRun start stop none none = some cfg) :
    Placeable (cfg.versions.map cfg.refOf) ∧ referenceName ∉ cfg.versions.map cfg.refOf := by
  unfold initRun at h
  split_ifs at h
  obtain rfl := Option.some.inj h
  have hnodup : ((List.range' start.2 (stop.2 + 1 - start.2)).map fun m => (start.1, m)).Nodup :=
    (List.nodup_range' 1).map fun a b hab => (Prod.mk.inj hab).2
  generalize hversions : ((List.range' start.2 (stop.2 + 1 - start.2)).map fun m => (start.1, m)) =
    versions at hnodup
  have hmajor : ∀ v ∈ versions, v.1 = start.1 := by
    rintro v hv
    rw [← hversions] at hv
    obtain ⟨m, -, rfl⟩ := List.mem_map.mp hv
    rfl
  have hrefs : versions.map (Config.refOf ⟨versions, versions.map fun v => (v, defaultRef v)⟩) =
      versions.map defaultRef := by
    refine List.map_congr_left fun v hv => ?_
    rw [Config.refOf, lookup_of_nodup (fun v => v) defaultRef (by rwa [List.map_id']) hv,
      Option.getD_some]
  have hgoal : Placeable (versions.map defaultRef) ∧ referenceName ∉ versions.map defaultRef := by
    refine ⟨⟨?_, ?_⟩, ?_⟩
    · refine hnodup.map_on ?_
      rintro ⟨a, m⟩ hm ⟨b, n⟩ hn heq
      obtain rfl : a = start.1 := hmajor _ hm
      obtain rfl : b = start.1 := hmajor _ hn
      rw [defaultRef_inj heq]
    · rw [List.forall_mem_map]
      rintro v -
      refine ⟨safeRef_defaultRef v, ?_⟩
      simp [defaultRef]
    · rintro hmem
      obtain ⟨v, -, hv⟩ := List.mem_map.mp hmem
      cases (List.cons.inj hv).1
  rw [← hrefs] at hgoal
  exact hgoal

theorem copyVersion_isSome_iff {made : List SourceRow} {v : ℕ × ℕ} (h : Fetched p cfg dir v) :
    (copyVersion p cfg dir made v).isSome ↔ safeRef (cfg.refOf v) = true ∧
      cfg.refOf v ∉ [".".toList, "..".toList] ++ made.map SourceRow.ref := by
  obtain ⟨href, record, payload, hrecord, hread, hsha⟩ := h
  simp only [copyVersion, href, Option.bind_some, hrecord, hread, hsha, ne_eq, not_true, if_false]
  by_cases hsafe : safeRef (cfg.refOf v) = true
  · rw [hsafe]
    split_ifs with hmem <;> simp_all
  · simp [hsafe]

structure Copied (p : Platform) (cfg : Config) (dir : RunDir) (v : ℕ × ℕ) (row : SourceRow) :
    Prop where
  version : row.version = v
  ref : row.ref = cfg.refOf v
  url : row.url = featuresUrl (cfg.refOf v)
  record : ∃ record, featureSources dir (cfg.refOf v) = [record] ∧
    dir.read record.path = some row.payload ∧ row.sha256 = record.sha256
  digest : p.sha256 row.payload = row.sha256

theorem copied_of_copyVersion {made : List SourceRow} {v : ℕ × ℕ} {row : SourceRow}
    (h : copyVersion p cfg dir made v = some row) : Copied p cfg dir v row := by
  obtain ⟨ref, href, h⟩ := Option.bind_eq_some_iff.mp h
  have hof : cfg.refOf v = ref := by rw [Config.refOf, href, Option.getD_some]
  split at h
  · rename_i record hrecord
    obtain ⟨payload, hread, h⟩ := Option.bind_eq_some_iff.mp h
    split_ifs at h with hsha
    obtain rfl := Option.some.inj h
    subst hof
    exact ⟨rfl, rfl, rfl, ⟨record, hrecord, hread, rfl⟩, not_not.mp hsha⟩
  · cases h

theorem copied_of_copyVersions {vs : List (ℕ × ℕ)} {made rows : List SourceRow}
    (h : copyVersions p cfg dir made vs = some rows) :
    ∃ new, rows = made ++ new ∧ List.Forall₂ (Copied p cfg dir) vs new := by
  induction vs generalizing made with
  | nil =>
    obtain rfl := Option.some.inj h
    exact ⟨[], by simp, .nil⟩
  | cons v vs ih =>
    obtain ⟨row, hrow, h⟩ := Option.bind_eq_some_iff.mp h
    obtain ⟨new, rfl, hnew⟩ := ih h
    exact ⟨row :: new, by simp, .cons (copied_of_copyVersion hrow) hnew⟩

theorem Copied.exists_source {v : ℕ × ℕ} {row : SourceRow} (h : Copied p cfg dir v row) :
    ∃ s ∈ dir.sources, s.url = featuresUrl row.ref ∧ dir.read s.path = some row.payload ∧
      p.sha256 row.payload = s.sha256 ∧ row.sha256 = s.sha256 := by
  obtain ⟨s, hone, hread, hsha⟩ := h.record
  have hmem : s ∈ featureSources dir (cfg.refOf v) := hone ▸ List.mem_singleton_self s
  obtain ⟨hmem, hurl⟩ := List.mem_filter.mp hmem
  refine ⟨s, (List.mem_filter.mp hmem).1, ?_, hread, h.digest.trans hsha, hsha⟩
  rw [h.ref]
  exact of_decide_eq_true hurl

theorem map_ref_of_copied {vs : List (ℕ × ℕ)} {rows : List SourceRow}
    (h : List.Forall₂ (Copied p cfg dir) vs rows) :
    rows.map SourceRow.ref = vs.map cfg.refOf := by
  induction h with
  | nil => rfl
  | cons hrow _ ih => rw [List.map_cons, List.map_cons, ih, hrow.ref]

theorem copyVersions_isSome_iff {vs : List (ℕ × ℕ)} {made : List SourceRow}
    (h : ∀ v ∈ vs, Fetched p cfg dir v) : (copyVersions p cfg dir made vs).isSome ↔
      Placeable (vs.map cfg.refOf) ∧ (made.map SourceRow.ref).Disjoint (vs.map cfg.refOf) := by
  induction vs generalizing made with
  | nil => simp [copyVersions, Placeable]
  | cons v vs ih =>
    obtain ⟨hv, hvs⟩ := List.forall_mem_cons.mp h
    have hone : (copyVersion p cfg dir made v).isSome ↔ _ := copyVersion_isSome_iff hv
    rw [List.mem_append, not_or] at hone
    rw [copyVersions, List.map_cons]
    cases hrow : copyVersion p cfg dir made v with
    | none =>
      rw [hrow] at hone
      have hno := hone.not.mp (by simp)
      constructor
      · rintro ⟨⟩
      · rintro ⟨⟨-, hsafe⟩, hdisj⟩
        obtain ⟨hsafe, hdots⟩ := hsafe _ List.mem_cons_self
        exact absurd ⟨hsafe, hdots, fun hmade => hdisj hmade List.mem_cons_self⟩ hno
    | some row =>
      rw [hrow] at hone
      obtain ⟨hsafe, hdots, hmade⟩ := hone.mp rfl
      rw [Option.bind_some, ih hvs, List.map_append, List.map_singleton,
        (copied_of_copyVersion hrow).ref]
      constructor
      · rintro ⟨⟨hnodup, hrest⟩, hdisj⟩
        have hnew : cfg.refOf v ∉ vs.map cfg.refOf := fun hmem => hdisj (by simp) hmem
        refine ⟨⟨List.nodup_cons.mpr ⟨hnew, hnodup⟩,
          List.forall_mem_cons.mpr ⟨⟨hsafe, hdots⟩, hrest⟩⟩, fun ref hm hmem => ?_⟩
        rcases List.mem_cons.mp hmem with rfl | hmem
        · exact hmade hm
        · exact hdisj (List.mem_append_left _ hm) hmem
      · rintro ⟨⟨hnodup, hrest⟩, hdisj⟩
        obtain ⟨hnew, hnodup⟩ := List.nodup_cons.mp hnodup
        refine ⟨⟨hnodup, (List.forall_mem_cons.mp hrest).2⟩, fun ref hm hmem => ?_⟩
        rcases List.mem_append.mp hm with hm | hm
        · exact hdisj hm (List.mem_cons_of_mem _ hmem)
        · exact hnew (List.mem_singleton.mp hm ▸ hmem)

theorem collectReferences_isSome_iff (documents : List Str) :
    (collectReferences dir documents).isSome ↔ (∀ s ∈ dir.sources, officialUrl s.url = true) ∧
      ∀ url ∈ documents, url = [] ∨ officialUrl url = true := by
  unfold collectReferences
  split_ifs with hindex hdocs
  · simp only [List.all_eq_true, Bool.or_eq_true, decide_eq_true_eq] at hindex hdocs
    exact iff_of_true rfl ⟨hindex, hdocs⟩
  · simp only [List.all_eq_true, Bool.or_eq_true, decide_eq_true_eq] at hindex hdocs
    exact iff_of_false (by simp) fun h => hdocs h.2
  · simp only [List.all_eq_true] at hindex
    exact iff_of_false (by simp) fun h => hindex h.1

end Fetched

section Downloaded

variable {p : Platform} {runs : List Run} {run : Run}

theorem read_sourcePath (dir : RunDir) (name : Str) :
    dir.read (sourcePath name) = dir.files.lookup name := by
  have hprefix : "sources/".toList <+: sourcePath name := List.prefix_append _ _
  rw [RunDir.read, if_pos hprefix]
  rfl

theorem append_ne_append {a b s t : Str} (h : ¬ (s <:+ t ∨ t <:+ s)) : a ++ s ≠ b ++ t := by
  intro heq
  exact h (List.suffix_or_suffix_of_suffix (List.suffix_append a s)
    (heq ▸ List.suffix_append b t))

theorem type_of_featuresUrl {added : Set Str} {r : Request} {ref : Str}
    (hadded : featuresUrl ref ∉ added) (h : r.Known p added) (hurl : r.url = featuresUrl ref) :
    r.type = "kube_features".toList := by
  rcases h with h | ⟨hmem, -⟩
  · obtain ⟨v, ref', rfl | rfl | rfl⟩ := h.cases
    · rfl
    · exact absurd hurl (append_ne_append (by decide))
    · exact absurd hurl (append_ne_append (by decide))
  · exact absurd (hurl ▸ hmem) hadded

theorem filter_eq_singleton {α β : Type*} [DecidableEq β] {f : α → β} {l : List α}
    (hl : (l.map f).Nodup) {a : α} (ha : a ∈ l) : l.filter (fun b => f b = f a) = [a] := by
  induction l with
  | nil => cases ha
  | cons b l ih =>
    obtain ⟨hb, hl⟩ := List.nodup_cons.mp hl
    rcases List.mem_cons.mp ha with rfl | ha
    · rw [List.filter_cons_of_pos (by simp), List.filter_eq_nil_iff.mpr]
      rintro c hc heq
      exact hb (of_decide_eq_true heq ▸ List.mem_map_of_mem hc)
    · have hne : f b ≠ f a := fun h => hb (h ▸ List.mem_map_of_mem ha)
      rw [List.filter_cons_of_neg (by simpa using hne), ih hl ha]

theorem fetched_of_fetch (hadded : Set.InjOn (addedName p) (addedUrls p (runs ++ [run])))
    (hfixed : ∀ ref, featuresUrl ref ∉ addedUrls p (runs ++ [run]))
    (hok : (fetch p run (reach p runs)).2 = true) :
    ∀ v ∈ run.cfg.versions, Fetched p run.cfg (reach p (runs ++ [run])) v := by
  intro v hv
  have hconsistent := consistent_reach hadded (Set.Subset.refl _)
  have hbefore := consistent_reach hadded (addedUrls_mono (List.subset_append_left runs [run]))
  obtain ⟨-, rs, hrs, hindexed⟩ := (fetch_consistent hadded hbefore
    (addedUrls_mono (List.subset_append_right runs [run]))).2.2 hok
  rw [← reach_concat] at hindexed
  obtain ⟨fixed, hfix, hrest⟩ := Option.bind_eq_some_iff.mp hrs
  obtain ⟨extra, hextra, rfl⟩ := Option.map_eq_some_iff.mp hrest
  obtain ⟨l, hl, hv⟩ := (Lists.exists_mem_of_forall₂ (Lists.forall₂_of_mapM hfix)).2 v hv
  obtain ⟨ref, href, rfl⟩ := Option.map_eq_some_iff.mp hv
  have hof : run.cfg.refOf v = ref := by rw [Config.refOf, href, Option.getD_some]
  obtain ⟨s, hs, hurl⟩ : ∃ s ∈ (reach p (runs ++ [run])).sources, s.url = featuresUrl ref :=
    hindexed ⟨"kube_features".toList, featuresUrl ref, refName "kube_features-" v ref ".go"⟩
      (List.mem_append_left _ (List.mem_append_left _
        (List.mem_flatten.mpr ⟨_, hl, List.mem_cons_self⟩)))
  obtain ⟨r, b, hr, htype, hrurl, hpath, hfile, hsha, -⟩ := hconsistent.stored s hs
  have hkind : s.type = "kube_features".toList :=
    htype.trans (type_of_featuresUrl (hfixed ref) hr (hrurl.symm.trans hurl))
  rw [Fetched, hof]
  refine ⟨href, s, b, ?_, by rw [hpath, read_sourcePath, hfile], hsha.symm⟩
  have hone := filter_eq_singleton hconsistent.nodup hs
  rw [featureSources, List.filter_comm, ← hurl, hone]
  exact List.filter_eq_self.mpr fun t ht => decide_eq_true (List.mem_singleton.mp ht ▸ hkind)

end Downloaded

section References

variable {dir : RunDir} {documents : List Str} {references : List Reference}

theorem upsert_keep_of_mem {α : Type*} {k : Str} {a : α} {d : List (Str × α)}
    (h : k ∈ d.map Prod.fst) : upsert (fun r _ => r) k a d = d := by
  induction d with
  | nil => cases h
  | cons e d ih =>
    rw [upsert]
    split_ifs with hk
    · rfl
    · rcases List.mem_cons.mp h with rfl | h
      · exact absurd rfl hk
      · rw [ih h]

theorem filter_foldl_upsert_keep {q : Reference → Bool} (documents : List Str)
    (hq : ∀ url, q ⟨"analysis_reference".toList, url, []⟩ = false) (d : List (Str × Reference)) :
    ((documents.foldl (fun d url =>
      upsert (fun r _ => r) url ⟨"analysis_reference".toList, url, []⟩ d) d).map
        Prod.snd).filter q =
        (d.map Prod.snd).filter q := by
  induction documents generalizing d with
  | nil => rfl
  | cons url documents ih =>
    rw [List.foldl_cons, ih]
    by_cases hmem : url ∈ d.map Prod.fst
    · rw [upsert_keep_of_mem hmem]
    · rw [upsert_of_not_mem hmem, List.map_append, List.filter_append, List.map_singleton,
        List.filter_singleton, hq]
      exact List.append_nil _

theorem length_releaseBlogs (hnodup : (dir.sources.map Source.url).Nodup)
    (h : collectReferences dir documents = some references) (v : ℕ × ℕ) :
    (releaseBlogs references v).length = ((dir.sources.filter fun s =>
      s.type = "release_blog".toList).filter fun s =>
        Str.containsAny (blogMarkers v) s.url).length := by
  rw [collectReferences] at h
  split_ifs at h
  obtain rfl := Option.some.inj h
  have hbyUrl : dir.sources.foldl
      (fun d s => upsert (fun _ a => a) s.url (⟨s.type, s.url, s.sha256⟩ : Reference) d) [] =
        dir.sources.map fun s => (s.url, (⟨s.type, s.url, s.sha256⟩ : Reference)) :=
    foldl_upsert (by simpa using hnodup)
  have hperm := List.perm_insertionSort
    (fun a b : Reference => toLex (a.type, a.url) ≤ toLex (b.type, b.url))
    (((documents.filter fun url => url ≠ []).foldl (fun d url =>
      upsert (fun r _ => r) url ⟨"analysis_reference".toList, url, []⟩ d)
        (dir.sources.map fun s => (s.url, (⟨s.type, s.url, s.sha256⟩ : Reference)))).map Prod.snd)
  have hkind : decide ("analysis_reference".toList = "release_blog".toList) = false := by decide
  rw [hbyUrl, releaseBlogs, ((hperm.filter _).filter _).length_eq,
    filter_foldl_upsert_keep _ fun _ => hkind, List.map_map, List.filter_map,
    List.filter_map, List.length_map]
  rfl

end References

theorem package_eq_some_iff {p : Platform} {cfg : Config} {dir : RunDir}
    {markdown : List SourceRow → List Reference → Bytes} {documents : List Str} {pkg : Package} :
    package p cfg dir markdown documents = some pkg ↔ ∃ rows references,
      copyVersions p cfg dir [] cfg.versions = some rows ∧
      collectReferences dir documents = some references ∧
      (∀ v ∈ cfg.versions, (releaseBlogs references v).length = 1) ∧
      referenceName ∉ rows.map SourceRow.ref ∧
      pkg = ⟨rows, references, rows.map (fun row => (dataName row.ref, row.payload)) ++
        [(referenceName, markdown rows references)]⟩ := by
  simp only [package, Option.bind_eq_some_iff]
  constructor
  · rintro ⟨rows, hcopied, references, hcollected, h⟩
    split_ifs at h with hblogs hname
    exact ⟨rows, references, hcopied, hcollected,
      fun v hv => of_decide_eq_true (List.all_eq_true.mp hblogs v hv), hname,
      (Option.some.inj h).symm⟩
  · rintro ⟨rows, references, hcopied, hcollected, hblogs, hname, rfl⟩
    have hall : cfg.versions.all fun v => (releaseBlogs references v).length = 1 :=
      List.all_eq_true.mpr fun v hv => decide_eq_true (hblogs v hv)
    exact ⟨rows, hcopied, references, hcollected, by rw [if_pos hall, if_neg hname]⟩

end K8sLearn.Fetch
