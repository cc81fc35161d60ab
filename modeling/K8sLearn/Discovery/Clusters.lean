import Mathlib.Algebra.Order.Ring.Unbundled.Rat
import Mathlib.Data.List.Sort
import K8sLearn.Discovery.Agents
import K8sLearn.Lib.Lists
import K8sLearn.Lib.UnionFind

/-! # Clusters of source files

Files whose names contain a keyword of an operator are filed under it. The others are joined where
the names they call are alike: names that most of the files call are left out, and two files with
names left are joined when enough of their names are common. The clusters that are found so are
the connected components of the graph of these pairs, whatever the order of the files.
-/

namespace K8sLearn.Discovery

open UnionFind K8sLearn.Lists

def opKeywords : List String :=
  ["conv", "pool", "resize", "slice", "pad", "lstm", "rnn", "gru", "softmax", "gather", "scatter",
    "cast", "quant", "fill", "reshape", "matmul", "batch", "norm", "crop", "split", "concat",
    "reverse", "topk", "arg_min", "cum", "tile", "one_hot", "matrix", "rfft", "fft", "svdf",
    "add_n", "depthwise"]

section Model

variable (t : TextTables)

def keyword (f : Path) : Option String :=
  opKeywords.find? fun kw => kw.toList <:+: t.lower (fileName f)

def keywordClusters (files : List Path) : List (Str × List Path) :=
  ((group (keyword t) files).filter fun e => 2 ≤ e.2.length).map fun e => (e.1.toList, e.2)

-- the rounding of a quotient
variable (fl : ℚ → ℚ) (simThresh : ℚ) (calls : Path → Finset Str) (leftover : List Path)

def freq (c : Str) : ℕ := leftover.dedup.countP fun f => c ∈ calls f

/-- The names that more than half of the files call. -/
def common : Finset Str :=
  (leftover.toFinset.biUnion calls).filter fun c =>
    1 / 2 < fl ((freq calls leftover c : ℚ) / leftover.length)

def distinctive (f : Path) : Finset Str := calls f \ common fl calls leftover

def Similar (a b : Path) : Prop :=
  let sa := distinctive fl calls leftover a
  let sb := distinctive fl calls leftover b
  sa ≠ ∅ ∧ sb ≠ ∅ ∧ simThresh ≤ fl (((sa ∩ sb).card : ℚ) / (sa ∪ sb).card)

instance (a b : Path) : Decidable (Similar fl simThresh calls leftover a b) :=
  inferInstanceAs (Decidable (_ ∧ _ ∧ _))

def similarPairs : List (Path × Path) :=
  (pairs leftover).filter fun e => Similar fl simThresh calls leftover e.1 e.2

/-- The label of a cluster names three of its files. -/
def miscLabel (fs : List Path) : Str :=
  "misc:".toList ++
    Str.join [','] ((fs.take 3).map fun f => Str.replace ".cc".toList [] (fileName f))

/-- The clusters of the files without keywords. The fuel bounds the rounds of `find`. -/
def callClusters (fuel : ℕ) : Option (List (Str × List Path)) :=
  (unionAll fuel id (similarPairs fl simThresh calls leftover)).bind fun parent =>
    (classes fuel parent leftover).map fun cl =>
      (cl.filter fun e => 2 ≤ e.2.length).map fun e => (miscLabel e.2, e.2)

/-- `auto_cluster`, given what every file calls. -/
def autoCluster (fuel : ℕ) (files : List Path) : Option (List (Str × List Path)) :=
  (callClusters fl simThresh calls (files.filter fun f => (keyword t f).isNone) fuel).map
    fun misc => (keywordClusters t files ++ misc).insertionSort fun a b => b.2.length ≤ a.2.length

end Model

section Graph

variable {fl : ℚ → ℚ} {simThresh : ℚ} {calls : Path → Finset Str} {files : List Path} {a b : Path}

theorem Similar.symm (h : Similar fl simThresh calls files a b) :
    Similar fl simThresh calls files b a := by
  obtain ⟨ha, hb, hle⟩ := h
  refine ⟨hb, ha, ?_⟩
  rwa [Finset.inter_comm, Finset.union_comm]

variable (fl simThresh calls files) in
def similarityGraph : SimpleGraph Path where
  Adj a b := a ≠ b ∧ a ∈ files ∧ b ∈ files ∧ Similar fl simThresh calls files a b
  symm := ⟨fun _ _ h => ⟨h.1.symm, h.2.2.1, h.2.1, h.2.2.2.symm⟩⟩
  loopless := ⟨fun _ h => h.1 rfl⟩

theorem mem_of_reachable (h : (similarityGraph fl simThresh calls files).Reachable a b)
    (hne : a ≠ b) : a ∈ files := by
  obtain ⟨w⟩ := h
  cases w with
  | nil => exact absurd rfl hne
  | cons hadj _ => exact hadj.2.1

theorem reachable_iff_eqvGen (hnodup : files.Nodup) :
    (similarityGraph fl simThresh calls files).Reachable a b ↔
      Relation.EqvGen (fun a b => (a, b) ∈ similarPairs fl simThresh calls files) a b := by
  constructor
  · rintro ⟨w⟩
    induction w with
    | nil => exact .refl _
    | cons hadj _ ih =>
      obtain ⟨hne, ha, hb, hsim⟩ := hadj
      refine .trans _ _ _ ?_ ih
      rcases mem_pairs_or ha hb hne with hmem | hmem
      · exact .rel _ _ (List.mem_filter.mpr ⟨hmem, decide_eq_true hsim⟩)
      · exact .symm _ _ (.rel _ _ (List.mem_filter.mpr ⟨hmem, decide_eq_true hsim.symm⟩))
  · intro h
    induction h with
    | rel a b h =>
      obtain ⟨hmem, hsim⟩ := List.mem_filter.mp h
      obtain ⟨ha, hb⟩ := mem_of_mem_pairs hmem
      exact SimpleGraph.Adj.reachable
        ⟨ne_of_mem_pairs hnodup hmem, ha, hb, of_decide_eq_true hsim⟩
    | refl a => exact .refl a
    | symm a b _ ih => exact ih.symm
    | trans a b c _ _ ih ih' => exact ih.trans ih'

theorem reachable_iff_label (hnodup : files.Nodup) :
    (similarityGraph fl simThresh calls files).Reachable a b ↔
      joinAll id (similarPairs fl simThresh calls files) a =
        joinAll id (similarPairs fl simThresh calls files) b :=
  (reachable_iff_eqvGen hnodup).trans joinAll_eq_iff.symm

theorem similarityGraph_perm {files' : List Path} (h : files'.Perm files) :
    similarityGraph fl simThresh calls files' = similarityGraph fl simThresh calls files := by
  have hcommon : common fl calls files' = common fl calls files := by
    unfold common freq
    rw [List.toFinset_eq_of_perm _ _ h, h.length_eq]
    simp only [(h.dedup).countP_eq]
  have hsim : ∀ a b,
      Similar fl simThresh calls files' a b ↔ Similar fl simThresh calls files a b := by
    intro a b
    unfold Similar distinctive
    rw [hcommon]
  ext a b
  simp only [similarityGraph, h.mem_iff, hsim]

end Graph

section Clusters

variable (t : TextTables) (fl : ℚ → ℚ) (simThresh : ℚ) (calls : Path → Finset Str)
  {files : List Path} {fuel : ℕ}

def labelClasses (files : List Path) : List (Path × List Path) :=
  (group (fun f => some (joinAll id (similarPairs fl simThresh calls files) f)) files).filter
    fun e => 2 ≤ e.2.length

theorem callClusters_eq (hfuel : files.length * files.length ≤ fuel) :
    callClusters fl simThresh calls files fuel =
      some ((labelClasses fl simThresh calls files).map fun e => (miscLabel e.2, e.2)) := by
  have hlen : 0 + (similarPairs fl simThresh calls files).length ≤ fuel := by
    rw [Nat.zero_add]
    exact ((List.length_filter_le _ _).trans (length_pairs_le files)).trans hfuel
  obtain ⟨parent, hunion, hlabelled⟩ := labelled_id.unionAll hlen
  rw [callClusters, hunion, Option.bind_some, hlabelled.classes hlen]
  rfl

theorem keywordClusters_eq_nil {t : TextTables} (h : ∀ f ∈ files, keyword t f = none) :
    keywordClusters t files = [] := by
  have hgroup : group (keyword t) files = [] := by
    refine List.eq_nil_iff_forall_not_mem.mpr fun e he => ?_
    obtain ⟨heq, hne⟩ := mem_group_iff.mp he
    refine hne (heq.trans (List.filter_eq_nil_iff.mpr fun f hf => ?_))
    rw [h f hf]
    simp
  rw [keywordClusters, hgroup]
  rfl

theorem autoCluster_eq {t : TextTables} (h : ∀ f ∈ files, keyword t f = none)
    (hfuel : files.length * files.length ≤ fuel) :
    ∃ out, autoCluster t fl simThresh calls fuel files = some out ∧
      out.Perm ((labelClasses fl simThresh calls files).map fun e => (miscLabel e.2, e.2)) := by
  have hleft : files.filter (fun f => (keyword t f).isNone) = files :=
    List.filter_eq_self.mpr fun f hf => by rw [h f hf]; rfl
  rw [autoCluster, hleft, callClusters_eq fl simThresh calls hfuel, Option.map_some,
    keywordClusters_eq_nil h]
  exact ⟨_, rfl, List.perm_insertionSort _ _⟩

theorem mem_clusters_iff {t : TextTables} (hnodup : files.Nodup)
    (h : ∀ f ∈ files, keyword t f = none) (hfuel : files.length * files.length ≤ fuel) :
    ∃ out, autoCluster t fl simThresh calls fuel files = some out ∧
      (∀ c : Finset Path, c ∈ out.map (fun e => e.2.toFinset) ↔ 2 ≤ c.card ∧
        ∃ C : (similarityGraph fl simThresh calls files).ConnectedComponent,
          (c : Set Path) = C.supp) ∧
      (out.map Prod.snd).Pairwise List.Disjoint ∧ ∀ e ∈ out, e.2.Nodup ∧ 2 ≤ e.2.length := by
  obtain ⟨out, hout, hperm⟩ := autoCluster_eq fl simThresh calls h hfuel
  refine ⟨out, hout, fun c => ?_, ?_, fun e he => ?_⟩
  · rw [← mem_classes_iff (reachable_iff_label hnodup) mem_of_reachable hnodup,
      (hperm.map _).mem_iff]
    simp only [labelClasses, List.map_map, List.mem_map, List.mem_filter, decide_eq_true_eq,
      Function.comp_apply, and_assoc]
  · have hpair : (labelClasses fl simThresh calls files).Pairwise fun e e' => e.2.Disjoint e'.2 :=
      (pairwise_disjoint_group _ files).filter _
    refine ((hperm.map Prod.snd).pairwise_iff fun h => h.symm).mpr ?_
    rw [List.map_map]
    exact List.pairwise_map.mpr hpair
  · obtain ⟨e', he', rfl⟩ := List.mem_map.mp (hperm.mem_iff.mp he)
    obtain ⟨hmem, hlen⟩ := List.mem_filter.mp he'
    refine ⟨?_, of_decide_eq_true hlen⟩
    rw [(mem_group_iff.mp hmem).1]
    exact hnodup.filter _

open Classical in
theorem together_iff {t : TextTables} (hnodup : files.Nodup) (h : ∀ f ∈ files, keyword t f = none)
    (hfuel : files.length * files.length ≤ fuel) :
    ∃ out, autoCluster t fl simThresh calls fuel files = some out ∧ ∀ a b, a ≠ b →
      ((∃ e ∈ out, a ∈ e.2 ∧ b ∈ e.2) ↔
        (similarityGraph fl simThresh calls files).Reachable a b) := by
  obtain ⟨out, hout, hmem, -⟩ := mem_clusters_iff fl simThresh calls hnodup h hfuel
  refine ⟨out, hout, fun a b hne => ⟨?_, fun hab => ?_⟩⟩
  · rintro ⟨e, he, ha, hb⟩
    obtain ⟨-, C, hC⟩ := (hmem e.2.toFinset).mp (List.mem_map_of_mem he)
    have hin : ∀ f ∈ e.2, (similarityGraph fl simThresh calls files).connectedComponentMk f = C :=
      fun f hf => (Set.ext_iff.mp hC f).mp (by simpa using hf)
    exact SimpleGraph.ConnectedComponent.exact ((hin a ha).trans (hin b hb).symm)
  · let c := files.toFinset.filter fun f =>
      (similarityGraph fl simThresh calls files).Reachable f a
    have ha : a ∈ c := by simp [c, mem_of_reachable hab hne]
    have hb : b ∈ c := by simp [c, mem_of_reachable hab.symm hne.symm, hab.symm]
    have hc : c ∈ out.map fun e => e.2.toFinset := by
      refine (hmem c).mpr ⟨Finset.one_lt_card.mpr ⟨a, ha, b, hb, hne⟩,
        (similarityGraph fl simThresh calls files).connectedComponentMk a, ?_⟩
      ext f
      simp only [c, Finset.coe_filter, List.mem_toFinset,
        SimpleGraph.ConnectedComponent.mem_supp_iff, SimpleGraph.ConnectedComponent.eq]
      refine and_iff_right_of_imp fun hf => ?_
      by_cases hfa : f = a
      · exact hfa ▸ mem_of_reachable hab hne
      · exact mem_of_reachable hf hfa
    obtain ⟨e, he, heq⟩ := List.mem_map.mp hc
    exact ⟨e, he, List.mem_toFinset.mp (heq ▸ ha), List.mem_toFinset.mp (heq ▸ hb)⟩

theorem nodup_toFinset {out : List (Str × List Path)}
    (h : (out.map Prod.snd).Pairwise List.Disjoint) (hlen : ∀ e ∈ out, e.2.Nodup ∧ 2 ≤ e.2.length) :
    (out.map fun e => e.2.toFinset).Nodup := by
  refine List.pairwise_map.mpr ((List.pairwise_map.mp h).imp_of_mem ?_)
  intro e e' he _ hdisj heq
  obtain ⟨f, hf⟩ := List.exists_mem_of_length_pos (Nat.lt_of_lt_of_le Nat.zero_lt_two (hlen e he).2)
  exact hdisj hf (List.mem_toFinset.mp (heq ▸ List.mem_toFinset.mpr hf))

/-- Files without keywords are clustered into the components of their graph, in any order. -/
theorem autoCluster_components (hnodup : files.Nodup)
    (hkeyword : ∀ f ∈ files, keyword t f = none) (hfuel : files.length * files.length ≤ fuel) :
    ∃ out, autoCluster t fl simThresh calls fuel files = some out ∧
      (∀ c : Finset Path, c ∈ out.map (fun e => e.2.toFinset) ↔ 2 ≤ c.card ∧
        ∃ C : (similarityGraph fl simThresh calls files).ConnectedComponent,
          (c : Set Path) = C.supp) ∧
      (out.map Prod.snd).Pairwise List.Disjoint ∧ (∀ e ∈ out, e.2.Nodup) ∧
      ∀ files', files'.Perm files →
        ∃ out', autoCluster t fl simThresh calls fuel files' = some out' ∧
          (out'.map fun e => e.2.toFinset).Perm (out.map fun e => e.2.toFinset) := by
  obtain ⟨out, hout, hmem, hdisj, hlen⟩ :=
    mem_clusters_iff fl simThresh calls hnodup hkeyword hfuel
  refine ⟨out, hout, hmem, hdisj, fun e he => (hlen e he).1, fun files' hperm => ?_⟩
  obtain ⟨out', hout', hmem', hdisj', hlen'⟩ :=
    mem_clusters_iff fl simThresh calls (hperm.nodup_iff.mpr hnodup)
      (fun f hf => hkeyword f (hperm.mem_iff.mp hf)) (hperm.length_eq.symm ▸ hfuel)
  refine ⟨out', hout', (List.perm_ext_iff_of_nodup (nodup_toFinset hdisj' hlen')
    (nodup_toFinset hdisj hlen)).mpr fun c => ?_⟩
  rw [hmem', hmem, similarityGraph_perm hperm]

/-- Four files, of which the first three call names in common with their neighbours. -/
def fourCalls : Path → Finset Str := fun f =>
  if f = ["a.cc".toList] then {"Lookup".toList}
  else if f = ["b.cc".toList] then {"Lookup".toList, "Probe".toList}
  else if f = ["c.cc".toList] then {"Probe".toList}
  else {"Other".toList}

def fourFiles : List Path :=
  [["a.cc".toList], ["d.cc".toList], ["b.cc".toList], ["c.cc".toList]]

theorem autoCluster_components_fourFiles :
    ∃ out, autoCluster TextTables.ascii id (1 / 4) fourCalls 16 fourFiles = some out ∧
      ∀ c : Finset Path, c ∈ out.map (fun e => e.2.toFinset) ↔ 2 ≤ c.card ∧
        ∃ C : (similarityGraph id (1 / 4) fourCalls fourFiles).ConnectedComponent,
          (c : Set Path) = C.supp := by
  obtain ⟨out, hout, hmem, -⟩ := autoCluster_components TextTables.ascii id (1 / 4) fourCalls
    (show fourFiles.Nodup by decide) (by decide) (show 4 * 4 ≤ 16 by decide)
  exact ⟨out, hout, hmem⟩

example : autoCluster TextTables.ascii id (1 / 4) fourCalls 16 fourFiles =
    some [("misc:a,b,c".toList, [["a.cc".toList], ["b.cc".toList], ["c.cc".toList]])] := by
  decide +kernel

end Clusters

end K8sLearn.Discovery
