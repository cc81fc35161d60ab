import Mathlib.Data.List.Dedup
import K8sLearn.Gates.Release
import K8sLearn.Lib.Patch

/-! # The endpoint audit

`endpoint_differences` compares the states that the files of two tags put into effect. Along the
versions of a run the recorded differences are a log of changes: they lead from the first
dictionary to the last, each of them finds what it says, and they can be taken back. When the
files of all tags tell one history, every audited gate has a row in the release ledger.
-/

namespace K8sLearn.Gates

structure Difference where
  id : String
  featureName : String
  before : Option State
  after : Option State

def endpointDifferences (old new : List (String × State)) (oldVersion newVersion : String) :
    List Difference :=
  let names := (old.map Prod.fst ++ new.map Prod.fst).dedup.insertionSort (· ≤ ·)
  names.filterMap fun name =>
    let before := old.lookup name
    let after := new.lookup name
    if before = after then none
    else some {
      id := oldVersion ++ "-to-" ++ newVersion ++ ":" ++ name
      featureName := name
      before := before
      after := after }

def audits (versions : List (String × List (String × State))) : List Difference :=
  (versions.zip versions.tail).flatMap fun p => endpointDifferences p.1.2 p.2.2 p.1.1 p.2.1

def Difference.change (d : Difference) : Patch.Change String (Option State) :=
  ⟨d.featureName, d.before, d.after⟩

/-- Apply the rows one by one; a row must find the state it records. -/
def replay (rows : List Difference) (states : String → Option State) :
    Option (String → Option State) :=
  Patch.replay (rows.map Difference.change) states

section Differences

variable {old new : List (String × State)} {oldVersion newVersion : String}

theorem names_nodup (old new : List (String × State)) :
    ((old.map Prod.fst ++ new.map Prod.fst).dedup.insertionSort (· ≤ ·)).Nodup :=
  (List.perm_insertionSort _ _).nodup_iff.mpr (List.nodup_dedup _)

theorem mem_names {name : String} :
    name ∈ (old.map Prod.fst ++ new.map Prod.fst).dedup.insertionSort (· ≤ ·) ↔
      name ∈ old.map Prod.fst ∨ name ∈ new.map Prod.fst := by
  rw [List.mem_insertionSort, List.mem_dedup, List.mem_append]

theorem lookup_eq_none {α : Type*} {l : List (String × α)} {name : String}
    (h : name ∉ l.map Prod.fst) : l.lookup name = none := by
  rw [List.lookup_eq_none_iff]
  rintro e he
  exact bne_iff_ne.mpr fun heq : name = e.1 => h (heq ▸ List.mem_map_of_mem he)

theorem changes_endpointDifferences :
    (endpointDifferences old new oldVersion newVersion).map Difference.change =
      Patch.diff ((old.map Prod.fst ++ new.map Prod.fst).dedup.insertionSort (· ≤ ·))
        (fun name => old.lookup name) fun name => new.lookup name := by
  rw [endpointDifferences, Patch.diff, List.map_filterMap]
  congr 1
  ext name : 1
  unfold Patch.change
  dsimp only
  split_ifs <;> rfl

theorem replay_endpointDifferences :
    replay (endpointDifferences old new oldVersion newVersion) (fun name => old.lookup name) =
      some fun name => new.lookup name := by
  rw [replay, changes_endpointDifferences]
  refine Patch.replay_diff (names_nodup old new) fun name hname => ?_
  rw [mem_names, not_or] at hname
  rw [lookup_eq_none hname.1, lookup_eq_none hname.2]

theorem exists_difference_iff {name : String} :
    (∃ d ∈ endpointDifferences old new oldVersion newVersion, d.featureName = name) ↔
      old.lookup name ≠ new.lookup name := by
  have hchange : (∃ d ∈ endpointDifferences old new oldVersion newVersion, d.featureName = name) ↔
      ∃ c ∈ (endpointDifferences old new oldVersion newVersion).map Difference.change,
        c.key = name := by
    simp only [List.mem_map, exists_exists_and_eq_and]
    rfl
  rw [hchange, changes_endpointDifferences]
  constructor
  · rintro ⟨c, hc, rfl⟩
    exact (Patch.mem_diff.mp hc).2.1
  · intro hne
    refine ⟨⟨name, old.lookup name, new.lookup name⟩,
      Patch.mem_diff.mpr ⟨mem_names.mpr ?_, hne, rfl, rfl⟩, rfl⟩
    by_contra hnot
    rw [not_or] at hnot
    exact hne ((lookup_eq_none hnot.1).trans (lookup_eq_none hnot.2).symm)

theorem pairwise_endpointDifferences : (endpointDifferences old new oldVersion newVersion).Pairwise
    fun d d' => d.featureName < d'.featureName := by
  have hsort : ((old.map Prod.fst ++ new.map Prod.fst).dedup.insertionSort (· ≤ ·)).Pairwise
      (· < ·) :=
    ((List.pairwise_insertionSort _ _).and (names_nodup old new)).imp
      fun h => lt_of_le_of_ne h.1 h.2
  apply hsort.filterMap _
  rintro name name' hlt d hd d' hd'
  dsimp only at hd hd'
  split_ifs at hd hd'
  obtain rfl := Option.some.inj hd
  obtain rfl := Option.some.inj hd'
  exact hlt

end Differences

section Audits

theorem replay_audits (first : String × List (String × State))
    (rest : List (String × List (String × State))) :
    replay (audits (first :: rest)) (fun name => first.2.lookup name) =
      some fun name => ((first :: rest).getLast (by simp)).2.lookup name := by
  induction rest generalizing first with
  | nil => rfl
  | cons second rest ih =>
    have hcons : audits (first :: second :: rest) =
        endpointDifferences first.2 second.2 first.1 second.1 ++ audits (second :: rest) := rfl
    rw [hcons, replay, List.map_append, Patch.replay_append, ← replay, replay_endpointDifferences,
      Option.bind_some, ← replay, ih second]
    rfl

theorem lookup_filterMap {α β : Type*} (F : α → Option β) {l : List (String × α)}
    (hl : (l.map Prod.fst).Nodup) (name : String) :
    (l.filterMap fun g => (F g.2).map fun s => (g.1, s)).lookup name = (l.lookup name).bind F := by
  induction l with
  | nil => rfl
  | cons g l ih =>
    obtain ⟨k, a⟩ := g
    obtain ⟨hk, hl'⟩ := List.nodup_cons.mp hl
    rw [List.lookup_cons]
    by_cases hname : name = k
    · subst hname
      cases ha : F a with
      | none =>
        rw [List.filterMap_cons_none (by simp [ha]), ih hl', lookup_eq_none hk]
        simp [ha]
      | some b =>
        rw [List.filterMap_cons_some (b := (name, b)) (by simp [ha])]
        simp [ha]
    · rw [beq_false_of_ne hname, ← ih hl']
      cases ha : F a with
      | none => rw [List.filterMap_cons_none (by simp [ha])]
      | some b =>
        rw [List.filterMap_cons_some (b := (k, b)) (by simp [ha]), List.lookup_cons,
          beq_false_of_ne hname]

theorem lookup_parseFile (h : History) (v : Version) (name : String) :
    (parseFile h v).lookup name = (h.gates.lookup name).bind fun specs => effective specs v := by
  rw [← lookup_filterMap (fun specs => effective specs v) h.nodup, parseFile]
  simp only [effective, Option.map_map]
  rfl

theorem exists_spec_of_effective_ne {specs : List Spec} {v v' : Version} (hle : v ≤ v')
    (hne : effective specs v ≠ effective specs v') :
    ∃ s ∈ specs, v ≤ s.version ∧ s.version ≤ v' := by
  by_contra hnot
  have hsame : specs.filter (fun s => s.version ≤ v) = specs.filter fun s => s.version ≤ v' := by
    apply List.filter_congr
    rintro s hs
    rw [decide_eq_decide]
    constructor
    · exact fun h => h.trans hle
    · intro h
      by_contra hlt
      exact hnot ⟨s, hs, (not_le.mp hlt).le, h⟩
  exact hne (by rw [effective, effective, hsame])

theorem exists_row_of_mem_audits (h : History) {versions : List (String × Version)}
    (hv : versions.Pairwise fun a b => a.2 ≤ b.2) {start stop : Version}
    (hrange : ∀ v ∈ versions, start ≤ v.2 ∧ v.2 ≤ stop) (fromVersion toVersion : String)
    {d : Difference} (hd : d ∈ audits (versions.map fun v => (v.1, parseFile h v.2))) :
    ∃ r ∈ releaseEvents h start stop fromVersion toVersion, r.featureName = d.featureName := by
  induction versions with
  | nil => cases hd
  | cons v versions ih =>
    cases versions with
    | nil => cases hd
    | cons v' versions =>
      obtain ⟨hfirst, hv⟩ := List.pairwise_cons.mp hv
      obtain ⟨hstart, hrange⟩ := List.forall_mem_cons.mp hrange
      rcases List.mem_append.mp hd with hd | hd
      · have hne := exists_difference_iff.mp ⟨d, hd, rfl⟩
        rw [lookup_parseFile, lookup_parseFile] at hne
        cases hl : h.gates.lookup d.featureName with
        | none => simp [hl] at hne
        | some specs =>
          rw [hl] at hne
          obtain ⟨s, hs, hge, hle⟩ :=
            exists_spec_of_effective_ne (hfirst v' List.mem_cons_self) hne
          exact exists_row_iff.mpr ⟨specs, lookup_eq_some_iff.mp hl, s, hs, hstart.1.trans hge,
            hle.trans (hrange v' List.mem_cons_self).2⟩
      · exact ih hv hrange hd

end Audits

/-- Along any versions the audit leads from the first states to the last, each row finding the state
it records, and back. A pair of neighbours has one row, in name order, for every name whose state
differs. When all files tell one history, every audited gate has a row in the ledger of a range
that holds the versions. -/
theorem audits_exact :
    (∀ (first : String × List (String × State)) (rest : List (String × List (String × State))),
      let last := (first :: rest).getLast (by simp)
      replay (audits (first :: rest)) (fun name => first.2.lookup name) =
        some (fun name => last.2.lookup name) ∧
      Patch.replay (Patch.inverse ((audits (first :: rest)).map Difference.change))
        (fun name => last.2.lookup name) = some fun name => first.2.lookup name) ∧
    (∀ (old new : List (String × State)) (oldVersion newVersion : String),
      let rows := endpointDifferences old new oldVersion newVersion
      (rows.Pairwise fun d d' => d.featureName < d'.featureName) ∧
        ∀ name, (∃ d ∈ rows, d.featureName = name) ↔ old.lookup name ≠ new.lookup name) ∧
    ∀ (h : History) (versions : List (String × Version)) (start stop : Version)
      (fromVersion toVersion : String), (versions.Pairwise fun a b => a.2 ≤ b.2) →
      (∀ v ∈ versions, start ≤ v.2 ∧ v.2 ≤ stop) →
      ∀ d ∈ audits (versions.map fun v => (v.1, parseFile h v.2)),
        ∃ r ∈ releaseEvents h start stop fromVersion toVersion, r.featureName = d.featureName := by
  refine ⟨?_, ?_, ?_⟩
  · rintro first rest last
    have hreplay := replay_audits first rest
    exact ⟨hreplay, Patch.replay_inverse hreplay⟩
  · rintro old new oldVersion newVersion rows
    exact ⟨pairwise_endpointDifferences, fun name => exists_difference_iff⟩
  · rintro h versions start stop fromVersion toVersion hv hrange d hd
    exact exists_row_of_mem_audits h hv hrange fromVersion toVersion hd

theorem audits_exact_flip :
    let versions : List (String × Version) := [("1.34", toLex (1, 34)), ("1.36", toLex (1, 36))]
    let rows := audits (versions.map fun v => (v.1, parseFile flip v.2))
    replay rows (fun name => (parseFile flip (toLex (1, 34))).lookup name) =
      some (fun name => (parseFile flip (toLex (1, 36))).lookup name) ∧
    ∃ d ∈ rows, d.featureName = "FlipGate" ∧
      ∃ r ∈ releaseEvents flip (toLex (1, 34)) (toLex (1, 36)) "1.34" "1.36",
        r.featureName = d.featureName := by
  intro versions rows
  obtain ⟨hreplay, hnames, hcover⟩ := audits_exact
  refine ⟨(hreplay ("1.34", parseFile flip (toLex (1, 34)))
    [("1.36", parseFile flip (toLex (1, 36)))]).1, ?_⟩
  obtain ⟨d, hd, hname⟩ := ((hnames (parseFile flip (toLex (1, 34)))
    (parseFile flip (toLex (1, 36))) "1.34" "1.36").2 "FlipGate").mpr (by decide)
  have hrows : d ∈ rows := List.mem_append_left _ hd
  exact ⟨d, hrows, hname, hcover flip versions _ _ "1.34" "1.36" (by decide) (by decide) d hrows⟩

end K8sLearn.Gates
