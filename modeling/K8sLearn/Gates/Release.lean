import Mathlib.Data.List.Sort
import K8sLearn.Gates.History

/-! # The release ledger

`release_events` lists the gates with a spec inside an inclusive range, in name order.
A row carries the state before the range, the state after it and whether the default
stayed the same throughout; gates added in the range and gates that existed before take
different branches.
-/

namespace K8sLearn.Gates

inductive ChangeType
  | added
  | deprecated
  | changed
deriving DecidableEq, Repr

/-- The entries of `change_types`. -/
inductive ChangeKind
  | versionedSpec
  | added
  | stageChange
  | defaultChange
  | lockChange
deriving DecidableEq, Repr

def ChangeType.text : ChangeType → String
  | .added => "Added"
  | .deprecated => "Deprecated"
  | .changed => "Changed"

def ChangeKind.text : ChangeKind → String
  | .versionedSpec => "范围内版本化规格"
  | .added => "新增"
  | .stageChange => "阶段变化"
  | .defaultChange => "默认值变化"
  | .lockChange => "锁定变化"

structure Row where
  id : String
  fromVersion : String
  toVersion : String
  priorVersion : String
  featureName : String
  changeType : ChangeType
  changeTypes : List ChangeKind
  before : Option State
  after : State
  stageChange : String
  defaultChange : String
  lockChange : String
  compatible : Bool
  versionChanges : List (String × State)

/-- `arrow` on rendered values; booleans are rendered in lower case. -/
def arrow (left right : String) : String :=
  if left = right ∨ left = "" then "->" ++ right else left ++ "->" ++ right

def boolText (b : Bool) : String := if b then "true" else "false"

def inRange (specs : List Spec) (start stop : Version) : List Spec :=
  specs.filter fun s => start ≤ s.version ∧ s.version ≤ stop

def rangeCompatible (added : Bool) (before : Option State) (first : Spec) (rest : List Spec) :
    Bool :=
  let pairs := (first :: rest).zip rest
  if added then
    let after := ((first :: rest).getLast (by simp)).state
    !((pairs.any fun p => p.1.state.default != p.2.state.default) || after.default)
  else
    ((before.map State.default).getD first.state.default == first.state.default) &&
      pairs.all fun p => p.1.state.default == p.2.state.default

def releaseRow (start stop : Version) (fromVersion toVersion name : String) (specs : List Spec) :
    Option Row :=
  match inRange specs start stop with
  | [] => none
  | first :: rest =>
    let prior := specs.filter fun s => s.version < start
    let before := prior.getLast?.map Spec.state
    let after := ((first :: rest).getLast (by simp)).state
    let added := specs.head?.any fun s => start ≤ s.version ∧ s.version ≤ stop
    let deprecated := (first :: rest).any fun s => s.state.stage = "Deprecated"
    let displayStart := before.getD first.state
    let explicitLocks := ((first :: rest).filter Spec.explicitLock).map fun s => s.state.locked
    let lockChange := if explicitLocks = [] then "" else "->" ++ boolText (explicitLocks.any id)
    some {
      id := fromVersion ++ "-to-" ++ toVersion ++ ":" ++ name
      fromVersion := fromVersion
      toVersion := toVersion
      priorVersion := (prior.getLast?.getD first).version.text
      featureName := name
      changeType := if added then .added else if deprecated then .deprecated else .changed
      changeTypes := [.versionedSpec] ++
        (if added then [.added]
          else (if displayStart.stage ≠ after.stage then [.stageChange] else []) ++
            (if displayStart.default ≠ after.default then [.defaultChange] else [])) ++
        (if lockChange ≠ "" then [.lockChange] else [])
      before := before
      after := after
      stageChange := arrow displayStart.stage after.stage
      defaultChange := arrow (boolText displayStart.default) (boolText after.default)
      lockChange := lockChange
      compatible := rangeCompatible added before first rest
      versionChanges := (first :: rest).map fun s => (s.version.text, s.state) }

def releaseEvents (h : History) (start stop : Version) (fromVersion toVersion : String) :
    List Row :=
  ((h.gates.map Prod.fst).insertionSort (· ≤ ·)).filterMap fun name =>
    (h.gates.lookup name).bind (releaseRow start stop fromVersion toVersion name)

section Row

variable {specs : List Spec} {start stop : Version} {fromVersion toVersion name : String} {r : Row}

theorem mem_inRange {s : Spec} :
    s ∈ inRange specs start stop ↔ s ∈ specs ∧ start ≤ s.version ∧ s.version ≤ stop := by
  simp [inRange]

theorem releaseRow_isSome_iff :
    (releaseRow start stop fromVersion toVersion name specs).isSome ↔
      ∃ s ∈ specs, start ≤ s.version ∧ s.version ≤ stop := by
  unfold releaseRow
  cases hr : inRange specs start stop with
  | nil =>
    have hnone : ∀ s ∈ specs, ¬ (start ≤ s.version ∧ s.version ≤ stop) := by
      intro s hs hv
      exact List.not_mem_nil (hr ▸ mem_inRange.mpr ⟨hs, hv⟩)
    simpa using hnone
  | cons first rest =>
    have hf : first ∈ inRange specs start stop := by simp [hr]
    exact ⟨fun _ => ⟨first, mem_inRange.mp hf⟩, fun _ => rfl⟩

theorem filter_le_eq_append (hs : specs.Pairwise fun s t => s.version ≤ t.version)
    (hle : start ≤ stop) :
    (specs.filter fun s => s.version ≤ stop) =
      (specs.filter fun s => s.version < start) ++ inRange specs start stop := by
  have h := Lists.filter_lt_append_filter_le (hs.filter fun s => s.version ≤ stop) start
  rw [← h, List.filter_filter, List.filter_filter, inRange]
  congr 1
  · apply List.filter_congr
    intro s _
    have himp : s.version < start → s.version ≤ stop := fun hlt => hlt.le.trans hle
    simpa using himp
  · apply List.filter_congr
    intro s _
    simp

theorem head_inRange_iff (hs : specs.Pairwise fun s t => s.version ≤ t.version) {first : Spec}
    (hf : first ∈ inRange specs start stop) :
    (specs.head?.any fun s => start ≤ s.version ∧ s.version ≤ stop) = true ↔
      (specs.filter fun s => s.version < start) = [] := by
  obtain ⟨hmem, hge, hle⟩ := mem_inRange.mp hf
  cases specs with
  | nil => simp at hmem
  | cons t specs =>
    have hhead : ∀ s ∈ t :: specs, t.version ≤ s.version := by
      rintro s (_ | ⟨_, hs'⟩)
      · exact le_rfl
      · exact (List.pairwise_cons.mp hs).1 s hs'
    have hstop : t.version ≤ stop := (hhead first hmem).trans hle
    simp only [List.head?_cons, Option.any_some, decide_eq_true_eq, List.filter_eq_nil_iff, not_lt]
    constructor
    · rintro ⟨hstart, -⟩ s hs'
      exact hstart.trans (hhead s hs')
    · intro h
      exact ⟨h t (by simp), hstop⟩

theorem rangeCompatible_iff {added : Bool} {before : Option State} (first : Spec)
    (rest : List Spec) (h : added = true ↔ before = none) :
    rangeCompatible added before first rest = true ↔
      ∀ s ∈ first :: rest, s.state.default = defaultOf before := by
  have hpairs := Lists.all_zip_tail_iff (fun s : Spec => s.state.default) first rest
  cases before with
  | none =>
    have hlast := List.getLast_mem (l := first :: rest) (by simp)
    have hany : (((first :: rest).zip rest).any fun p => p.1.state.default != p.2.state.default) =
        !(((first :: rest).zip rest).all fun p => p.1.state.default == p.2.state.default) := by
      rw [List.not_all_eq_any_not]
      rfl
    rw [rangeCompatible, if_pos (h.mpr rfl), hany]
    simp only [Bool.not_or, Bool.not_not, Bool.and_eq_true, hpairs, Bool.not_eq_true', defaultOf,
      Option.map_none, Option.getD_none]
    constructor
    · rintro ⟨heq, hend⟩
      have hfirst : first.state.default = false := by
        rcases List.mem_cons.mp hlast with hl | hl
        · rw [← hl]; exact hend
        · rw [← heq _ hl]; exact hend
      rintro s (_ | ⟨_, hs⟩)
      · exact hfirst
      · exact (heq s hs).trans hfirst
    · intro hall
      have hfirst := hall first (by simp)
      exact ⟨fun s hs => (hall s (by simp [hs])).trans hfirst.symm, hall _ hlast⟩
  | some b =>
    have hne : added = false := by
      rw [← Bool.not_eq_true]
      exact fun ha => absurd (h.mp ha) (by simp)
    rw [rangeCompatible, hne]
    simp only [Bool.false_eq_true, if_false, Bool.and_eq_true, hpairs, beq_iff_eq, defaultOf,
      Option.map_some, Option.getD_some]
    constructor
    · rintro ⟨hb, heq⟩ s (_ | ⟨_, hs⟩)
      · exact hb.symm
      · exact (heq s hs).trans hb.symm
    · intro hall
      have hfirst := hall first (by simp)
      exact ⟨hfirst.symm, fun s hs => (hall s (by simp [hs])).trans hfirst.symm⟩

theorem releaseRow_names (h : releaseRow start stop fromVersion toVersion name specs = some r) :
    r.featureName = name ∧ r.id = fromVersion ++ "-to-" ++ toVersion ++ ":" ++ name := by
  unfold releaseRow at h
  split at h <;> cases h
  exact ⟨rfl, rfl⟩

theorem releaseRow_spec (hs : specs.Pairwise fun s t => s.version ≤ t.version)
    (h : releaseRow start stop fromVersion toVersion name specs = some r) :
    r.before = effectiveBefore specs start ∧ effective specs stop = some r.after ∧
      (r.compatible = true ↔ ∀ s ∈ specs, start ≤ s.version → s.version ≤ stop →
        s.state.default = defaultOf (effectiveBefore specs start)) := by
  unfold releaseRow at h
  split at h
  · cases h
  case h_2 first rest hr =>
    have hf : first ∈ inRange specs start stop := by simp [hr]
    have hle : start ≤ stop := (mem_inRange.mp hf).2.1.trans (mem_inRange.mp hf).2.2
    have hall : (∀ s ∈ specs, start ≤ s.version → s.version ≤ stop →
        s.state.default = defaultOf (effectiveBefore specs start)) ↔
          ∀ s ∈ first :: rest, s.state.default = defaultOf (effectiveBefore specs start) := by
      rw [← hr]
      simp only [mem_inRange, and_imp]
    have hadded := head_inRange_iff hs hf
    have hafter : effective specs stop = some ((first :: rest).getLast (by simp)).state := by
      rw [effective, filter_le_eq_append hs hle, hr,
        List.getLast?_append_of_ne_nil _ (by simp), List.getLast?_eq_some_getLast (by simp),
        Option.map_some]
    cases h
    refine ⟨rfl, hafter, ?_⟩
    rw [hall]
    refine rangeCompatible_iff first rest (hadded.trans ?_)
    rw [Option.map_eq_none_iff, List.getLast?_eq_none_iff]

end Row

def KeepsDefault (specs : List Spec) (start stop : Version) : Prop :=
  ∀ s ∈ specs, start ≤ s.version → s.version ≤ stop →
    s.state.default = defaultOf (effectiveBefore specs start)

section Adjacent

variable {specs : List Spec} {start mid stop : Version}

theorem defaultOf_next (hs : specs.Pairwise fun s t => s.version ≤ t.version) (hle : start ≤ mid)
    (h : KeepsDefault specs start mid) :
    defaultOf (effectiveBefore specs mid.next) = defaultOf (effectiveBefore specs start) := by
  have hnext : effectiveBefore specs mid.next = effective specs mid := by
    simp only [effectiveBefore, effective, Version.lt_next_iff]
  rw [hnext, effective, filter_le_eq_append hs hle]
  cases hr : inRange specs start mid with
  | nil => rw [List.append_nil, effectiveBefore]
  | cons first rest =>
    rw [List.getLast?_append_of_ne_nil _ (by simp), List.getLast?_eq_some_getLast (by simp)]
    have hl : (first :: rest).getLast (by simp) ∈ inRange specs start mid := by
      rw [hr]
      exact List.getLast_mem _
    obtain ⟨hm, hge, hle'⟩ := mem_inRange.mp hl
    exact h _ hm hge hle'

theorem keepsDefault_iff_adjacent (hs : specs.Pairwise fun s t => s.version ≤ t.version)
    (hle : start ≤ mid) (hle' : mid.next ≤ stop) :
    KeepsDefault specs start stop ↔
      KeepsDefault specs start mid ∧ KeepsDefault specs mid.next stop := by
  have hmid : mid ≤ stop := (Version.next_le_iff.mp hle').le
  constructor
  · intro h
    have hfirst : KeepsDefault specs start mid := fun s hm hge hle => h s hm hge (hle.trans hmid)
    refine ⟨hfirst, ?_⟩
    rintro s hm hge hle
    rw [defaultOf_next hs ‹_› hfirst]
    exact h s hm (‹start ≤ mid›.trans (Version.next_le_iff.mp hge).le) hle
  · rintro ⟨hfirst, hsecond⟩ s hm hge hle
    rcases le_or_gt s.version mid with hv | hv
    · exact hfirst s hm hge hv
    · rw [← defaultOf_next hs ‹_› hfirst]
      exact hsecond s hm (Version.next_le_iff.mpr hv) hle

end Adjacent

section Ledger

variable {h : History} {start stop : Version} {fromVersion toVersion : String}

theorem lookup_eq_some_iff {name : String} {specs : List Spec} :
    h.gates.lookup name = some specs ↔ (name, specs) ∈ h.gates := by
  have hn := h.nodup
  generalize h.gates = l at hn
  induction l with
  | nil => simp
  | cons g l ih =>
    obtain ⟨n, sp⟩ := g
    obtain ⟨hnot, hn'⟩ := List.nodup_cons.mp hn
    rw [List.lookup_cons, List.mem_cons]
    by_cases hname : name = n
    · subst hname
      have hout : (name, specs) ∉ l := fun hm => hnot (List.mem_map.mpr ⟨_, hm, rfl⟩)
      simp [hout, eq_comm]
    · simp [hname, beq_false_of_ne hname, ih hn']

theorem mem_releaseEvents {r : Row} :
    r ∈ releaseEvents h start stop fromVersion toVersion ↔
      ∃ name specs, (name, specs) ∈ h.gates ∧
        releaseRow start stop fromVersion toVersion name specs = some r := by
  simp only [releaseEvents, List.mem_filterMap, List.mem_insertionSort, List.mem_map,
    Option.bind_eq_some_iff, lookup_eq_some_iff]
  constructor
  · rintro ⟨name, -, specs, hm, hr⟩
    exact ⟨name, specs, hm, hr⟩
  · rintro ⟨name, specs, hm, hr⟩
    exact ⟨name, ⟨_, hm, rfl⟩, specs, hm, hr⟩

theorem releaseEvents_pairwise :
    (releaseEvents h start stop fromVersion toVersion).Pairwise fun r r' =>
      r.featureName < r'.featureName := by
  have hnodup : ((h.gates.map Prod.fst).insertionSort (· ≤ ·)).Nodup :=
    (List.perm_insertionSort _ _).nodup_iff.mpr h.nodup
  have hsort : ((h.gates.map Prod.fst).insertionSort (· ≤ ·)).Pairwise (· < ·) :=
    ((List.pairwise_insertionSort _ _).and hnodup).imp fun hle => lt_of_le_of_ne hle.1 hle.2
  apply hsort.filterMap _
  rintro name name' hlt r hr r' hr'
  obtain ⟨specs, -, hr⟩ := Option.bind_eq_some_iff.mp hr
  obtain ⟨specs', -, hr'⟩ := Option.bind_eq_some_iff.mp hr'
  rw [(releaseRow_names hr).1, (releaseRow_names hr').1]
  exact hlt

theorem nodup_id : ((releaseEvents h start stop fromVersion toVersion).map Row.id).Nodup := by
  rw [List.Nodup, List.pairwise_map]
  apply releaseEvents_pairwise.imp_of_mem
  rintro r r' hr hr' hlt hid
  obtain ⟨name, specs, -, hr⟩ := mem_releaseEvents.mp hr
  obtain ⟨name', specs', -, hr'⟩ := mem_releaseEvents.mp hr'
  rw [(releaseRow_names hr).1, (releaseRow_names hr').1] at hlt
  rw [(releaseRow_names hr).2, (releaseRow_names hr').2] at hid
  exact absurd (String.append_right_inj _ |>.mp hid) hlt.ne

theorem exists_row_iff {name : String} :
    (∃ r ∈ releaseEvents h start stop fromVersion toVersion, r.featureName = name) ↔
      ∃ specs, (name, specs) ∈ h.gates ∧
        ∃ s ∈ specs, start ≤ s.version ∧ s.version ≤ stop := by
  constructor
  · rintro ⟨r, hr, rfl⟩
    obtain ⟨name, specs, hm, hr⟩ := mem_releaseEvents.mp hr
    rw [(releaseRow_names hr).1]
    exact ⟨specs, hm, releaseRow_isSome_iff.mp (Option.isSome_iff_exists.mpr ⟨r, hr⟩)⟩
  · rintro ⟨specs, hm, hs⟩
    obtain ⟨r, hr⟩ := Option.isSome_iff_exists.mp (releaseRow_isSome_iff.mpr hs)
    exact ⟨r, mem_releaseEvents.mpr ⟨name, specs, hm, hr⟩, (releaseRow_names hr).1⟩

theorem releaseEvents_row {r : Row} {specs : List Spec}
    (hr : r ∈ releaseEvents h start stop fromVersion toVersion)
    (hm : (r.featureName, specs) ∈ h.gates) :
    r.before = effectiveBefore specs start ∧ effective specs stop = some r.after ∧
      (r.compatible = true ↔ KeepsDefault specs start stop) := by
  obtain ⟨name, specs', hm', hrow⟩ := mem_releaseEvents.mp hr
  rw [(releaseRow_names hrow).1] at hm
  obtain rfl := h.eq_of_mem hm hm'
  exact releaseRow_spec (h.sorted _ hm) hrow

theorem forall_compatible_iff {name : String} {specs : List Spec} (hm : (name, specs) ∈ h.gates) :
    (∀ r ∈ releaseEvents h start stop fromVersion toVersion, r.featureName = name →
      r.compatible = true) ↔ KeepsDefault specs start stop := by
  constructor
  · intro hall s hs hge hle
    obtain ⟨r, hr, hname⟩ := (@exists_row_iff h start stop fromVersion toVersion name).mpr
      ⟨specs, hm, s, hs, hge, hle⟩
    exact (releaseEvents_row hr (hname ▸ hm)).2.2.mp (hall r hr hname) s hs hge hle
  · rintro hk r hr rfl
    exact (releaseEvents_row hr hm).2.2.mpr hk

/-- The ledger is the history seen through the range: one row, in name order, for each gate with
a spec in the range; a row gives the state before and the state after, as `parse_file` reports
it, and is compatible exactly when no spec in the range changes the default. A gate is then
compatible over two adjacent ranges exactly when it is over each. -/
theorem releaseEvents_exact (h : History) (start stop : Version) (fromVersion toVersion : String) :
    ((releaseEvents h start stop fromVersion toVersion).Pairwise fun r r' =>
      r.featureName < r'.featureName) ∧
    ((releaseEvents h start stop fromVersion toVersion).map Row.id).Nodup ∧
    (∀ name, (∃ r ∈ releaseEvents h start stop fromVersion toVersion, r.featureName = name) ↔
      ∃ specs, (name, specs) ∈ h.gates ∧ ∃ s ∈ specs, start ≤ s.version ∧ s.version ≤ stop) ∧
    (∀ r ∈ releaseEvents h start stop fromVersion toVersion,
      ∀ specs, (r.featureName, specs) ∈ h.gates →
        r.before = effectiveBefore specs start ∧ effective specs stop = some r.after ∧
        (r.featureName, r.after) ∈ parseFile h stop ∧
        (r.compatible = true ↔ ∀ s ∈ specs, start ≤ s.version → s.version ≤ stop →
          s.state.default = defaultOf r.before)) ∧
    ∀ mid, start ≤ mid → mid.next ≤ stop → ∀ from₁ to₁ from₂ to₂,
      ∀ r ∈ releaseEvents h start stop fromVersion toVersion,
        (r.compatible = true ↔
          (∀ r₁ ∈ releaseEvents h start mid from₁ to₁, r₁.featureName = r.featureName →
            r₁.compatible = true) ∧
          ∀ r₂ ∈ releaseEvents h mid.next stop from₂ to₂, r₂.featureName = r.featureName →
            r₂.compatible = true) := by
  refine ⟨releaseEvents_pairwise, nodup_id, fun name => exists_row_iff, ?_, ?_⟩
  · rintro r hr specs hm
    obtain ⟨hb, ha, hc⟩ := releaseEvents_row hr hm
    refine ⟨hb, ha, mem_parseFile.mpr ⟨specs, hm, ha⟩, ?_⟩
    rw [hb]
    exact hc
  · rintro mid hle hle' from₁ to₁ from₂ to₂ r hr
    obtain ⟨specs, hm, -⟩ := exists_row_iff.mp ⟨r, hr, rfl⟩
    rw [(releaseEvents_row hr hm).2.2, forall_compatible_iff hm, forall_compatible_iff hm]
    exact keepsDefault_iff_adjacent (h.sorted _ hm) hle hle'

/-- A gate whose default is turned on and off again inside the range. -/
def flip : History where
  gates := [("FlipGate", [
    ⟨toLex (1, 34), ⟨"Alpha", false, false⟩, false⟩,
    ⟨toLex (1, 35), ⟨"Beta", true, false⟩, false⟩,
    ⟨toLex (1, 36), ⟨"Deprecated", false, false⟩, true⟩])]
  nodup := by simp
  specs_ne_nil := by simp
  sorted := by decide

theorem releaseEvents_exact_flip :
    ∃ r ∈ releaseEvents flip (toLex (1, 35)) (toLex (1, 36)) "1.35" "1.36",
      r.featureName = "FlipGate" ∧ r.before = some ⟨"Alpha", false, false⟩ ∧
        r.compatible = false ∧
        ¬ ((∀ r₁ ∈ releaseEvents flip (toLex (1, 35)) (toLex (1, 35)) "1.35" "1.35",
            r₁.featureName = r.featureName → r₁.compatible = true) ∧
          ∀ r₂ ∈ releaseEvents flip (toLex (1, 36)) (toLex (1, 36)) "1.36" "1.36",
            r₂.featureName = r.featureName → r₂.compatible = true) := by
  obtain ⟨-, -, hrows, hrow, hadj⟩ :=
    releaseEvents_exact flip (toLex (1, 35)) (toLex (1, 36)) "1.35" "1.36"
  obtain ⟨r, hr, hname⟩ := (hrows "FlipGate").mpr ⟨_, List.mem_singleton.mpr rfl, by decide⟩
  obtain ⟨hb, -, -, hc⟩ := hrow r hr _ (by rw [hname]; exact List.mem_singleton.mpr rfl)
  have hbefore : r.before = some ⟨"Alpha", false, false⟩ := by rw [hb]; decide
  have hnot : ¬ r.compatible = true := by
    rw [hc, hbefore]
    decide
  refine ⟨r, hr, hname, hbefore, Bool.eq_false_iff.mpr hnot, ?_⟩
  exact fun hparts => hnot ((hadj (toLex (1, 35)) (by decide) (by decide) _ _ _ _ r hr).mpr hparts)

end Ledger

end K8sLearn.Gates
