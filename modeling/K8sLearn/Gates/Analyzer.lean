import Mathlib.Data.List.ReduceOption
import K8sLearn.Gates.Release
import K8sLearn.Lib.Text

/-! # The other analyzer

`analyze` derives the change rows from parsed gates whose versions are still texts and
whose lock is present or absent. It collects every version of the range in a loop that
raises the minor number, and looks the first version up in it. On a range within one
major version it reports what `release_events` reports.
-/

namespace K8sLearn.Gates.Autok8s

structure Spec where
  version : Str
  default : Bool
  stage : String
  lock : Option Bool
  inline : Str
deriving DecidableEq

structure FeatureGate where
  name : String
  kep : Option Str
  desc : List Str
  specs : List Spec
deriving DecidableEq

structure FeatureChange where
  changeType : ChangeType
  name : String
  stageChange : String
  defaultChange : String
  lockChange : Option String
  compatible : Bool
  compatAnalysis : Option String
  versionChanges : String
deriving DecidableEq

/-- `_vt`; a version with fewer than two parts, or a part that is no number, raises. -/
def vt (v : Str) : Option Version :=
  match v.splitOn '.' with
  | major :: minor :: _ =>
    (Str.toInt major).bind fun a => (Str.toInt minor).map fun b => toLex (a, b)
  | _ => none

/-- The loop `while v <= hi: range_versions.add(v); v = (v[0], v[1] + 1)`, run for at most
`fuel` rounds. It does not end when the major number of `hi` is the larger one. -/
def rangeVersions (hi : Version) : ℕ → Version → Option (List Version)
  | 0, _ => none
  | fuel + 1, v => if v ≤ hi then (rangeVersions hi fuel v.next).map (v :: ·) else some []

/-- `v1.34（Alpha，默认关闭）`. -/
def versionText (e : Spec) : String :=
  "v" ++ String.ofList e.version ++ "（" ++ e.stage ++ "，默认" ++
    (if e.default then "开启" else "关闭") ++ "）"

/-- The transition between two values, written without the first when they agree. -/
def transition (start stop : String) : String :=
  if start = stop then "->" ++ stop else start ++ "->" ++ stop

def changedWithin (first : Spec) (rest : List Spec) : Bool :=
  ((first :: rest).zip rest).any fun p => p.2.default != p.1.default

/-- The row of a gate with `first :: rest` in the range and `before` as the last spec before
it. -/
def changeRow (name : String) (isAdded : Bool) (before : Option Spec) (first : Spec)
    (rest : List Spec) : FeatureChange :=
  let ir := first :: rest
  let isDep := ir.any fun e => e.stage = "Deprecated"
  let ctype := if isAdded then ChangeType.added else if isDep then .deprecated else .changed
  let stStart := before.getD first
  let stEnd := ir.getLast (by simp [ir])
  let locks := ir.filterMap Spec.lock
  let compatible :=
    if ctype = .added then !(changedWithin first rest || stEnd.default)
    else !(((before.map Spec.default).getD first.default != first.default) ||
      changedWithin first rest)
  let ranged := "；".intercalate (ir.map versionText)
  { changeType := ctype
    name := name
    stageChange := transition stStart.stage stEnd.stage
    defaultChange := transition (boolText stStart.default) (boolText stEnd.default)
    lockChange := if locks = [] then none else some ("->" ++ boolText (locks.any id))
    compatible := compatible
    compatAnalysis :=
      if compatible then
        some (if ctype = .added ∨ stEnd.default = false then "特性默认关闭，无影响"
          else "开关状态不变，无影响")
      else none
    versionChanges :=
      match before with
      | some b => if ctype ≠ .added then ranged ++ " ← " ++ versionText b else ranged
      | none => ranged }

/-- `analyze_one`: no result when it raises or its loop does not end within `fuel` rounds. -/
def analyzeOne (fuel : ℕ) (gate : FeatureGate) (lo hi : Version) :
    Option (Option FeatureChange) :=
  (gate.specs.mapM fun e => (vt e.version).map fun v => (v, e)).bind fun es =>
  match (es.filter fun e => lo ≤ e.1 ∧ e.1 ≤ hi).map Prod.snd with
  | [] => some none
  | first :: rest =>
    (rangeVersions hi fuel lo).map fun versions =>
      let before := ((es.filter fun e => e.1 < lo).getLast?).map Prod.snd
      let isAdded := es.head?.any fun e => e.1 ∈ versions
      some (changeRow gate.name isAdded before first rest)

/-- `analyze`, on the values of the dictionary in their order. -/
def analyze (fuel : ℕ) (gates : List FeatureGate) (lo hi : Version) :
    Option (List FeatureChange) :=
  if hi < lo then some []
  else
    ((gates.insertionSort fun g g' => g.name ≤ g'.name).mapM fun gate =>
      analyzeOne fuel gate lo hi).map List.reduceOption

/-- The spec `e` and the spec `s` of a history say the same. -/
structure SpecOf (e : Spec) (s : Gates.Spec) : Prop where
  version : vt e.version = some s.version
  default : e.default = s.state.default
  stage : e.stage = s.state.stage
  lock : e.lock = if s.explicitLock then some s.state.locked else none

/-- The gate `g` and an entry of a history say the same. -/
structure GateOf (g : FeatureGate) (entry : String × List Gates.Spec) : Prop where
  name : g.name = entry.1
  specs : List.Forall₂ SpecOf g.specs entry.2

def Represents (gates : List FeatureGate) (h : History) : Prop :=
  ∃ l, l.Perm h.gates ∧ List.Forall₂ GateOf gates l

/-- What both analyzers report about a gate; no lock change is `none`. -/
structure Report where
  name : String
  changeType : ChangeType
  stageChange : String
  defaultChange : String
  lockChange : Option String
  compatible : Bool
deriving DecidableEq

def FeatureChange.report (c : FeatureChange) : Report :=
  ⟨c.name, c.changeType, c.stageChange, c.defaultChange, c.lockChange, c.compatible⟩

def rowReport (r : Row) : Report :=
  ⟨r.featureName, r.changeType, r.stageChange, r.defaultChange,
    if r.lockChange = "" then none else some r.lockChange, r.compatible⟩

section Loop

theorem rangeVersions_eq {hi : Version} (fuel : ℕ) (v : Version)
    (hmajor : (ofLex v).1 = (ofLex hi).1)
    (hfuel : ((ofLex hi).2 + 1 - (ofLex v).2).toNat < fuel) :
    ∃ versions, rangeVersions hi fuel v = some versions ∧
      ∀ u, u ∈ versions ↔ v ≤ u ∧ u ≤ hi := by
  induction fuel generalizing v with
  | zero => omega
  | succ fuel ih =>
    by_cases hv : v ≤ hi
    · have hminor : (ofLex v).2 ≤ (ofLex hi).2 := by
        rcases Prod.Lex.le_iff.mp hv with h | h
        · exact absurd hmajor h.ne
        · exact h.2
      obtain ⟨versions, hrun, hmem⟩ := ih v.next hmajor (by simp [Version.next]; omega)
      refine ⟨v :: versions, by simp [rangeVersions, hv, hrun], fun u => ?_⟩
      rw [List.mem_cons, hmem, Version.next_le_iff]
      constructor
      · rintro (rfl | ⟨hlt, hle⟩)
        · exact ⟨le_rfl, hv⟩
        · exact ⟨hlt.le, hle⟩
      · rintro ⟨hge, hle⟩
        rcases hge.eq_or_lt with h | h
        · exact Or.inl h.symm
        · exact Or.inr ⟨h, hle⟩
    · refine ⟨[], by simp [rangeVersions, hv], fun u => ?_⟩
      simp only [List.not_mem_nil, false_iff, not_and]
      exact fun hge hle => hv (hge.trans hle)

end Loop

section Row

theorem transition_eq_arrow (start stop : String) : transition start stop = arrow start stop := by
  unfold transition arrow
  by_cases h : start = ""
  · subst h
    by_cases h' : "" = stop <;> simp [h']
  · simp [h]

def TaggedOf (e : Version × Spec) (s : Gates.Spec) : Prop := e.1 = s.version ∧ SpecOf e.2 s

theorem exists_mapM_vt {es : List Spec} {specs : List Gates.Spec}
    (h : List.Forall₂ SpecOf es specs) :
    ∃ tagged, (es.mapM fun e => (vt e.version).map fun v => (v, e)) = some tagged ∧
      List.Forall₂ TaggedOf tagged specs := by
  apply Lists.exists_mapM_of_forall₂
  apply h.imp
  intro e s hes
  exact ⟨(s.version, e), by rw [hes.version, Option.map_some], rfl, hes⟩

variable {first : Spec} {rest : List Spec} {f : Gates.Spec} {r : List Gates.Spec}

theorem getLast_specOf (hf : SpecOf first f) (hr : List.Forall₂ SpecOf rest r) :
    SpecOf ((first :: rest).getLast (by simp)) ((f :: r).getLast (by simp)) := by
  induction hr generalizing first f with
  | nil => exact hf
  | cons hes _ ih => exact ih hes

theorem changedWithin_eq (hf : SpecOf first f) (hr : List.Forall₂ SpecOf rest r) :
    changedWithin first rest =
      ((f :: r).zip r).any fun p => p.1.state.default != p.2.state.default := by
  unfold changedWithin
  induction hr generalizing first f with
  | nil => rfl
  | @cons e s es specs hes _ ih =>
    simp only [List.zip_cons_cons, List.any_cons, ih hes, hf.default, hes.default]
    cases f.state.default <;> cases s.state.default <;> rfl

theorem locks_eq (h : List.Forall₂ SpecOf rest r) :
    rest.filterMap Spec.lock =
      (r.filter Gates.Spec.explicitLock).map fun s => s.state.locked := by
  induction h with
  | nil => rfl
  | @cons e s es specs hes _ ih =>
    cases hl : s.explicitLock <;> simp [hes.lock, hl, ih]

theorem any_deprecated_eq (h : List.Forall₂ SpecOf rest r) :
    (rest.any fun e => e.stage = "Deprecated") = r.any fun s => s.state.stage = "Deprecated" := by
  induction h with
  | nil => rfl
  | cons hes _ ih => simp only [List.any_cons, ih, hes.stage]

theorem compatible_eq {added : Bool} {before : Option Spec} {b : Option State} {ctype : ChangeType}
    (hc : ctype = .added ↔ added = true)
    (hb : before.map Spec.default = b.map State.default) (hf : SpecOf first f)
    (hr : List.Forall₂ SpecOf rest r) :
    (if ctype = .added then
        !(changedWithin first rest || ((first :: rest).getLast (by simp)).default)
      else !(((before.map Spec.default).getD first.default != first.default) ||
        changedWithin first rest)) = rangeCompatible added b f r := by
  have hnot : (((f :: r).zip r).all fun p => p.1.state.default == p.2.state.default) =
      !(((f :: r).zip r).any fun p => p.1.state.default != p.2.state.default) := by
    rw [List.not_any_eq_all_not]
    simp [bne]
  cases added with
  | true =>
    rw [if_pos (hc.mpr rfl), changedWithin_eq hf hr, (getLast_specOf hf hr).default]
    rfl
  | false =>
    rw [if_neg (fun h => absurd (hc.mp h) (by simp)), changedWithin_eq hf hr, hb, hf.default]
    simp only [rangeCompatible, Bool.false_eq_true, if_false, hnot, Bool.not_or]
    simp [bne]

theorem changeRow_report {name : String} {added : Bool} {before : Option Spec}
    {prior : Option Gates.Spec} (hb : Option.Rel SpecOf before prior) (hf : SpecOf first f)
    (hr : List.Forall₂ SpecOf rest r) :
    (changeRow name added before first rest).report =
      ⟨name, if added then .added
          else if (f :: r).any fun s => s.state.stage = "Deprecated" then .deprecated
          else .changed,
        arrow ((prior.map Gates.Spec.state).getD f.state).stage
          ((f :: r).getLast (by simp)).state.stage,
        arrow (boolText ((prior.map Gates.Spec.state).getD f.state).default)
          (boolText ((f :: r).getLast (by simp)).state.default),
        if ((f :: r).filter Gates.Spec.explicitLock).map (fun s => s.state.locked) = [] then none
        else some ("->" ++ boolText
          ((((f :: r).filter Gates.Spec.explicitLock).map fun s => s.state.locked).any id)),
        rangeCompatible added (prior.map Gates.Spec.state) f r⟩ := by
  have hlast := getLast_specOf hf hr
  have hall : List.Forall₂ SpecOf (first :: rest) (f :: r) := .cons hf hr
  have hstart : (before.getD first).stage = ((prior.map Gates.Spec.state).getD f.state).stage ∧
      (before.getD first).default = ((prior.map Gates.Spec.state).getD f.state).default ∧
      before.map Spec.default = (prior.map Gates.Spec.state).map State.default := by
    cases hb with
    | none => exact ⟨hf.stage, hf.default, rfl⟩
    | some h => exact ⟨h.stage, h.default, congrArg some h.default⟩
  have hctype : ∀ d : Bool, (if added then ChangeType.added else if d then .deprecated
      else .changed) = .added ↔ added = true := by
    intro d
    cases added <;> cases d <;> simp
  simp only [FeatureChange.report, changeRow, any_deprecated_eq hall, locks_eq hall,
    transition_eq_arrow, hstart.1, hstart.2.1, hlast.stage, hlast.default]
  rw [← compatible_eq (hctype _) hstart.2.2 hf hr, hlast.default]

end Row

section Gate

variable {lo hi : Version} {fromVersion toVersion : String}

theorem analyzeOne_report {gate : FeatureGate} {name : String} {specs : List Gates.Spec}
    (hg : GateOf gate (name, specs)) (hmajor : (ofLex lo).1 = (ofLex hi).1) {fuel : ℕ}
    (hfuel : ((ofLex hi).2 + 1 - (ofLex lo).2).toNat < fuel) :
    ∃ row, analyzeOne fuel gate lo hi = some row ∧
      row.map FeatureChange.report =
        (releaseRow lo hi fromVersion toVersion name specs).map rowReport := by
  obtain ⟨es, hes, hall⟩ := exists_mapM_vt hg.specs
  have hrange : List.Forall₂ SpecOf ((es.filter fun e => lo ≤ e.1 ∧ e.1 ≤ hi).map Prod.snd)
      (inRange specs lo hi) := by
    rw [List.forall₂_map_left_iff]
    have := List.rel_filter (R := TaggedOf) (p := fun e => decide (lo ≤ e.1 ∧ e.1 ≤ hi))
      (q := fun s => decide (lo ≤ s.version ∧ s.version ≤ hi))
      (fun e s h => by simp [h.1]) hall
    exact this.imp fun _ _ h => h.2
  have hprior : Option.Rel SpecOf (((es.filter fun e => e.1 < lo).getLast?).map Prod.snd)
      (specs.filter fun s => s.version < lo).getLast? := by
    have hrel := Lists.getLast?_rel (List.rel_filter (R := TaggedOf) (p := fun e => decide (e.1 < lo))
      (q := fun s => decide (s.version < lo)) (fun e s h => by simp [h.1]) hall)
    generalize (es.filter fun e => decide (e.1 < lo)).getLast? = x at hrel ⊢
    generalize (specs.filter fun s => decide (s.version < lo)).getLast? = y at hrel ⊢
    cases hrel with
    | none => exact .none
    | some h => exact .some h.2
  obtain ⟨versions, hrun, hmem⟩ := rangeVersions_eq fuel lo hmajor hfuel
  have hadded : (es.head?.any fun e => e.1 ∈ versions) =
      specs.head?.any fun s => lo ≤ s.version ∧ s.version ≤ hi := by
    cases hall with
    | nil => rfl
    | cons h _ => simp [h.1, hmem]
  rw [analyzeOne, hes, Option.bind_some, releaseRow]
  generalize (es.filter fun e => decide (lo ≤ e.1 ∧ e.1 ≤ hi)).map Prod.snd = ir at hrange ⊢
  generalize inRange specs lo hi = jr at hrange ⊢
  cases hrange with
  | nil => exact ⟨none, rfl, rfl⟩
  | @cons first f rest r hf hr =>
    simp only [hrun, Option.map_some, hadded, hg.name]
    refine ⟨_, rfl, ?_⟩
    rw [Option.map_some, changeRow_report hprior hf hr]
    simp only [rowReport]
    congr 2
    split_ifs with hnil <;> simp_all

end Gate

section Analyze

variable {h : History} {lo hi : Version} {fromVersion toVersion : String}

theorem releaseEvents_eq_filterMap :
    releaseEvents h lo hi fromVersion toVersion =
      (h.gates.insertionSort fun g g' => g.1 ≤ g'.1).filterMap fun g =>
        releaseRow lo hi fromVersion toVersion g.1 g.2 := by
  have hsort : (h.gates.map Prod.fst).insertionSort (· ≤ ·) =
      (h.gates.insertionSort fun g g' => g.1 ≤ g'.1).map Prod.fst :=
    (List.map_insertionSort (fun g g' : String × List Gates.Spec => g.1 ≤ g'.1) (· ≤ ·)
      Prod.fst h.gates (fun _ _ _ _ => Iff.rfl)).symm
  rw [releaseEvents, hsort, List.filterMap_map]
  apply List.filterMap_congr
  intro g hg
  have hmem : (g.1, g.2) ∈ h.gates := (List.mem_insertionSort _).mp hg
  simp [lookup_eq_some_iff.mpr hmem]

theorem Represents.sorted {gates : List FeatureGate} (hg : Represents gates h) :
    List.Forall₂ GateOf (gates.insertionSort fun g g' => g.name ≤ g'.name)
      (h.gates.insertionSort fun g g' => g.1 ≤ g'.1) := by
  obtain ⟨l, hperm, hall⟩ := hg
  have htrans : ∀ g g' g'' : String × List Gates.Spec, g.1 ≤ g'.1 → g'.1 ≤ g''.1 → g.1 ≤ g''.1 :=
    fun _ _ _ => le_trans
  have hl : (l.insertionSort fun g g' => g.1 ≤ g'.1) =
      h.gates.insertionSort fun g g' => g.1 ≤ g'.1 := by
    have : IsTrans (String × List Gates.Spec) fun g g' => g.1 ≤ g'.1 := ⟨htrans⟩
    have : Std.Total fun g g' : String × List Gates.Spec => g.1 ≤ g'.1 :=
      ⟨fun g g' => le_total g.1 g'.1⟩
    have hp : (l.insertionSort fun g g' => g.1 ≤ g'.1).Perm
        (h.gates.insertionSort fun g g' => g.1 ≤ g'.1) :=
      ((List.perm_insertionSort _ l).trans hperm).trans (List.perm_insertionSort _ _).symm
    refine List.Perm.eq_of_pairwise ?_ (List.pairwise_insertionSort _ _)
      (List.pairwise_insertionSort _ _) hp
    intro a b ha hb hab hba
    have ha' : a ∈ h.gates := hperm.mem_iff.mp ((List.mem_insertionSort _).mp ha)
    have hb' : b ∈ h.gates := (List.mem_insertionSort _).mp hb
    exact List.inj_on_of_nodup_map h.nodup ha' hb' (le_antisymm hab hba)
  rw [← hl]
  refine Lists.forall₂_insertionSort ?_ hall
  intro g e g' e' hge hge'
  rw [hge.name, hge'.name]

theorem filterMap_report {rows : List (Option FeatureChange)}
    {entries : List (String × List Gates.Spec)} {f : String × List Gates.Spec → Option Row}
    (h : List.Forall₂ (fun row e => row.map FeatureChange.report = (f e).map rowReport) rows
      entries) :
    rows.reduceOption.map FeatureChange.report = (entries.filterMap f).map rowReport := by
  induction h with
  | nil => rfl
  | @cons row e rows entries hre _ ih =>
    rw [List.filterMap_cons]
    cases row with
    | none =>
      have hf : f e = none := by simpa using hre.symm
      simpa [hf] using ih
    | some c =>
      obtain ⟨r, hr, hrep⟩ := Option.map_eq_some_iff.mp hre.symm
      simp [hr, hrep, ih]

/-- On a range within one major version the two analyzers list the same gates in the same order
and report the same about each; the loop over the versions of the range ends. -/
theorem analyze_eq_releaseEvents (gates : List FeatureGate) (h : History)
    (hg : Represents gates h) (lo hi : Version) (hle : lo ≤ hi)
    (hmajor : (ofLex lo).1 = (ofLex hi).1) (fromVersion toVersion : String) :
    ∃ fuel₀, ∀ fuel ≥ fuel₀, ∃ rows, analyze fuel gates lo hi = some rows ∧
      rows.map FeatureChange.report =
        (releaseEvents h lo hi fromVersion toVersion).map rowReport := by
  refine ⟨((ofLex hi).2 + 1 - (ofLex lo).2).toNat + 1, fun fuel hfuel => ?_⟩
  have hrows : List.Forall₂ (fun gate e => ∃ row, analyzeOne fuel gate lo hi = some row ∧
      row.map FeatureChange.report =
        (releaseRow lo hi fromVersion toVersion e.1 e.2).map rowReport)
      (gates.insertionSort fun g g' => g.name ≤ g'.name)
      (h.gates.insertionSort fun g g' => g.1 ≤ g'.1) :=
    hg.sorted.imp fun gate e hge => analyzeOne_report hge hmajor (by omega)
  obtain ⟨rows, hrun, hall⟩ := Lists.exists_mapM_of_forall₂ hrows
  refine ⟨rows.reduceOption, by rw [analyze, if_neg (not_lt.mpr hle), hrun, Option.map_some], ?_⟩
  rw [releaseEvents_eq_filterMap]
  exact filterMap_report hall

/-- `flip` as the parser leaves it. -/
def flipGates : List FeatureGate :=
  [⟨"FlipGate", none, [], [⟨"1.34".toList, false, "Alpha", none, []⟩,
    ⟨"1.35".toList, true, "Beta", none, []⟩,
    ⟨"1.36".toList, false, "Deprecated", some false, []⟩]⟩]

theorem analyze_eq_releaseEvents_flip :
    ∃ fuel₀, ∀ fuel ≥ fuel₀, ∃ rows,
      analyze fuel flipGates (toLex (1, 35)) (toLex (1, 36)) = some rows ∧
      rows.map FeatureChange.report =
        (releaseEvents flip (toLex (1, 35)) (toLex (1, 36)) "1.35" "1.36").map rowReport := by
  have hspec : List.Forall₂ SpecOf (flipGates.flatMap FeatureGate.specs)
      (flip.gates.flatMap Prod.snd) := by
    refine .cons ?_ (.cons ?_ (.cons ?_ .nil))
    all_goals exact ⟨by decide, rfl, rfl, rfl⟩
  exact analyze_eq_releaseEvents flipGates flip ⟨_, .refl _, .cons ⟨rfl, hspec⟩ .nil⟩
    (toLex (1, 35)) (toLex (1, 36)) (by decide) rfl _ _

end Analyze

end K8sLearn.Gates.Autok8s
