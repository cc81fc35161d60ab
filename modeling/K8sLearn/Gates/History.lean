import Mathlib.Data.List.Nodup
import Mathlib.Data.Prod.Lex
import Mathlib.Data.String.Basic
import K8sLearn.Lib.Lists

/-! # Feature-gate histories

What `parse_histories` returns: for each gate name a nonempty list of versioned specs
in ascending version order. Versions are compared as tuples. The state in effect at a
version is that of the last spec up to it, which is what `parse_file` reports.
-/

namespace K8sLearn.Gates

structure State where
  stage : String
  default : Bool
  locked : Bool
deriving DecidableEq, Repr

/-- A major and a minor number, compared lexicographically. -/
abbrev Version := ℤ ×ₗ ℤ

def Version.next (v : Version) : Version := toLex ((ofLex v).1, (ofLex v).2 + 1)

def Version.text (v : Version) : String := toString (ofLex v).1 ++ "." ++ toString (ofLex v).2

/-- One versioned spec: the version, the state and whether the lock is written out. -/
structure Spec where
  version : Version
  state : State
  explicitLock : Bool
deriving DecidableEq

structure History where
  gates : List (String × List Spec)
  nodup : (gates.map Prod.fst).Nodup
  specs_ne_nil : ∀ g ∈ gates, g.2 ≠ []
  sorted : ∀ g ∈ gates, g.2.Pairwise fun s t => s.version ≤ t.version

def parseFile (h : History) (target : Version) : List (String × State) :=
  h.gates.filterMap fun g =>
    ((g.2.filter fun s => s.version ≤ target).getLast?).map fun s => (g.1, s.state)

def effective (specs : List Spec) (v : Version) : Option State :=
  ((specs.filter fun s => s.version ≤ v).getLast?).map Spec.state

def effectiveBefore (specs : List Spec) (v : Version) : Option State :=
  ((specs.filter fun s => s.version < v).getLast?).map Spec.state

/-- The default of a gate, off while the gate is absent. -/
def defaultOf (s : Option State) : Bool := (s.map State.default).getD false

theorem Version.lt_next_iff {u v : Version} : u < v.next ↔ u ≤ v := by
  rw [Prod.Lex.lt_iff, Prod.Lex.le_iff]
  simp only [Version.next, ofLex_toLex, Int.lt_add_one_iff]

theorem Version.next_le_iff {u v : Version} : u.next ≤ v ↔ u < v := by
  rw [← not_lt, Version.lt_next_iff, not_le]

theorem History.eq_of_mem {h : History} {name : String} {specs specs' : List Spec}
    (hs : (name, specs) ∈ h.gates) (hs' : (name, specs') ∈ h.gates) : specs = specs' := by
  have := List.inj_on_of_nodup_map h.nodup hs hs' rfl
  exact congrArg Prod.snd this

theorem mem_parseFile {h : History} {target : Version} {name : String} {s : State} :
    (name, s) ∈ parseFile h target ↔
      ∃ specs, (name, specs) ∈ h.gates ∧ effective specs target = some s := by
  simp only [parseFile, effective, List.mem_filterMap, Option.map_eq_some_iff, Prod.exists,
    Prod.mk.injEq]
  constructor
  · rintro ⟨n, specs, hg, t, ht, rfl, rfl⟩
    exact ⟨specs, hg, t, ht, rfl⟩
  · rintro ⟨specs, hg, t, ht, rfl⟩
    exact ⟨name, specs, hg, t, ht, rfl, rfl⟩

end K8sLearn.Gates
