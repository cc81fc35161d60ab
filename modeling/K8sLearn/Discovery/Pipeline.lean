import K8sLearn.Discovery.Agents
import K8sLearn.Lib.Lists

/-! # What the pipeline reports

One pass of the scanner finds every (rule, file, line) once, and one pass of the analyst makes
at most one hypothesis of it. But only the reconnaissance agent looks whether it has published
before. The others run both of their rounds on the same input and the board appends, so each
pass is published twice, and the scanner's four times when there is feedback. The pipeline
reports each finding once only when it finds nothing.
-/

namespace K8sLearn.Discovery

section Scans

variable (u : CharTables) (cb : CodeBase)

theorem nodup_scanFile (module : String) (file : Path) (text : Str) :
    ((scanFile u module file text).map Candidate.key).Nodup := by
  apply Lists.nodup_map_flatMap (g := Prod.snd) fun k : Key => k.2.2
  · rw [List.zipIdx_map_snd]
    exact List.nodup_range'
  · intro l _
    rw [List.map_map]
    have hids : (((rules u).filter fun rule =>
        matchesLine u rule l.1 (Str.splitLines text) l.2).map Rule.id).Nodup :=
      (nodup_rules_id u).sublist (List.filter_sublist.map _)
    have hkeys := hids.map fun (a b : String) (h : (a, file, l.2) = (b, file, l.2)) =>
      congrArg Prod.fst h
    rwa [List.map_map] at hkeys
  · intro l _ c hc
    obtain ⟨rule, -, rfl⟩ := List.mem_map.mp hc
    rfl

/-- One pass over distinct files finds every (rule, file, line) once. -/
theorem nodup_scan {targets : List SurfaceFile} (h : (targets.map SurfaceFile.path).Nodup) :
    ((scan u cb targets).map Candidate.key).Nodup := by
  apply Lists.nodup_map_flatMap (fun k : Key => k.2.1) h
  · intro t _
    cases cb.read t.path with
    | none => exact List.nodup_nil
    | some text => exact nodup_scanFile u t.module t.path text
  · intro t _ c hc
    cases hr : cb.read t.path with
    | none => rw [hr] at hc; cases hc
    | some text =>
      rw [hr] at hc
      obtain ⟨l, -, hl⟩ := List.mem_flatMap.mp hc
      obtain ⟨rule, -, rfl⟩ := List.mem_map.mp hl
      rfl

theorem scanFile_eq_nil_iff {module : String} {file : Path} {text : Str} :
    scanFile u module file text = [] ↔ ∀ l ∈ (Str.splitLines text).zipIdx 1, ∀ rule ∈ rules u,
      matchesLine u rule l.1 (Str.splitLines text) l.2 = false := by
  simp only [scanFile, List.flatMap_eq_nil_iff, List.map_eq_nil_iff, List.filter_eq_nil_iff,
    Bool.not_eq_true]

def surface : List SurfaceFile := if scaReadable cb then apiSurface cb else []

def hits : List Candidate := scan u cb (firsts SurfaceFile.path (surface cb))

theorem nodup_hits : ((hits u cb).map Candidate.key).Nodup :=
  nodup_scan u cb (nodup_map_firsts SurfaceFile.path (surface cb))

/-- No rule hits a line of a readable file of the surface, or the dependency analysis raises
and there is no surface. -/
def Clean : Prop :=
  scaReadable cb = true → ∀ f ∈ apiSurface cb, ∀ text, cb.read f.path = some text →
    ∀ l ∈ (Str.splitLines text).zipIdx 1, ∀ rule ∈ rules u,
      matchesLine u rule l.1 (Str.splitLines text) l.2 = false

theorem hits_eq_nil_iff : hits u cb = [] ↔ Clean u cb := by
  have hscan : hits u cb = [] ↔ ∀ f ∈ surface cb, ∀ text, cb.read f.path = some text →
      ∀ l ∈ (Str.splitLines text).zipIdx 1, ∀ rule ∈ rules u,
        matchesLine u rule l.1 (Str.splitLines text) l.2 = false := by
    rw [hits, scan, List.flatMap_eq_nil_iff]
    constructor
    · intro h f hf text hr
      obtain ⟨g, hg, hpath⟩ := exists_mem_firsts SurfaceFile.path hf
      have hnil := h g hg
      rw [hpath, hr] at hnil
      exact (scanFile_eq_nil_iff u).mp hnil
    · intro h f hf
      cases hr : cb.read f.path with
      | none => rfl
      | some text => exact (scanFile_eq_nil_iff u).mpr (h f (mem_of_mem_firsts hf) text hr)
  rw [hscan, Clean, surface]
  by_cases hs : scaReadable cb = true
  · simp only [hs, if_true, true_imp_iff]
  · simp [hs]

end Scans

section Runs

variable (u : CharTables) (cb : CodeBase) (chat : ℕ → Str → Str → Option Guard)

theorem reconAgent_run :
    (reconAgent cb).run 2 Board.empty = { Board.empty with apiSurface := surface cb } := by
  by_cases hs : scaReadable cb = true
  · by_cases ha : apiSurface cb = []
    · simp [Agent.run, Agent.round, reconAgent, Board.empty, surface, hs, ha]
    · simp [Agent.run, Agent.round, reconAgent, Board.empty, surface, hs, ha]
  · simp [Agent.run, Agent.round, reconAgent, Board.empty, surface, hs]

theorem sastScanner_run (n : ℕ) (b : Board) :
    (sastScanner u cb).run n b = { b with
      sastCandidates := b.sastCandidates ++
        (List.replicate n (scan u cb (firsts SurfaceFile.path b.apiSurface))).flatten } := by
  induction n generalizing b with
  | zero => simp [Agent.run]
  | succ n ih =>
    by_cases hb : b.apiSurface = []
    · have hscan : scan u cb (firsts SurfaceFile.path b.apiSurface) = [] := by rw [hb]; rfl
      have hround : (sastScanner u cb).round b = none := by simp [Agent.round, sastScanner, hb]
      simp [Agent.run, hround, hscan]
    · have hround : (sastScanner u cb).round b = some { b with
          sastCandidates := b.sastCandidates ++
            scan u cb (firsts SurfaceFile.path b.apiSurface) } := by
        simp [Agent.round, sastScanner, hb]
      rw [Agent.run, hround]
      dsimp only
      rw [ih]
      simp [List.replicate_succ]

/-- What a pass of the analyst publishes when `n` questions were asked before. -/
def confirmed (cands : List Candidate) (n : ℕ) : List Hypothesis :=
  (judgeAll u cb chat n (focused cands)).2.insertionSort fun h h' => h'.confidence ≤ h.confidence

theorem judgeAll_keys (n : ℕ) (cs : List Candidate) :
    ((judgeAll u cb chat n cs).2.map Hypothesis.key).Sublist (cs.map Candidate.key) := by
  induction cs generalizing n with
  | nil => exact List.nil_sublist _
  | cons c cs ih =>
    rw [judgeAll, List.map_cons]
    cases cb.read c.file with
    | none => exact (ih n).cons _
    | some text =>
      simp only [hypothesis]
      split_ifs
      · exact (ih (n + 1)).cons_cons _
      · exact (ih (n + 1)).cons _

/-- A pass of the analyst makes at most one hypothesis of a (rule, file, line). -/
theorem nodup_confirmed (cands : List Candidate) (n : ℕ) :
    ((confirmed u cb chat cands n).map Hypothesis.key).Nodup := by
  have hfocused : ((focused cands).map Candidate.key).Nodup :=
    (nodup_map_firsts Candidate.key _).sublist ((List.take_sublist _ _).map _)
  rw [confirmed, ((List.perm_insertionSort _ _).map _).nodup_iff]
  exact hfocused.sublist (judgeAll_keys u cb chat n _)

/-- The analyst makes two passes over the same candidates, the second with later answers, and
writes the second to the file. -/
theorem analystSemantic_run {b : Board} (hb : b.sastCandidates ≠ []) :
    ∃ n, (analystSemantic u cb chat).run 2 b =
      let first := confirmed u cb chat b.sastCandidates b.asked
      let second := confirmed u cb chat b.sastCandidates n
      { b with
        hypotheses := b.hypotheses ++ first ++ second
        learnedPatterns := b.learnedPatterns ++ (first ++ second).map learnedPattern
        hypothesesJson := some second
        asked := (judgeAll u cb chat n (focused b.sastCandidates)).1 } := by
  refine ⟨(judgeAll u cb chat b.asked (focused b.sastCandidates)).1, ?_⟩
  simp [Agent.run, Agent.round, analystSemantic, hb, confirmed]

theorem coordinatorRun_of_hits_eq_nil (h : hits u cb = []) :
    coordinatorRun u cb chat = { Board.empty with apiSurface := surface cb } := by
  have hscan : scan u cb (firsts SurfaceFile.path (surface cb)) = [] := h
  rw [coordinatorRun, reconAgent_run]
  dsimp only
  rw [sastScanner_run, hscan]
  simp [Agent.run, Agent.round, analystSemantic, Board.empty]

/-- The scanner publishes its pass twice, or four times with feedback; the analyst publishes two
passes and records the patterns of both, and the file holds the second. -/
theorem coordinatorRun_of_hits_ne_nil (h : hits u cb ≠ []) :
    ∃ n, let first := confirmed u cb chat (hits u cb ++ hits u cb) 0
      let second := confirmed u cb chat (hits u cb ++ hits u cb) n
      (coordinatorRun u cb chat).sastCandidates =
        (List.replicate (if first ++ second = [] then 2 else 4) (hits u cb)).flatten ∧
      (coordinatorRun u cb chat).hypotheses = first ++ second ∧
      (coordinatorRun u cb chat).hypothesesJson = some second ∧
      (coordinatorRun u cb chat).learnedPatterns = (first ++ second).map learnedPattern := by
  have hscan : scan u cb (firsts SurfaceFile.path (surface cb)) = hits u cb := rfl
  obtain ⟨n, hrun⟩ := analystSemantic_run u cb chat (b := { Board.empty with
    apiSurface := surface cb, sastCandidates := hits u cb ++ hits u cb }) (by simp [h])
  refine ⟨n, ?_⟩
  intro first second
  have hanalyst : (analystSemantic u cb chat).run 2 ((sastScanner u cb).run 2
      ((reconAgent cb).run 2 Board.empty)) =
      { apiSurface := surface cb, sastCandidates := hits u cb ++ hits u cb
        hypotheses := first ++ second, learnedPatterns := (first ++ second).map learnedPattern
        feedbackRound := 0, hypothesesJson := some second
        asked := (judgeAll u cb chat n (focused (hits u cb ++ hits u cb))).1 } := by
    rw [reconAgent_run, sastScanner_run]
    simpa [hscan, List.replicate_succ, Board.empty] using hrun
  rw [coordinatorRun, hanalyst]
  by_cases hnil : first ++ second = []
  · simp [hnil, List.replicate_succ]
  · rw [List.append_eq_nil_iff] at hnil
    simp [hnil, sastScanner_run, hscan, List.replicate_succ]

end Runs

section Reports

variable (u : CharTables) (cb : CodeBase) (chat : ℕ → Str → Str → Option Guard)

/-- No finding and no learned pattern is on the board twice, and the report has as many
hypotheses as the file. -/
structure ReportsOnce (b : Board) : Prop where
  candidates : (b.sastCandidates.map Candidate.key).Nodup
  hypotheses : (b.hypotheses.map Hypothesis.key).Nodup
  counts : b.hypotheses.length = (b.hypothesesJson.getD []).length
  patterns : b.learnedPatterns.Nodup

theorem count_sastCandidates {c : Candidate} (hc : c ∈ hits u cb) :
    ((coordinatorRun u cb chat).sastCandidates.map Candidate.key).count c.key = 2 ∨
      ((coordinatorRun u cb chat).sastCandidates.map Candidate.key).count c.key = 4 := by
  have hone : ((hits u cb).map Candidate.key).count c.key = 1 :=
    List.count_eq_one_of_mem (nodup_hits u cb) (List.mem_map_of_mem hc)
  obtain ⟨n, hcands, -⟩ := coordinatorRun_of_hits_ne_nil u cb chat (List.ne_nil_of_mem hc)
  rw [hcands, List.map_flatten, List.map_replicate]
  split_ifs
  · left; simp [List.replicate_succ, hone]
  · right; simp [List.replicate_succ, hone]

/-- The pipeline reports each finding once exactly when there is nothing to find. -/
theorem coordinatorRun_reportsOnce_iff :
    ReportsOnce (coordinatorRun u cb chat) ↔ Clean u cb := by
  rw [← hits_eq_nil_iff]
  constructor
  · intro hb
    by_contra hne
    obtain ⟨c, hc⟩ := List.exists_mem_of_ne_nil _ hne
    have hle := List.nodup_iff_count_le_one.mp hb.candidates c.key
    rcases count_sastCandidates u cb chat hc with h | h <;> omega
  · intro h
    rw [coordinatorRun_of_hits_eq_nil u cb chat h]
    exact ⟨List.nodup_nil, List.nodup_nil, rfl, List.nodup_nil⟩

def strideBase : CodeBase where
  entries := [(["tensorflow", "core", "ops", "audio_ops.cc"].map String.toList,
    some "n = length / stride;".toList)]
  nodup := by decide

/-- Without a model, the one hit is on the board four times, its hypothesis and its pattern
twice, and the file has one hypothesis. -/
theorem coordinatorRun_not_reportsOnce :
    let b := coordinatorRun .ascii strideBase fun _ _ _ => none
    ¬ (b.sastCandidates.map Candidate.key).Nodup ∧ ¬ (b.hypotheses.map Hypothesis.key).Nodup ∧
      b.hypotheses.length ≠ (b.hypothesesJson.getD []).length ∧ ¬ b.learnedPatterns.Nodup := by
  decide +kernel

end Reports

end K8sLearn.Discovery
