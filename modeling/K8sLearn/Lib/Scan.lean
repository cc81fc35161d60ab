import Mathlib.Data.List.Induction
import Mathlib.Data.List.Infix
import Mathlib.Data.List.TakeWhile
import K8sLearn.Lib.Text

/-! # Searching a text

A pattern is a function that reads a text from its start and returns what it matched and
the rest. Searching tries it at every position; scanning goes on behind each match, and
tells the pattern whether it stands at the start of a line. A word is apart from a text
when no occurrence of it begins there, whatever follows.
-/

namespace K8sLearn.Scan

variable {β : Type}

section Literal

/-- The rest of a text that starts with `w`. -/
def lit (w s : Str) : Option Str := if w <+: s then some (s.drop w.length) else none

theorem lit_eq_some_iff {w s r : Str} : lit w s = some r ↔ s = w ++ r := by
  unfold lit
  split_ifs with h
  · obtain ⟨t, rfl⟩ := h
    simp
  · simp only [false_iff]
    rintro rfl
    exact h (List.prefix_append w r)

theorem lit_eq_none_iff {w s : Str} : lit w s = none ↔ ¬ w <+: s := by simp [lit]

@[simp]
theorem lit_append (w s : Str) : lit w (w ++ s) = some s := lit_eq_some_iff.mpr rfl

theorem lit_cons_of_ne {a c : Char} (h : c ≠ a) (w s : Str) : lit (a :: w) (c :: s) = none := by
  rw [lit_eq_none_iff, List.cons_prefix_cons]
  exact fun hp => h hp.1.symm

theorem takeWhile_append {p : Char → Bool} {x s : Str} (hx : ∀ c ∈ x, p c = true)
    (hs : ∀ c ∈ s.head?, p c = false) : (x ++ s).takeWhile p = x := by
  rw [List.takeWhile_append_of_pos hx]
  cases s with
  | nil => simp
  | cons c s => simp [hs c rfl]

theorem dropWhile_append {p : Char → Bool} {x s : Str} (hx : ∀ c ∈ x, p c = true)
    (hs : ∀ c ∈ s.head?, p c = false) : (x ++ s).dropWhile p = s := by
  rw [List.dropWhile_append_of_pos hx]
  cases s with
  | nil => rfl
  | cons c s => simp [hs c rfl]

theorem takeWhile_append_stop {p : Char → Bool} {e : Char} (he : p e = false) (x s : Str) :
    (x ++ e :: s).takeWhile p = x.takeWhile p := by
  induction x with
  | nil => simp [he]
  | cons c x ih =>
    simp only [List.cons_append, List.takeWhile_cons, ih]

theorem dropWhile_append_stop {p : Char → Bool} {e : Char} (he : p e = false) (x s : Str) :
    (x ++ e :: s).dropWhile p = x.dropWhile p ++ e :: s := by
  induction x with
  | nil => simp [he]
  | cons c x ih =>
    rw [List.cons_append, List.dropWhile_cons, List.dropWhile_cons, ih]
    split_ifs <;> rfl

theorem prefix_of_prefix_append_cons {e : Char} {w x s : Str} (h : w <+: x ++ e :: s)
    (he : e ∉ w) : w <+: x := by
  rcases List.prefix_or_prefix_of_prefix h (List.prefix_append x (e :: s)) with h' | ⟨t, rfl⟩
  · exact h'
  · cases t with
    | nil => simp
    | cons a t =>
      obtain ⟨rfl, -⟩ := List.cons_prefix_cons.mp ((List.prefix_append_right_inj x).mp h)
      exact absurd (by simp) he

theorem suffix_concat {e : Char} {x z : Str} (hz : z <:+ x ++ [e]) (hne : z ≠ []) :
    ∃ z', z' <:+ x ∧ z = z' ++ [e] := by
  rcases List.suffix_concat_iff.mp hz with rfl | ⟨z', rfl, hz'⟩
  · exact absurd rfl hne
  · exact ⟨z', hz', rfl⟩

end Literal

section Search

def search (m : Str → Option β) : Str → Option β
  | [] => m []
  | c :: s => (m (c :: s)).or (search m s)

variable {m : Str → Option β}

theorem search_append {x s : Str} (h : ∀ z, z <:+ x → z ≠ [] → m (z ++ s) = none) :
    search m (x ++ s) = search m s := by
  induction x with
  | nil => rfl
  | cons c x ih =>
    rw [List.cons_append, search, ← List.cons_append, h (c :: x) List.suffix_rfl (by simp)]
    exact ih fun z hz => h z (hz.trans (List.suffix_cons c x))

theorem search_of_some {s : Str} {b : β} (h : m s = some b) : search m s = some b := by
  cases s <;> simp [search, h]

/-- A match that begins in the first part of a text is found, where what follows that part is
accounted for. -/
theorem search_append_of_some {m' : Str → Option β} {x s : Str} {b : β}
    (h : ∀ z, z <:+ x → m (z ++ s) = m' z) (hx : search m' x = some b) :
    search m (x ++ s) = some b := by
  induction x with
  | nil => exact search_of_some ((h [] List.suffix_rfl).trans hx)
  | cons c x ih =>
    have hhead := h (c :: x) List.suffix_rfl
    rw [List.cons_append] at hhead
    rw [search] at hx
    rw [List.cons_append, search, hhead]
    cases hm : m' (c :: x) with
    | some a =>
      rw [hm] at hx
      exact hx
    | none =>
      rw [hm] at hx
      exact ih (fun z hz => h z (hz.trans (List.suffix_cons c x))) hx

theorem search_eq_none_iff {s : Str} : search m s = none ↔ ∀ z, z <:+ s → m z = none := by
  induction s with
  | nil => simp [search]
  | cons c s ih => simp [search, ih, List.suffix_cons_iff]

/-- The text from the first occurrence of a word on. -/
def find (w : Str) : Str → Option Str := search fun s => if w <+: s then some s else none

theorem find_of_starts {w s : Str} (h : w <+: s) : find w s = some s :=
  search_of_some (by simp [h])

theorem find_eq_none_iff {w s : Str} : find w s = none ↔ ¬ w <:+: s := by
  rw [find, search_eq_none_iff, List.infix_iff_prefix_suffix]
  simp only [ite_eq_right_iff, reduceCtorEq, imp_false, not_exists, not_and]
  exact ⟨fun h z hp hs => h z hs hp, fun h z hs hp => h z hp hs⟩

/-- The first occurrence begins in the first part of a text or in the second. -/
theorem find_append_cases (w x s : Str) :
    (∃ z, z <:+ x ∧ z ≠ [] ∧ find w (x ++ s) = some (z ++ s)) ∨ find w (x ++ s) = find w s := by
  induction x with
  | nil => exact Or.inr rfl
  | cons c x ih =>
    by_cases hw : w <+: c :: x ++ s
    · exact Or.inl ⟨c :: x, List.suffix_rfl, by simp, find_of_starts hw⟩
    · have hstep : find w (c :: x ++ s) = find w (x ++ s) := by
        simp only [find, List.cons_append, search] at hw ⊢
        simp [hw]
      rw [hstep]
      rcases ih with ⟨z, hz, hne, h⟩ | h
      · exact Or.inl ⟨z, hz.trans (List.suffix_cons c x), hne, h⟩
      · exact Or.inr h

end Search

section Apart

/-- No occurrence of `w` begins in `x`, whatever follows `x`. -/
def Apart (w x : Str) : Prop := ∀ z, z <:+ x → z ≠ [] → ¬ z <+: w ∧ ¬ w <+: z

instance (w x : Str) : Decidable (Apart w x) :=
  decidable_of_iff (∀ z ∈ x.tails, z ≠ [] → ¬ z <+: w ∧ ¬ w <+: z) (by simp [Apart])

variable {w x y s : Str}

theorem Apart.not_starts (h : Apart w x) {z : Str} (hz : z <:+ x) (hne : z ≠ []) :
    ¬ w <+: z ++ s := by
  intro hw
  rcases List.prefix_or_prefix_of_prefix hw (List.prefix_append z s) with h' | h'
  · exact (h z hz hne).2 h'
  · exact (h z hz hne).1 h'

theorem suffix_append_cases {z : Str} (h : z <:+ x ++ y) :
    z <:+ y ∨ ∃ z', z' <:+ x ∧ z' ≠ [] ∧ z = z' ++ y := by
  obtain ⟨t, ht⟩ := h
  rcases List.append_eq_append_iff.mp ht with ⟨u, rfl, rfl⟩ | ⟨u, rfl, rfl⟩
  · cases u with
    | nil => exact Or.inl (by simp)
    | cons c u => exact Or.inr ⟨c :: u, List.suffix_append _ _, by simp, rfl⟩
  · exact Or.inl (List.suffix_append u z)

theorem Apart.append (hx : Apart w x) (hy : Apart w y) : Apart w (x ++ y) := by
  intro z hz hne
  rcases suffix_append_cases hz with hz | ⟨z', hz', hne', rfl⟩
  · exact hy z hz hne
  · constructor
    · intro h
      exact (hx z' hz' hne').1 ((List.prefix_append z' y).trans h)
    · exact hx.not_starts hz' hne'

theorem apart_of_not_mem {a : Char} (h : a ∉ x) : Apart (a :: w) x := by
  intro z hz hne
  cases z with
  | nil => exact absurd rfl hne
  | cons c z =>
    have hc : c ≠ a := by
      rintro rfl
      exact h (hz.subset List.mem_cons_self)
    simp [List.cons_prefix_cons, hc, Ne.symm hc]

theorem apart_concat {e : Char} (he : e ∉ w) (hx : ¬ w <:+: x) : Apart w (x ++ [e]) := by
  intro z hz hne
  obtain ⟨z', hz', rfl⟩ := suffix_concat hz hne
  constructor
  · intro h
    exact he (h.subset (by simp))
  · intro h
    rcases List.prefix_concat_iff.mp h with rfl | h
    · exact he (by simp)
    · exact hx (h.isInfix.trans hz'.isInfix)

/-- Two characters side by side stand in one part of a text or on both sides of the seam. -/
theorem pair_append_cases {a b : Char} (h : [a, b] <:+: x ++ y) :
    [a, b] <:+: x ∨ [a, b] <:+: y ∨ x.getLast? = some a ∧ y.head? = some b := by
  obtain ⟨z, hp, hz⟩ := List.infix_iff_prefix_suffix.mp h
  rcases suffix_append_cases hz with hz' | ⟨z, hz', hne, rfl⟩
  · exact Or.inr (Or.inl (hp.isInfix.trans hz'.isInfix))
  · cases z with
    | nil => exact absurd rfl hne
    | cons c z =>
      cases z with
      | nil =>
        obtain ⟨t, rfl⟩ := hz'
        obtain ⟨rfl, hb⟩ := List.cons_prefix_cons.mp hp
        obtain ⟨r, rfl⟩ := hb
        exact Or.inr (Or.inr ⟨by simp, rfl⟩)
      | cons d z =>
        obtain ⟨rfl, hb⟩ := List.cons_prefix_cons.mp hp
        obtain ⟨rfl, -⟩ := List.cons_prefix_cons.mp hb
        exact Or.inl (List.IsInfix.trans ⟨[], z, rfl⟩ hz'.isInfix)

theorem find_append (h : Apart w x) : find w (x ++ s) = find w s := by
  apply search_append
  intro z hz hne
  simp [h.not_starts hz hne]

end Apart

section Scan

/-- The matches of a pattern in turn. The number counts characters of the last match still
to be passed; the flag says whether the text stands at the start of a line. -/
def scan (m : Bool → Str → Option (β × Str)) : ℕ → Bool → Str → List β
  | _, _, [] => []
  | n + 1, _, c :: s => scan m n (c = '\n') s
  | 0, b, c :: s =>
    match m b (c :: s) with
    | some (a, r) => a :: scan m (s.length - r.length) (c = '\n') s
    | none => scan m 0 (c = '\n') s

def endsLine (b : Bool) (x : Str) : Bool := (x.getLast?.map fun c => decide (c = '\n')).getD b

@[simp]
theorem endsLine_nil (b : Bool) : endsLine b [] = b := rfl

theorem endsLine_append (b : Bool) (x y : Str) :
    endsLine b (x ++ y) = endsLine (endsLine b x) y := by
  cases y using List.reverseRecOn with
  | nil => simp
  | append_singleton y c => simp [endsLine, ← List.append_assoc]

theorem endsLine_concat (b : Bool) (x : Str) (c : Char) :
    endsLine b (x ++ [c]) = decide (c = '\n') := by
  simp [endsLine]

theorem endsLine_of_not_mem {x : Str} (b : Bool) (hne : x ≠ []) (h : '\n' ∉ x) :
    endsLine b x = false := by
  cases x using List.reverseRecOn with
  | nil => exact absurd rfl hne
  | append_singleton x c =>
    rw [endsLine_concat, decide_eq_false_iff_not]
    rintro rfl
    exact h (by simp)

variable {m : Bool → Str → Option (β × Str)} {b : Bool} {x s : Str}

theorem scan_skip (m : Bool → Str → Option (β × Str)) (b : Bool) (x s : Str) :
    scan m x.length b (x ++ s) = scan m 0 (endsLine b x) s := by
  induction x generalizing b with
  | nil => rfl
  | cons c x ih =>
    rw [List.length_cons, List.cons_append, scan, ih]
    exact congrArg (scan m 0 · s) (endsLine_append b [c] x).symm

theorem scan_flag (hm : ∀ b b' s, m b s = m b' s) (n : ℕ) (b b' : Bool) (s : Str) :
    scan m n b s = scan m n b' s := by
  cases s with
  | nil => cases n <;> rfl
  | cons c s =>
    cases n with
    | zero => rw [scan, scan, hm b b']
    | succ n => rfl

theorem scan_cons_of_none {c : Char} (h : m b (c :: s) = none) :
    scan m 0 b (c :: s) = scan m 0 (c = '\n') s := by
  rw [scan, h]

theorem scan_cons_of_some {c : Char} {a : β} {r : Str} (h : m b (c :: s) = some (a, r)) :
    scan m 0 b (c :: s) = a :: scan m (s.length - r.length) (c = '\n') s := by
  rw [scan, h]

theorem scan_of_match {a : β} (hx : x ≠ []) (h : m b (x ++ s) = some (a, s)) :
    scan m 0 b (x ++ s) = a :: scan m 0 (endsLine b x) s := by
  cases x with
  | nil => exact absurd rfl hx
  | cons c x =>
    rw [List.cons_append] at h ⊢
    have hlen : (x ++ s).length - s.length = x.length := by simp
    rw [scan_cons_of_some h, hlen, scan_skip]
    exact congrArg (a :: scan m 0 · s) (endsLine_append b [c] x).symm

theorem scan_append (h : ∀ y z, x = y ++ z → z ≠ [] → m (endsLine b y) (z ++ s) = none) :
    scan m 0 b (x ++ s) = scan m 0 (endsLine b x) s := by
  induction x generalizing b with
  | nil => rfl
  | cons c x ih =>
    have hc : m b (c :: (x ++ s)) = none := h [] (c :: x) rfl (by simp)
    rw [List.cons_append, scan_cons_of_none hc, ih]
    · exact congrArg (scan m 0 · s) (endsLine_append b [c] x).symm
    · intro y z hyz hz
      have h' := h (c :: y) z (by rw [hyz]; rfl) hz
      rwa [← List.singleton_append, endsLine_append] at h'

theorem scan_line (hm : ∀ s, m false s = none) (hline : '\n' ∉ x.dropLast)
    (h : b = true → m true (x ++ s) = none) :
    scan m 0 b (x ++ s) = scan m 0 (endsLine b x) s := by
  apply scan_append
  intro y z hyz hz
  cases y using List.reverseRecOn with
  | nil =>
    obtain rfl : x = z := hyz
    cases b with
    | false => exact hm _
    | true => exact h rfl
  | append_singleton y c =>
    rw [endsLine_concat]
    have hc : c ≠ '\n' := by
      rintro rfl
      apply hline
      rw [hyz, List.dropLast_append_of_ne_nil hz]
      simp
    simpa [hc] using hm _

theorem mem_scan {a : β} {n : ℕ} (h : a ∈ scan m n b s) :
    ∃ b' z r, z <:+ s ∧ m b' z = some (a, r) := by
  induction s generalizing n b with
  | nil => cases n <;> simp [scan] at h
  | cons c s ih =>
    have hrest : ∀ {n b}, a ∈ scan m n b s → ∃ b' z r, z <:+ c :: s ∧ m b' z = some (a, r) := by
      intro n b h
      obtain ⟨b', z, r, hz, hm⟩ := ih h
      exact ⟨b', z, r, hz.trans (List.suffix_cons c s), hm⟩
    cases n with
    | succ n => exact hrest h
    | zero =>
      cases hm : m b (c :: s) with
      | none =>
        rw [scan_cons_of_none hm] at h
        exact hrest h
      | some p =>
        rw [scan_cons_of_some hm] at h
        rcases List.mem_cons.mp h with rfl | h
        · exact ⟨b, c :: s, p.2, List.suffix_rfl, hm⟩
        · exact hrest h

/-- A pattern for line starts that begins with white space: behind the start of a line, white
space is passed over. -/
structure LinePattern (m : Bool → Str → Option (β × Str)) : Prop where
  inner : ∀ s, m false s = none
  blank : ∀ c s, Str.isSpace c = true → m true (c :: s) = m true s
  rest : ∀ s a r, m true s = some (a, r) → r.length < s.length

theorem LinePattern.scan_blank (hm : LinePattern m) {c : Char} (hc : Str.isSpace c = true) :
    scan m 0 b (c :: s) = scan m 0 (b || c = '\n') s := by
  cases b with
  | false => simpa using scan_cons_of_none (hm.inner (c :: s))
  | true =>
    cases h : m true s with
    | none =>
      rw [scan_cons_of_none ((hm.blank c s hc).trans h), Bool.true_or]
      cases s with
      | nil => rfl
      | cons d s =>
        rw [scan_cons_of_none h]
        cases decide (c = '\n') with
        | false => exact scan_cons_of_none (hm.inner _)
        | true => exact scan_cons_of_none h
    | some p =>
      obtain ⟨a, r⟩ := p
      have hr := hm.rest s a r h
      cases s with
      | nil => exact absurd hr (by simp)
      | cons d s =>
        have hlen : (d :: s).length - r.length = (s.length - r.length) + 1 := by
          simp only [List.length_cons] at hr ⊢
          omega
        rw [scan_cons_of_some ((hm.blank c _ hc).trans h), hlen, scan, Bool.true_or,
          scan_cons_of_some h]

theorem LinePattern.scan_newline (hm : LinePattern m) :
    scan m 0 b ('\n' :: s) = scan m 0 true s := by
  rw [hm.scan_blank rfl]
  simp

/-- Text within a line is passed over where no match begins at its start. -/
theorem LinePattern.scan_word (hm : LinePattern m) (hx : x ≠ []) (hline : '\n' ∉ x)
    (h : b = true → m true (x ++ s) = none) : scan m 0 b (x ++ s) = scan m 0 false s := by
  have hdrop : '\n' ∉ x.dropLast := fun hmem => hline (List.mem_of_mem_dropLast hmem)
  rw [scan_line hm.inner hdrop h, endsLine_of_not_mem b hx hline]

end Scan

end K8sLearn.Scan
