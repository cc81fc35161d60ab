import Mathlib.Algebra.GroupWithZero.Nat
import Mathlib.Data.List.Chain
import K8sLearn.Lib.Text

/-! # White space between words

`" ".join(s.split())` leaves one space between any two words and none at the ends. A part of
such a text has single spaces inside too, so that doing it again to the part takes away at
most one space at each end.
-/

namespace K8sLearn.Str

/-- `" ".join(s.split())`. -/
def squeeze (s : Str) : Str := join [' '] (splitSpaces s)

structure Spaced (s : Str) : Prop where
  isChain : s.IsChain fun a b => isSpace a = false ∨ isSpace b = false
  eq_space : ∀ c ∈ s, isSpace c = true → c = ' '

variable {s t : Str} {c d : Char}

section Strip

theorem filter_dropWhile (p : Char → Bool) (s : Str) :
    (s.dropWhile p).filter (fun c => !p c) = s.filter fun c => !p c := by
  have hnil : (s.takeWhile p).filter (fun c => !p c) = [] := by
    refine List.filter_eq_nil_iff.mpr fun c hc => ?_
    rw [List.all_eq_true.mp List.all_takeWhile c hc]
    decide
  conv_rhs => rw [← List.takeWhile_append_dropWhile (p := p) (l := s), List.filter_append, hnil,
    List.nil_append]

theorem countP_le_length_strip (s : Str) : s.countP (fun c => !isSpace c) ≤ (strip s).length := by
  have hkeep : (strip s).filter (fun c => !isSpace c) = s.filter fun c => !isSpace c := by
    rw [strip, List.filter_reverse, filter_dropWhile, List.filter_reverse, List.reverse_reverse,
      filter_dropWhile]
  rw [List.countP_eq_length_filter, ← hkeep]
  exact List.length_filter_le _ _

end Strip

section Equations

theorem splitSpaces_cons_space (hc : isSpace c = true) : splitSpaces (c :: s) = splitSpaces s := by
  simp [splitSpaces, runs, List.splitOnP_cons_eq_if_modifyHead, hc]

theorem splitSpaces_singleton (hc : isSpace c = false) : splitSpaces [c] = [[c]] := by
  simp [splitSpaces, runs, List.splitOnP_cons_eq_if_modifyHead, hc]

theorem splitSpaces_cons_cons_space (hc : isSpace c = false) (hd : isSpace d = true) :
    splitSpaces (c :: d :: s) = [c] :: splitSpaces s := by
  simp [splitSpaces, runs, List.splitOnP_cons_eq_if_modifyHead, hc, hd]

theorem splitSpaces_cons_cons (hc : isSpace c = false) (hd : isSpace d = false) :
    ∃ r rs, splitSpaces (d :: s) = r :: rs ∧ splitSpaces (c :: d :: s) = (c :: r) :: rs := by
  cases hs : s.splitOnP fun c => isSpace c with
  | nil => exact absurd hs (List.splitOnP_ne_nil _ s)
  | cons r rs =>
    refine ⟨d :: r, rs.filter fun r => !r.isEmpty, ?_, ?_⟩ <;>
      simp [splitSpaces, runs, List.splitOnP_cons_eq_if_modifyHead, hc, hd, hs]

theorem join_cons {sep r : Str} {rs : List Str} :
    join sep (r :: rs) = r ++ if rs = [] then [] else sep ++ join sep rs := by
  cases rs <;> simp [join]

@[simp] theorem squeeze_nil : squeeze [] = [] := by
  simp [squeeze, splitSpaces, runs, join]

theorem squeeze_cons_space (hc : isSpace c = true) : squeeze (c :: s) = squeeze s := by
  rw [squeeze, splitSpaces_cons_space hc, squeeze]

theorem squeeze_singleton (hc : isSpace c = false) : squeeze [c] = [c] := by
  simp [squeeze, splitSpaces_singleton hc, join]

theorem squeeze_cons_cons (hc : isSpace c = false) (hd : isSpace d = false) :
    squeeze (c :: d :: s) = c :: squeeze (d :: s) := by
  obtain ⟨r, rs, h, h'⟩ := splitSpaces_cons_cons (s := s) hc hd
  rw [squeeze, squeeze, h, h', join_cons, join_cons, List.cons_append]

theorem squeeze_eq_nil_iff : squeeze s = [] ↔ splitSpaces s = [] := by
  rw [squeeze]
  cases h : splitSpaces s with
  | nil => simp [join]
  | cons r rs =>
    have hr : r ≠ [] := ne_nil_of_mem_splitSpaces (h ▸ List.mem_cons_self)
    simp [join_cons, hr]

theorem squeeze_cons_cons_space (hc : isSpace c = false) (hd : isSpace d = true) :
    squeeze (c :: d :: s) = c :: if squeeze s = [] then [] else ' ' :: squeeze s := by
  simp only [squeeze_eq_nil_iff]
  rw [squeeze, splitSpaces_cons_cons_space hc hd, join_cons, squeeze]
  rfl

theorem exists_squeeze_cons (hc : isSpace c = false) : ∃ t, squeeze (c :: s) = c :: t := by
  cases s with
  | nil => exact ⟨[], squeeze_singleton hc⟩
  | cons d s =>
    cases hd : isSpace d with
    | false => exact ⟨_, squeeze_cons_cons hc hd⟩
    | true => exact ⟨_, squeeze_cons_cons_space hc hd⟩

theorem spaces_induction {P : Str → Prop} (nil : P [])
    (space : ∀ c s, isSpace c = true → P s → P (c :: s))
    (single : ∀ c, isSpace c = false → P [c])
    (word : ∀ c d s, isSpace c = false → isSpace d = false → P (d :: s) → P (c :: d :: s))
    (gap : ∀ c d s, isSpace c = false → isSpace d = true → P s → P (c :: d :: s)) : ∀ s, P s
  | [] => nil
  | [c] => by
    cases hc : isSpace c with
    | false => exact single c hc
    | true => exact space c [] hc nil
  | c :: d :: s => by
    have ih := spaces_induction nil space single word gap (d :: s)
    cases hc : isSpace c with
    | true => exact space c _ hc ih
    | false =>
      cases hd : isSpace d with
      | false => exact word c d s hc hd ih
      | true => exact gap c d s hc hd (spaces_induction nil space single word gap s)

end Equations

section Squeezed

theorem filter_squeeze (s : Str) :
    (squeeze s).filter (fun c => !isSpace c) = s.filter fun c => !isSpace c := by
  have hsp : isSpace ' ' = true := by decide
  induction s using spaces_induction with
  | nil => simp
  | space c s hc ih => simpa [squeeze_cons_space hc, hc] using ih
  | single c hc => simp [squeeze_singleton hc]
  | word c d s hc hd ih => simpa [squeeze_cons_cons hc hd, hc] using ih
  | gap c d s hc hd ih =>
    rw [squeeze_cons_cons_space hc hd]
    split_ifs with hs
    · rw [hs] at ih
      simpa [hc, hd] using ih
    · simpa [hc, hd, hsp] using ih

theorem Spaced.tail (h : Spaced (c :: s)) : Spaced s :=
  ⟨h.isChain.tail, fun d hd => h.eq_space d (List.mem_cons_of_mem _ hd)⟩

theorem Spaced.of_isInfix (h : Spaced s) (ht : t <:+: s) : Spaced t := by
  constructor
  · exact List.IsChain.infix h.isChain ht
  · exact fun c hc => h.eq_space c (ht.subset hc)

theorem Spaced.cons_of_not_space (hc : isSpace c = false) (h : Spaced s) : Spaced (c :: s) := by
  refine ⟨List.isChain_cons.mpr ⟨fun _ _ => Or.inl hc, h.isChain⟩, fun d hd hsp => ?_⟩
  rcases List.mem_cons.mp hd with rfl | hd
  · rw [hc] at hsp
    exact absurd hsp Bool.false_ne_true
  · exact h.eq_space d hd hsp

theorem spaced_nil : Spaced [] := ⟨List.isChain_nil, List.forall_mem_nil _⟩

theorem head_squeeze (s : Str) : ∀ c ∈ (squeeze s).head?, isSpace c = false := by
  induction s using spaces_induction with
  | nil => simp
  | space c s hc ih => rwa [squeeze_cons_space hc]
  | single c hc => simpa [squeeze_singleton hc] using hc
  | word c d s hc hd _ => simpa [squeeze_cons_cons hc hd] using hc
  | gap c d s hc hd _ => simpa [squeeze_cons_cons_space hc hd] using hc

theorem spaced_squeeze (s : Str) : Spaced (squeeze s) := by
  induction s using spaces_induction with
  | nil => simpa using spaced_nil
  | space c s hc ih => rwa [squeeze_cons_space hc]
  | single c hc =>
    rw [squeeze_singleton hc]
    exact spaced_nil.cons_of_not_space hc
  | word c d s hc hd ih =>
    rw [squeeze_cons_cons hc hd]
    exact ih.cons_of_not_space hc
  | gap c d s hc hd ih =>
    rw [squeeze_cons_cons_space hc hd]
    apply Spaced.cons_of_not_space hc
    split_ifs with hs
    · exact spaced_nil
    · refine ⟨List.isChain_cons.mpr ⟨fun e he => Or.inr (head_squeeze s e he), ih.isChain⟩, ?_⟩
      intro e he hsp
      rcases List.mem_cons.mp he with rfl | he
      · rfl
      · exact ih.eq_space e he hsp

theorem Spaced.exists_squeeze (h : Spaced s) :
    ∃ a b, s = a ++ squeeze s ++ b ∧ a.length ≤ 1 ∧ b.length ≤ 1 ∧
      (∀ c ∈ a ++ b, isSpace c = true) ∧ ((∀ c ∈ s.head?, isSpace c = false) → a = []) := by
  induction s using spaces_induction with
  | nil => exact ⟨[], [], by simp⟩
  | space c s hc ih =>
    obtain ⟨a, b, hs, -, hb, hab, ha⟩ := ih h.tail
    have hhead : ∀ d ∈ s.head?, isSpace d = false := fun d hd =>
      ((List.isChain_cons.mp h.isChain).1 d hd).resolve_left (by simp [hc])
    obtain rfl := ha hhead
    refine ⟨[c], b, by rw [squeeze_cons_space hc]; simpa using hs, le_rfl, hb, ?_, ?_⟩
    · simpa [hc] using hab
    · simp [hc]
  | single c hc => exact ⟨[], [], by simp [squeeze_singleton hc]⟩
  | word c d s hc hd ih =>
    obtain ⟨a, b, hs, -, hb, hab, ha⟩ := ih h.tail
    obtain rfl := ha (by simpa using hd)
    refine ⟨[], b, ?_, Nat.zero_le _, hb, hab, fun _ => rfl⟩
    rw [squeeze_cons_cons hc hd]
    simpa using hs
  | gap c d s hc hd ih =>
    obtain ⟨a, b, hs, -, hb, hab, ha⟩ := ih h.tail.tail
    have hhead : ∀ e ∈ s.head?, isSpace e = false := fun e he =>
      ((List.isChain_cons.mp h.tail.isChain).1 e he).resolve_left (by simp [hd])
    obtain rfl := ha hhead
    rw [squeeze_cons_cons_space hc hd]
    split_ifs with hnil
    · obtain rfl : s = b := by simpa [hnil] using hs
      cases s with
      | nil => exact ⟨[], [d], by simp [hd]⟩
      | cons e s =>
        have hsp := hab e (by simp)
        rw [hhead e rfl] at hsp
        exact absurd hsp Bool.false_ne_true
    · obtain rfl : d = ' ' := h.eq_space d (by simp) hd
      exact ⟨[], b, by simpa using hs, Nat.zero_le _, hb, hab, fun _ => rfl⟩

theorem last_squeeze (s : Str) : ∀ c ∈ (squeeze s).getLast?, isSpace c = false := by
  induction s using spaces_induction with
  | nil => simp
  | space c s hc ih => rwa [squeeze_cons_space hc]
  | single c hc => simpa [squeeze_singleton hc] using hc
  | word c d s hc hd ih =>
    obtain ⟨t, ht⟩ := exists_squeeze_cons (s := s) hd
    rw [squeeze_cons_cons hc hd, ht, List.getLast?_cons_cons, ← ht]
    exact ih
  | gap c d s hc hd ih =>
    rw [squeeze_cons_cons_space hc hd]
    split_ifs with hs
    · simpa using hc
    · obtain ⟨e, t, ht⟩ := List.exists_cons_of_ne_nil hs
      rw [ht, List.getLast?_cons_cons, List.getLast?_cons_cons, ← ht]
      exact ih

theorem strip_of_ends (hhead : ∀ c ∈ s.head?, isSpace c = false)
    (hlast : ∀ c ∈ s.getLast?, isSpace c = false) : strip s = s := by
  have hdrop : ∀ t : Str, (∀ c ∈ t.head?, isSpace c = false) → t.dropWhile isSpace = t := by
    intro t ht
    cases t with
    | nil => rfl
    | cons c t => rw [List.dropWhile_cons, ht c rfl, if_neg Bool.false_ne_true]
  rw [strip, hdrop s hhead, hdrop s.reverse (by rwa [List.head?_reverse]), List.reverse_reverse]

theorem Spaced.collapseFrom (h : Spaced s) (inRun : Bool)
    (hhead : inRun = true → ∀ c ∈ s.head?, isSpace c = false) :
    Str.collapseFrom inRun s = s := by
  induction s generalizing inRun with
  | nil => rfl
  | cons c s ih =>
    rw [Str.collapseFrom]
    cases hc : isSpace c with
    | false => rw [if_neg Bool.false_ne_true, ih h.tail false fun h => nomatch h]
    | true =>
      have hfirst : ∀ d ∈ s.head?, isSpace d = false := fun d hd =>
        ((List.isChain_cons.mp h.isChain).1 d hd).resolve_left (by simp [hc])
      cases inRun with
      | true => exact absurd (hhead rfl c rfl) (by simp [hc])
      | false =>
        rw [if_pos rfl, if_neg Bool.false_ne_true, ih h.tail true fun _ => hfirst,
          h.eq_space c List.mem_cons_self hc]

theorem strip_collapse_squeeze (s : Str) : strip (collapseSpaces (squeeze s)) = squeeze s := by
  rw [collapseSpaces, (spaced_squeeze s).collapseFrom false fun h => nomatch h]
  exact strip_of_ends (head_squeeze s) (last_squeeze s)

theorem squeeze_squeeze (s : Str) : squeeze (squeeze s) = squeeze s := by
  have hsp : isSpace ' ' = true := by decide
  induction s using spaces_induction with
  | nil => simp
  | space c s hc ih => rwa [squeeze_cons_space hc]
  | single c hc => simp only [squeeze_singleton hc]
  | word c d s hc hd ih =>
    obtain ⟨t, ht⟩ := exists_squeeze_cons (s := s) hd
    rw [squeeze_cons_cons hc hd, ht, squeeze_cons_cons hc hd, ← ht, ih]
  | gap c d s hc hd ih =>
    rw [squeeze_cons_cons_space hc hd]
    split_ifs with hs
    · exact squeeze_singleton hc
    · rw [squeeze_cons_cons_space hc hsp, ih, if_neg hs]

end Squeezed

section Count

variable {c : Char}

theorem count_replaceFrom {old new : Str} (hne : old ≠ []) (hold : c ∉ old) (hnew : c ∉ new)
    (n : ℕ) (s : Str) : (replaceFrom old new n s).count c = (s.drop n).count c := by
  induction s generalizing n with
  | nil => cases n <;> simp [replaceFrom]
  | cons d s ih =>
    cases n with
    | succ n => rw [replaceFrom, ih, List.drop_succ_cons]
    | zero =>
      rw [replaceFrom, List.drop_zero]
      split_ifs with h
      · obtain ⟨rest, hrest⟩ := h
        have hdrop : s.drop (old.length - 1) = rest := by
          have hlen : old.length = old.length - 1 + 1 :=
            (Nat.sub_add_cancel (List.length_pos_iff.mpr hne)).symm
          rw [← List.drop_succ_cons (a := d), ← hlen, ← hrest, List.drop_left]
        rw [List.count_append, List.count_eq_zero.mpr hnew, Nat.zero_add, ih, hdrop, ← hrest,
          List.count_append, List.count_eq_zero.mpr hold, Nat.zero_add]
      · rw [List.count_cons, ih, List.drop_zero, List.count_cons]

theorem count_replaceAll {words : List Str} {new : Str} (hnew : c ∉ new)
    (h : ∀ w ∈ words, w ≠ [] ∧ c ∉ w) (s : Str) : (replaceAll words new s).count c = s.count c := by
  induction words generalizing s with
  | nil => rfl
  | cons w words ih =>
    obtain ⟨hw, hwords⟩ := List.forall_mem_cons.mp h
    exact (ih hwords _).trans (count_replaceFrom hw.1 hw.2 hnew 0 s)

theorem count_join {sep : Str} (hsep : c ∉ sep) (parts : List Str) :
    (join sep parts).count c = (parts.map (List.count c)).sum := by
  induction parts with
  | nil => rfl
  | cons r rs ih =>
    cases rs with
    | nil => simp [join]
    | cons r' rs =>
      rw [join, List.intersperse_cons_cons, List.flatten_cons, List.flatten_cons, List.count_append,
        List.count_append, List.count_eq_zero.mpr hsep, Nat.zero_add, List.map_cons, List.sum_cons,
        ← ih, join]

theorem eq_of_count_eq {a a' b b' : Str} (hcount : a.count c = a'.count c)
    (h : a ++ c :: b = a' ++ c :: b') : a = a' := by
  induction a generalizing a' with
  | nil =>
    cases a' with
    | nil => rfl
    | cons d a' =>
      obtain ⟨rfl, -⟩ := List.cons.inj h
      simp at hcount
  | cons e a ih =>
    cases a' with
    | nil =>
      obtain ⟨rfl, -⟩ := List.cons.inj h
      simp at hcount
    | cons d a' =>
      obtain ⟨rfl, htail⟩ := List.cons.inj h
      rw [List.count_cons, List.count_cons, Nat.add_right_cancel_iff] at hcount
      rw [ih hcount htail]

theorem count_dropWhile_space (hc : isSpace c = false) (s : Str) :
    (s.dropWhile isSpace).count c = s.count c := by
  induction s with
  | nil => rfl
  | cons d s ih =>
    rw [List.dropWhile_cons]
    split_ifs with hd
    · rw [ih, List.count_cons_of_ne]
      rintro rfl
      rw [hd] at hc
      cases hc
    · rfl

theorem count_strip (hc : isSpace c = false) (s : Str) : (strip s).count c = s.count c := by
  rw [strip, List.count_reverse, count_dropWhile_space hc, List.count_reverse,
    count_dropWhile_space hc]

theorem count_collapseSpaces (hc : isSpace c = false) (s : Str) :
    (collapseSpaces s).count c = s.count c := by
  have hspace : c ≠ ' ' := by
    rintro rfl
    exact absurd hc (by decide)
  have hfrom : ∀ inRun, (collapseFrom inRun s).count c = s.count c := by
    induction s with
    | nil => exact fun inRun => by cases inRun <;> rfl
    | cons d s ih =>
      intro inRun
      rw [collapseFrom]
      split_ifs with hd hrun
      · rw [ih, List.count_cons_of_ne]
        rintro rfl
        rw [hd] at hc
        cases hc
      · rw [List.count_cons_of_ne hspace.symm, ih, List.count_cons_of_ne]
        rintro rfl
        rw [hd] at hc
        cases hc
      · rw [List.count_cons, ih, List.count_cons]
  exact hfrom false

end Count

end K8sLearn.Str
