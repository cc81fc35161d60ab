import K8sLearn.Gates.Canonical

/-! # Comments in the map

A harmless comment, put at a line end or on a line of its own anywhere between the tokens of
the map, changes nothing of what `parse_histories` returns.
-/

namespace K8sLearn.Gates.Go

open Scan

variable {uni : Char → Bool}

section Membership

variable {α : Type} {c d : Comment} {l l' : List (Tok α)} {g : α → List Comment}

theorem Pad.comments_toks (pad : Pad) (g : α → List Comment) :
    (pad.toks : List (Tok α)).flatMap (Tok.comments g) = [] := by
  simp [Pad.toks, List.flatMap_map, Tok.comments]

theorem Insert.mem_comments (h : Insert c l l') (hd : d ∈ l'.flatMap (Tok.comments g)) :
    d = c ∨ d ∈ l.flatMap (Tok.comments g) := by
  cases h with
  | lineEnd l l' h =>
    simp only [List.flatMap_append, List.flatMap_cons, List.mem_append, Tok.comments,
      List.mem_singleton] at hd ⊢
    tauto
  | ownLine l l' t ht pad =>
    simp only [List.flatMap_append, List.flatMap_cons, List.mem_append, Tok.comments,
      List.mem_singleton, Pad.comments_toks, List.not_mem_nil] at hd ⊢
    tauto

theorem Within.mem_comments {R : α → α → Prop} (h : Within c R l l')
    (hR : ∀ a a', R a a' → ∀ d ∈ g a', d = c ∨ d ∈ g a)
    (hd : d ∈ l'.flatMap (Tok.comments g)) : d = c ∨ d ∈ l.flatMap (Tok.comments g) := by
  cases h with
  | here h => exact h.mem_comments hd
  | @inside a a' l l' h =>
    have hitem := hR a a' h d
    simp only [List.flatMap_append, List.flatMap_cons, List.mem_append, Tok.comments] at hd ⊢
    tauto

end Membership

theorem Entry.Commented.mem_comments {c d : Comment} {e e' : Entry uni}
    (h : Entry.Commented c e e') (hd : d ∈ e'.comments) : d = c ∨ d ∈ e.comments :=
  h.2.2.mem_comments (fun _ _ h _ hd => Insert.mem_comments h hd) hd

theorem Source.Commented.mem_comments {c d : Comment} {src src' : Source uni}
    (h : Source.Commented c src src') (hd : d ∈ src'.comments) : d = c ∨ d ∈ src.comments :=
  h.2.2.mem_comments (fun _ _ h _ hd => h.mem_comments hd) hd

theorem Source.Commented.parse_eq {c : Comment} {src src' : Source uni}
    (h : Source.Commented c src src') (hsrc : ∀ d ∈ src.comments, Harmless uni d.text)
    (hc : Harmless uni c.text) :
    parseHistories uni src'.text = parseHistories uni src.text := by
  have hsrc' : ∀ d ∈ src'.comments, Harmless uni d.text := by
    intro d hd
    rcases h.mem_comments hd with rfl | hd
    · exact hc
    · exact hsrc d hd
  rw [Source.parseHistories_text hsrc', Source.parseHistories_text hsrc, h.histories_eq]

end K8sLearn.Gates.Go
