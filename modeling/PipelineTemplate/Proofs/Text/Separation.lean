import PipelineTemplate.Proofs.Text.Occurrence

/-!
# Texts in pieces

A text is split where a separator occurs, searched from the left, and pieces are put together with the
separator between each two. The pieces of a text are the only ones that give the text back and are
separated: within a piece and the separator behind it, the separator occurs nowhere before its own place.
Replacing an occurrence is putting the pieces together with something else.
-/

namespace PipelineTemplate.Text

variable {separator cs : List Char} {piece : List Char} {pieces : List (List Char)}

/-- Pieces that stay apart when the separator is put between them: no occurrence begins in one of them. It
could reach into the separator behind the piece, but not up to the last character of that. -/
inductive Separated (separator : List Char) : List (List Char) → Prop
  | last {piece : List Char} (h : ¬separator <:+: piece) : Separated separator [piece]
  | next {piece : List Char} {pieces : List (List Char)} (h : ¬separator <:+: piece ++ separator.dropLast)
      (rest : Separated separator pieces) : Separated separator (piece :: pieces)

theorem Separated.ne_nil (h : Separated separator pieces) : pieces ≠ [] := by
  cases h <;> exact List.cons_ne_nil _ _

/-- With the separator behind a piece that stays apart from it, no occurrence begins in the piece. -/
theorem not_prefix_of_apart (h : ¬separator <:+: piece ++ separator.dropLast) {y : Char} {ys : List Char}
    (hy : y :: ys <:+ piece) (rest : List Char) : ¬separator <+: y :: (ys ++ (separator ++ rest)) := by
  intro hp
  obtain ⟨before, rfl⟩ := hy
  -- It would end before the last character of the separator behind the piece.
  have hlong : y :: (ys ++ separator.dropLast) <+: y :: (ys ++ (separator ++ rest)) := by
    rw [List.prefix_cons_inj, List.prefix_append_right_inj]
    exact (List.dropLast_prefix separator).trans (List.prefix_append ..)
  have hlength : separator.length ≤ (y :: (ys ++ separator.dropLast)).length := by
    rw [List.length_cons, List.length_append, List.length_dropLast]
    omega
  have hshort : separator <+: y :: (ys ++ separator.dropLast) := List.prefix_of_prefix_length_le hp hlong hlength
  refine h (hshort.isInfix.trans ⟨before, [], ?_⟩)
  rw [List.append_nil, List.append_assoc, List.cons_append]

/-! ## Splitting step by step -/

theorem split_ne_nil : split separator cs ≠ [] := List.cons_ne_nil _ _

theorem splitFrom_skip (xs rest : List Char) :
    splitFrom separator xs.length (xs ++ rest) = splitFrom separator 0 rest := by
  induction xs with
  | nil => rfl
  | cons x xs ih => rw [List.length_cons, List.cons_append, splitFrom, ih]

/-- A character with which no occurrence begins belongs to the first piece. -/
theorem split_char {c : Char} (h : ¬separator <+: c :: cs) :
    split separator (c :: cs) = (split separator cs).modifyHead ([c] ++ ·) := by
  rw [split, splitFrom, if_neg (fun hp => h (List.isPrefixOf_iff_prefix.1 hp))]
  rfl

/-- A part in which no occurrence begins belongs to the first piece. -/
theorem split_pass {xs rest : List Char} (h : ∀ y ys, y :: ys <:+ xs → ¬separator <+: y :: (ys ++ rest)) :
    split separator (xs ++ rest) = (split separator rest).modifyHead (xs ++ ·) := by
  induction xs with
  | nil => rfl
  | cons x xs ih =>
    have hxs : ∀ y ys, y :: ys <:+ xs → ¬separator <+: y :: (ys ++ rest) :=
      fun y ys hys => h y ys (hys.trans (List.suffix_cons x xs))
    rw [List.cons_append, split_char (h x xs List.suffix_rfl), ih hxs, List.modifyHead_modifyHead]
    rfl

/-- At an occurrence the first piece ends. -/
theorem split_found (hs : separator ≠ []) (rest : List Char) :
    split separator (separator ++ rest) = [] :: split separator rest := by
  obtain ⟨c, more, rfl⟩ := List.exists_cons_of_ne_nil hs
  have hstart : (c :: more).isPrefixOf (c :: (more ++ rest)) = true := List.isPrefixOf_iff_prefix.2 ⟨rest, rfl⟩
  rw [split, List.cons_append, splitFrom, if_pos hstart, List.length_cons, Nat.add_sub_cancel, splitFrom_skip]
  rfl

/-! ## Pieces put together -/

theorem intercalate_modifyHead (xs : List Char) (hne : pieces ≠ []) :
    separator.intercalate (pieces.modifyHead (xs ++ ·)) = xs ++ separator.intercalate pieces := by
  obtain ⟨piece, more, rfl⟩ := List.exists_cons_of_ne_nil hne
  cases more with
  | nil => rw [List.modifyHead_cons, List.intercalate_singleton, List.intercalate_singleton]
  | cons next more =>
    rw [List.modifyHead_cons, List.intercalate_cons_cons, List.intercalate_cons_cons, List.append_assoc,
      List.append_assoc, List.append_assoc]

/-- The characters of a text put together with nothing between them. -/
theorem intercalate_characters (cs : List Char) : List.intercalate [] (cs.map fun c => [c]) = cs := by
  induction cs with
  | nil => rfl
  | cons c cs ih =>
    cases cs with
    | nil => rfl
    | cons d cs => exact congrArg (c :: ·) ih

section Nonempty

variable (hs : separator ≠ [])
include hs

/-- Replacing puts the pieces of a text together with the replacement between each two. -/
theorem replace_eq_intercalate (replacement cs : List Char) :
    replace separator replacement cs = replacement.intercalate (split separator cs) := by
  induction cs using occurrence_induction hs with
  | nil => rfl
  | found cs ih =>
    rw [replace_append hs, split_found hs, List.intercalate_cons_of_ne_nil split_ne_nil, ih, List.nil_append]
  | char c cs hp ih =>
    rw [replace_cons hp, split_char hp, intercalate_modifyHead [c] split_ne_nil, ih]
    rfl

theorem replace_self (cs : List Char) : replace separator separator cs = cs := by
  induction cs using occurrence_induction hs with
  | nil => rfl
  | found cs ih => rw [replace_append hs, ih]
  | char c cs hp ih => rw [replace_cons hp, ih]

/-- The pieces give the text back. -/
theorem intercalate_split (cs : List Char) : separator.intercalate (split separator cs) = cs := by
  rw [← replace_eq_intercalate hs, replace_self hs]

theorem separated_split (cs : List Char) : Separated separator (split separator cs) := by
  induction cs using occurrence_induction hs with
  | nil => exact .last (by simpa using hs)
  | found cs ih =>
    rw [split_found hs]
    refine .next (fun hi => ?_) ih
    have hlength := hi.length_le
    have hpos := List.length_pos_iff.2 hs
    rw [List.nil_append, List.length_dropLast] at hlength
    omega
  | char c cs hp ih =>
    -- An occurrence in the first piece begins with the new character or was there before.
    have hcs := intercalate_split hs cs
    rw [split_char hp]
    generalize split separator cs = pieces at ih hcs
    cases ih with
    | last h =>
      rw [List.intercalate_singleton] at hcs
      subst hcs
      refine .last fun hi => ?_
      exact (List.infix_cons_iff.1 hi).elim hp h
    | @next piece pieces h rest =>
      refine .next (fun hi => ?_) rest
      rcases List.infix_cons_iff.1 hi with hi | hi
      · rw [List.intercalate_cons_of_ne_nil rest.ne_nil, List.append_assoc] at hcs
        have hbefore : piece ++ separator.dropLast <+: cs := by
          rw [← hcs, List.prefix_append_right_inj]
          exact (List.dropLast_prefix separator).trans (List.prefix_append ..)
        exact hp (hi.trans ((List.prefix_cons_inj c).2 hbefore))
      · exact h hi

/-- Separated pieces are what the text that they give is split into. -/
theorem split_intercalate (h : Separated separator pieces) : split separator (separator.intercalate pieces) = pieces := by
  induction h with
  | @last piece h =>
    have hpass : ∀ y ys, y :: ys <:+ piece → ¬separator <+: y :: (ys ++ []) := by
      intro y ys hy hp
      rw [List.append_nil] at hp
      exact h (hp.isInfix.trans hy.isInfix)
    rw [List.intercalate_singleton, ← List.append_nil piece, split_pass hpass]
    rfl
  | @next piece pieces h rest ih =>
    rw [List.intercalate_cons_of_ne_nil rest.ne_nil, List.append_assoc,
      split_pass fun y ys hy => not_prefix_of_apart h hy _, split_found hs, ih, List.modifyHead_cons,
      List.append_nil]

/-- The pieces of a text are the separated ones that give it back. -/
theorem split_eq_iff : split separator cs = pieces ↔ separator.intercalate pieces = cs ∧ Separated separator pieces := by
  constructor
  · rintro rfl
    exact ⟨intercalate_split hs cs, separated_split hs cs⟩
  · rintro ⟨rfl, h⟩
    exact split_intercalate hs h

end Nonempty

/-- The separator would be met one character early. -/
example : split "aa".toList ("aa".toList.intercalate ["ba".toList, []]) = ["b".toList, "a".toList] := by decide

/-! ## Separators of one character -/

section Character

variable {c : Char}

theorem singleton_infix_iff : [c] <:+: cs ↔ c ∈ cs := by
  constructor
  · exact fun h => h.subset List.mem_cons_self
  · intro h
    obtain ⟨before, after, rfl⟩ := List.append_of_mem h
    exact ⟨before, after, by simp⟩

theorem separated_singleton : Separated [c] pieces ↔ pieces ≠ [] ∧ ∀ piece ∈ pieces, c ∉ piece := by
  constructor
  · intro h
    refine ⟨h.ne_nil, ?_⟩
    induction h with
    | last h => simpa [singleton_infix_iff] using h
    | next h rest ih =>
      rw [List.dropLast_singleton, List.append_nil, singleton_infix_iff] at h
      exact List.forall_mem_cons.2 ⟨h, ih⟩
  · rintro ⟨hne, h⟩
    induction pieces with
    | nil => exact absurd rfl hne
    | cons piece pieces ih =>
      obtain ⟨hpiece, hpieces⟩ := List.forall_mem_cons.1 h
      by_cases hrest : pieces = []
      · subst hrest
        exact .last fun hi => hpiece (singleton_infix_iff.1 hi)
      · refine .next (fun hi => hpiece ?_) (ih hrest hpieces)
        rwa [List.dropLast_singleton, List.append_nil, singleton_infix_iff] at hi

theorem intercalate_cons (piece : List Char) (pieces : List (List Char)) :
    [c].intercalate (piece :: pieces) = piece ++ pieces.flatMap (c :: ·) := by
  induction pieces generalizing piece with
  | nil => rw [List.intercalate_singleton, List.flatMap_nil, List.append_nil]
  | cons next pieces ih => rw [List.intercalate_cons_cons, ih, List.flatMap_cons, List.append_assoc]; rfl

/-- Pieces that are put together with a separator that they do not have are what the text splits into. -/
theorem split_pieces {first : List Char} {pieces : List (List Char)} (hfirst : c ∉ first)
    (h : ∀ piece ∈ pieces, c ∉ piece) :
    split [c] (first ++ pieces.flatMap (c :: ·)) = first :: pieces := by
  rw [← intercalate_cons]
  refine split_intercalate (List.cons_ne_nil c []) (separated_singleton.2 ⟨List.cons_ne_nil first pieces, ?_⟩)
  exact List.forall_mem_cons.2 ⟨hfirst, h⟩

/-- The pieces between separators have none. -/
theorem not_mem_of_mem_split (h : piece ∈ split [c] cs) : c ∉ piece :=
  (separated_singleton.1 (separated_split (List.cons_ne_nil c []) cs)).2 piece h

/-- A separator parts what stands before it from what stands behind it. -/
theorem split_append (xs ys : List Char) : split [c] (xs ++ c :: ys) = split [c] xs ++ split [c] ys := by
  have hfound (cs : List Char) : split [c] (c :: cs) = [] :: split [c] cs := split_found (List.cons_ne_nil c []) cs
  induction xs with
  | nil => exact hfound ys
  | cons d xs ih =>
    by_cases hd : c = d
    · rw [← hd, List.cons_append, hfound, hfound, ih, List.cons_append]
    · have hp (cs : List Char) : ¬[c] <+: d :: cs := fun h => hd (List.cons_prefix_cons.1 h).1
      obtain ⟨piece, pieces, hxs⟩ := List.exists_cons_of_ne_nil (@split_ne_nil [c] xs)
      rw [List.cons_append, split_char (hp _), split_char (hp _), ih, hxs]
      rfl

end Character

end PipelineTemplate.Text
