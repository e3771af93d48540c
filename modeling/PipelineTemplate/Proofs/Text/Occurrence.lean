import PipelineTemplate.Text.Blank
import PipelineTemplate.Text.Occurrence

/-!
# Occurrences in parts of a text

What occurs in a part of a text occurs in the text, so nothing is found in a trimmed text that is not in
the text itself.
-/

namespace PipelineTemplate.Text

variable {part cs : List Char}

theorem dropPrefix?_isSome : (dropPrefix? part cs).isSome = true ↔ part <+: cs := by
  rw [Option.isSome_iff_exists]
  exact exists_congr fun rest => dropPrefix?_eq_some.trans eq_comm

theorem hasInfix_iff : hasInfix part cs = true ↔ part <:+: cs := by
  induction cs with
  | nil => by_cases h : part = [] <;> simp [hasInfix, cut?, h]
  | cons c cs ih =>
    rw [List.infix_cons_iff, ← dropPrefix?_isSome, ← ih]
    cases hd : dropPrefix? part (c :: cs) with
    | some rest => simp [hasInfix, cut?, hd]
    | none => simp [hasInfix, cut?, hd]

theorem dropPrefix?_eq_none (h : hasInfix part cs = false) : dropPrefix? part cs = none := by
  cases hd : dropPrefix? part cs with
  | none => rfl
  | some rest =>
    have hp : part <+: cs := dropPrefix?_isSome.1 (by simp [hd])
    rw [hasInfix_iff.2 hp.isInfix] at h
    cases h

theorem hasInfix_of_infix {whole : List Char} (hi : cs <:+: whole) (h : hasInfix part whole = false) :
    hasInfix part cs = false := by
  rw [Bool.eq_false_iff, ne_eq, hasInfix_iff] at h ⊢
  exact fun hp => h (hp.trans hi)

theorem isPrefix_trimEnd (cs : List Char) : trimEnd cs <+: cs := by
  induction cs with
  | nil => exact List.prefix_rfl
  | cons c cs ih =>
    rw [trimEnd]
    split
    · split
      · exact List.nil_prefix
      · exact ⟨cs, rfl⟩
    · exact (List.prefix_cons_inj c).2 ih

theorem trim_infix (cs : List Char) : trim cs <:+: cs :=
  (isPrefix_trimEnd _).isInfix.trans (List.dropWhile_suffix isBlank).isInfix

/-! ## Cutting -/

theorem cut?_append {separator : List Char} (hs : separator ≠ []) (rest : List Char) :
    cut? separator (separator ++ rest) = some ([], rest) := by
  obtain ⟨c, more, rfl⟩ := List.exists_cons_of_ne_nil hs
  rw [List.cons_append, cut?, ← List.cons_append, dropPrefix?_eq_some.2 rfl]

theorem cut?_cons {separator : List Char} {c : Char} (h : ¬separator <+: c :: cs) :
    cut? separator (c :: cs) = (cut? separator cs).map fun (before, after) => (c :: before, after) := by
  have hnone : dropPrefix? separator (c :: cs) = none := by
    rw [← Option.not_isSome_iff_eq_none, dropPrefix?_isSome]
    exact h
  rw [cut?, hnone]

theorem cut?_eq_some {separator before after : List Char} (h : cut? separator cs = some (before, after)) :
    cs = before ++ separator ++ after := by
  induction cs generalizing before with
  | nil =>
    rw [cut?] at h
    split at h
    · next hs => cases h; simp [hs]
    · cases h
  | cons c cs ih =>
    rw [cut?] at h
    split at h
    · next rest hrest =>
      cases h
      exact dropPrefix?_eq_some.1 hrest
    · obtain ⟨⟨b, a⟩, hb, heq⟩ := Option.map_eq_some_iff.1 h
      cases heq
      rw [ih hb, List.cons_append, List.cons_append]

/-- What is cut off in front does not depend on what follows the separator. -/
theorem cut?_congr {separator before after : List Char} (h : cut? separator cs = some (before, after))
    (rest : List Char) : cut? separator (before ++ separator ++ rest) = some (before, rest) := by
  induction cs generalizing before with
  | nil =>
    rw [cut?] at h
    split at h
    · next hs =>
      cases h
      subst hs
      cases rest <;> rfl
    · cases h
  | cons c cs ih =>
    by_cases hp : separator <+: c :: cs
    · obtain ⟨more, hmore⟩ := hp
      rw [← hmore] at h
      by_cases hs : separator = []
      · subst hs
        rw [List.nil_append] at h hmore
        subst hmore
        cases h
        cases rest <;> rfl
      · rw [cut?_append hs] at h
        cases h
        exact cut?_append hs rest
    · rw [cut?_cons hp] at h
      obtain ⟨⟨b, a⟩, hb, heq⟩ := Option.map_eq_some_iff.1 h
      cases heq
      have hne : ¬separator <+: c :: (b ++ separator ++ rest) := by
        intro hrest
        apply hp
        rw [cut?_eq_some hb]
        have hlong : separator <+: c :: (b ++ separator) :=
          @List.prefix_of_prefix_length_le _ _ _ (c :: (b ++ separator ++ rest)) hrest ⟨rest, by simp⟩ (by simp; omega)
        exact hlong.trans ⟨after, by simp⟩
      rw [List.cons_append, List.cons_append, cut?_cons hne, ih hb]
      rfl

/-- Characters with which the separator does not begin are passed over. -/
theorem cut?_pass {separator : List Char} {xs : List Char} (h : ∀ x ∈ xs, ∀ more, separator ≠ x :: more)
    (hs : separator ≠ []) (rest : List Char) :
    cut? separator (xs ++ rest) = (cut? separator rest).map fun (before, after) => (xs ++ before, after) := by
  induction xs with
  | nil => simp
  | cons x xs ih =>
    obtain ⟨hx, hxs⟩ := List.forall_mem_cons.1 h
    have hne : ¬separator <+: x :: (xs ++ rest) := by
      rintro ⟨more, hmore⟩
      obtain ⟨c, cs, rfl⟩ := List.exists_cons_of_ne_nil hs
      obtain rfl := (List.cons.inj hmore).1
      exact hx cs rfl
    rw [List.cons_append, cut?_cons hne, ih hxs, Option.map_map]
    rfl

/-- A text is cut between two parts when no occurrence begins in the first of them. -/
theorem cut?_between {separator before after : List Char} (hs : separator ≠ []) :
    cut? separator (before ++ (separator ++ after)) = some (before, after) ↔
      ∀ y ys, y :: ys <:+ before → ¬separator <+: y :: (ys ++ (separator ++ after)) := by
  induction before with
  | nil =>
    rw [List.nil_append, cut?_append hs]
    simp
  | cons c before ih =>
    by_cases hp : separator <+: c :: (before ++ (separator ++ after))
    · obtain ⟨rest, hrest⟩ := hp
      constructor
      · intro h
        rw [List.cons_append, ← hrest, cut?_append hs] at h
        cases h
      · intro h
        exact absurd ⟨rest, hrest⟩ (h c before List.suffix_rfl)
    · rw [List.cons_append, cut?_cons hp]
      simp only [Option.map_eq_some_iff, Prod.mk.injEq, List.cons.injEq, true_and, Prod.exists]
      constructor
      · rintro ⟨b, a, h, rfl, rfl⟩ y ys hys
        rcases List.suffix_cons_iff.1 hys with heq | hys
        · cases heq
          exact hp
        · exact ih.1 h y ys hys
      · intro h
        exact ⟨before, after, ih.2 fun y ys hys => h y ys (hys.trans (List.suffix_cons c before)), rfl, rfl⟩

/-! ## Parts without the characters of an occurrence -/

section Foreign

variable (hne : part ≠ [])

include hne

/-- An occurrence does not reach into characters that it does not have. -/
theorem infix_of_foreign_append {before : List Char} (hb : ∀ c ∈ before, c ∉ part)
    (h : part <:+: before ++ cs) : part <:+: cs := by
  induction before with
  | nil => exact h
  | cons b before ih =>
    obtain ⟨hb, hbefore⟩ := List.forall_mem_cons.1 hb
    rcases List.infix_cons_iff.1 h with hp | h
    · obtain ⟨c, part, rfl⟩ := List.exists_cons_of_ne_nil hne
      obtain ⟨rfl, -⟩ := List.cons_prefix_cons.1 hp
      exact absurd List.mem_cons_self hb
    · exact ih hbefore h

theorem infix_of_append_foreign {after : List Char} (ha : ∀ c ∈ after, c ∉ part)
    (h : part <:+: cs ++ after) : part <:+: cs := by
  rw [← List.reverse_infix, List.reverse_append] at h
  rw [← List.reverse_infix]
  refine infix_of_foreign_append ?_ ?_ h
  · rwa [ne_eq, List.reverse_eq_nil_iff]
  · intro c hc hmem
    exact ha c (List.mem_reverse.1 hc) (List.mem_reverse.1 hmem)

end Foreign

/-! ## Replacing -/

section Replace

variable {search replacement : List Char}

theorem replaceFrom_skip (xs ys : List Char) :
    replaceFrom search replacement xs.length (xs ++ ys) = replaceFrom search replacement 0 ys := by
  induction xs with
  | nil => rfl
  | cons x xs ih => rw [List.cons_append, List.length_cons, replaceFrom, ih]

theorem replace_append (hs : search ≠ []) (ys : List Char) :
    replace search replacement (search ++ ys) = replacement ++ replace search replacement ys := by
  obtain ⟨c, more, rfl⟩ := List.exists_cons_of_ne_nil hs
  have hstart : (c :: more).isPrefixOf (c :: (more ++ ys)) = true := List.isPrefixOf_iff_prefix.2 ⟨ys, rfl⟩
  rw [replace, List.cons_append, replaceFrom, if_pos hstart, List.length_cons, Nat.add_sub_cancel,
    replaceFrom_skip, replace]

theorem replace_cons {c : Char} (h : ¬search <+: c :: cs) :
    replace search replacement (c :: cs) = c :: replace search replacement cs := by
  rw [replace, replaceFrom, if_neg (fun hp => h (List.isPrefixOf_iff_prefix.1 hp)), replace]

/-- A part in which no occurrence begins is passed over. -/
theorem replace_pass {xs rest : List Char} (h : ∀ y ys, y :: ys <:+ xs → ¬search <+: y :: (ys ++ rest)) :
    replace search replacement (xs ++ rest) = xs ++ replace search replacement rest := by
  induction xs with
  | nil => rfl
  | cons x xs ih =>
    have hxs : ∀ y ys, y :: ys <:+ xs → ¬search <+: y :: (ys ++ rest) :=
      fun y ys hys => h y ys (hys.trans (List.suffix_cons x xs))
    rw [List.cons_append, replace_cons (h x xs List.suffix_rfl), ih hxs, List.cons_append]

/-- Characters with which the search does not begin are passed over. -/
theorem replace_chars {xs : List Char} (h : ∀ x ∈ xs, ∀ more, search ≠ x :: more) (hs : search ≠ [])
    (rest : List Char) :
    replace search replacement (xs ++ rest) = xs ++ replace search replacement rest := by
  refine replace_pass fun y ys hys hp => ?_
  obtain ⟨c, cs, rfl⟩ := List.exists_cons_of_ne_nil hs
  obtain rfl := (List.cons_prefix_cons.1 hp).1
  exact h c (hys.subset List.mem_cons_self) cs rfl

/-- A text is taken apart at the occurrences of a text that is not empty. -/
theorem occurrence_induction {P : List Char → Prop} (hs : search ≠ []) (nil : P [])
    (found : ∀ cs, P cs → P (search ++ cs)) (char : ∀ c cs, ¬search <+: c :: cs → P cs → P (c :: cs)) (cs : List Char) :
    P cs := by
  induction h : cs.length using Nat.strongRecOn generalizing cs with
  | ind n ih =>
    cases cs with
    | nil => exact nil
    | cons c cs =>
      by_cases hp : search <+: c :: cs
      · obtain ⟨rest, hrest⟩ := hp
        rw [← hrest] at h ⊢
        have hlt : rest.length < n := by
          rw [← h, List.length_append]
          have := List.length_pos_iff.2 hs
          omega
        exact found rest (ih _ hlt rest rfl)
      · exact char c cs hp (ih cs.length (by rw [← h]; exact Nat.lt_succ_self _) cs rfl)

/-- A character that is in neither of them occurs as often as before. -/
theorem count_replace (hs : search ≠ []) {c : Char} (hsearch : c ∉ search) (hreplacement : c ∉ replacement)
    (cs : List Char) : (replace search replacement cs).count c = cs.count c := by
  induction cs using occurrence_induction hs with
  | nil => rfl
  | found cs ih =>
    rw [replace_append hs, List.count_append, List.count_append, ih, List.count_eq_zero.2 hsearch,
      List.count_eq_zero.2 hreplacement]
  | char d cs hp ih => rw [replace_cons hp, List.count_cons, List.count_cons, ih]

/-! ### What occurs in the text with replacements -/

section Replaced

variable {part : List Char} (hs : search ≠ []) (hr : replacement ≠ [])
include hs hr

theorem replace_eq_nil (h : replace search replacement cs = []) : cs = [] := by
  induction cs using occurrence_induction hs with
  | nil => rfl
  | found cs ih =>
    rw [replace_append hs] at h
    exact absurd (List.append_eq_nil_iff.1 h).1 hr
  | char c cs hp ih =>
    rw [replace_cons hp] at h
    cases h

/-- The last character comes from the replacement or was the last one before. -/
theorem getLast?_replace {c : Char} (h : (replace search replacement cs).getLast? = some c) :
    c ∈ replacement ∨ cs.getLast? = some c := by
  induction cs using occurrence_induction hs with
  | nil => exact .inr h
  | found cs ih =>
    rw [replace_append hs, List.getLast?_append, Option.or_eq_some_iff] at h
    rcases h with h | ⟨-, h⟩
    · refine Or.imp id (fun hcs => ?_) (ih h)
      rw [List.getLast?_append, hcs, Option.some_or]
    · exact .inl (List.mem_of_getLast? h)
  | char d cs hp ih =>
    rw [replace_cons hp, ← List.singleton_append, List.getLast?_append, Option.or_eq_some_iff] at h
    rw [← List.singleton_append, List.getLast?_append, Option.or_eq_some_iff]
    rcases h with h | ⟨hnone, h⟩
    · exact Or.imp id .inl (ih h)
    · obtain rfl := replace_eq_nil hs hr (List.getLast?_eq_none_iff.1 hnone)
      exact .inr (.inr ⟨rfl, h⟩)

/-- What begins there and has no characters of the replacement begins in the text. -/
theorem prefix_of_prefix_replace (hpart : ∀ c ∈ replacement, c ∉ part) (h : part <+: replace search replacement cs) :
    part <+: cs := by
  induction cs using occurrence_induction hs generalizing part with
  | nil => exact h
  | found cs ih =>
    rw [replace_append hs] at h
    cases part with
    | nil => exact List.nil_prefix
    | cons p part =>
      obtain ⟨r, more, rfl⟩ := List.exists_cons_of_ne_nil hr
      obtain ⟨rfl, -⟩ := List.cons_prefix_cons.1 h
      exact absurd List.mem_cons_self (hpart p List.mem_cons_self)
  | char c cs hp ih =>
    rw [replace_cons hp] at h
    cases part with
    | nil => exact List.nil_prefix
    | cons p part =>
      obtain ⟨rfl, hrest⟩ := List.cons_prefix_cons.1 h
      exact (List.prefix_cons_inj p).2 (ih (fun c hc hmem => hpart c hc (List.mem_cons_of_mem p hmem)) hrest)

theorem infix_of_infix_replace (hne : part ≠ []) (hpart : ∀ c ∈ replacement, c ∉ part)
    (h : part <:+: replace search replacement cs) : part <:+: cs := by
  induction cs using occurrence_induction hs with
  | nil => exact h
  | found cs ih =>
    rw [replace_append hs] at h
    exact (ih (infix_of_foreign_append hne hpart h)).trans (List.suffix_append search cs).isInfix
  | char c cs hp ih =>
    rw [replace_cons hp] at h
    rcases List.infix_cons_iff.1 h with h | h
    · rw [← replace_cons hp] at h
      exact (prefix_of_prefix_replace hs hr hpart h).isInfix
    · exact (ih h).trans (List.suffix_cons c cs).isInfix

/-- Nothing is left to replace. -/
theorem not_infix_replace (hpart : ∀ c ∈ replacement, c ∉ search) (cs : List Char) :
    ¬search <:+: replace search replacement cs := by
  induction cs using occurrence_induction hs with
  | nil => simpa [replace, replaceFrom] using hs
  | found cs ih =>
    rw [replace_append hs]
    exact fun h => ih (infix_of_foreign_append hs hpart h)
  | char c cs hp ih =>
    intro h
    rw [replace_cons hp] at h
    rcases List.infix_cons_iff.1 h with h | h
    · rw [← replace_cons hp] at h
      exact hp (prefix_of_prefix_replace hs hr hpart h)
    · exact ih h

end Replaced

end Replace

end PipelineTemplate.Text
