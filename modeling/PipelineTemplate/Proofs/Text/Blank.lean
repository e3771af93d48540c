import Mathlib.Data.List.Basic
import Mathlib.Data.List.TakeWhile
import PipelineTemplate.Proofs.Text.Occurrence

/-!
# Texts without blanks at their ends

Trimming leaves a text alone whose first and last characters are no blanks. What it takes away from
any other text are the blanks at its ends.
-/

namespace PipelineTemplate.Text

theorem trimEnd_append {cs : List Char} {c : Char} (h : isBlank c = false) :
    trimEnd (cs ++ [c]) = cs ++ [c] := by
  induction cs with
  | nil => simp [trimEnd, h]
  | cons d cs ih =>
    rw [List.cons_append, trimEnd, ih]
    cases cs <;> rfl

theorem trim_of_ends {cs : List Char} (hf : cs.head?.all fun c => !isBlank c)
    (hl : cs.getLast?.all fun c => !isBlank c) : trim cs = cs := by
  have hd : cs.dropWhile isBlank = cs := by
    cases cs with
    | nil => rfl
    | cons c cs =>
      have hc : isBlank c = false := by simpa using hf
      rw [List.dropWhile_cons_of_neg (by simp [hc])]
  rw [trim, hd]
  rcases List.eq_nil_or_concat cs with rfl | ⟨front, last, rfl⟩
  · rfl
  · have hb : isBlank last = false := by simpa using hl
    rw [List.concat_eq_append]
    exact trimEnd_append hb

/-- A text without any blanks is not changed by trimming. -/
theorem trim_of_all {cs : List Char} (h : ∀ c ∈ cs, isBlank c = false) : trim cs = cs := by
  apply trim_of_ends
  · cases cs with
    | nil => rfl
    | cons c cs => simp [h c (by simp)]
  · rcases List.eq_nil_or_concat cs with rfl | ⟨front, last, rfl⟩
    · rfl
    · have hb := h last (by simp)
      simp [hb]

/-- A text, not empty, with no blank at its beginning and none at its end. -/
structure Solid (cs : List Char) : Prop where
  nonempty : cs ≠ []
  first : cs.head?.all (fun c => !isBlank c) = true
  last : cs.getLast?.all (fun c => !isBlank c) = true

namespace Solid

variable {cs ds : List Char}

theorem trim_eq (h : Solid cs) : trim cs = cs := trim_of_ends h.first h.last

theorem of_all (hne : cs ≠ []) (h : ∀ c ∈ cs, isBlank c = false) : Solid cs := by
  refine ⟨hne, ?_, ?_⟩
  · rw [List.head?_eq_some_head hne]
    simpa using h _ (List.head_mem hne)
  · rw [List.getLast?_eq_some_getLast hne]
    simpa using h _ (List.getLast_mem hne)

/-- What stands between two characters does not matter. -/
theorem between {c : Char} (hc : isBlank c = false) (cs : List Char) : Solid (c :: (cs ++ [c])) := by
  refine ⟨List.cons_ne_nil _ _, by simpa using hc, ?_⟩
  rw [← List.cons_append, List.getLast?_concat]
  simpa using hc

theorem append (hc : Solid cs) (hd : Solid ds) (sep : List Char) : Solid (cs ++ sep ++ ds) := by
  refine ⟨by simp [hc.nonempty], ?_, ?_⟩
  · rw [List.append_assoc, List.head?_append_of_ne_nil _ hc.nonempty]
    exact hc.first
  · rw [List.getLast?_append_of_ne_nil _ hd.nonempty]
    exact hd.last

theorem intercalate (sep : List Char) {ws : List (List Char)} (hne : ws ≠ []) (h : ∀ w ∈ ws, Solid w) :
    Solid (sep.intercalate ws) := by
  induction ws with
  | nil => exact absurd rfl hne
  | cons w ws ih =>
    obtain ⟨hw, hws⟩ := List.forall_mem_cons.1 h
    cases ws with
    | nil => rwa [List.intercalate_singleton]
    | cons w' ws =>
      rw [List.intercalate_cons_cons]
      exact hw.append (ih (List.cons_ne_nil w' ws) hws) sep

end Solid

/-! ## What trimming takes away -/

theorem trimEnd_cons {c : Char} {cs : List Char} (h : trimEnd cs ≠ []) :
    trimEnd (c :: cs) = c :: trimEnd cs := by
  rw [trimEnd]
  split
  · next hnil => exact absurd hnil h
  · rfl

theorem exists_trimEnd (cs : List Char) :
    ∃ after, (∀ c ∈ after, isBlank c = true) ∧ cs = trimEnd cs ++ after := by
  induction cs with
  | nil => exact ⟨[], List.forall_mem_nil _, rfl⟩
  | cons c cs ih =>
    by_cases hnil : trimEnd (c :: cs) = []
    · exact ⟨c :: cs, trimEnd_eq_nil_iff.1 hnil, by rw [hnil, List.nil_append]⟩
    · obtain ⟨after, hblank, hcs⟩ := ih
      by_cases hrest : trimEnd cs = []
      · have hc : trimEnd (c :: cs) = [c] := by
          cases hb : isBlank c with
          | true => exact absurd (by simp [trimEnd, hrest, hb]) hnil
          | false => simp [trimEnd, hrest, hb]
        rw [hrest, List.nil_append] at hcs
        exact ⟨after, hblank, by rw [hc, hcs]; rfl⟩
      · exact ⟨after, hblank, by rw [trimEnd_cons hrest, List.cons_append, ← hcs]⟩

theorem trimEnd_blanks {cs after : List Char} (h : ∀ c ∈ after, isBlank c = true) :
    trimEnd (cs ++ after) = trimEnd cs := by
  induction cs with
  | nil => exact trimEnd_eq_nil_iff.2 h
  | cons c cs ih => rw [List.cons_append, trimEnd, trimEnd, ih]

theorem trimEnd_append_of_ne_nil {ys : List Char} (h : trimEnd ys ≠ []) (xs : List Char) :
    trimEnd (xs ++ ys) = xs ++ trimEnd ys := by
  induction xs with
  | nil => rfl
  | cons x xs ih =>
    have hne : trimEnd (xs ++ ys) ≠ [] := by
      rw [ih]
      exact List.append_ne_nil_of_right_ne_nil xs h
    rw [List.cons_append, trimEnd_cons hne, ih, List.cons_append]

theorem getLast?_trimEnd (cs : List Char) : (trimEnd cs).getLast?.all fun c => !isBlank c := by
  induction cs with
  | nil => rfl
  | cons c cs ih =>
    by_cases hrest : trimEnd cs = []
    · cases hc : isBlank c <;> simp [trimEnd, hrest, hc]
    · obtain ⟨d, ds, hds⟩ := List.exists_cons_of_ne_nil hrest
      rw [trimEnd_cons hrest, hds, List.getLast?_cons_cons, ← hds]
      exact ih

theorem head?_dropWhile (cs : List Char) : (cs.dropWhile isBlank).head?.all fun c => !isBlank c := by
  induction cs with
  | nil => rfl
  | cons c cs ih =>
    cases hc : isBlank c with
    | true => rwa [List.dropWhile_cons_of_pos hc]
    | false => simp [hc]

theorem head?_trim (cs : List Char) : (trim cs).head?.all fun c => !isBlank c := by
  have hdrop := head?_dropWhile cs
  unfold trim
  cases hrest : cs.dropWhile isBlank with
  | nil => rfl
  | cons c rest =>
    have hc : isBlank c = false := by simpa [hrest] using hdrop
    by_cases hnil : trimEnd rest = []
    · simp [trimEnd, hnil, hc]
    · simp [trimEnd_cons hnil, hc]

/-- A text is its trimmed text between blanks. -/
theorem exists_trim (cs : List Char) : ∃ before after, (∀ c ∈ before, isBlank c = true) ∧
    (∀ c ∈ after, isBlank c = true) ∧ cs = before ++ trim cs ++ after := by
  obtain ⟨after, hafter, hcs⟩ := exists_trimEnd (cs.dropWhile isBlank)
  have hbefore : ∀ c ∈ cs.takeWhile isBlank, isBlank c = true := List.all_eq_true.1 List.all_takeWhile
  refine ⟨cs.takeWhile isBlank, after, hbefore, hafter, ?_⟩
  calc cs = cs.takeWhile isBlank ++ cs.dropWhile isBlank := List.takeWhile_append_dropWhile.symm
    _ = cs.takeWhile isBlank ++ (trim cs ++ after) := congrArg _ hcs
    _ = cs.takeWhile isBlank ++ trim cs ++ after := (List.append_assoc _ _ _).symm

theorem solid_trim {cs : List Char} (h : trim cs ≠ []) : Solid (trim cs) :=
  ⟨h, head?_trim cs, getLast?_trimEnd _⟩

theorem trim_trim (cs : List Char) : trim (trim cs) = trim cs :=
  trim_of_ends (head?_trim cs) (getLast?_trimEnd _)

/-- Of a text that begins visibly behind blanks, the blanks at its end are taken away. -/
theorem trim_visible {before cs : List Char} (hb : ∀ c ∈ before, isBlank c = true)
    (hf : cs.head?.all fun c => !isBlank c) : trim (before ++ cs) = trimEnd cs := by
  unfold trim
  rw [List.dropWhile_append_of_pos hb]
  cases cs with
  | nil => rfl
  | cons c cs =>
    have hc : isBlank c = false := by simpa using hf
    rw [List.dropWhile_cons_of_neg (by simp [hc])]

/-- Blanks around a text do not change what is left of it. -/
theorem trim_blanks {before cs after : List Char} (hb : ∀ c ∈ before, isBlank c = true)
    (ha : ∀ c ∈ after, isBlank c = true) : trim (before ++ cs ++ after) = trim cs := by
  unfold trim
  rw [List.append_assoc, List.dropWhile_append_of_pos hb]
  by_cases hcs : ∀ c ∈ cs, isBlank c = true
  · have hall : ∀ c ∈ cs ++ after, isBlank c = true := by
      intro c hc
      exact (List.mem_append.1 hc).elim (hcs c) (ha c)
    rw [List.dropWhile_eq_nil_iff.2 hall, List.dropWhile_eq_nil_iff.2 hcs]
  · have hne : cs.dropWhile isBlank ≠ [] := by rwa [ne_eq, List.dropWhile_eq_nil_iff]
    rw [List.dropWhile_append, if_neg (by rwa [List.isEmpty_iff]), trimEnd_blanks ha]

/-! ## What occurs in a trimmed text -/

section Infix

variable {part cs : List Char} (hne : part ≠ [])

include hne

/-- What has no blanks and occurs in a text occurs in it when it is trimmed. -/
theorem infix_trim (hpart : ∀ c ∈ part, isBlank c = false) (h : part <:+: cs) : part <:+: trim cs := by
  have foreign {blanks : List Char} (hb : ∀ c ∈ blanks, isBlank c = true) : ∀ c ∈ blanks, c ∉ part := by
    intro c hc hmem
    have hblank := hb c hc
    rw [hpart c hmem] at hblank
    cases hblank
  obtain ⟨before, after, hbefore, hafter, hcs⟩ := exists_trim cs
  rw [hcs, List.append_assoc] at h
  exact infix_of_append_foreign hne (foreign hafter) (infix_of_foreign_append hne (foreign hbefore) h)

end Infix

end PipelineTemplate.Text
