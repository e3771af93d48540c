import Mathlib.Data.List.Infix
import PipelineTemplate.Proofs.Text.Digit
import PipelineTemplate.Proofs.Yaml.Protected.Sealing

/-!
# Expressions put back

A text without the stem of the marks comes back from the text with marks: marks are found where they were
put and nowhere else. Behind the stem a mark has a digit or a letter, and so nothing that a mark is put
beside can look like another mark.
-/

namespace PipelineTemplate.Yaml

namespace Protected

/-- What all marks have in common, behind two low lines. -/
def stem : List Char := ['A', 'Z', 'U', 'R', 'E', '_', 'E', 'X', 'P', 'R', '_']

theorem markStart_eq : markStart = '_' :: '_' :: stem := by decide

/-- What the stem of a mark may stand behind: two low lines, or braces, which give way to a mark that ends
with two low lines. -/
def beforeStem : List (List Char) := [['_', '_'], opening, opening ++ ['_'], closing, closing ++ ['_']]

/-- The text has no marks in it, and would have none with marks in the place of braces. -/
def Stemless (cs : List Char) : Prop := ∀ before ∈ beforeStem, ¬before ++ stem <:+: cs

theorem Stemless.of_suffix {xs ys : List Char} (h : Stemless ys) (hs : xs <:+ ys) : Stemless xs :=
  fun before hb hx => h before hb (hx.trans hs.isInfix)

instance (cs : List Char) : Decidable (Stemless cs) :=
  decidable_of_iff (∀ before ∈ beforeStem, Text.hasInfix (before ++ stem) cs = false) <| by
    simp only [Stemless, ← Text.hasInfix_iff, Bool.not_eq_true]

/-! ## Where marks begin -/

/-- A text and the text with marks in the place of some parts. -/
inductive Marked (p : List Char → List Char → Prop) : List Char → List Char → Prop
  | nil : Marked p [] []
  | char {c : Char} {cs t : List Char} (more : Marked p cs t) : Marked p (c :: cs) (c :: t)
  | mark {part m cs t : List Char} (known : p part m) (start : markStart <+: m) (more : Marked p cs t) :
      Marked p (part ++ cs) (m ++ t)

section Marks

variable {p : List Char → List Char → Prop} {cs t : List Char} {x : Char}

theorem Marked.append (h : Marked p cs t) (xs : List Char) : Marked p (xs ++ cs) (xs ++ t) := by
  induction xs with
  | nil => exact h
  | cons x xs ih => exact .char ih

/-- The rest of the stem, and a character other than a low line, stands in front only where it stands in
front of the text itself: a mark would begin with two low lines. -/
theorem Marked.rest_of_stem (h : Marked p cs t) {q : List Char} (hq : q <:+ stem) (hx : x ≠ '_')
    (hp : q ++ [x] <+: t) : q <+: cs := by
  induction h generalizing q with
  | nil => exact absurd (List.prefix_nil.1 hp) (by simp)
  | char more ih =>
    cases q with
    | nil => exact List.nil_prefix
    | cons y q =>
      obtain ⟨rfl, hrest⟩ := List.cons_prefix_cons.1 hp
      exact (List.prefix_cons_inj y).2 (ih ((List.suffix_cons y q).trans hq) hrest)
  | mark known start more ih =>
    obtain ⟨m, rfl⟩ := start
    rw [markStart_eq] at hp
    cases q with
    | nil => exact List.nil_prefix
    | cons y q =>
      obtain ⟨rfl, hrest⟩ := List.cons_prefix_cons.1 hp
      cases q with
      | nil => exact absurd (List.cons_prefix_cons.1 hrest).1 hx
      | cons z q =>
        obtain ⟨rfl, -⟩ := List.cons_prefix_cons.1 hrest
        have hinfix : ['_', '_'] <:+: stem := (List.prefix_append ['_', '_'] q).isInfix.trans hq.isInfix
        exact absurd (Text.hasInfix_iff.2 hinfix) (by decide)

/-- The stem begins in the text with marks only where it begins in the text. -/
theorem Marked.stem_in_text (h : Marked p cs t) (hx : x ≠ '_') (hp : stem ++ [x] <+: t) : stem <+: cs :=
  h.rest_of_stem List.suffix_rfl hx hp

theorem Marked.stem_under_in_text (h : Marked p cs t) (hx : x ≠ '_') (hp : '_' :: (stem ++ [x]) <+: t) :
    '_' :: stem <+: cs := by
  cases h with
  | nil => exact absurd (List.prefix_nil.1 hp) (by simp)
  | char more =>
    obtain ⟨rfl, hrest⟩ := List.cons_prefix_cons.1 hp
    exact (List.prefix_cons_inj '_').2 (more.stem_in_text hx hrest)
  | mark known start more =>
    obtain ⟨m, rfl⟩ := start
    rw [markStart_eq] at hp
    have hsecond := (List.cons_prefix_cons.1 (List.cons_prefix_cons.1 hp).2).1
    exact absurd hsecond (by decide)

/-- No mark begins with a character of the text. -/
theorem Marked.not_start {c : Char} (h : Marked p cs t) (hs : Stemless (c :: cs)) (hx : x ≠ '_') :
    ¬markStart ++ [x] <+: c :: t := by
  intro hp
  obtain ⟨rfl, hrest⟩ := List.cons_prefix_cons.1 hp
  apply hs ['_', '_'] (by decide)
  exact ((List.prefix_cons_inj '_').2 (h.stem_under_in_text hx hrest)).isInfix

/-- No mark begins inside of a mark for braces. -/
theorem Marked.not_inside {braces m : List Char} (h : Marked p cs t) (hb : IsBracket braces m)
    (hs : Stemless (braces ++ cs)) (hx : x ≠ '_') {y : Char} {ys : List Char} (hys : y :: ys <:+ m)
    (hne : y :: ys ≠ m) : ¬markStart ++ [x] <+: y :: (ys ++ t) := by
  have hall : ∀ zs ∈ m.tails, ['_', '_', 'A'].isPrefixOf zs = true → zs = m := by
    cases hb <;> decide
  have hbehind (before rest : List Char) (hbefore : before ∈ beforeStem) (heq : before = braces ++ rest)
      (hrest : rest ++ stem <+: cs) : False := by
    apply hs before hbefore
    rw [heq, List.append_assoc]
    exact ((List.prefix_append_right_inj braces).2 hrest).isInfix
  intro hp
  match ys with
  | [] =>
    have hstem := h.stem_under_in_text hx (List.cons_prefix_cons.1 hp).2
    cases hb with
    | opening => exact hbehind (opening ++ ['_']) _ (by decide) rfl hstem
    | closing => exact hbehind (closing ++ ['_']) _ (by decide) rfl hstem
  | [z] =>
    have hstem := h.stem_in_text hx (List.cons_prefix_cons.1 (List.cons_prefix_cons.1 hp).2).2
    cases hb with
    | opening => exact hbehind opening [] (by decide) rfl hstem
    | closing => exact hbehind closing [] (by decide) rfl hstem
  | z :: w :: ys =>
    apply hne
    apply hall _ ((List.mem_tails _ _).2 hys)
    rw [markStart_eq] at hp
    obtain ⟨hy, hp⟩ := List.cons_prefix_cons.1 hp
    obtain ⟨hz, hp⟩ := List.cons_prefix_cons.1 hp
    rw [← hy, ← hz, ← (List.cons_prefix_cons.1 hp).1]
    rfl

end Marks

/-! ## Putting expressions back -/

/-- Without a digit behind the stem there is no numbered mark. -/
theorem markAt?_eq_none {cs : List Char} (h : ∀ x, Text.isDecimal x = true → ¬markStart ++ [x] <+: cs) :
    markAt? cs = none := by
  cases hrest : Text.dropPrefix? markStart cs with
  | none => simp [markAt?, hrest]
  | some rest =>
    have hcs := Text.dropPrefix?_eq_some.1 hrest
    have hdigits : (Text.spanDecimal rest).1 = [] := by
      rw [Text.spanDecimal, List.span_eq_takeWhile_dropWhile]
      cases rest with
      | nil => rfl
      | cons x rest =>
        cases hx : Text.isDecimal x with
        | true => exact absurd ⟨rest, by rw [hcs]; simp⟩ (h x hx)
        | false => simp [hx]
    simp [markAt?, hrest, hdigits]

theorem markAt?_mark (index : Nat) (rest : List Char) :
    markAt? (mark index ++ rest) = some (index, (mark index).length) := by
  have hspan : Text.spanDecimal (Nat.toDigits 10 index ++ (markEnd ++ rest)) =
      (Nat.toDigits 10 index, markEnd ++ rest) :=
    Text.spanDecimal_append (Text.all_toDigits index) (by rfl)
  have hdrop : Text.dropPrefix? markStart (markStart ++ (Nat.toDigits 10 index ++ (markEnd ++ rest))) =
      some (Nat.toDigits 10 index ++ (markEnd ++ rest)) := Text.dropPrefix?_eq_some.2 rfl
  have hend : Text.dropPrefix? markEnd (markEnd ++ rest) = some rest := Text.dropPrefix?_eq_some.2 rfl
  rw [markAt?, mark, List.append_assoc, List.append_assoc, hdrop]
  simp only [bind, Option.bind, hspan, Nat.toDigits_ne_nil, if_false, hend, pure, Text.numeral_toDigits,
    List.length_append, Nat.add_assoc]

variable {all : List String} {style : Style}

theorem restoreMarks_skip (xs ys : List Char) :
    restoreMarks all style xs.length (xs ++ ys) = restoreMarks all style 0 ys := by
  induction xs with
  | nil => rfl
  | cons x xs ih => rw [List.cons_append, List.length_cons, restoreMarks, ih]

theorem restoreMarks_char {c : Char} {cs t : List Char} (h : markAt? (c :: cs) = none)
    (ht : restoreMarks all style 0 cs = .ok t) : restoreMarks all style 0 (c :: cs) = .ok (c :: t) := by
  rw [restoreMarks, h]
  simp only [ht, bind, Except.bind, pure, Except.pure]

theorem restoreMarks_pass {xs cs t : List Char} (h : ∀ y ys, y :: ys <:+ xs → markAt? (y :: (ys ++ cs)) = none)
    (ht : restoreMarks all style 0 cs = .ok t) : restoreMarks all style 0 (xs ++ cs) = .ok (xs ++ t) := by
  induction xs with
  | nil => exact ht
  | cons x xs ih =>
    refine restoreMarks_char (h x xs List.suffix_rfl) (ih fun y ys hys => ?_)
    exact h y ys (hys.trans (List.suffix_cons x xs))

theorem restoreMarks_mark {index : Nat} {span : String} {text cs t : List Char} (hall : all[index]? = some span)
    (htext : unescape span style = .ok text) (ht : restoreMarks all style 0 cs = .ok t) :
    restoreMarks all style 0 (mark index ++ cs) = .ok (text ++ t) := by
  obtain ⟨c, m, hm⟩ : ∃ c m, mark index = c :: m := ⟨_, _, rfl⟩
  have hmark := markAt?_mark index cs
  rw [hm, List.cons_append] at hmark ⊢
  rw [restoreMarks, hmark]
  simp only [List.length_cons, Nat.add_sub_cancel, hall, htext, restoreMarks_skip, ht, bind, Except.bind, pure,
    Except.pure]

theorem markStart_bracket {braces m : List Char} (h : IsBracket braces m) : markStart <+: m := by
  cases h with
  | opening => exact ⟨"OPEN__".toList, by decide⟩
  | closing => exact ⟨"CLOSE__".toList, by decide⟩

section Sealed

variable {f : Encoder} {index : Nat} {cs opened cs' : List Char} {spans : List (List Char)}

theorem Sealed.marked (h : Sealed f index cs opened cs' spans) : Marked (fun _ _ => True) cs cs' := by
  induction h with
  | nil => exact .nil
  | char more ih => exact .char ih
  | bracket hb more ih => exact .mark trivial (markStart_bracket hb) ih
  | line hspan hline more ih =>
    exact .mark trivial ⟨_, (List.append_assoc markStart _ _).symm⟩ ih

theorem Sealed.marked_opened (h : Sealed f index cs opened cs' spans) : Marked IsBracket cs opened := by
  induction h with
  | nil => exact .nil
  | char more ih => exact .char ih
  | bracket hb more ih => exact .mark hb (markStart_bracket hb) ih
  | line hspan hline more ih => exact ih.append _

theorem ne_of_isDecimal {x : Char} (h : Text.isDecimal x = true) : x ≠ '_' ∧ x ≠ 'O' ∧ x ≠ 'C' := by
  have hall : ∀ y ∈ ['_', 'O', 'C'], Text.isDecimal y = false := forall_mem_of_all (by decide)
  refine ⟨?_, ?_, ?_⟩ <;>
    (rintro rfl; rw [hall _ (by decide)] at h; cases h)

/-- What stands behind the stem in a mark for braces. -/
theorem bracket_next {braces m : List Char} (hb : IsBracket braces m) {x : Char} {rest : List Char}
    (h : markStart ++ [x] <+: m ++ rest) : (braces = opening ∧ x = 'O') ∨ (braces = closing ∧ x = 'C') := by
  have hmark (letters : List Char) (hm : m = markStart ++ letters) : [x] <+: letters ++ rest := by
    rw [hm, List.append_assoc, List.prefix_append_right_inj] at h
    exact h
  cases hb with
  | opening =>
    exact .inl ⟨rfl, (List.cons_prefix_cons.1 (hmark "OPEN__".toList (by decide))).1⟩
  | closing =>
    exact .inr ⟨rfl, (List.cons_prefix_cons.1 (hmark "CLOSE__".toList (by decide))).1⟩

/-- Numbered marks give way to their expressions. -/
theorem Sealed.restoreMarks (h : Sealed f index cs opened cs' spans) (hs : Stemless cs)
    (hun : ∀ span, IsSpan span → span <:+: cs → '\n' ∉ encode f none span →
      unescape (String.ofList (encode f none span)) style = .ok span)
    {before after : List String} (hindex : before.length = index) :
    Protected.restoreMarks (before ++ spans.map String.ofList ++ after) style 0 cs' = .ok opened := by
  induction h generalizing before with
  | nil => rfl
  | @char index c cs opened cs' spans more ih =>
    have hmore := hs.of_suffix (List.suffix_cons c cs)
    refine restoreMarks_char (markAt?_eq_none fun x hx => ?_)
      (ih hmore (fun span h1 h2 h3 => hun span h1 (h2.trans (List.suffix_cons c cs).isInfix) h3) hindex)
    exact more.marked.not_start hs (ne_of_isDecimal hx).1
  | @bracket index braces m cs opened cs' spans hb more ih =>
    have hmore := hs.of_suffix (List.suffix_append braces cs)
    refine restoreMarks_pass (fun y ys hys => markAt?_eq_none fun x hx => ?_)
      (ih hmore (fun span h1 h2 h3 => hun span h1 (h2.trans (List.suffix_append braces cs).isInfix) h3) hindex)
    obtain ⟨hlow, hO, hC⟩ := ne_of_isDecimal hx
    by_cases hwhole : y :: ys = m
    · intro hp
      rw [← List.cons_append, hwhole] at hp
      rcases bracket_next hb hp with ⟨-, hx⟩ | ⟨-, hx⟩
      · exact hO hx
      · exact hC hx
    · exact more.marked.not_inside hb hs hlow hys hwhole
  | @line index span cs opened cs' spans hspan hline more ih =>
    have hmore := hs.of_suffix (List.suffix_append span cs)
    have ih := @ih hmore (fun span' h1 h2 h3 => hun span' h1 (h2.trans (List.suffix_append span cs).isInfix) h3)
      (before ++ [String.ofList (encode f none span)]) (by simp [hindex])
    refine @restoreMarks_mark _ _ _ (String.ofList (encode f none span)) _ _ _ ?_
      (hun span hspan (List.prefix_append span cs).isInfix hline) ?_
    · simp [← hindex]
    · simpa using ih

end Sealed

/-- The marks for closing braces that are left when those for opening braces are gone. -/
inductive IsClosing : List Char → List Char → Prop
  | intro : IsClosing closing closeMark

section Braces

variable {cs t : List Char}

/-- A mark for braces begins with the stem and a letter. -/
theorem start_of_mark {letter : Char} {m letters rest : List Char} (hm : m = markStart ++ letter :: letters)
    (h : m <+: rest) : markStart ++ [letter] <+: rest := by
  refine List.IsPrefix.trans ⟨letters, ?_⟩ h
  rw [hm]
  simp

theorem start_openMark {rest : List Char} (h : openMark <+: rest) : markStart ++ ['O'] <+: rest :=
  @start_of_mark _ _ "PEN__".toList _ (by decide) h

theorem start_closeMark {rest : List Char} (h : closeMark <+: rest) : markStart ++ ['C'] <+: rest :=
  @start_of_mark _ _ "LOSE__".toList _ (by decide) h

theorem Marked.replace_open (h : Marked IsBracket cs t) (hs : Stemless cs) :
    Marked IsClosing cs (Text.replace openMark opening t) := by
  induction h with
  | nil => exact .nil
  | @char c cs t more ih =>
    have hmore := hs.of_suffix (List.suffix_cons c cs)
    rw [Text.replace_cons fun hp => more.not_start hs (by decide) (start_openMark hp)]
    exact .char (ih hmore)
  | @mark part m cs t hb start more ih =>
    have hmore := hs.of_suffix (List.suffix_append part cs)
    cases hb with
    | opening =>
      rw [Text.replace_append (by decide)]
      exact (ih hmore).append opening
    | closing =>
      rw [Text.replace_pass fun y ys hys hp => ?_]
      · exact .mark .intro start (ih hmore)
      · have hp := start_openMark hp
        by_cases hwhole : y :: ys = closeMark
        · rw [← List.cons_append, hwhole] at hp
          rcases bracket_next .closing hp with ⟨hne, -⟩ | ⟨-, hne⟩
          · exact absurd hne (by decide)
          · exact absurd hne (by decide)
        · exact more.not_inside .closing hs (by decide) hys hwhole hp

theorem Marked.replace_close (h : Marked IsClosing cs t) (hs : Stemless cs) :
    Text.replace closeMark closing t = cs := by
  induction h with
  | nil => rfl
  | @char c cs t more ih =>
    have hmore := hs.of_suffix (List.suffix_cons c cs)
    rw [Text.replace_cons fun hp => more.not_start hs (by decide) (start_closeMark hp), ih hmore]
  | @mark part m cs t hb start more ih =>
    cases hb
    rw [Text.replace_append (by decide), ih (hs.of_suffix (List.suffix_append _ cs))]

end Braces

/-- A text comes back from the text with marks. -/
theorem Sealed.restored {f : Encoder} {index : Nat} {cs opened cs' : List Char} {spans : List (List Char)}
    (h : Sealed f index cs opened cs' spans) (hs : Stemless cs)
    (hun : ∀ span, IsSpan span → span <:+: cs → '\n' ∉ encode f none span →
      unescape (String.ofList (encode f none span)) style = .ok span)
    {before after : List String} (hindex : before.length = index) :
    restored (String.ofList cs') (before ++ spans.map String.ofList ++ after) style = .ok (String.ofList cs) := by
  have hbraces := (h.marked_opened.replace_open hs).replace_close hs
  rw [Protected.restored, String.toList_ofList, h.restoreMarks hs hun hindex]
  simp only [bind, Except.bind, pure, Except.pure, hbraces]

end Protected

theorem coreRules_text {spans : List String} {text s : String} {style : Style}
    (h : Protected.restored text spans style = .ok s) :
    (coreRules spans).text text style = .ok (.text s) := by
  simp only [coreRules, h]
  rfl

end PipelineTemplate.Yaml
