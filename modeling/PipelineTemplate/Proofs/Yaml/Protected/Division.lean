import PipelineTemplate.Proofs.Text.Blank
import PipelineTemplate.Proofs.Yaml.Protected.Restoration
import PipelineTemplate.Proofs.Yaml.Protected.Unescaping

/-!
# The parts of a text

A text falls into its expressions and the characters outside of them, in one way only. Taking the
expressions out puts a mark in the place of each part that is an expression and keeps the other parts,
also where an expression of the text never ends, and the text comes back from its marks.
-/

namespace PipelineTemplate.Yaml

namespace Protected

/-! ## Division -/

/-- A character outside of the expressions of a text, or an expression. -/
inductive Part
  | char (c : Char)
  | span (cs : List Char)

def Part.source : Part → List Char
  | .char c => [c]
  | .span cs => cs

/-- The text that has the parts. -/
def source (parts : List Part) : List Char := parts.flatMap Part.source

/-- The parts of a text from the left: where an expression begins it reaches to its end, and a character
is outside if no expression begins with it. -/
inductive Divided : List Char → List Part → Prop
  | nil : Divided [] []
  | char {c : Char} {cs : List Char} {parts : List Part} (outside : ∀ span, IsSpan span → ¬span <+: c :: cs)
      (more : Divided cs parts) : Divided (c :: cs) (.char c :: parts)
  | span {span cs : List Char} {parts : List Part} (isSpan : IsSpan span) (more : Divided cs parts) :
      Divided (span ++ cs) (.span span :: parts)

/-- An expression ends with the first closing braces behind its opening ones. -/
theorem isSpan_iff {span : List Char} :
    IsSpan span ↔ ∃ body, span = opening ++ body ++ closing ∧ ¬closing <:+: body ++ ['\x7d'] := by
  refine exists_congr fun body => and_congr_right fun _ => ?_
  have hbetween (rest : List Char) : Text.cut? closing (body ++ closing ++ rest) = some (body, rest) ↔
      ∀ y ys, y :: ys <:+ body → ¬closing <+: y :: (ys ++ (closing ++ rest)) := by
    rw [List.append_assoc]
    exact Text.cut?_between (by decide)
  -- the first of the closing braces is the last character in which an occurrence can end too early
  have hlast (y : Char) (ys rest : List Char) :
      closing <+: y :: (ys ++ (closing ++ rest)) ↔ closing <+: y :: (ys ++ ['\x7d']) := by
    have hshort : y :: (ys ++ ['\x7d']) <+: y :: (ys ++ (closing ++ rest)) := ⟨'\x7d' :: rest, by simp [closing]⟩
    exact ⟨fun h => List.prefix_of_prefix_length_le h hshort (by simp [closing]), fun h => h.trans hshort⟩
  simp only [hbetween, hlast]
  constructor
  · rintro h ⟨pre, post, heq⟩
    have hlength := congrArg List.length heq
    have hclosing : closing.length = 2 := by decide
    simp only [List.length_append, List.length_singleton, hclosing] at hlength
    obtain ⟨zs, rfl⟩ : pre <+: body :=
      List.prefix_of_prefix_length_le ⟨closing ++ post, by rw [← heq, List.append_assoc]⟩ (List.prefix_append _ _) (by omega)
    rw [List.append_assoc, List.append_assoc, List.append_cancel_left_eq] at heq
    cases zs with
    | nil => simp [closing] at heq
    | cons y ys => exact h [] y ys (List.suffix_append _ _) ⟨post, heq⟩
  · rintro h rest y ys ⟨pre, rfl⟩ hp
    apply h
    rw [List.append_assoc, List.cons_append]
    exact hp.isInfix.trans (List.suffix_append _ _).isInfix

theorem IsSpan.ne_nil {span : List Char} (h : IsSpan span) : span ≠ [] := by
  rintro rfl
  cases h.last

theorem spanOf?_iff {cs span : List Char} : spanOf? cs = some span ↔ IsSpan span ∧ span <+: cs := by
  constructor
  · intro h
    simp only [spanOf?, bind, Option.bind_eq_some_iff, Text.dropPrefix?_eq_some, pure, Option.some.injEq] at h
    obtain ⟨rest, rfl, ⟨body, after⟩, hcut, rfl⟩ := h
    refine ⟨⟨body, rfl, Text.cut?_congr hcut⟩, after, ?_⟩
    rw [Text.cut?_eq_some hcut]
    simp
  · rintro ⟨⟨body, rfl, hcut⟩, rest, rfl⟩
    have hdrop : Text.dropPrefix? opening (opening ++ body ++ closing ++ rest) = some (body ++ closing ++ rest) :=
      Text.dropPrefix?_eq_some.2 (by simp)
    simp only [spanOf?, hdrop, hcut rest, bind, Option.bind, pure]

theorem Divided.source_eq {cs : List Char} {parts : List Part} (h : Divided cs parts) : source parts = cs := by
  induction h with
  | nil => rfl
  | @char c cs parts outside more ih => rw [← ih]; rfl
  | @span span cs parts isSpan more ih => rw [← ih]; rfl

theorem exists_divided (cs : List Char) : ∃ parts, Divided cs parts := by
  induction hn : cs.length using Nat.strongRecOn generalizing cs with
  | ind n ih =>
    cases cs with
    | nil => exact ⟨[], .nil⟩
    | cons c cs =>
      cases hspan : spanOf? (c :: cs) with
      | none =>
        obtain ⟨parts, hparts⟩ := ih cs.length (by rw [← hn]; exact Nat.lt_succ_self _) cs rfl
        refine ⟨.char c :: parts, .char (fun span hs hp => ?_) hparts⟩
        rw [spanOf?_iff.2 ⟨hs, hp⟩] at hspan
        cases hspan
      | some span =>
        obtain ⟨hs, rest, hrest⟩ := spanOf?_iff.1 hspan
        have hlt : rest.length < n := by
          have := List.length_pos_iff.2 hs.ne_nil
          rw [← hn, ← hrest, List.length_append]
          omega
        obtain ⟨parts, hparts⟩ := ih rest.length hlt rest rfl
        exact ⟨.span span :: parts, hrest ▸ .span hs hparts⟩

theorem Divided.unique {cs : List Char} {parts others : List Part} (h : Divided cs parts) (ho : Divided cs others) :
    others = parts := by
  induction h generalizing others with
  | nil =>
    generalize hcs : [] = cs at ho
    cases ho with
    | nil => rfl
    | char outside more => cases hcs
    | span isSpan more => exact absurd (List.append_eq_nil_iff.1 hcs.symm).1 isSpan.ne_nil
  | @char c cs parts outside more ih =>
    generalize hcs : c :: cs = t at ho
    cases ho with
    | nil => cases hcs
    | char _ more' =>
      cases hcs
      rw [ih more']
    | span isSpan more' => exact absurd ⟨_, hcs.symm⟩ (outside _ isSpan)
  | @span span cs parts isSpan more ih =>
    generalize hcs : span ++ cs = t at ho
    cases ho with
    | nil => exact absurd (List.append_eq_nil_iff.1 hcs).1 isSpan.ne_nil
    | char outside _ => exact absurd ⟨cs, hcs⟩ (outside _ isSpan)
    | @span span' cs' _ isSpan' more' =>
      have heq : span = span' := by
        have hfirst : spanOf? (span ++ cs) = some span := spanOf?_iff.2 ⟨isSpan, List.prefix_append _ _⟩
        have hsecond : spanOf? (span ++ cs) = some span' := spanOf?_iff.2 ⟨isSpan', hcs ▸ List.prefix_append _ _⟩
        exact Option.some.inj (hfirst.symm.trans hsecond)
      subst heq
      obtain rfl := List.append_cancel_left hcs
      rw [ih more']

/-! ## Marks in the place of expressions -/

/-- An expression with marks for its braces. -/
def bracketed (span : List Char) : List Char :=
  Text.replace closing closeMark (Text.replace opening openMark span)

/-- The text with marks in the place of the expressions, numbered from `index` on. -/
def sealedText : Nat → List Part → List Char
  | _, [] => []
  | index, .char c :: parts => c :: sealedText index parts
  | index, .span cs :: parts =>
    if '\n' ∈ cs then bracketed cs ++ sealedText index parts else mark index ++ sealedText (index + 1) parts

/-- The expressions on one line. -/
def lineSpans : List Part → List (List Char)
  | [] => []
  | .char _ :: parts => lineSpans parts
  | .span cs :: parts => if '\n' ∈ cs then lineSpans parts else cs :: lineSpans parts

theorem sealedText_append (index : Nat) (before after : List Part) :
    sealedText index (before ++ after) =
      sealedText index before ++ sealedText (index + (lineSpans before).length) after := by
  induction before generalizing index with
  | nil => rfl
  | cons part before ih =>
    cases part with
    | char c =>
      rw [List.cons_append, sealedText, ih]
      rfl
    | span cs =>
      rw [List.cons_append, sealedText, sealedText, lineSpans]
      split
      · rw [ih, List.append_assoc]
      · rw [ih, List.append_assoc, List.length_cons, Nat.add_right_comm, Nat.add_assoc]

/-- An encoding that has line feeds only for line feeds. -/
def KeepsLines (f : Encoder) : Prop := ∀ c next, '\n' ∈ f c next ↔ c = '\n'

theorem KeepsLines.encode {f : Encoder} (hl : KeepsLines f) {next : Option Char} {cs : List Char} :
    '\n' ∈ encode f next cs ↔ '\n' ∈ cs := by
  induction cs with
  | nil => rfl
  | cons c cs ih => rw [Yaml.encode, List.mem_append, ih, hl, List.mem_cons, eq_comm]

/-- Marks take the place of expressions as in the relation of a text to its marks. -/
theorem Divided.sealed {f : Encoder} (hl : KeepsLines f) {cs : List Char} {parts : List Part} (h : Divided cs parts)
    (index : Nat) :
    ∃ opened, Sealed f index cs opened (sealedText index parts) ((lineSpans parts).map (encode f none)) := by
  induction h generalizing index with
  | nil => exact ⟨[], .nil⟩
  | char outside more ih =>
    obtain ⟨opened, hmore⟩ := ih index
    exact ⟨_, .char hmore⟩
  | @span span cs parts isSpan more ih =>
    rw [sealedText, lineSpans]
    split
    next hline =>
      obtain ⟨opened, hmore⟩ := ih index
      exact ⟨_, hmore.replace span⟩
    next hline =>
      obtain ⟨opened, hmore⟩ := ih (index + 1)
      exact ⟨_, .line isSpan (fun h => hline (hl.encode.1 h)) hmore⟩

section Written

variable {f : Encoder} (hf : IsLocal f)
include hf

/-- Braces that are in what is written of a text are in the text. -/
theorem infix_encode_append {bs cs rest : List Char} {next : Option Char} (hb : ∀ c ∈ bs, isBrace c = true) (hne : bs ≠ [])
    (hrest : ∀ c ∈ rest, isBrace c = false) (h : bs <:+: encode f next cs ++ rest) : bs <:+: cs := by
  have hforeign {xs : List Char} (hxs : ∀ c ∈ xs, isBrace c = false) : ∀ c ∈ xs, c ∉ bs := by
    intro c hc hmem
    have := hb c hmem
    rw [hxs c hc] at this
    cases this
  replace h := Text.infix_of_append_foreign hne (hforeign hrest) h
  induction cs with
  | nil => exact h
  | cons c cs ih =>
    rw [encode] at h
    cases hc : isBrace c with
    | true =>
      rw [hf.brace c _ hc, List.singleton_append] at h
      rcases List.infix_cons_iff.1 h with h | h
      · have heq : c :: encode f next cs = encode f next (c :: cs) := by
          rw [encode, hf.brace c _ hc]
          rfl
        rw [heq] at h
        exact (hf.prefix_encode hb h).isInfix
      · exact (ih h).trans (List.suffix_cons c cs).isInfix
    | false =>
      have h := Text.infix_of_foreign_append hne (hforeign (hf.other c (cs.head?.or next) hc).2) h
      exact (ih h).trans (List.suffix_cons c cs).isInfix

/-- No expression is in what is written of a text where none is in the text. -/
theorem spanOf?_encode_none {cs rest : List Char} {next : Option Char} (hrest : ∀ c ∈ rest, isBrace c = false)
    (h : ∀ span, IsSpan span → ¬span <+: cs) : spanOf? (encode f next cs ++ rest) = none := by
  rw [Option.eq_none_iff_forall_ne_some]
  intro span hspan
  obtain ⟨⟨body, rfl, -⟩, t, ht⟩ := spanOf?_iff.1 hspan
  have hopening : opening <+: cs := by
    rcases prefix_encode_append hf braces_opening ⟨body ++ closing ++ t, by rw [← ht]; simp⟩ with hp | ⟨b, more, heq, hhead⟩
    · exact hp
    · obtain ⟨rest, rfl⟩ : ∃ rest', rest = b :: rest' := by
        cases rest with
        | nil => cases hhead
        | cons x rest => exact ⟨rest, by rw [Option.some.inj hhead]⟩
      have hbrace := braces_opening b (by rw [heq]; simp)
      rw [hrest b List.mem_cons_self] at hbrace
      cases hbrace
  obtain ⟨r, rfl⟩ := hopening
  rw [encode_append, hf.encode_braces braces_opening, List.append_assoc, List.append_assoc, List.append_assoc,
    List.append_cancel_left_eq] at ht
  have hclosing : closing <:+: r :=
    infix_encode_append hf braces_closing (by decide) hrest ⟨body, t, by rw [← ht, List.append_assoc]⟩
  obtain ⟨span, hspan, hprefix⟩ := exists_isSpan hclosing
  exact h span hspan hprefix

/-- Taking the expressions out of what is written of a text is writing the text with marks, also if an
expression of the text never ends: no braces follow. -/
theorem Divided.protectFrom (hl : KeepsLines f) {cs : List Char} {parts : List Part} (h : Divided cs parts) (index : Nat)
    (next : Option Char) {rest : List Char} (hrest : ∀ c ∈ rest, isBrace c = false) :
    Protected.protectFrom 0 index (encode f next cs ++ rest) =
      (encode f next (sealedText index parts) ++ rest, (lineSpans parts).map (encode f none)) := by
  induction h generalizing index with
  | nil =>
    have hpass := @protectFrom_pass rest (fun c hc heq => by
      have := hrest c hc
      rw [heq] at this
      cases this) index []
    rw [List.append_nil] at hpass
    simpa [Protected.protectFrom, sealedText, lineSpans, encode] using hpass
  | @char c cs parts outside more ih =>
    obtain ⟨opened, hsealed⟩ := more.sealed hl index
    have hpiece : f c ((sealedText index parts).head?.or next) = f c (cs.head?.or next) :=
      hf.next c _ _ (hsealed.head_next next)
    rw [sealedText, lineSpans, encode, encode, hpiece, List.append_assoc]
    cases hc : isBrace c with
    | true =>
      have hnone : spanOf? (encode f next (c :: cs) ++ rest) = none := spanOf?_encode_none hf hrest outside
      rw [encode, hf.brace c _ hc, List.singleton_append, List.cons_append] at hnone
      rw [hf.brace c _ hc, List.singleton_append, Protected.protectFrom, hnone, ih]
      rfl
    | false =>
      obtain ⟨-, hall⟩ := hf.other c (cs.head?.or next) hc
      rw [protectFrom_pass (by
        rintro x hx rfl
        cases hall _ hx), ih, List.append_assoc]
  | @span span cs parts isSpan more ih =>
    rw [protectFrom_encode_span hf isSpan, ih, ih, sealedText, lineSpans]
    simp only [hl.encode]
    split
    next hline =>
      rw [encode_append, bracketed, encode_bracketed hf isSpan, List.append_assoc]
    next hline =>
      rw [encode_append, hf.encode_marks (marks_mark index), List.append_assoc]
      rfl

end Written

/-! ## What is left in the text -/

theorem not_mem_braces {bs m : List Char} (hb : ∀ c ∈ bs, isBrace c = true) (hm : ∀ c ∈ m, isMarkChar c = true) :
    ∀ c ∈ m, c ∉ bs := by
  intro c hc hmem
  have hbrace := hb c hmem
  have hmark := hm c hc
  simp only [isBrace, Bool.or_eq_true, decide_eq_true_eq] at hbrace
  rcases hbrace with (rfl | rfl) | rfl <;> revert hmark <;> decide

theorem bracketed_start {span : List Char} (h : IsSpan span) : ∃ inner, bracketed span = openMark ++ inner := by
  obtain ⟨body, rfl, -⟩ := h
  rw [bracketed, List.append_assoc, Text.replace_append (by decide), Text.replace_chars ?_ (by decide)]
  · exact ⟨_, rfl⟩
  · rintro x hx more heq
    exact not_mem_braces braces_closing marks_openMark x hx (heq ▸ List.mem_cons_self)

theorem not_opening_bracketed (span : List Char) : ¬opening <:+: bracketed span := by
  intro h
  have hreplaced : opening <:+: Text.replace opening openMark span :=
    Text.infix_of_infix_replace (by decide) (by decide) (by decide) (not_mem_braces braces_opening marks_closeMark) h
  exact Text.not_infix_replace (by decide) (by decide) (not_mem_braces braces_opening marks_openMark) span hreplaced

theorem last_bracketed {span : List Char} (h : IsSpan span) {c : Char} (hc : (bracketed span).getLast? = some c) :
    c ∉ opening := by
  rcases Text.getLast?_replace (by decide) (by decide) hc with hc | hc
  · exact not_mem_braces braces_opening marks_closeMark c hc
  rcases Text.getLast?_replace (by decide) (by decide) hc with hc | hc
  · exact not_mem_braces braces_opening marks_openMark c hc
  · rw [h.last, Option.some.injEq] at hc
    rw [← hc]
    decide

theorem not_opening_mark (index : Nat) : ¬opening <:+: mark index := by
  intro h
  have hdollar : '$' ∈ mark index := h.subset (by decide)
  exact not_mem_braces braces_opening (marks_mark index) '$' hdollar (by decide)

/-- What begins with braces and does not lie within a part begins behind it. -/
theorem suffix_of_suffix_append {bs part rest t : List Char} (hpart : ¬bs <:+: part)
    (hlast : ∀ c, part.getLast? = some c → c ∉ bs) (h : bs ++ rest <:+ part ++ t) : bs ++ rest <:+ t := by
  induction part with
  | nil => exact h
  | cons c part ih =>
    have hmore : ∀ d, part.getLast? = some d → d ∉ bs := by
      intro d hd
      refine hlast d ?_
      rw [← List.singleton_append, List.getLast?_append, hd, Option.some_or]
    rcases List.suffix_cons_iff.1 h with heq | hsuffix
    · rcases List.prefix_or_prefix_of_prefix ⟨rest, heq⟩ (List.prefix_append (c :: part) t) with hp | hp
      · exact absurd hp.isInfix hpart
      · obtain ⟨d, hd⟩ : ∃ d, (c :: part).getLast? = some d := ⟨_, List.getLast?_eq_some_getLast (List.cons_ne_nil c part)⟩
        exact absurd (hp.subset (List.mem_of_getLast? hd)) (hlast d hd)
    · exact ih (fun hin => hpart (hin.trans (List.suffix_cons c part).isInfix)) hmore hsuffix

section Left

variable {cs : List Char} {parts : List Part} (h : Divided cs parts) (index : Nat)
include h

/-- Braces that begin the text with marks are outside of the expressions. -/
theorem Divided.prefix_sealedText {bs : List Char} (hb : ∀ c ∈ bs, isBrace c = true) (hp : bs <+: sealedText index parts) :
    ∃ more, parts = bs.map .char ++ more ∧ Divided (source more) more := by
  have hmark {m t : List Char} {b : Char} {bs : List Char} (hm : ∀ c ∈ m, isMarkChar c = true) (hne : m ≠ [])
      (hbrace : isBrace b = true) (hp : b :: bs <+: m ++ t) : False := by
    obtain ⟨d, ds, rfl⟩ := List.exists_cons_of_ne_nil hne
    obtain ⟨rfl, -⟩ := List.cons_prefix_cons.1 hp
    exact not_mem_braces (List.forall_mem_singleton.2 hbrace) hm b List.mem_cons_self (List.mem_singleton_self b)
  induction bs generalizing cs parts with
  | nil => exact ⟨parts, rfl, by rwa [h.source_eq]⟩
  | cons b bs ih =>
    obtain ⟨hbrace, hbs⟩ := List.forall_mem_cons.1 hb
    cases h with
    | nil => exact absurd (List.prefix_nil.1 hp) (List.cons_ne_nil b bs)
    | char outside more =>
      obtain ⟨rfl, hrest⟩ := List.cons_prefix_cons.1 hp
      obtain ⟨parts, rfl, hparts⟩ := ih more hbs hrest
      exact ⟨parts, rfl, hparts⟩
    | @span span cs parts isSpan more =>
      exfalso
      rw [sealedText] at hp
      split at hp
      · obtain ⟨inner, hinner⟩ := bracketed_start isSpan
        rw [hinner, List.append_assoc] at hp
        exact hmark marks_openMark (by decide) hbrace hp
      · exact hmark (marks_mark index) (List.cons_ne_nil _ _) hbrace hp

/-- Closing braces that are left are in the text, too. -/
theorem Divided.closing_infix (hc : closing <:+: sealedText index parts) : closing <:+: cs := by
  induction h generalizing index with
  | nil => exact hc
  | @char c cs parts outside more ih =>
    rcases List.infix_cons_iff.1 hc with hp | hc
    · obtain ⟨rest, hrest, -⟩ := (Divided.char outside more).prefix_sealedText index braces_closing hp
      rw [← (Divided.char outside more).source_eq, hrest]
      exact ⟨[], source rest, rfl⟩
    · exact (ih index hc).trans (List.suffix_cons c cs).isInfix
  | @span span cs parts isSpan more ih =>
    obtain ⟨body, rfl, -⟩ := isSpan
    exact ⟨opening ++ body, cs, rfl⟩

/-- No opening braces that are left have closing ones behind them. -/
theorem Divided.not_closing {rest : List Char} (hopen : opening ++ rest <:+ sealedText index parts) :
    ¬closing <:+: rest := by
  induction h generalizing index with
  | nil => exact absurd (List.suffix_nil.1 hopen) (by simp [opening])
  | @char c cs parts outside more ih =>
    rcases List.suffix_cons_iff.1 hopen with heq | hopen
    · intro hclosing
      obtain ⟨behind, hbehind, hdivided⟩ :=
        (Divided.char outside more).prefix_sealedText index braces_opening ⟨rest, heq⟩
      have hcs : c :: cs = opening ++ source behind := by
        rw [← (Divided.char outside more).source_eq, hbehind]
        rfl
      have hrest : rest = sealedText index behind := by
        have hsealed : c :: sealedText index parts = opening ++ sealedText index behind := by
          rw [← sealedText, hbehind]
          rfl
        exact List.append_cancel_left (heq.trans hsealed)
      rw [hrest] at hclosing
      obtain ⟨span, hspan, hprefix⟩ := exists_isSpan (hdivided.closing_infix index hclosing)
      exact outside span hspan (hcs ▸ hprefix)
    · exact ih index hopen
  | @span span cs parts isSpan more ih =>
    rw [sealedText] at hopen
    split at hopen
    · exact ih index (suffix_of_suffix_append (not_opening_bracketed span) (fun c => last_bracketed isSpan) hopen)
    · refine ih (index + 1) (suffix_of_suffix_append (not_opening_mark index) (fun c hc => ?_) hopen)
      exact not_mem_braces braces_opening (marks_mark index) c (List.mem_of_getLast? hc)

omit h in
/-- Marks keep the lines. -/
theorem count_sealedText (parts : List Part) : (sealedText index parts).count '\n' = (source parts).count '\n' := by
  have hunmarked {m : List Char} (hm : ∀ c ∈ m, isMarkChar c = true) : '\n' ∉ m := by
    intro hmem
    exact absurd (hm '\n' hmem) (by decide)
  induction parts generalizing index with
  | nil => rfl
  | cons part parts ih =>
    cases part with
    | char c =>
      rw [sealedText, List.count_cons, ih]
      exact (List.count_cons).symm
    | span cs =>
      have hsource : (source (.span cs :: parts)).count '\n' = cs.count '\n' + (source parts).count '\n' :=
        List.count_append
      rw [sealedText, hsource]
      split
      next hline =>
        rw [List.count_append, ih, bracketed,
          Text.count_replace (by decide) (by decide) (hunmarked marks_closeMark),
          Text.count_replace (by decide) (by decide) (hunmarked marks_openMark)]
      next hline =>
        rw [List.count_append, ih, List.count_eq_zero.2 (hunmarked (marks_mark index)), List.count_eq_zero.2 hline]

end Left

/-! ## Taking expressions out and putting them back -/

/-- What stands for the parts of a text when its expressions are taken out, and what comes back. -/
structure Undone (t : String) (parts : List Part) : Prop where
  divided : Divided t.toList parts
  unique : ∀ others, Divided t.toList others → others = parts
  /-- Marks stand for the expressions on one line, in their order. -/
  text : (protect t).1.toList = sealedText 0 parts
  spans : (protect t).2.map String.toList = lineSpans parts
  restored : restore (protect t).1 (protect t).2 .plain = .ok t
  /-- No expression is left. -/
  spanless : ∀ body, ¬opening ++ body ++ closing <:+: (protect t).1.toList
  /-- Each mark stands for the expression with its number. -/
  marks : ∀ (n : Nat) (span : String), (protect t).2[n]? = some span →
    restore (String.ofList (mark n)) (protect t).2 .plain = .ok span
  /-- What stands for a part has as many lines before it as the part, and its mark has the number of the
  expressions on one line before it. -/
  lines : ∀ before after, parts = before ++ after → t.toList = source before ++ source after ∧
    (protect t).1.toList = sealedText 0 before ++ sealedText (lineSpans before).length after ∧
    (sealedText 0 before).count '\n' = (source before).count '\n'

theorem encode_plain (next : Option Char) (cs : List Char) : encode (styleEncoder 0 .plain) next cs = cs :=
  encode_self (fun _ _ _ => rfl) next

theorem keepsLines_plain : KeepsLines (styleEncoder 0 .plain) := by
  intro c next
  rw [styleEncoder, List.mem_singleton, eq_comm]

theorem stemless_of_contains {t : String} (h : Text.contains "AZURE_EXPR_" t = false) : Stemless t.toList := by
  have hstem : ¬stem <:+: t.toList := by
    intro hin
    rw [Text.contains, Text.hasInfix_iff.2 (by exact hin)] at h
    cases h
  exact fun before _ hin => hstem ((List.suffix_append before stem).isInfix.trans hin)

theorem Divided.mem_lineSpans {cs span : List Char} {parts : List Part} (h : Divided cs parts)
    (hspan : span ∈ lineSpans parts) : IsSpan span ∧ '\n' ∉ span ∧ span <:+: cs := by
  induction h with
  | nil => cases hspan
  | @char c cs parts outside more ih =>
    obtain ⟨hs, hline, hin⟩ := ih hspan
    exact ⟨hs, hline, hin.trans (List.suffix_cons c cs).isInfix⟩
  | @span first cs parts isSpan more ih =>
    have hmore (hspan : span ∈ lineSpans parts) : IsSpan span ∧ '\n' ∉ span ∧ span <:+: first ++ cs := by
      obtain ⟨hs, hline, hin⟩ := ih hspan
      exact ⟨hs, hline, hin.trans (List.suffix_append first cs).isInfix⟩
    rw [lineSpans] at hspan
    split at hspan
    · exact hmore hspan
    next hline =>
      rcases List.mem_cons.1 hspan with rfl | hspan
      · exact ⟨isSpan, hline, (List.prefix_append span cs).isInfix⟩
      · exact hmore hspan

/-- A text comes back with the expressions that were taken out of it and others around them. -/
theorem restore_sealed {index : Nat} {cs opened cs' : List Char} {spans : List (List Char)}
    (h : Sealed (styleEncoder 0 .plain) index cs opened cs' spans) (hs : Stemless cs) (before after : List String)
    (hindex : before.length = index) :
    restore (String.ofList cs') (before ++ spans.map String.ofList ++ after) .plain = .ok (String.ofList cs) := by
  rw [restore, h.restored hs (fun span _ _ _ => unescape_plain) hindex]
  rfl

/-- In every text without the stem of the marks, taking the expressions out is undone by putting them
back: exactly the expressions on one line are taken out, none is left, and the lines are kept. -/
theorem restore_protect {t : String} (h : Text.contains "AZURE_EXPR_" t = false) : ∃ parts, Undone t parts := by
  obtain ⟨parts, hparts⟩ := exists_divided t.toList
  have hstemless := stemless_of_contains h
  have hencode : (lineSpans parts).map (encode (styleEncoder 0 .plain) none) = lineSpans parts :=
    List.map_id'' (encode_plain none) _
  have hprotect := hparts.protectFrom (isLocal_styleEncoder 0 .plain) keepsLines_plain 0 none (List.forall_mem_nil _)
  rw [List.append_nil, List.append_nil, encode_plain, encode_plain, hencode] at hprotect
  have htext : (protect t).1 = String.ofList (sealedText 0 parts) := by rw [protect, hprotect]
  have hspans : (protect t).2 = (lineSpans parts).map String.ofList := by rw [protect, hprotect]
  refine ⟨parts, hparts, fun others => hparts.unique, ?_, ?_, ?_, ?_, ?_, ?_⟩
  · rw [htext, String.toList_ofList]
  · rw [hspans, List.map_map]
    exact List.map_id'' (fun _ => String.toList_ofList) _
  · obtain ⟨opened, hsealed⟩ := hparts.sealed keepsLines_plain 0
    have hrestore := restore_sealed hsealed hstemless [] [] rfl
    rwa [List.nil_append, List.append_nil, hencode, ← htext, ← hspans, String.ofList_toList] at hrestore
  · intro body hin
    rw [htext, String.toList_ofList] at hin
    obtain ⟨pre, post, heq⟩ := hin
    have hopen : opening ++ (body ++ closing ++ post) <:+ sealedText 0 parts := ⟨pre, by rw [← heq]; simp⟩
    exact hparts.not_closing 0 hopen ⟨body, post, rfl⟩
  · intro n span hn
    rw [hspans, List.getElem?_map, Option.map_eq_some_iff] at hn
    obtain ⟨cs, hcs, rfl⟩ := hn
    obtain ⟨hlt, hget⟩ := List.getElem?_eq_some_iff.1 hcs
    obtain ⟨hspan, hline, hin⟩ := hparts.mem_lineSpans (List.mem_of_getElem? hcs)
    have hsealed : Sealed (styleEncoder 0 .plain) n (cs ++ []) (cs ++ []) (mark n ++ []) [cs] := by
      have hone : Sealed (styleEncoder 0 .plain) n (cs ++ []) (cs ++ []) (mark n ++ [])
          [encode (styleEncoder 0 .plain) none cs] := .line hspan (by rwa [encode_plain]) .nil
      rwa [encode_plain] at hone
    rw [List.append_nil, List.append_nil] at hsealed
    have hothers : lineSpans parts = (lineSpans parts).take n ++ [cs] ++ (lineSpans parts).drop (n + 1) := by
      rw [← hget, List.append_assoc, List.singleton_append, List.cons_getElem_drop_succ, List.take_append_drop]
    have hpart : Stemless cs := fun before hb hx => hstemless before hb (hx.trans hin)
    rw [hspans, hothers, List.map_append, List.map_append]
    refine restore_sealed hsealed hpart _ _ ?_
    rw [List.length_map, List.length_take, Nat.min_eq_left (Nat.le_of_lt hlt)]
  · rintro before after rfl
    refine ⟨?_, ?_, count_sealedText 0 before⟩
    · rw [← hparts.source_eq, source, List.flatMap_append]
      rfl
    · rw [htext, String.toList_ofList, sealedText_append, Nat.zero_add]

theorem restore_protect_lines : Text.contains "AZURE_EXPR_" "$$\x7b\x7b a \x7d\x7d_$\x7b\x7b\n\x7d\x7d\x7d: $\x7b\x7b b" = false ∧
    ∃ parts, Undone "$$\x7b\x7b a \x7d\x7d_$\x7b\x7b\n\x7d\x7d\x7d: $\x7b\x7b b" parts :=
  ⟨by decide, restore_protect (by decide)⟩

end Protected

end PipelineTemplate.Yaml
