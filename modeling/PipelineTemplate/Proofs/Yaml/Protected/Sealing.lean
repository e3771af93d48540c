import Mathlib.Data.List.Infix
import PipelineTemplate.Proofs.Text.Occurrence
import PipelineTemplate.Proofs.Yaml.Encoding
import PipelineTemplate.Yaml.Protected

/-!
# Expressions taken out of scalars

Where all expressions of a text end within it, taking the expressions out of what is written of the text
is writing a text with marks in the place of expressions: the two texts are related character by
character, with the expressions that were taken out.
-/

namespace PipelineTemplate.Yaml

namespace Protected

/-! ## Expressions -/

theorem braces_opening : ∀ c ∈ opening, isBrace c = true := forall_mem_of_all (by decide)

theorem braces_closing : ∀ c ∈ closing, isBrace c = true := forall_mem_of_all (by decide)

/-- An expression: what stands between the braces holds no closing braces. -/
def IsSpan (span : List Char) : Prop :=
  ∃ body, span = opening ++ body ++ closing ∧
    ∀ rest, Text.cut? closing (body ++ closing ++ rest) = some (body, rest)

/-- Each expression of the text ends in the text. -/
def Closed (cs : List Char) : Prop := ∀ rest, opening ++ rest <:+ cs → closing <:+: rest

instance (cs : List Char) : Decidable (Closed cs) :=
  decidable_of_iff (∀ t ∈ cs.tails, opening <+: t → Text.hasInfix closing (t.drop opening.length) = true) <| by
    simp only [Closed, List.mem_tails, Text.hasInfix_iff]
    constructor
    · intro h rest hrest
      simpa using h _ hrest (List.prefix_append opening rest)
    · rintro h t ht ⟨rest, rfl⟩
      simpa using h rest ht

theorem Closed.of_suffix {xs ys : List Char} (h : Closed ys) (hs : xs <:+ ys) : Closed xs :=
  fun rest hrest => h rest (hrest.trans hs)

/-- The text does not end with the beginning of braces that go on behind it. -/
def Apart (cs rest : List Char) : Prop :=
  ∀ c, cs.getLast? = some c → c = '$' ∨ c = '\x7b' → rest.head? ≠ some '\x7b'

theorem Apart.of_suffix {xs ys rest : List Char} (h : Apart ys rest) (hs : xs <:+ ys) : Apart xs rest := by
  obtain ⟨zs, rfl⟩ := hs
  intro c hc
  refine h c ?_
  rw [List.getLast?_append_of_ne_nil _ (by rintro rfl; cases hc), hc]

theorem IsSpan.last {span : List Char} (h : IsSpan span) : span.getLast? = some '\x7d' := by
  obtain ⟨body, rfl, -⟩ := h
  rw [List.getLast?_append_of_ne_nil _ (by decide)]
  rfl

/-- Behind opening braces closing ones end an expression. -/
theorem exists_isSpan {rest : List Char} (h : closing <:+: rest) : ∃ span, IsSpan span ∧ span <+: opening ++ rest := by
  obtain ⟨⟨body, after⟩, hcut⟩ := Option.isSome_iff_exists.1 (Text.hasInfix_iff.2 h)
  refine ⟨opening ++ body ++ closing, ⟨body, rfl, Text.cut?_congr hcut⟩, after, ?_⟩
  rw [Text.cut?_eq_some hcut]
  simp

/-- A text with an opening that ends in it begins with an expression. -/
theorem exists_span {cs : List Char} (hclosed : Closed cs) (h : opening <+: cs) :
    ∃ span rest, IsSpan span ∧ cs = span ++ rest := by
  obtain ⟨r, rfl⟩ := h
  obtain ⟨span, hspan, rest, hrest⟩ := exists_isSpan (hclosed r List.suffix_rfl)
  exact ⟨span, rest, hspan, hrest.symm⟩

/-! ## Expressions in what is written -/

section Written

variable {f : Encoder} {cs rest : List Char} {next : Option Char}

/-- Braces that begin in what is written of a text begin in the text, and may go on behind it. -/
theorem prefix_encode_append (hf : IsLocal f) {bs : List Char} (hb : ∀ c ∈ bs, isBrace c = true)
    (h : bs <+: encode f next cs ++ rest) :
    bs <+: cs ∨ ∃ b more, bs = cs ++ b :: more ∧ rest.head? = some b := by
  induction bs generalizing cs with
  | nil => exact .inl List.nil_prefix
  | cons b bs ih =>
    obtain ⟨hc, hbs⟩ := List.forall_mem_cons.1 hb
    cases cs with
    | nil =>
      obtain ⟨more, hmore⟩ := h
      rw [encode, List.nil_append] at hmore
      exact .inr ⟨b, bs, rfl, by rw [← hmore]; rfl⟩
    | cons c cs =>
      have hne : encode f next (c :: cs) ≠ [] := by
        rw [encode]
        cases hbrace : isBrace c with
        | true => simp [hf.brace c _ hbrace]
        | false => simp [(hf.other c (cs.head?.or next) hbrace).1]
      obtain ⟨x, w, hw⟩ := List.exists_cons_of_ne_nil hne
      rw [hw] at h
      obtain ⟨rfl, htail⟩ := List.cons_prefix_cons.1 h
      obtain ⟨more, heq, rfl⟩ := hf.encode_head hc hw
      cases heq
      rcases ih hbs htail with hp | ⟨d, more, rfl, hd⟩
      · exact .inl ((List.prefix_cons_inj b).2 hp)
      · exact .inr ⟨d, more, rfl, hd⟩

/-- No expression begins in what is written where none begins in the text. -/
theorem not_opening_encode (hf : IsLocal f) (ha : Apart cs rest) (h : ¬opening <+: cs) :
    ¬opening <+: encode f next cs ++ rest ∨ cs = [] := by
  by_cases hnil : cs = []
  · exact .inr hnil
  · refine .inl fun hp => ?_
    rcases prefix_encode_append hf braces_opening hp with hp | ⟨b, more, heq, hb⟩
    · exact h hp
    · match cs with
      | [] => exact hnil rfl
      | [c] =>
        cases heq
        exact ha '$' rfl (.inl rfl) hb
      | [c, d] =>
        cases heq
        exact ha '\x7b' rfl (.inr rfl) hb
      | c :: d :: e :: more => simp [opening] at heq

/-- The closing braces are found at the same place. -/
theorem cut?_encode (hf : IsLocal f) {body after : List Char} (h : Text.cut? closing cs = some (body, after)) :
    Text.cut? closing (encode f next cs ++ rest) =
      some (encode f (some '\x7d') body, encode f next after ++ rest) := by
  induction cs generalizing body with
  | nil => simp [Text.cut?, closing] at h
  | cons c cs ih =>
    by_cases hp : closing <+: c :: cs
    · obtain ⟨more, hmore⟩ := hp
      rw [← hmore, Text.cut?_append (by decide)] at h
      cases h
      rw [← hmore, encode_append, hf.encode_braces braces_closing, List.append_assoc, Text.cut?_append (by decide)]
      rfl
    · rw [Text.cut?_cons hp] at h
      obtain ⟨⟨b, a⟩, hb, heq⟩ := Option.map_eq_some_iff.1 h
      cases heq
      have hcs := Text.cut?_eq_some hb
      have hhead : cs.head?.or next = b.head?.or (some '\x7d') := by
        rw [hcs]
        cases b <;> rfl
      have ih := ih hb
      rw [encode, encode, hhead, List.append_assoc]
      cases hc : isBrace c with
      | true =>
        have hne : ¬closing <+: c :: (encode f next cs ++ rest) := by
          intro hclosing
          obtain ⟨rfl, hsecond⟩ := List.cons_prefix_cons.1 hclosing
          rcases @prefix_encode_append _ _ _ _ hf ['\x7d'] (forall_mem_of_all (by decide)) hsecond with hp' | ⟨x, more, heq, -⟩
          · exact hp ((List.prefix_cons_inj _).2 hp')
          · have hnil : cs = [] := by
              cases cs with
              | nil => rfl
              | cons y cs => simp at heq
            simp [hnil, Text.cut?, closing] at hb
        rw [hf.brace c _ hc, List.singleton_append, List.singleton_append, Text.cut?_cons hne, ih]
        rfl
      | false =>
        obtain ⟨-, hall⟩ := hf.other c (b.head?.or (some '\x7d')) hc
        rw [Text.cut?_pass (by
          rintro x hx more heq
          cases heq
          cases hall _ hx) (by decide), ih]
        rfl

/-- What is written of an expression is an expression. -/
theorem spanOf?_encode (hf : IsLocal f) {span : List Char} (h : IsSpan span) (rest : List Char) :
    spanOf? (encode f none span ++ rest) = some (encode f none span) := by
  obtain ⟨body, rfl, hcut⟩ := h
  have hcut' : Text.cut? closing (body ++ closing) = some (body, []) := by
    have := hcut []
    rwa [List.append_nil] at this
  have hencode := @cut?_encode _ _ rest none hf _ _ hcut'
  have hopen : encode f none (opening ++ (body ++ closing)) = opening ++ encode f none (body ++ closing) := by
    rw [encode_append, hf.encode_braces braces_opening]
  have hclose : encode f none (body ++ closing) = encode f (some '\x7d') body ++ closing := by
    rw [encode_append, hf.encode_braces braces_closing]
    rfl
  rw [List.append_assoc, hopen, spanOf?, List.append_assoc, Text.dropPrefix?_eq_some.2 rfl]
  simp only [bind, Option.bind, hencode, pure]
  rw [hclose, List.append_assoc]

end Written

/-! ## Taking expressions out -/

theorem protectFrom_skip (xs ys : List Char) (index : Nat) :
    protectFrom xs.length index (xs ++ ys) = protectFrom 0 index ys := by
  induction xs with
  | nil => rfl
  | cons x xs ih => rw [List.cons_append, List.length_cons, protectFrom, ih]

theorem protectFrom_char {c : Char} {cs : List Char} (h : ¬opening <+: c :: cs) (index : Nat) :
    protectFrom 0 index (c :: cs) =
      (c :: (protectFrom 0 index cs).1, (protectFrom 0 index cs).2) := by
  have hnone : Text.dropPrefix? opening (c :: cs) = none := by
    rw [← Option.not_isSome_iff_eq_none, Text.dropPrefix?_isSome]
    exact h
  have hspan : spanOf? (c :: cs) = none := by simp only [spanOf?, hnone, bind, Option.bind]
  rw [protectFrom, hspan]

theorem opening_cons {c : Char} {cs : List Char} (h : opening <+: c :: cs) : c = '$' :=
  (List.cons_prefix_cons.1 h).1.symm

/-- Without a dollar sign no expression begins. -/
theorem protectFrom_pass {xs : List Char} (h : ∀ x ∈ xs, x ≠ '$') (index : Nat) (rest : List Char) :
    protectFrom 0 index (xs ++ rest) =
      (xs ++ (protectFrom 0 index rest).1, (protectFrom 0 index rest).2) := by
  induction xs with
  | nil => rfl
  | cons x xs ih =>
    obtain ⟨hx, hxs⟩ := List.forall_mem_cons.1 h
    rw [List.cons_append, protectFrom_char (fun hp => hx (opening_cons hp)), ih hxs]
    rfl

theorem protectFrom_span {span rest : List Char} (h : spanOf? (span ++ rest) = some span) (hne : span ≠ [])
    (index : Nat) :
    protectFrom 0 index (span ++ rest) =
      if '\n' ∈ span then
        (Text.replace closing closeMark (Text.replace opening openMark span) ++ (protectFrom 0 index rest).1,
          (protectFrom 0 index rest).2)
      else
        (mark index ++ (protectFrom 0 (index + 1) rest).1, span :: (protectFrom 0 (index + 1) rest).2) := by
  obtain ⟨c, cs, rfl⟩ := List.exists_cons_of_ne_nil hne
  rw [List.cons_append] at h ⊢
  rw [protectFrom, h]
  simp only [List.length_cons, Nat.add_sub_cancel, protectFrom_skip]

/-- Braces and the mark that stands for them in an expression on several lines. -/
inductive IsBracket : List Char → List Char → Prop
  | opening : IsBracket opening openMark
  | closing : IsBracket closing closeMark

/-- A text, the text with marks for the braces of expressions on several lines, the text with marks for
the other expressions as well, and these expressions as they are written. -/
inductive Sealed (f : Encoder) : Nat → List Char → List Char → List Char → List (List Char) → Prop
  | nil {index : Nat} : Sealed f index [] [] [] []
  | char {index : Nat} {c : Char} {cs opened cs' : List Char} {spans : List (List Char)}
      (more : Sealed f index cs opened cs' spans) : Sealed f index (c :: cs) (c :: opened) (c :: cs') spans
  | bracket {index : Nat} {braces mark cs opened cs' : List Char} {spans : List (List Char)}
      (isBracket : IsBracket braces mark) (more : Sealed f index cs opened cs' spans) :
      Sealed f index (braces ++ cs) (mark ++ opened) (mark ++ cs') spans
  | line {index : Nat} {span cs opened cs' : List Char} {spans : List (List Char)} (isSpan : IsSpan span)
      (oneLine : '\n' ∉ encode f none span) (more : Sealed f (index + 1) cs opened cs' spans) :
      Sealed f index (span ++ cs) (span ++ opened) (mark index ++ cs') (encode f none span :: spans)

theorem marks_openMark : ∀ c ∈ openMark, isMarkChar c = true := forall_mem_of_all (by decide)

theorem marks_closeMark : ∀ c ∈ closeMark, isMarkChar c = true := forall_mem_of_all (by decide)

theorem marks_mark (index : Nat) : ∀ c ∈ mark index, isMarkChar c = true := by
  have hstart : ∀ c ∈ markStart, isMarkChar c = true := forall_mem_of_all (by decide)
  have hend : ∀ c ∈ markEnd, isMarkChar c = true := forall_mem_of_all (by decide)
  intro c hc
  rw [mark, List.mem_append, List.mem_append] at hc
  rcases hc with (hc | hc) | hc
  · exact hstart c hc
  · simp [isMarkChar, Text.isPlainDigit_of_mem_toDigits hc]
  · exact hend c hc

theorem IsBracket.marks {braces mark : List Char} (h : IsBracket braces mark) :
    (∀ c ∈ braces, isBrace c = true) ∧ ∀ c ∈ mark, isMarkChar c = true := by
  cases h with
  | opening => exact ⟨braces_opening, marks_openMark⟩
  | closing => exact ⟨braces_closing, marks_closeMark⟩

section Seal

variable {f : Encoder} {index : Nat} {cs opened cs' : List Char} {spans : List (List Char)}

/-- Marks begin with a low line where expressions and braces begin with a brace. -/
theorem Sealed.head (h : Sealed f index cs opened cs' spans) :
    cs'.head? = cs.head? ∨ (cs'.head? = some '_' ∧ ∃ c, cs.head? = some c ∧ isBrace c = true) := by
  cases h with
  | nil => exact .inl rfl
  | char => exact .inl rfl
  | bracket hb =>
    cases hb with
    | opening => exact .inr ⟨rfl, _, rfl, by decide⟩
    | closing => exact .inr ⟨rfl, _, rfl, by decide⟩
  | line hspan =>
    obtain ⟨body, rfl, -⟩ := hspan
    exact .inr ⟨rfl, _, rfl, by decide⟩

theorem Sealed.head_break (h : Sealed f index cs opened cs' spans) :
    cs'.head?.map ScalarText.isLineBreak = cs.head?.map ScalarText.isLineBreak := by
  rcases h.head with heq | ⟨hmark, c, hc, hbrace⟩
  · rw [heq]
  · rw [hmark, hc, Option.map_some, Option.map_some, isLineBreak_fixed (.inl hbrace)]
    rfl

theorem Sealed.head_next (h : Sealed f index cs opened cs' spans) (next : Option Char) :
    (cs'.head?.or next).map ScalarText.isLineBreak = (cs.head?.or next).map ScalarText.isLineBreak := by
  have := h.head_break
  cases hcs' : cs'.head? <;> cases hcs : cs.head? <;> simp_all

/-! ### Replacing braces -/

variable {braces marks : List Char}

theorem replace_head (hb : ∀ c ∈ braces, isBrace c = true) (hm : ∀ c ∈ marks, isMarkChar c = true)
    (hne : braces ≠ []) (hmne : marks ≠ []) (cs : List Char) :
    (Text.replace braces marks cs).head?.map ScalarText.isLineBreak = cs.head?.map ScalarText.isLineBreak := by
  cases cs with
  | nil => rfl
  | cons c cs =>
    by_cases hp : braces <+: c :: cs
    · obtain ⟨rest, hrest⟩ := hp
      obtain ⟨b, bs, rfl⟩ := List.exists_cons_of_ne_nil hne
      obtain ⟨m, ms, rfl⟩ := List.exists_cons_of_ne_nil hmne
      rw [← hrest, Text.replace_append hne]
      simp [isLineBreak_fixed (.inl (hb b List.mem_cons_self)), isLineBreak_fixed (.inr (hm m List.mem_cons_self))]
    · rw [Text.replace_cons hp]
      rfl

/-- Replacing braces by marks in what is written of a text is writing the text with marks. -/
theorem replace_encode (hf : IsLocal f) (hb : ∀ c ∈ braces, isBrace c = true)
    (hm : ∀ c ∈ marks, isMarkChar c = true) (hne : braces ≠ []) (hmne : marks ≠ []) (next : Option Char)
    (cs : List Char) :
    Text.replace braces marks (encode f next cs) = encode f next (Text.replace braces marks cs) := by
  induction cs using Text.occurrence_induction hne with
  | nil => rfl
  | found cs ih =>
    rw [encode_append, hf.encode_braces hb, Text.replace_append hne, Text.replace_append hne, ih, encode_append,
      hf.encode_marks hm]
  | char c cs hp ih =>
    have hnext : ((Text.replace braces marks cs).head?.or next).map ScalarText.isLineBreak =
        (cs.head?.or next).map ScalarText.isLineBreak := by
      have := replace_head hb hm hne hmne cs
      cases h : (Text.replace braces marks cs).head? <;> cases h' : cs.head? <;> simp_all
    rw [Text.replace_cons hp, encode, encode, hf.next c _ _ hnext, ← ih]
    cases hc : isBrace c with
    | true =>
      have hnot : ¬braces <+: c :: encode f next cs := by
        intro hencode
        apply hp
        have : encode f next (c :: cs) = c :: encode f next cs := by
          rw [encode, hf.brace c _ hc]
          rfl
        exact hf.prefix_encode hb (this ▸ hencode)
      rw [hf.brace c _ hc, List.singleton_append, List.singleton_append, Text.replace_cons hnot]
    | false =>
      obtain ⟨-, hall⟩ := hf.other c (cs.head?.or next) hc
      rw [Text.replace_chars (by
        rintro x hx more rfl
        have := hb x List.mem_cons_self
        rw [hall x hx] at this
        cases this) hne]

/-- Marks for opening braces make no closing ones. -/
theorem not_closing_replace {x : Char} {xs : List Char} (h : ¬closing <+: x :: xs) :
    ¬closing <+: x :: Text.replace opening openMark xs := by
  intro hp
  obtain ⟨rfl, hsecond⟩ := List.cons_prefix_cons.1 hp
  refine h ((List.prefix_cons_inj _).2 ?_)
  cases xs with
  | nil => exact hsecond
  | cons y ys =>
    by_cases hys : opening <+: y :: ys
    · obtain ⟨zs, hzs⟩ := hys
      rw [← hzs, Text.replace_append (by decide)] at hsecond
      exact absurd (List.cons_prefix_cons.1 hsecond).1 (by decide)
    · rw [Text.replace_cons hys] at hsecond
      exact List.cons_prefix_cons.2 ⟨(List.cons_prefix_cons.1 hsecond).1, List.nil_prefix⟩

/-- Marks in the place of all braces of a part of a text. -/
theorem Sealed.replace (h : Sealed f index cs opened cs' spans) (xs : List Char) :
    Sealed f index (xs ++ cs) (Text.replace closing closeMark (Text.replace opening openMark xs) ++ opened)
      (Text.replace closing closeMark (Text.replace opening openMark xs) ++ cs') spans := by
  have hopen : ∀ x ∈ openMark, ∀ more, closing ≠ x :: more := by
    rintro x hx more heq
    cases heq
    revert hx
    decide
  have hclose : ∀ x ∈ closing, ∀ more, opening ≠ x :: more := by
    rintro x hx more heq
    cases heq
    revert hx
    decide
  induction hn : xs.length using Nat.strongRecOn generalizing xs with
  | ind n ih =>
    cases xs with
    | nil => exact h
    | cons x xs =>
      by_cases ho : opening <+: x :: xs
      · obtain ⟨ys, hys⟩ := ho
        have hlt : ys.length < n := by
          rw [← hn, ← hys, List.length_append]
          have : opening.length = 3 := by decide
          omega
        rw [← hys, Text.replace_append (by decide), Text.replace_chars hopen (by decide), List.append_assoc,
          List.append_assoc, List.append_assoc]
        exact .bracket .opening (ih _ hlt ys rfl)
      · by_cases hc : closing <+: x :: xs
        · obtain ⟨ys, hys⟩ := hc
          have hlt : ys.length < n := by
            rw [← hn, ← hys, List.length_append]
            have : closing.length = 2 := by decide
            omega
          rw [← hys, Text.replace_chars hclose (by decide), Text.replace_append (by decide), List.append_assoc,
            List.append_assoc, List.append_assoc]
          exact .bracket .closing (ih _ hlt ys rfl)
        · have hlt : xs.length < n := by
            rw [← hn]
            exact Nat.lt_succ_self _
          rw [Text.replace_cons ho, Text.replace_cons (not_closing_replace hc)]
          exact .char (ih _ hlt xs rfl)

/-! ### What is taken out of a text -/

/-- With the expressions taken out of it, what is written of a text is what is written of the other text.
Those of what follows get the numbers behind. -/
def TakenOut (f : Encoder) (index : Nat) (cs cs' : List Char) (spans : List (List Char)) : Prop :=
  ∀ next rest, Apart cs rest → protectFrom 0 index (encode f next cs ++ rest) =
    (encode f next cs' ++ (protectFrom 0 (index + spans.length) rest).1,
      spans ++ (protectFrom 0 (index + spans.length) rest).2)

section Takes

variable (hf : IsLocal f)
include hf

theorem TakenOut.char {c : Char} (hsealed : Sealed f index cs opened cs' spans) (hp : ¬opening <+: c :: cs)
    (h : TakenOut f index cs cs' spans) : TakenOut f index (c :: cs) (c :: cs') spans := by
  intro next rest ha
  have hpiece : f c (cs'.head?.or next) = f c (cs.head?.or next) := hf.next c _ _ (hsealed.head_next next)
  have hmore := h next rest (ha.of_suffix (List.suffix_cons c cs))
  rw [encode, encode, hpiece, List.append_assoc]
  cases hc : isBrace c with
  | true =>
    have hnot : ¬opening <+: c :: (encode f next cs ++ rest) := by
      have := @not_opening_encode _ _ _ next hf ha hp
      rw [encode, hf.brace c _ hc] at this
      exact this.resolve_right (List.cons_ne_nil _ _)
    rw [hf.brace c _ hc, List.singleton_append, protectFrom_char hnot, hmore]
    rfl
  | false =>
    obtain ⟨-, hall⟩ := hf.other c (cs.head?.or next) hc
    rw [protectFrom_pass (by
      rintro x hx rfl
      cases hall _ hx), hmore, List.append_assoc]

variable {span : List Char} (hspan : IsSpan span)
include hspan

/-- What is written of an expression does not depend on what follows. -/
theorem encode_span (next : Option Char) : encode f next span = encode f none span :=
  hf.encode_brace (by decide) hspan.last

theorem encode_span_ne_nil : encode f none span ≠ [] := by
  obtain ⟨body, rfl, -⟩ := hspan
  rw [List.append_assoc, encode_append, hf.encode_braces braces_opening]
  exact List.cons_ne_nil _ _

theorem protectFrom_encode_span (next : Option Char) (cs rest : List Char) (index : Nat) :
    protectFrom 0 index (encode f next (span ++ cs) ++ rest) =
      if '\n' ∈ encode f none span then
        (Text.replace closing closeMark (Text.replace opening openMark (encode f none span)) ++
          (protectFrom 0 index (encode f next cs ++ rest)).1, (protectFrom 0 index (encode f next cs ++ rest)).2)
      else
        (mark index ++ (protectFrom 0 (index + 1) (encode f next cs ++ rest)).1,
          encode f none span :: (protectFrom 0 (index + 1) (encode f next cs ++ rest)).2) := by
  rw [encode_append, encode_span hf hspan, List.append_assoc,
    protectFrom_span (spanOf?_encode hf hspan _) (encode_span_ne_nil hf hspan)]

/-- Marks for the braces of an expression are put into what is written of it as into the expression. -/
theorem encode_bracketed (next : Option Char) :
    encode f next (Text.replace closing closeMark (Text.replace opening openMark span)) =
      Text.replace closing closeMark (Text.replace opening openMark (encode f none span)) := by
  rw [← replace_encode hf braces_closing marks_closeMark (by decide) (by decide),
    ← replace_encode hf braces_opening marks_openMark (by decide) (by decide), encode_span hf hspan]

/-- An expression on several lines stays, with marks for its braces. -/
theorem TakenOut.bracketed (hline : '\n' ∈ encode f none span) (h : TakenOut f index cs cs' spans) :
    TakenOut f index (span ++ cs) (Text.replace closing closeMark (Text.replace opening openMark span) ++ cs')
      spans := by
  intro next rest ha
  rw [protectFrom_encode_span hf hspan, if_pos hline, h next rest (ha.of_suffix (List.suffix_append _ _)),
    encode_append, encode_bracketed hf hspan, List.append_assoc]

theorem TakenOut.line (hline : '\n' ∉ encode f none span) (h : TakenOut f (index + 1) cs cs' spans) :
    TakenOut f index (span ++ cs) (mark index ++ cs') (encode f none span :: spans) := by
  intro next rest ha
  rw [protectFrom_encode_span hf hspan, if_neg hline, h next rest (ha.of_suffix (List.suffix_append _ _)),
    encode_append, hf.encode_marks (marks_mark index), List.append_assoc, List.length_cons, Nat.add_right_comm,
    Nat.add_assoc]
  rfl

end Takes

/-- The expressions of a text that ends all of them are taken out. -/
theorem exists_sealed (hf : IsLocal f) {cs : List Char} (hclosed : Closed cs) (index : Nat) :
    ∃ opened cs' spans, Sealed f index cs opened cs' spans ∧ TakenOut f index cs cs' spans := by
  induction hn : cs.length using Nat.strongRecOn generalizing cs index with
  | ind n ih =>
    by_cases hp : opening <+: cs
    · obtain ⟨span, t, hspan, rfl⟩ := exists_span hclosed hp
      have hlt : t.length < n := by
        have hne : span ≠ [] := by
          rintro rfl
          cases hspan.last
        rw [← hn, List.length_append]
        have := List.length_pos_iff.2 hne
        omega
      have hrest := hclosed.of_suffix (List.suffix_append span t)
      by_cases hline : '\n' ∈ encode f none span
      · obtain ⟨opened, t', spans, hsealed, htaken⟩ := ih _ hlt hrest index rfl
        exact ⟨_, _, _, hsealed.replace span, htaken.bracketed hf hspan hline⟩
      · obtain ⟨opened, t', spans, hsealed, htaken⟩ := ih _ hlt hrest (index + 1) rfl
        exact ⟨_, _, _, .line hspan hline hsealed, htaken.line hf hspan hline⟩
    · cases cs with
      | nil => exact ⟨[], [], [], .nil, fun next rest _ => rfl⟩
      | cons c cs =>
        have hlt : cs.length < n := by
          rw [← hn]
          exact Nat.lt_succ_self _
        obtain ⟨opened, cs', spans, hsealed, htaken⟩ := ih _ hlt (hclosed.of_suffix (List.suffix_cons c cs)) index rfl
        exact ⟨_, _, _, .char hsealed, htaken.char hf hsealed hp⟩

end Seal

end Protected

end PipelineTemplate.Yaml
