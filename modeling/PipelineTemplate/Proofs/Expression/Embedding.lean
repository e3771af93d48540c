import PipelineTemplate.Proofs.Directive
import PipelineTemplate.Proofs.Expression.Parse
import PipelineTemplate.Proofs.Text.Blank

/-!
# Texts with expressions in them

Where an expression in a text ends is decided by the first closing braces behind it. A text that is
written around expressions is taken apart as it was put together as long as no expression has a line
break or closing braces in it; its expressions are evaluated from left to right, and all other characters
stay.
-/

namespace PipelineTemplate

open Text (isBlank trim)

namespace Embedded

variable {body after inside rest cs xs ys : List Char} {n : Nat}

/-! ## The end of an expression -/

theorem closingLength?_eq_some_iff : closingLength? cs = some n ↔
    ∃ after rest, (∀ c ∈ after, isBlank c = true) ∧ cs = after ++ (closing ++ rest) ∧ n = after.length + 2 := by
  have hsplit := List.takeWhile_append_dropWhile (p := isBlank) (l := cs)
  unfold closingLength?
  constructor
  · intro h
    have hblank : ∀ c ∈ cs.takeWhile isBlank, isBlank c = true := List.all_eq_true.1 List.all_takeWhile
    by_cases hp : closing.isPrefixOf (cs.dropWhile isBlank) = true
    · obtain ⟨rest, hrest⟩ := List.isPrefixOf_iff_prefix.1 hp
      rw [if_pos hp, Option.some.injEq] at h
      exact ⟨_, rest, hblank, by rw [hrest, hsplit], h.symm⟩
    · rw [if_neg hp] at h
      cases h
  · rintro ⟨after, rest, hblank, rfl, rfl⟩
    have htake : (after ++ (closing ++ rest)).takeWhile isBlank = after := by
      rw [List.takeWhile_append_of_pos hblank]
      simp [closing, show isBlank '\x7d' = false by decide]
    have hdrop : (after ++ (closing ++ rest)).dropWhile isBlank = closing ++ rest := by
      rw [List.dropWhile_append_of_pos hblank]
      simp [closing, show isBlank '\x7d' = false by decide]
    have hp : closing.isPrefixOf (closing ++ rest) = true := List.isPrefixOf_iff_prefix.2 ⟨rest, rfl⟩
    rw [htake, hdrop, if_pos hp]

/-- A body that ends before blanks and closing braces, and could not end earlier. -/
structure Ends (body after rest : List Char) : Prop where
  nonempty : body ≠ []
  line : '\n' ∉ body
  blanks : ∀ c ∈ after, isBlank c = true
  shortest : ∀ xs ys, body = xs ++ ys → xs ≠ [] → ys ≠ [] →
    closingLength? (ys ++ (after ++ (closing ++ rest))) = none

namespace Ends

variable {c : Char}

theorem singleton (hc : c ≠ '\n') (hblank : ∀ c ∈ after, isBlank c = true) : Ends [c] after rest := by
  refine ⟨List.cons_ne_nil c [], ?_, hblank, ?_⟩
  · intro hmem
    exact hc (List.mem_singleton.1 hmem).symm
  · intro xs ys hsplit hxs hys
    obtain ⟨x, xs, rfl⟩ := List.exists_cons_of_ne_nil hxs
    obtain ⟨-, hnil⟩ := List.cons.inj hsplit
    exact absurd (List.append_eq_nil_iff.1 hnil.symm).2 hys

theorem cons (h : Ends body after rest) (hc : c ≠ '\n')
    (hnone : closingLength? (body ++ (after ++ (closing ++ rest))) = none) : Ends (c :: body) after rest := by
  refine ⟨List.cons_ne_nil c body, ?_, h.blanks, ?_⟩
  · intro hmem
    rcases List.mem_cons.1 hmem with heq | hmem
    · exact hc heq.symm
    · exact h.line hmem
  · intro xs ys hsplit hxs hys
    obtain ⟨x, xs, rfl⟩ := List.exists_cons_of_ne_nil hxs
    obtain ⟨-, hsplit⟩ := List.cons.inj hsplit
    by_cases hnil : xs = []
    · subst hnil
      change body = ys at hsplit
      rwa [← hsplit]
    · exact h.shortest xs ys hsplit hnil hys

theorem tail (h : Ends (c :: body) after rest) (hbody : body ≠ []) : Ends body after rest := by
  refine ⟨hbody, fun hmem => h.line (List.mem_cons_of_mem c hmem), h.blanks, ?_⟩
  intro xs ys hsplit hxs hys
  exact h.shortest (c :: xs) ys (congrArg _ hsplit) (List.cons_ne_nil c xs) hys

end Ends

theorem body?_cons {c : Char} (hc : c ≠ '\n') :
    body? (c :: cs) = match closingLength? cs with
      | some n => some ([c], n)
      | none => (body? cs).map fun (body, n) => (c :: body, n) := by
  rw [body?]
  exact if_neg hc

theorem body?_eq_some_iff : body? cs = some (body, n) ↔
    ∃ after rest, cs = body ++ (after ++ (closing ++ rest)) ∧ n = after.length + 2 ∧ Ends body after rest := by
  constructor
  · intro h
    induction cs generalizing body n with
    | nil => cases h
    | cons c cs ih =>
      by_cases hc : c = '\n'
      · rw [body?, if_pos hc] at h
        cases h
      rw [body?_cons hc] at h
      cases hlength : closingLength? cs with
      | some m =>
        obtain ⟨after, rest, hblank, hcs, hm⟩ := closingLength?_eq_some_iff.1 hlength
        simp only [hlength, Option.some.injEq, Prod.mk.injEq] at h
        obtain ⟨rfl, rfl⟩ := h
        exact ⟨after, rest, congrArg _ hcs, hm, .singleton hc hblank⟩
      | none =>
        simp only [hlength, Option.map_eq_some_iff, Prod.mk.injEq, Prod.exists] at h
        obtain ⟨b, m, hb, rfl, rfl⟩ := h
        obtain ⟨after, rest, hcs, hm, hends⟩ := ih hb
        exact ⟨after, rest, congrArg _ hcs, hm, hends.cons hc (hcs ▸ hlength)⟩
  · rintro ⟨after, rest, rfl, rfl, hends⟩
    induction body with
    | nil => exact absurd rfl hends.nonempty
    | cons c body ih =>
      have hc : c ≠ '\n' := fun heq => hends.line (heq ▸ List.mem_cons_self)
      rw [List.cons_append, body?_cons hc]
      by_cases hbody : body = []
      · subst hbody
        have hlength : closingLength? (after ++ (closing ++ rest)) = some (after.length + 2) :=
          closingLength?_eq_some_iff.2 ⟨after, rest, hends.blanks, rfl, rfl⟩
        rw [List.nil_append, hlength]
      · rw [hends.shortest [c] body rfl (List.cons_ne_nil c []) hbody, ih (hends.tail hbody)]
        rfl

/-- No closing braces begin in a part of a text. -/
def Unclosed (xs rest : List Char) : Prop := ∀ y ys, y :: ys <:+ xs → ¬closing <+: y :: (ys ++ rest)

theorem Unclosed.suffix (h : Unclosed xs rest) (hy : ys <:+ xs) : Unclosed ys rest :=
  fun z zs hz => h z zs (hz.trans hy)

theorem Unclosed.left (h : Unclosed (xs ++ ys) rest) : Unclosed xs (ys ++ rest) := by
  intro z zs hz hp
  obtain ⟨front, hfront⟩ := hz
  apply h z (zs ++ ys) ⟨front, by rw [← hfront, List.append_assoc, List.cons_append]⟩
  rwa [List.append_assoc]

/-- Closing braces do not end what has something visible before them. -/
theorem closingLength?_of_unclosed (h : Unclosed xs rest) (hv : ∃ c ∈ xs, isBlank c = false) :
    closingLength? (xs ++ rest) = none := by
  obtain ⟨c, hc, hvisible⟩ := hv
  cases hlength : closingLength? (xs ++ rest) with
  | none => rfl
  | some n =>
    exfalso
    obtain ⟨after, more, hblank, hsplit, -⟩ := closingLength?_eq_some_iff.1 hlength
    have hout : c ∉ after := by
      intro hmem
      rw [hblank c hmem] at hvisible
      cases hvisible
    rcases List.append_eq_append_iff.1 hsplit with ⟨part, rfl, -⟩ | ⟨part, rfl, hmore⟩
    · exact hout (List.mem_append_left part hc)
    · obtain ⟨y, ys, rfl⟩ : ∃ y ys, part = y :: ys := by
        apply List.exists_cons_of_ne_nil
        rintro rfl
        exact hout (by simpa using hc)
      exact h y ys (List.suffix_append after (y :: ys)) ⟨more, hmore⟩

/-- Nothing that goes over the end of a line is a body. -/
theorem body?_broken (h : Unclosed xs rest) (hline : '\n' ∈ xs)
    (hlast : xs.getLast?.all fun c => !isBlank c) : body? (xs ++ rest) = none := by
  induction xs with
  | nil => cases hline
  | cons c xs ih =>
    by_cases hc : c = '\n'
    · rw [List.cons_append, body?, if_pos hc]
    · have hmem : '\n' ∈ xs := (List.mem_cons.1 hline).resolve_left (Ne.symm hc)
      have hne := List.ne_nil_of_mem hmem
      have hrest : Unclosed xs rest := h.suffix (List.suffix_cons c xs)
      have hlast' : xs.getLast?.all fun c => !isBlank c := by
        rwa [List.getLast?_cons_of_ne_nil hne] at hlast
      have hvisible : ∃ c ∈ xs, isBlank c = false := by
        refine ⟨xs.getLast hne, List.getLast_mem hne, ?_⟩
        rw [List.getLast?_eq_some_getLast hne] at hlast'
        simpa using hlast'
      rw [List.cons_append, body?_cons hc, closingLength?_of_unclosed hrest hvisible, ih hrest hmem hlast']
      rfl

theorem body?_unclosed (h : Text.hasInfix closing cs = false) : body? cs = none := by
  cases hbody : body? cs with
  | none => rfl
  | some p =>
    obtain ⟨after, rest, rfl, -, -⟩ := body?_eq_some_iff.1 hbody
    have hin : closing <:+: p.1 ++ (after ++ (closing ++ rest)) :=
      ⟨p.1 ++ after, rest, by simp only [List.append_assoc]⟩
    rw [Text.hasInfix_iff.2 hin] at h
    cases h

/-! ## Expressions and stray braces -/

/-- What stands between opening braces and the first closing ones behind them is the text of an
expression: something visible, on one line. -/
structure Delimited (inside : List Char) : Prop where
  visible : trim inside ≠ []
  line : '\n' ∉ trim inside
  first : Text.cut? closing (inside ++ closing) = some (inside, [])

/-- Opening braces at the beginning of a text, if there are any, begin no expression: no closing
braces follow, or what they delimit goes over the end of a line. -/
def Stray (cs : List Char) : Prop :=
  ∀ xs inside more, cs = opening ++ xs → Text.cut? closing xs = some (inside, more) → '\n' ∈ trim inside

theorem Unclosed.of_cut? (h : Text.cut? closing xs = some (inside, rest)) :
    Unclosed inside (closing ++ rest) := by
  have hxs := Text.cut?_eq_some h
  rw [hxs, List.append_assoc] at h
  exact (Text.cut?_between (by decide)).1 h

/-- Between the braces of an expression stands its body, with blanks around it. -/
theorem exists_body (hne : trim inside ≠ [])
    (hcut : Text.cut? closing (inside ++ (closing ++ rest)) = some (inside, rest)) :
    ∃ before after, inside.length = before.length + (trim inside).length + after.length ∧
      (∀ c ∈ after, isBlank c = true) ∧
      (inside ++ (closing ++ rest)).takeWhile isBlank = before ∧
      (inside ++ (closing ++ rest)).dropWhile isBlank = trim inside ++ (after ++ (closing ++ rest)) ∧
      Unclosed (trim inside ++ after) (closing ++ rest) := by
  obtain ⟨before, after, hbefore, hafter, hinside⟩ := Text.exists_trim inside
  obtain ⟨c, cs, hbody⟩ := List.exists_cons_of_ne_nil hne
  have hc : isBlank c = false := by
    have hf := (Text.solid_trim hne).first
    rw [hbody] at hf
    simpa using hf
  have htext : inside ++ (closing ++ rest) = before ++ (trim inside ++ (after ++ (closing ++ rest))) := by
    conv_lhs => rw [hinside]
    simp only [List.append_assoc]
  refine ⟨before, after, ?_, hafter, ?_, ?_, ?_⟩
  · have hlength := congrArg List.length hinside
    simpa only [List.length_append] using hlength
  · rw [htext, List.takeWhile_append_of_pos hbefore, hbody]
    simp [hc]
  · rw [htext, List.dropWhile_append_of_pos hbefore, hbody]
    simp [hc]
  · apply (Unclosed.of_cut? hcut).suffix
    exact ⟨before, by rw [← List.append_assoc]; exact hinside.symm⟩

theorem span?_of_delimited (h : Delimited inside) (rest : List Char) :
    span? (inside ++ (closing ++ rest)) = some (trim inside, inside.length + 2) := by
  have hcut := Text.cut?_congr h.first rest
  rw [List.append_assoc] at hcut
  obtain ⟨before, after, hlength, hafter, htake, hdrop, hclear⟩ := exists_body h.visible hcut
  have hends : Ends (trim inside) after rest := by
    refine ⟨h.visible, h.line, hafter, ?_⟩
    intro xs ys hsplit hxs hys
    have hlast := (Text.solid_trim h.visible).last
    rw [hsplit, List.getLast?_append_of_ne_nil _ hys, List.getLast?_eq_some_getLast hys] at hlast
    have hvisible : ∃ c ∈ ys ++ after, isBlank c = false :=
      ⟨ys.getLast hys, List.mem_append_left _ (List.getLast_mem hys), by simpa using hlast⟩
    have hsuffix : ys ++ after <:+ trim inside ++ after := ⟨xs, by rw [hsplit, List.append_assoc]⟩
    have hnone := closingLength?_of_unclosed (hclear.suffix hsuffix) hvisible
    rwa [List.append_assoc] at hnone
  have hbody := body?_eq_some_iff.2 ⟨after, rest, rfl, rfl, hends⟩
  unfold span?
  simp only [htake, hdrop, hbody, hlength, Option.some.injEq, Prod.mk.injEq, true_and]
  omega

theorem span?_of_stray (h : Stray (opening ++ xs)) : span? xs = none := by
  unfold span?
  cases hcut : Text.cut? closing xs with
  | none =>
    have hclosed : Text.hasInfix closing xs = false := by simp [Text.hasInfix, hcut]
    have hrest := Text.hasInfix_of_infix (List.dropWhile_suffix isBlank).isInfix hclosed
    have hprefix : ¬closing.isPrefixOf (xs.dropWhile isBlank) = true := by
      intro hp
      rw [Text.hasInfix_iff.2 (List.isPrefixOf_iff_prefix.1 hp).isInfix] at hrest
      cases hrest
    simp only [body?_unclosed hrest, if_neg hprefix]
  | some p =>
    obtain ⟨inside, rest⟩ := p
    have hline := h xs inside rest rfl hcut
    have hne := List.ne_nil_of_mem hline
    have hxs := Text.cut?_eq_some hcut
    rw [List.append_assoc] at hxs
    subst hxs
    obtain ⟨before, after, -, -, -, hdrop, hclear⟩ := exists_body hne hcut
    have hbroken := body?_broken hclear.left hline (Text.solid_trim hne).last
    have hprefix : ¬closing.isPrefixOf (trim inside ++ (after ++ (closing ++ rest))) = true := by
      intro hp
      obtain ⟨c, cs, hbody⟩ := List.exists_cons_of_ne_nil hne
      rw [List.isPrefixOf_iff_prefix, hbody] at hp
      rw [hbody] at hclear
      exact hclear.left c cs List.suffix_rfl hp
    simp only [hdrop, hbroken, if_neg hprefix]

/-! ## The pieces of a text -/

theorem pieces_skip (xs ys : List Char) : pieces xs.length (xs ++ ys) = pieces 0 ys := by
  induction xs with
  | nil => rfl
  | cons x xs ih => rw [List.length_cons, List.cons_append, pieces, ih]

theorem pieces_opening {length : Nat} (h : span? xs = some (body, length)) :
    pieces 0 (opening ++ xs) = .expression (String.ofList body) :: pieces length xs := by
  have hopen : (Text.dropPrefix? opening (opening ++ xs)).bind span? = some (body, length) := by
    rw [Text.dropPrefix?_eq_some.2 rfl]
    exact h
  change pieces 0 ('$' :: '\x7b' :: '\x7b' :: xs) = _
  change (Text.dropPrefix? opening ('$' :: '\x7b' :: '\x7b' :: xs)).bind span? = _ at hopen
  rw [pieces, hopen]
  rfl

theorem pieces_expression (h : Delimited inside) (rest : List Char) :
    pieces 0 (opening ++ (inside ++ (closing ++ rest))) =
      .expression (String.ofList (trim inside)) :: pieces 0 rest := by
  have hskip := pieces_skip (inside ++ closing) rest
  rw [List.length_append, List.append_assoc] at hskip
  rw [pieces_opening (span?_of_delimited h rest)]
  exact congrArg _ hskip

theorem pieces_of_stray {c : Char} (h : Stray (c :: cs)) : pieces 0 (c :: cs) = .char c :: pieces 0 cs := by
  have hnone : (Text.dropPrefix? opening (c :: cs)).bind span? = none := by
    cases hopen : Text.dropPrefix? opening (c :: cs) with
    | none => rfl
    | some xs =>
      rw [Text.dropPrefix?_eq_some.1 hopen] at h
      exact span?_of_stray h
  rw [pieces, hnone]

/-- No expression begins in a part of a text. -/
def Bare (xs rest : List Char) : Prop := ∀ y ys, y :: ys <:+ xs → Stray (y :: (ys ++ rest))

theorem Bare.cons {x : Char} (hx : Stray (x :: (xs ++ rest))) (h : Bare xs rest) : Bare (x :: xs) rest := by
  intro y ys hys
  rcases List.suffix_cons_iff.1 hys with heq | hys
  · cases heq
    exact hx
  · exact h y ys hys

theorem pieces_of_bare (h : Bare xs rest) : pieces 0 (xs ++ rest) = xs.map .char ++ pieces 0 rest := by
  induction xs with
  | nil => rfl
  | cons x xs ih =>
    have hxs : Bare xs rest := fun y ys hys => h y ys (hys.trans (List.suffix_cons x xs))
    have hx : Stray (x :: (xs ++ rest)) := h x xs List.suffix_rfl
    rw [List.cons_append, pieces_of_stray hx, ih hxs]
    rfl

theorem bare_of_plain (h : Text.hasInfix opening xs = false) (hrest : rest.head? ≠ some '\x7b') :
    Bare xs rest := by
  intro y ys hys zs inside more htext
  exfalso
  match ys with
  | [] =>
    simp only [opening, List.nil_append, List.cons_append, List.cons.injEq] at htext
    exact hrest (by rw [htext.2]; rfl)
  | [_] =>
    simp only [opening, List.nil_append, List.cons_append, List.cons.injEq] at htext
    exact hrest (by rw [htext.2.2]; rfl)
  | _ :: _ :: ys =>
    simp only [opening, List.nil_append, List.cons_append, List.cons.injEq] at htext
    obtain ⟨rfl, rfl, rfl, -⟩ := htext
    have hin : opening <:+: xs := (List.IsPrefix.isInfix ⟨ys, rfl⟩).trans hys.isInfix
    rw [Text.hasInfix_iff.2 hin] at h
    cases h

theorem closing_visible : ∀ c ∈ closing, isBlank c = false := by
  intro c hc
  rcases List.mem_cons.1 hc with rfl | hc
  · decide
  · rw [List.mem_singleton.1 hc]
    decide

/-- A text can be delimited if it has something visible, on one line, and no closing braces. -/
theorem delimited_spaced (hne : trim xs ≠ []) (hline : '\n' ∉ trim xs)
    (hclosed : Text.hasInfix closing (trim xs) = false) : Delimited (' ' :: (xs ++ [' '])) := by
  have hspace : ∀ c ∈ [' '], isBlank c = true := List.forall_mem_singleton.2 (by decide)
  have htrim : trim (' ' :: (xs ++ [' '])) = trim xs := Text.trim_blanks hspace hspace
  refine ⟨htrim ▸ hne, htrim ▸ hline, ?_⟩
  apply (Text.cut?_between (by decide)).2
  intro y ys hys hp
  have hin : closing <:+: ' ' :: (xs ++ [' ']) := by
    match ys with
    | [] =>
      obtain ⟨front, hfront⟩ := hys
      rw [← List.cons_append] at hfront
      obtain ⟨-, hlast⟩ := List.append_inj' hfront rfl
      rw [List.singleton_inj.1 hlast] at hp
      exact absurd hp (by decide)
    | z :: ys =>
      simp only [closing, List.cons_append, List.cons_prefix_cons] at hp
      obtain ⟨rfl, rfl, -⟩ := hp
      exact (List.IsPrefix.isInfix ⟨ys, rfl⟩).trans hys.isInfix
  have htrimmed := Text.infix_trim (by decide) closing_visible hin
  rw [htrim] at htrimmed
  rw [Text.hasInfix_iff.2 htrimmed] at hclosed
  cases hclosed

/-- A body has no line break, and no closing braces but at its beginning. -/
theorem of_span? {length : Nat} (h : span? xs = some (body, length)) (hv : ∃ c ∈ body, isBlank c = false) :
    '\n' ∉ body ∧ ∀ front back, body = front ++ (closing ++ back) → front = [] := by
  unfold span? at h
  cases hbody : body? (xs.dropWhile isBlank) with
  | some p =>
    simp only [hbody, Option.some.injEq, Prod.mk.injEq] at h
    obtain ⟨rfl, -⟩ := h
    obtain ⟨after, rest, -, -, hends⟩ := body?_eq_some_iff.1 hbody
    refine ⟨hends.line, ?_⟩
    intro front back hsplit
    by_contra hfront
    have hnone := hends.shortest front (closing ++ back) hsplit hfront (by simp [closing])
    have hsome : closingLength? ((closing ++ back) ++ (after ++ (closing ++ rest))) = some 2 :=
      closingLength?_eq_some_iff.2 ⟨[], _, List.forall_mem_nil _, List.append_assoc _ _ _, rfl⟩
    rw [hsome] at hnone
    cases hnone
  | none =>
    exfalso
    simp only [hbody] at h
    split at h
    · obtain ⟨blank, hfind, heq⟩ := Option.map_eq_some_iff.1 h
      obtain ⟨rfl, -⟩ := Prod.mk.inj heq
      have hmem := List.mem_reverse.1 (List.mem_of_find?_eq_some hfind)
      have hblank : isBlank blank = true := List.all_eq_true.1 List.all_takeWhile blank hmem
      obtain ⟨c, hc, hvisible⟩ := hv
      rw [List.mem_singleton.1 hc, hblank] at hvisible
      cases hvisible
    · cases h

end Embedded

namespace Expr

variable {s : String} {e : Expr}

/-- An expression begins with a token that begins phrases. -/
theorem exists_first (h : Expr.parse s = .ok e) : ∃ blanks cs t rest, trim s.toList = blanks ++ cs ∧
    (∀ c ∈ blanks, Token.isSeparator c = true) ∧ Token.read? cs = some (t, rest) ∧ t.opens = true := by
  obtain ⟨p, hsplits, -⟩ := parse_eq_ok_iff_splits.1 h
  obtain ⟨t, ts, htokens, hopens⟩ := p.opens nofun nofun
  rw [htokens] at hsplits
  generalize trim s.toList = text at hsplits ⊢
  cases hsplits with
  | token hblanks first later => exact ⟨_, _, t, _, rfl, hblanks, Token.read?_eq_some_iff.2 first, hopens⟩

theorem trim_ne_nil (h : Expr.parse s = .ok e) : trim s.toList ≠ [] := by
  obtain ⟨blanks, cs, t, rest, htext, -, hread, -⟩ := exists_first h
  intro hnil
  obtain ⟨-, rfl⟩ := List.append_eq_nil_iff.1 (htext.symm.trans hnil)
  cases hread

theorem not_brace_first (h : Expr.parse s = .ok e) (more : List Char) :
    trim s.toList ≠ '\x7d' :: more := by
  obtain ⟨blanks, cs, t, rest, htext, hblanks, hread, hopens⟩ := exists_first h
  intro hbrace
  rw [hbrace] at htext
  cases blanks with
  | nil =>
    have hclose : Token.read? ('\x7d' :: more) = some (.mark .closeBrace, more) := rfl
    rw [List.nil_append] at htext
    rw [← htext, hclose] at hread
    cases hread
    cases hopens
  | cons b blanks =>
    obtain ⟨rfl, -⟩ := List.cons.inj htext
    exact absurd (hblanks _ List.mem_cons_self) (by decide)

end Expr
end PipelineTemplate
