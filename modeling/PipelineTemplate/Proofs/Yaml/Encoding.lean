import PipelineTemplate.Proofs.Text.Digit
import PipelineTemplate.Proofs.Yaml.Scalar.Token

/-!
# Scalars character by character

Each way to write a scalar puts some characters in the place of each character of its text, and the
braces of expressions for themselves: what is written of a text with an expression has the expression at
the same place.
-/

namespace PipelineTemplate.Yaml

/-! ## Encodings -/

/-- The characters that open and close expressions. -/
def isBrace (c : Char) : Bool := c = '$' || c = '\x7b' || c = '\x7d'

/-- The characters of marks. -/
def isMarkChar (c : Char) : Bool := c = '_' || Text.isPlainDigit c || ('A' ≤ c && c ≤ 'Z')

/-- What is written for each character, given the one that follows it. -/
abbrev Encoder := Char → Option Char → List Char

/-- What is written for a text before a character. -/
def encode (f : Encoder) (next : Option Char) : List Char → List Char
  | [] => []
  | c :: cs => f c (cs.head?.or next) ++ encode f next cs

/-- Braces and the characters of marks stand for themselves, nothing else has braces in it, and of the
character that follows it matters only whether it is a line break. -/
structure IsLocal (f : Encoder) : Prop where
  brace : ∀ c next, isBrace c = true → f c next = [c]
  markChar : ∀ c next, isMarkChar c = true → f c next = [c]
  other : ∀ c next, isBrace c = false → f c next ≠ [] ∧ ∀ d ∈ f c next, isBrace d = false
  next : ∀ c a b, a.map ScalarText.isLineBreak = b.map ScalarText.isLineBreak → f c a = f c b

section Encode

variable {f : Encoder} {cs xs ys : List Char} {next : Option Char}

theorem encode_append (f : Encoder) (next : Option Char) (xs ys : List Char) :
    encode f next (xs ++ ys) = encode f (ys.head?.or next) xs ++ encode f next ys := by
  induction xs with
  | nil => rfl
  | cons x xs ih =>
    have hhead : ((xs ++ ys).head?).or next = xs.head?.or (ys.head?.or next) := by
      cases xs <;> rfl
    rw [List.cons_append, encode, hhead, ih, encode, List.append_assoc]

/-- Behind a brace it does not matter what follows. -/
theorem IsLocal.encode_brace (hf : IsLocal f) {a b : Option Char} {c : Char} (hc : isBrace c = true)
    (hlast : cs.getLast? = some c) : encode f a cs = encode f b cs := by
  obtain ⟨xs, rfl⟩ : ∃ xs, cs = xs ++ [c] := ⟨cs.dropLast, (List.dropLast_append_getLast? c hlast).symm⟩
  rw [encode_append, encode_append]
  simp only [encode, hf.brace c _ hc]
  rfl

theorem IsLocal.encode_marks (hf : IsLocal f) (h : ∀ c ∈ cs, isMarkChar c = true) : encode f next cs = cs := by
  induction cs with
  | nil => rfl
  | cons c cs ih =>
    obtain ⟨hc, hcs⟩ := List.forall_mem_cons.1 h
    rw [encode, hf.markChar c _ hc, ih hcs]
    rfl

theorem IsLocal.encode_braces (hf : IsLocal f) (h : ∀ c ∈ cs, isBrace c = true) : encode f next cs = cs := by
  induction cs with
  | nil => rfl
  | cons c cs ih =>
    obtain ⟨hc, hcs⟩ := List.forall_mem_cons.1 h
    rw [encode, hf.brace c _ hc, ih hcs]
    rfl

/-- What is written of a text begins with a brace only if the text does. -/
theorem IsLocal.encode_head (hf : IsLocal f) {c : Char} {rest : List Char} (hc : isBrace c = true)
    (h : encode f next cs = c :: rest) : ∃ more, cs = c :: more ∧ rest = encode f next more := by
  cases cs with
  | nil => cases h
  | cons x more =>
    rw [encode] at h
    cases hx : isBrace x with
    | true =>
      rw [hf.brace x _ hx, List.singleton_append, List.cons.injEq] at h
      obtain ⟨rfl, h⟩ := h
      exact ⟨more, rfl, h.symm⟩
    | false =>
      obtain ⟨hne, hall⟩ := hf.other x (more.head?.or next) hx
      obtain ⟨d, ds, hd⟩ := List.exists_cons_of_ne_nil hne
      rw [hd, List.cons_append, List.cons.injEq] at h
      rw [← h.1, hall d (by rw [hd]; exact List.mem_cons_self)] at hc
      cases hc

/-- Braces stand at the beginning of what is written of a text only if they begin the text. -/
theorem IsLocal.prefix_encode (hf : IsLocal f) {bs : List Char} (hb : ∀ c ∈ bs, isBrace c = true)
    (h : bs <+: encode f next cs) : bs <+: cs := by
  induction bs generalizing cs with
  | nil => exact List.nil_prefix
  | cons b bs ih =>
    obtain ⟨hc, hbs⟩ := List.forall_mem_cons.1 hb
    obtain ⟨rest, hrest⟩ := h
    obtain ⟨more, rfl, hmore⟩ := hf.encode_head hc hrest.symm
    exact (List.prefix_cons_inj b).2 (ih hbs ⟨rest, hmore⟩)

end Encode

/-! ## The styles -/

theorem fixed_range {c : Char} (h : isBrace c = true ∨ isMarkChar c = true) :
    0x20 ≤ c.toNat ∧ c.toNat ≤ 0x7E ∧ c ≠ '\'' ∧ c ≠ '"' ∧ c ≠ '\\' := by
  have hne (l u : Nat) (hl : l ≤ c.toNat) (hu : c.toNat ≤ u) {d : Char} (hd : d.toNat < l ∨ u < d.toNat) : c ≠ d := by
    rintro rfl
    omega
  rcases h with h | h
  · simp only [isBrace, Bool.or_eq_true, decide_eq_true_eq] at h
    rcases h with (rfl | rfl) | rfl <;> decide
  · simp only [isMarkChar, Bool.or_eq_true, decide_eq_true_eq, Bool.and_eq_true] at h
    rcases h with (rfl | hd) | ⟨hl, hu⟩
    · decide
    · obtain ⟨hl, hu⟩ := Text.isPlainDigit_iff.1 hd
      exact ⟨by omega, by omega, hne _ _ hl hu (by decide), hne _ _ hl hu (by decide), hne _ _ hl hu (by decide)⟩
    · have hl' : 65 ≤ c.toNat := ScalarText.char_le_iff.1 hl
      have hu' : c.toNat ≤ 90 := ScalarText.char_le_iff.1 hu
      exact ⟨by omega, by omega, hne _ _ hl' hu' (by decide), hne _ _ hl' hu' (by decide),
        hne _ _ hl' hu' (by decide)⟩

theorem isLineBreak_fixed {c : Char} (h : isBrace c = true ∨ isMarkChar c = true) :
    ScalarText.isLineBreak c = false := by
  obtain ⟨hl, hu, -⟩ := fixed_range h
  have hs := (ScalarText.straight_of_ascii hl hu).1
  exact ScalarText.isLineBreak_eq_false (ScalarText.isBreak_of_straight hs)

namespace ScalarText

theorem escaped_fixed {c : Char} (h : isBrace c = true ∨ isMarkChar c = true) : escaped c = [c] := by
  obtain ⟨hl, hu, -, hquote, hslash⟩ := fixed_range h
  have hall : ∀ pair ∈ ([('\x00', '0'), ('\x07', 'a'), ('\x08', 'b'), ('\t', 't'), ('\n', 'n'),
      ('\x0b', 'v'), ('\x0c', 'f'), ('\r', 'r'), ('\x1b', 'e'), ('"', '"'), ('\\', '\\'), ('\x85', 'N'),
      ('\u2028', 'L'), ('\u2029', 'P')] : List (Char × Char)),
      pair.1 = '"' ∨ pair.1 = '\\' ∨ pair.1.toNat < 0x20 ∨ 0x7E < pair.1.toNat := by decide
  have hnone : escapeLetter? c = none := by
    cases hletter : escapeLetter? c with
    | none => rfl
    | some letter =>
      obtain ⟨before, after, heq, -⟩ := List.lookup_eq_some_iff.1 hletter
      rcases hall (c, letter) (heq ▸ by simp) with rfl | rfl | hlow | hhigh
      · exact absurd rfl hquote
      · exact absurd rfl hslash
      · exact absurd hl (Nat.not_le_of_lt hlow)
      · exact absurd hu (Nat.not_le_of_lt hhigh)
  simp only [escaped, hnone]
  rw [if_pos (by simp [hl, hu])]

theorem isBrace_of_isHex {c : Char} (h : Text.isHex c = true) : isBrace c = false := by
  have hne : ∀ d ∈ ['$', '\x7b', '\x7d'], Text.isHex d = false := forall_mem_of_all (by decide)
  rw [isBrace, Bool.or_eq_false_iff, Bool.or_eq_false_iff, decide_eq_false_iff_not, decide_eq_false_iff_not,
    decide_eq_false_iff_not]
  refine ⟨⟨?_, ?_⟩, ?_⟩
  all_goals
    rintro rfl
    rw [hne _ (by decide)] at h
    cases h

/-- No escape has braces in it. -/
theorem escaped_braceless {c : Char} (h : isBrace c = false) : escaped c ≠ [] ∧ ∀ d ∈ escaped c, isBrace d = false := by
  have hdigits (width : Nat) (hw : 0 < width) (hn : c.toNat < 16 ^ width) :
      ∀ d ∈ (Text.hexPadded width c.toNat).map Char.toUpper, isBrace d = false := by
    intro d hd
    exact isBrace_of_isHex (List.all_eq_true.1 (Text.hexPadded_spec hw hn).2.1 d hd)
  have hvalid := c.valid
  simp only [UInt32.isValidChar, Nat.isValidChar] at hvalid
  have htoNat : c.toNat = c.val.toNat := rfl
  simp only [escaped]
  cases hletter : escapeLetter? c with
  | some letter =>
    have hall : ∀ pair ∈ ([('\x00', '0'), ('\x07', 'a'), ('\x08', 'b'), ('\t', 't'), ('\n', 'n'),
        ('\x0b', 'v'), ('\x0c', 'f'), ('\r', 'r'), ('\x1b', 'e'), ('"', '"'), ('\\', '\\'), ('\x85', 'N'),
        ('\u2028', 'L'), ('\u2029', 'P')] : List (Char × Char)), isBrace pair.2 = false := by decide
    obtain ⟨before, after, heq, -⟩ := List.lookup_eq_some_iff.1 hletter
    exact ⟨List.cons_ne_nil _ _, List.forall_mem_cons.2 ⟨by decide,
      List.forall_mem_singleton.2 (hall (c, letter) (heq ▸ by simp))⟩⟩
  | none =>
    simp only
    split
    · exact ⟨List.cons_ne_nil _ _, List.forall_mem_singleton.2 h⟩
    · split
      · refine ⟨List.cons_ne_nil _ _, List.forall_mem_cons.2 ⟨by decide, List.forall_mem_cons.2 ⟨by decide, ?_⟩⟩⟩
        exact hdigits 2 (by decide) (by omega)
      · split
        · refine ⟨List.cons_ne_nil _ _, List.forall_mem_cons.2 ⟨by decide, List.forall_mem_cons.2 ⟨by decide, ?_⟩⟩⟩
          exact hdigits 4 (by decide) (by omega)
        · refine ⟨List.cons_ne_nil _ _, List.forall_mem_cons.2 ⟨by decide, List.forall_mem_cons.2 ⟨by decide, ?_⟩⟩⟩
          exact hdigits 8 (by decide) (by omega)

end ScalarText

open ScalarText (isLineBreak)

/-- What a style writes for each character, with the indentation of the next line behind a break. -/
def styleEncoder (indent : Nat) : Style → Encoder
  | .plain => fun c _ => [c]
  | .single => fun c next =>
    (if c = '\'' then ['\'', '\''] else [c]) ++
      if isLineBreak c && !next.any isLineBreak then List.replicate indent ' ' else []
  | .double => fun c _ => ScalarText.escaped c
  | .literal | .folded => fun c next =>
    c :: if isLineBreak c && next.any (!isLineBreak ·) then List.replicate indent ' ' else []

theorem any_break {a b : Option Char} (h : a.map isLineBreak = b.map isLineBreak) :
    a.any isLineBreak = b.any isLineBreak ∧ a.any (!isLineBreak ·) = b.any (!isLineBreak ·) := by
  cases a <;> cases b <;> simp_all

theorem isLocal_styleEncoder (indent : Nat) (style : Style) : IsLocal (styleEncoder indent style) := by
  have hspaces : ∀ d ∈ List.replicate indent ' ', isBrace d = false := by
    intro d hd
    rw [List.eq_of_mem_replicate hd]
    decide
  have hbehind (condition : Bool) : ∀ d ∈ (if condition then List.replicate indent ' ' else []), isBrace d = false := by
    cases condition with
    | true => exact hspaces
    | false => exact fun d hd => absurd hd List.not_mem_nil
  have hfixed {c : Char} (h : isBrace c = true ∨ isMarkChar c = true) (next : Option Char) :
      styleEncoder indent style c next = [c] := by
    have hbreak := isLineBreak_fixed h
    cases style with
    | plain => rfl
    | single => simp [styleEncoder, hbreak, (fixed_range h).2.2.1]
    | double => exact ScalarText.escaped_fixed h
    | literal | folded => simp [styleEncoder, hbreak]
  constructor
  · exact fun c next hc => hfixed (.inl hc) next
  · exact fun c next hc => hfixed (.inr hc) next
  · intro c next hc
    cases style with
    | plain => exact ⟨List.cons_ne_nil _ _, List.forall_mem_singleton.2 hc⟩
    | single =>
      simp only [styleEncoder]
      constructor
      · split <;> simp
      · intro d hd
        rcases List.mem_append.1 hd with hd | hd
        · split at hd
          · rw [(List.mem_cons.1 hd).elim id List.mem_singleton.1]
            decide
          · rwa [List.mem_singleton.1 hd]
        · exact hbehind _ d hd
    | double => exact ScalarText.escaped_braceless hc
    | literal | folded =>
      exact ⟨List.cons_ne_nil _ _, List.forall_mem_cons.2 ⟨hc, hbehind _⟩⟩
  · intro c a b hab
    obtain ⟨hany, hnone⟩ := any_break hab
    cases style <;> simp only [styleEncoder, hany, hnone]

/-- What stands before the text of a scalar. -/
def opener (indent : Nat) (cs : List Char) : Style → List Char
  | .plain => []
  | .single => ['\'']
  | .double => ['"']
  | .literal | .folded =>
    '|' :: ScalarText.blockHints cs ++
      '\n' :: if cs.head?.any (!isLineBreak ·) then List.replicate indent ' ' else []

/-- What stands behind the text of a scalar. -/
def closer : Style → List Char
  | .single => ['\'']
  | .double => ['"']
  | _ => []

theorem singleBody_encode (n : Nat) (cs : List Char) :
    ScalarText.singleBody n cs = encode (styleEncoder n .single) none cs := by
  induction cs with
  | nil => rfl
  | cons c cs ih => rw [ScalarText.singleBody, encode, ih, Option.or_none]; rfl

theorem indented_encode (n : Nat) (cs : List Char) :
    ScalarText.indented n false cs = encode (styleEncoder n .literal) none cs ∧
      ScalarText.indented n true cs = (if cs.head?.any (!isLineBreak ·) then List.replicate n ' ' else []) ++
        encode (styleEncoder n .literal) none cs := by
  induction cs with
  | nil => exact ⟨rfl, rfl⟩
  | cons c cs ih =>
    rw [ScalarText.indented, ScalarText.indented, encode, Option.or_none]
    by_cases hc : isLineBreak c = true
    · simp [hc, ih.2, styleEncoder]
    · simp [hc, ih.1, styleEncoder]

/-- What is written of a text stands between an opener and a closer. -/
theorem written_encode (n : Nat) (cs : List Char) (style : Style) :
    (writtenIn n cs style).text = opener n cs style ++ encode (styleEncoder n style) none cs ++ closer style := by
  have hplain : encode (styleEncoder n .plain) none cs = cs := by
    induction cs with
    | nil => rfl
    | cons c cs ih => rw [encode, ih]; rfl
  have hdouble : encode (styleEncoder n .double) none cs = cs.flatMap ScalarText.escaped := by
    clear hplain
    induction cs with
    | nil => rfl
    | cons c cs ih => rw [encode, ih]; rfl
  have hliteral : (ScalarText.literal n cs).text =
      opener n cs .literal ++ encode (styleEncoder n .literal) none cs ++ closer .literal := by
    simp [ScalarText.literal, opener, closer, (indented_encode n cs).2]
  cases style with
  | plain => simp [writtenIn, opener, closer, hplain]
  | single => simp [writtenIn, opener, closer, ScalarText.single, singleBody_encode]
  | double => simp [writtenIn, opener, closer, ScalarText.double, hdouble]
  | literal => exact hliteral
  | folded => exact hliteral

end PipelineTemplate.Yaml
