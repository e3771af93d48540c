import Mathlib.Data.List.Infix
import PipelineTemplate.Proofs.Yaml.Scalar.Quoted
import PipelineTemplate.Yaml.Token.Property

/-!
# Reading further down

The same characters may stand further down in a longer text. What a cursor reads there is the same: it
stops at the same characters and fails for the same causes, on a line that is as much further down. Both
are told of each part of the reading at once, together with what it leaves unread, which is the end of
what was there, and with the causes for which it can fail.
-/

namespace PipelineTemplate

/-- The cause with its line further down, if it names one. -/
def Fault.below (lines : Nat) : Fault → Fault
  | .yaml ⟨stage, line⟩ => .yaml ⟨stage, line.map (· + lines)⟩
  | fault => fault

namespace Yaml

theorem Text.hexNumeral_lt (ds : List Char) : Text.hexNumeral ds < 16 ^ ds.length := by
  have hvalue (d : Char) : (Text.hexValue? d).getD 0 < 16 := by
    cases hd : Text.hexValue? d with
    | none => decide
    | some n =>
      have hcases := Text.hexValue?_cases hd
      rw [Option.getD_some]
      omega
  induction ds using List.reverseRecOn with
  | nil => decide
  | append_singleton ds d ih =>
    have := hvalue d
    rw [Text.hexNumeral_concat, List.length_append, List.length_singleton, Nat.pow_succ]
    omega

/-- How much further down a text stands. -/
structure Shift where
  chars : Nat
  lines : Nat

/-- The causes for which no token is read from a text: it is malformed, or it has an escape with the
number of no character. -/
inductive Excused (text : List Char) : Fault → Prop
  | malformed (e : YamlError) : Excused text (.yaml e)
  | escape {digits : List Char} (eight : digits.length = 8) (hex : digits.all Text.isHex = true)
      (beyond : 0x10FFFF < Text.hexNumeral digits) (found : '\\' :: 'U' :: digits <:+: text) :
      Excused text (.noCharacter (0x7FFFFFFF < Text.hexNumeral digits))

theorem Excused.mono {part text : List Char} {f : Fault} (hpart : part <:+: text) (h : Excused part f) :
    Excused text f := by
  cases h with
  | malformed e => exact .malformed e
  | escape eight hex beyond found => exact .escape eight hex beyond (found.trans hpart)

namespace Cursor

/-- The same place of the text further down. -/
def below (σ : Shift) (c : Cursor) : Cursor := ⟨c.rest, c.index + σ.chars, c.line + σ.lines, c.column⟩

/-- One place of a text is the other one or stands behind it. -/
def Reaches (start c : Cursor) : Prop := ∃ n, c = start.advance n

namespace Reaches

variable {start c d : Cursor}

theorem refl (c : Cursor) : c.Reaches c := ⟨0, rfl⟩

theorem advance (h : start.Reaches c) (n : Nat) : start.Reaches (c.advance n) := by
  obtain ⟨m, rfl⟩ := h
  exact ⟨m + n, advance_advance start m n⟩

theorem next (h : start.Reaches c) : start.Reaches c.next := h.advance 1

theorem skip (h : start.Reaches c) (test : Char → Bool) : start.Reaches (c.skip test) := h.advance _

theorem lineBreak (h : start.Reaches c) : start.Reaches c.lineBreak.2 := by
  unfold Cursor.lineBreak
  split
  · exact h.advance 2
  all_goals first | exact h.next | exact h

theorem trans (h : start.Reaches c) (h' : c.Reaches d) : start.Reaches d := by
  obtain ⟨n, rfl⟩ := h'
  exact h.advance n

theorem suffix (h : start.Reaches c) : c.rest <:+ start.rest := by
  obtain ⟨n, rfl⟩ := h
  rw [advance_rest]
  exact List.drop_suffix n start.rest

end Reaches

end Cursor

/-- What is read has a place behind it. -/
class Placed (ρ : Type) where
  cursor : ρ → Cursor
  below : Shift → ρ → ρ

instance : Placed Cursor := ⟨id, Cursor.below⟩

instance {α ρ : Type} [Placed ρ] : Placed (α × ρ) :=
  ⟨fun p => Placed.cursor p.2, fun σ p => (p.1, Placed.below σ p.2)⟩

section Steady

variable {ρ τ : Type} [Placed ρ] [Placed τ] (σ : Shift) (start : Cursor)

/-- The same is read further down, and its place is in the text. -/
structure Keeps (a b : ρ) : Prop where
  same : b = Placed.below σ a
  within : start.Reaches (Placed.cursor a)

/-- The same is read further down, or reading fails there for the same cause. -/
inductive Steady : Except Fault ρ → Except Fault ρ → Prop
  | ok {a b : ρ} (keeps : Keeps σ start a b) : Steady (.ok a) (.ok b)
  | error {f : Fault} (excused : Excused start.rest f) : Steady (.error f) (.error (f.below σ.lines))

variable {σ start}

theorem Keeps.mono {near : Cursor} {a b : ρ} (hnear : start.Reaches near) (h : Keeps σ near a b) :
    Keeps σ start a b := ⟨h.same, hnear.trans h.within⟩

theorem Steady.mono {near : Cursor} {x y : Except Fault ρ} (hnear : start.Reaches near) (h : Steady σ near x y) :
    Steady σ start x y := by
  cases h with
  | ok keeps => exact .ok (keeps.mono hnear)
  | error excused => exact .error (excused.mono hnear.suffix.isInfix)

theorem Steady.bind {x y : Except Fault ρ} {g h : ρ → Except Fault τ} (hx : Steady σ start x y)
    (hg : ∀ a, start.Reaches (Placed.cursor a) → Steady σ start (g a) (h (Placed.below σ a))) :
    Steady σ start (x >>= g) (y >>= h) := by
  cases hx with
  | @ok a b keeps =>
    obtain ⟨rfl, hwithin⟩ := keeps
    exact hg a hwithin
  | error excused => exact .error excused

theorem Steady.bind_pair {α : Type} {x y : Except Fault (α × Cursor)} {g h : α × Cursor → Except Fault ρ}
    (hx : Steady σ start x y)
    (hg : ∀ a d, start.Reaches d → Steady σ start (g (a, d)) (h (a, d.below σ))) :
    Steady σ start (x >>= g) (y >>= h) := hx.bind fun p hp => hg p.1 p.2 hp

section Choice

variable {p q : Prop} [Decidable p] [Decidable q] (hpq : p ↔ q)
include hpq

theorem Steady.ite {x x' y y' : Except Fault ρ} (hx : p → Steady σ start x y) (hx' : ¬p → Steady σ start x' y') :
    Steady σ start (if p then x else x') (if q then y else y') := by
  by_cases hp : p
  · rw [if_pos hp, if_pos (hpq.1 hp)]
    exact hx hp
  · rw [if_neg hp, if_neg (fun hq => hp (hpq.2 hq))]
    exact hx' hp

theorem Steady.dite {x : p → Except Fault ρ} {y : q → Except Fault ρ} {x' : ¬p → Except Fault ρ}
    {y' : ¬q → Except Fault ρ} (hx : ∀ hp hq, Steady σ start (x hp) (y hq))
    (hx' : ∀ hp hq, Steady σ start (x' hp) (y' hq)) : Steady σ start (dite p x x') (dite q y y') := by
  by_cases hp : p
  · rw [dif_pos hp, dif_pos (hpq.1 hp)]
    exact hx hp _
  · rw [dif_neg hp, dif_neg (fun hq => hp (hpq.2 hq))]
    exact hx' hp _

theorem Keeps.ite {x x' y y' : ρ} (hx : p → Keeps σ start x y) (hx' : ¬p → Keeps σ start x' y') :
    Keeps σ start (if p then x else x') (if q then y else y') := by
  by_cases hp : p
  · rw [if_pos hp, if_pos (hpq.1 hp)]
    exact hx hp
  · rw [if_neg hp, if_neg (fun hq => hp (hpq.2 hq))]
    exact hx' hp

theorem Keeps.dite {x : p → ρ} {y : q → ρ} {x' : ¬p → ρ} {y' : ¬q → ρ} (hx : ∀ hp hq, Keeps σ start (x hp) (y hq))
    (hx' : ∀ hp hq, Keeps σ start (x' hp) (y' hq)) : Keeps σ start (dite p x x') (dite q y y') := by
  by_cases hp : p
  · rw [dif_pos hp, dif_pos (hpq.1 hp)]
    exact hx hp _
  · rw [dif_neg hp, dif_neg (fun hq => hp (hpq.2 hq))]
    exact hx' hp _

end Choice

end Steady

namespace Cursor

variable {σ : Shift} {start c d : Cursor}

/-! ## Steps -/

@[simp] theorem below_rest (σ : Shift) (c : Cursor) : (c.below σ).rest = c.rest := rfl

@[simp] theorem below_peek (σ : Shift) (c : Cursor) : (c.below σ).peek = c.peek := rfl

@[simp] theorem below_peekAt (σ : Shift) (c : Cursor) (n : Nat) : (c.below σ).peekAt n = c.peekAt n := rfl

@[simp] theorem below_isAt (σ : Shift) (c : Cursor) (char : Char) : (c.below σ).isAt char = c.isAt char := rfl

@[simp] theorem below_word (σ : Shift) (c : Cursor) (test : Char → Bool) :
    (c.below σ).word test = c.word test := rfl

@[simp] theorem below_atDocumentMark (σ : Shift) (c : Cursor) :
    (c.below σ).atDocumentMark = c.atDocumentMark := rfl

@[simp] theorem below_next (σ : Shift) (c : Cursor) : (c.below σ).next = c.next.below σ := by
  obtain ⟨rest, index, line, column⟩ := c
  cases rest with
  | nil => rfl
  | cons char rest =>
    simp only [next, below]
    split <;> simp [Nat.add_right_comm]

@[simp] theorem below_advance (σ : Shift) (c : Cursor) (n : Nat) :
    (c.below σ).advance n = (c.advance n).below σ := by
  induction n generalizing c with
  | zero => rfl
  | succ n ih => rw [advance, below_next, ih, advance]

@[simp] theorem below_skip (σ : Shift) (c : Cursor) (test : Char → Bool) :
    (c.below σ).skip test = (c.skip test).below σ := below_advance σ c _

@[simp] theorem below_skipSpaces (σ : Shift) (c : Cursor) : (c.below σ).skipSpaces = c.skipSpaces.below σ :=
  below_skip σ c _

@[simp] theorem below_skipIndent (σ : Shift) (c : Cursor) (indent : Nat) :
    (c.below σ).skipIndent indent = (c.skipIndent indent).below σ := below_advance σ c _

@[simp] theorem below_lineBreak (σ : Shift) (c : Cursor) :
    (c.below σ).lineBreak = (c.lineBreak.1, c.lineBreak.2.below σ) := by
  simp only [lineBreak, below_rest, below_next, below_advance]
  split <;> rfl

theorem fail_steady {ρ : Type} [Placed ρ] (stage : YamlStage) :
    Steady σ start (c.fail stage : Except Fault ρ) ((c.below σ).fail stage) := by
  have hline : c.line + σ.lines + 1 = c.line + 1 + σ.lines := by omega
  have hfault : (.yaml ⟨stage, some (c.line + σ.lines + 1)⟩ : Fault) =
      Fault.below σ.lines (.yaml ⟨stage, some (c.line + 1)⟩) := by rw [hline]; rfl
  rw [fail, fail, show (c.below σ).line = c.line + σ.lines from rfl, hfault]
  exact .error (.malformed _)

theorem demand_steady {ρ : Type} [Placed ρ] {condition : Bool} {x y : Except Fault ρ}
    (h : condition = true → Steady σ start x y) :
    Steady σ start (c.demand condition >>= fun _ => x) ((c.below σ).demand condition >>= fun _ => y) := by
  cases condition with
  | true => exact h rfl
  | false => exact @fail_steady σ start c ρ _ .tokens

/-! ## Scalars in quotes -/

theorem quotedBreaks_steady (c : Cursor) (hc : start.Reaches c) :
    Steady σ start c.quotedBreaks (c.below σ).quotedBreaks := by
  induction hn : c.rest.length using Nat.strongRecOn generalizing c with
  | ind n ih =>
    rw [quotedBreaks, quotedBreaks, below_atDocumentMark, below_skip]
    split
    · exact fail_steady .tokens
    · have hd := hc.skip fun char => char = ' ' || char = '\t'
      simp only [below_rest, below_lineBreak]
      split
      next hrest => exact .ok ⟨rfl, hd⟩
      next char rest hrest =>
        split
        next hbreak =>
          refine (ih _ ?_ _ (hd.lineBreak) rfl).bind_pair fun more e he => .ok ⟨rfl, he⟩
          exact hn ▸ Nat.lt_of_lt_of_le (lineBreak_lt hrest hbreak) (advance_le c _)
        next hbreak => exact .ok ⟨rfl, hd⟩

theorem codeLength?_eq_some {char : Char} {n : Nat} (h : codeLength? char = some n) :
    char = 'x' ∧ n = 2 ∨ char = 'u' ∧ n = 4 ∨ char = 'U' ∧ n = 8 := by
  unfold codeLength? at h
  split at h <;> simp_all

/-- Only eight digits can name no character. -/
theorem charOfCode_steady {char : Char} {n : Nat} {digits rest : List Char} (hn : codeLength? char = some n)
    (hdigits : digits = rest.take n) (hlength : digits.length = n) (hhex : digits.all Text.isHex = true)
    (hfound : '\\' :: char :: rest <:+: start.rest) (hd : Keeps σ start c d) :
    Steady σ start (do return ([← charOfCode (Text.hexNumeral digits)], c))
      (do return ([← charOfCode (Text.hexNumeral digits)], d)) := by
  rw [charOfCode]
  split
  next hcode => exact .ok ⟨congrArg (Prod.mk _) hd.same, hd.within⟩
  next hcode =>
    have hlt := Text.hexNumeral_lt digits
    rw [hlength] at hlt
    -- two and four digits stay below the last character
    obtain ⟨rfl, rfl⟩ : char = 'U' ∧ n = 8 := by
      rcases codeLength?_eq_some hn with ⟨-, rfl⟩ | ⟨-, rfl⟩ | h
      · omega
      · omega
      · exact h
    have htaken : '\\' :: 'U' :: digits <+: '\\' :: 'U' :: rest := by
      rw [hdigits, List.prefix_cons_inj, List.prefix_cons_inj]
      exact List.take_prefix 8 rest
    exact .error (.escape hlength hhex (Nat.lt_of_not_le hcode) (htaken.isInfix.trans hfound))

theorem escape_steady (hc : start.Reaches c) (hslash : '\\' :: c.rest <:+: start.rest) :
    Steady σ start c.escape (c.below σ).escape := by
  rw [escape, escape]
  simp only [below_rest, below_next, below_advance, below_lineBreak]
  split
  · exact fail_steady .tokens
  next char rest hrest =>
    split
    · exact .ok ⟨rfl, hc.next⟩
    next n hshort hlength =>
      split
      next hdigits =>
        rw [hrest] at hslash
        exact charOfCode_steady hlength rfl hdigits.1 hdigits.2 hslash ⟨rfl, hc.advance _⟩
      next => exact fail_steady .tokens
    · split
      · exact quotedBreaks_steady _ (hc.lineBreak)
      · exact fail_steady .tokens

theorem quotedRun_steady (double : Bool) (c : Cursor) (hc : start.Reaches c) :
    Steady σ start (c.quotedRun double) ((c.below σ).quotedRun double) := by
  induction hn : c.rest.length using Nat.strongRecOn generalizing c with
  | ind n ih =>
    have hempty : Steady σ start (.ok (([] : List Char), c)) (.ok ([], c.below σ)) := .ok ⟨rfl, hc⟩
    have hfurther (part : List Char) (d : Cursor) (hd : start.Reaches d) : Steady σ start
        (if _h : d.rest.length < c.rest.length then do
          let p ← quotedRun double d
          return (part ++ p.1, p.2)
        else .ok ([], c))
        (if _h : (d.below σ).rest.length < (c.below σ).rest.length then do
          let p ← quotedRun double (d.below σ)
          return (part ++ p.1, p.2)
        else .ok ([], c.below σ)) := by
      exact .dite Iff.rfl
        (fun hlt _ => (ih _ (hn ▸ hlt) d hd rfl).bind_pair fun more e he => .ok ⟨rfl, he⟩) fun _ _ => hempty
    rw [quotedRun, quotedRun]
    simp only [below_rest, below_next, below_advance]
    split
    · exact hempty
    next char rest hrest =>
      split
      · exact hempty
      split
      · split
        · exact hempty
        split
        next hchar =>
          refine (escape_steady (hc.next) ?_).bind_pair fun part d hd => ?_
          · rw [next_rest, hrest, ← hchar]
            exact hrest ▸ hc.suffix.isInfix
          · exact hfurther part d hd
        · exact hfurther [char] _ (hc.next)
      · split
        · split
          · exact hfurther ['\''] _ (hc.advance 2)
          · exact hempty
        · exact hfurther [char] _ (hc.next)

theorem quotedGap_steady (hc : start.Reaches c) : Steady σ start c.quotedGap (c.below σ).quotedGap := by
  have hd := hc.advance (c.word fun char => char = ' ' || char = '\t').length
  rw [quotedGap, quotedGap]
  simp only [below_word, below_advance, below_peek, below_lineBreak]
  split
  · exact fail_steady .tokens
  · split
    · exact (quotedBreaks_steady _ (hd.lineBreak)).bind_pair fun breaks e he => .ok ⟨rfl, he⟩
    · exact .ok ⟨rfl, hd⟩

theorem quotedRest_steady (double : Bool) (c : Cursor) (hc : start.Reaches c) :
    Steady σ start (c.quotedRest double) ((c.below σ).quotedRest double) := by
  induction hn : c.rest.length using Nat.strongRecOn generalizing c with
  | ind n ih =>
    rw [quotedRest, quotedRest]
    refine (quotedRun_steady double c hc).bind_pair fun part d hd => ?_
    refine .ite Iff.rfl (fun _ => ?_) fun _ => ?_
    · rw [below_next]
      exact .ok ⟨rfl, hd.next⟩
    · refine (quotedGap_steady hd).bind_pair fun gap e he => ?_
      exact .dite Iff.rfl
        (fun hlt _ => (ih _ (hn ▸ hlt) e he rfl).bind_pair fun more f hf => .ok ⟨rfl, hf⟩)
        fun _ _ => fail_steady .tokens

/-- A scalar in quotes ends behind its opening quote. -/
theorem quotedScalar_steady (double : Bool) (hc : start.Reaches c.next) :
    Steady σ start (c.quotedScalar double) ((c.below σ).quotedScalar double) := by
  rw [quotedScalar, quotedScalar, below_next]
  exact quotedRest_steady double _ hc

/-! ## Plain scalars -/

theorem plainBreaks_keeps (c : Cursor) (hc : start.Reaches c) :
    Keeps σ start c.plainBreaks (c.below σ).plainBreaks := by
  induction hn : c.rest.length using Nat.strongRecOn generalizing c with
  | ind n ih =>
    rw [plainBreaks, plainBreaks, below_atDocumentMark, below_skipSpaces]
    split
    · exact ⟨rfl, hc⟩
    · have hd : start.Reaches c.skipSpaces := hc.skip _
      simp only [below_rest, below_lineBreak]
      split
      next hrest => exact ⟨rfl, hd⟩
      next char rest hrest =>
        split
        next hbreak =>
          have hlt : c.skipSpaces.lineBreak.2.rest.length < n :=
            hn ▸ Nat.lt_of_lt_of_le (lineBreak_lt hrest hbreak) (advance_le c _)
          obtain ⟨hsame, hwithin⟩ := ih _ hlt _ (hd.lineBreak) rfl
          rw [hsame]
          exact ⟨rfl, hwithin⟩
        next hbreak => exact ⟨rfl, hd⟩

theorem plainGap_keeps (hc : start.Reaches c) : Keeps σ start c.plainGap (c.below σ).plainGap := by
  have hd := hc.advance (c.word (· = ' ')).length
  rw [plainGap, plainGap]
  simp only [below_word, below_advance, below_peek, below_lineBreak]
  split
  · exact ⟨rfl, hd⟩
  · split
    · obtain ⟨hsame, hwithin⟩ := @plainBreaks_keeps σ start _ (hd.lineBreak)
      rw [hsame]
      generalize (c.advance (c.word (· = ' ')).length).lineBreak.2.plainBreaks = breaks at hwithin ⊢
      obtain ⟨_ | breaks, f⟩ := breaks
      · exact ⟨rfl, hwithin⟩
      · exact ⟨rfl, hwithin⟩
    · exact ⟨rfl, hd⟩

/-- One word of a plain scalar, and what follows it. -/
theorem plainScalar_further (flow : Bool) (indent : Int) (gap : List Char) (crossed : Bool)
    (hword : ¬(c.isAt '#' || plainLength flow c.rest = 0) = true)
    (hc : start.Reaches (c.advance (plainLength flow c.rest)))
    (hmore : ∀ gap crossed d, start.Reaches d → d.rest.length < c.rest.length →
      Keeps σ start (d.plainScalar flow indent gap crossed) ((d.below σ).plainScalar flow indent gap crossed)) :
    Keeps σ start (c.plainScalar flow indent gap crossed) ((c.below σ).plainScalar flow indent gap crossed) := by
  have hbelow : ¬((c.below σ).isAt '#' || plainLength flow (c.below σ).rest = 0) = true := hword
  rw [plainScalar.eq_def _ _ _ _ c, plainScalar.eq_def _ _ _ _ (c.below σ)]
  dsimp only
  rw [if_neg hword, if_neg hbelow]
  obtain ⟨hsame, hwithin⟩ := @plainGap_keeps σ start _ hc
  rw [below_rest, below_advance, hsame]
  generalize (c.advance (plainLength flow c.rest)).plainGap = g at hwithin ⊢
  obtain ⟨nextGap, nextCrossed, d⟩ := g
  refine .ite Iff.rfl (fun _ => ⟨rfl, hwithin⟩) fun _ => .dite Iff.rfl (fun hlt _ => ?_) fun _ _ => ⟨rfl, hwithin⟩
  obtain ⟨hsame, hwithin⟩ := hmore nextGap nextCrossed d hwithin hlt
  generalize (d.below σ).plainScalar flow indent nextGap nextCrossed = x at hsame ⊢
  subst hsame
  exact ⟨rfl, hwithin⟩

theorem plainScalar_keeps (flow : Bool) (indent : Int) (gap : List Char) (crossed : Bool) (c : Cursor)
    (hc : start.Reaches c) :
    Keeps σ start (c.plainScalar flow indent gap crossed) ((c.below σ).plainScalar flow indent gap crossed) := by
  induction hn : c.rest.length using Nat.strongRecOn generalizing gap crossed c with
  | ind n ih =>
    by_cases hword : (c.isAt '#' || plainLength flow c.rest = 0) = true
    · have hbelow : ((c.below σ).isAt '#' || plainLength flow (c.below σ).rest = 0) = true := hword
      rw [plainScalar.eq_def _ _ _ _ c, plainScalar.eq_def _ _ _ _ (c.below σ)]
      dsimp only
      rw [if_pos hword, if_pos hbelow]
      exact ⟨rfl, hc⟩
    · apply plainScalar_further flow indent gap crossed hword (hc.advance _)
      intro gap crossed d hd hlt
      exact ih _ (hn ▸ hlt) gap crossed d hd rfl

/-- A plain scalar that has a character ends behind it. -/
theorem plainScalar_keeps_next (flow : Bool) (indent : Int) (gap : List Char) (crossed : Bool)
    (hmark : c.isAt '#' = false) (hlength : plainLength flow c.rest ≠ 0) (hc : start.Reaches c.next) :
    Keeps σ start (c.plainScalar flow indent gap crossed) ((c.below σ).plainScalar flow indent gap crossed) := by
  obtain ⟨n, hn⟩ := Nat.exists_eq_succ_of_ne_zero hlength
  -- only the first word begins where the scalar does; the others begin behind it, where the start is reached
  apply plainScalar_further flow indent gap crossed
  · rw [hmark, decide_eq_false hlength]
    exact Bool.false_ne_true
  · rw [hn]
    exact hc.advance n
  · intro gap crossed d hd _
    exact plainScalar_keeps flow indent gap crossed d hd

/-! ## Block scalars -/

/-- The chomping that a block scalar names at the cursor. -/
def chompingAt (c : Cursor) : Chomping × Cursor :=
  if c.isAt '+' then (.keep, c.next) else if c.isAt '-' then (.strip, c.next) else (.clip, c)

/-- The indentation that a block scalar names at the cursor. -/
def incrementAt (c : Cursor) : Except Fault (Option Nat × Cursor) :=
  match c.peek with
  | some char =>
    if char = '0' then c.fail .tokens
    else if Text.isPlainDigit char then .ok (some (char.toNat - 48), c.next)
    else .ok (none, c)
  | none => .ok (none, c)

theorem blockHeader_parts (c : Cursor) : c.blockHeader = (do
    let (first, d) := c.chompingAt
    let (indent, d) ← d.incrementAt
    let (chomp, d) := if first = .clip ∧ indent.isSome then d.chompingAt else (first, d)
    d.demand (endsField d.peek)
    return (chomp, indent, d)) := rfl

theorem chompingAt_keeps (hc : start.Reaches c) : Keeps σ start c.chompingAt (c.below σ).chompingAt := by
  rw [chompingAt, chompingAt, below_next]
  have hnext := hc.next
  exact .ite Iff.rfl (fun _ => ⟨rfl, hnext⟩) fun _ => .ite Iff.rfl (fun _ => ⟨rfl, hnext⟩) fun _ => ⟨rfl, hc⟩

theorem incrementAt_steady (hc : start.Reaches c) : Steady σ start c.incrementAt (c.below σ).incrementAt := by
  rw [incrementAt, incrementAt, below_peek, below_next]
  split
  · refine .ite Iff.rfl (fun _ => fail_steady .tokens) fun _ => ?_
    exact .ite Iff.rfl (fun _ => .ok ⟨rfl, hc.next⟩) fun _ => .ok ⟨rfl, hc⟩
  · exact .ok ⟨rfl, hc⟩

theorem blockHeader_steady (hc : start.Reaches c) : Steady σ start c.blockHeader (c.below σ).blockHeader := by
  obtain ⟨hsame, hwithin⟩ := @chompingAt_keeps σ start c hc
  rw [blockHeader_parts, blockHeader_parts, hsame]
  generalize c.chompingAt = first at hwithin ⊢
  obtain ⟨first, d⟩ := first
  refine (incrementAt_steady hwithin).bind_pair fun indent e he => ?_
  have hlast : Keeps σ start (if first = .clip ∧ indent.isSome then e.chompingAt else (first, e))
      (if first = .clip ∧ indent.isSome then (e.below σ).chompingAt else (first, e.below σ)) :=
    .ite Iff.rfl (fun _ => chompingAt_keeps he) fun _ => ⟨rfl, he⟩
  let ending (last : Chomping × Cursor) : Except Fault (Chomping × Option Nat × Cursor) := do
    last.2.demand (endsField last.2.peek)
    return (last.1, indent, last.2)
  change Steady σ start (ending (if first = .clip ∧ indent.isSome then e.chompingAt else (first, e)))
    (ending (if first = .clip ∧ indent.isSome then (e.below σ).chompingAt else (first, e.below σ)))
  obtain ⟨hsame, hwithin⟩ := hlast
  rw [hsame]
  exact demand_steady fun _ => .ok ⟨rfl, hwithin⟩

/-- Passes over a comment. -/
def skipComment (c : Cursor) : Cursor := if c.isAt '#' then c.skip (!isBreak ·) else c

theorem restOfLine_parts (c : Cursor) : c.restOfLine = (do
    c.skipSpaces.skipComment.demand (endsLine c.skipSpaces.skipComment.peek)
    return c.skipSpaces.skipComment.lineBreak.2) := rfl

@[simp] theorem below_skipComment (σ : Shift) (c : Cursor) :
    (c.below σ).skipComment = c.skipComment.below σ := by
  rw [skipComment, skipComment, below_isAt, below_skip]
  split <;> rfl

theorem Reaches.skipComment (hc : start.Reaches c) : start.Reaches c.skipComment := by
  rw [Cursor.skipComment]
  split
  · exact hc.skip _
  · exact hc

theorem restOfLine_steady (hc : start.Reaches c) : Steady σ start c.restOfLine (c.below σ).restOfLine := by
  rw [restOfLine_parts, restOfLine_parts, below_skipSpaces, below_skipComment, below_lineBreak]
  exact demand_steady fun _ => .ok ⟨rfl, (hc.skip _).skipComment.lineBreak⟩

theorem blockIndentation_keeps (widest : Nat) (c : Cursor) (hc : start.Reaches c) :
    Keeps σ start (c.blockIndentation widest) ((c.below σ).blockIndentation widest) := by
  induction hn : c.rest.length using Nat.strongRecOn generalizing widest c with
  | ind n ih =>
    have hd : start.Reaches c.skipSpaces := hc.skip _
    obtain ⟨wider, hwider⟩ : ∃ n, (if c.skipSpaces.rest.length < c.rest.length then
      max widest c.skipSpaces.column else widest) = n := ⟨_, rfl⟩
    have hbelow : (if (c.skipSpaces.below σ).rest.length < (c.below σ).rest.length then
      max widest (c.skipSpaces.below σ).column else widest) = wider := hwider
    rw [blockIndentation.eq_def _ c, blockIndentation.eq_def _ (c.below σ), below_skipSpaces]
    dsimp only
    rw [hwider, hbelow]
    simp only [below_rest, below_lineBreak]
    split
    next hrest => exact ⟨rfl, hd⟩
    next char rest hrest =>
      split
      next hbreak =>
        have hlt : c.skipSpaces.lineBreak.2.rest.length < n :=
          hn ▸ Nat.lt_of_lt_of_le (lineBreak_lt hrest hbreak) (advance_le c _)
        obtain ⟨hsame, hwithin⟩ := ih _ hlt wider _ (hd.lineBreak) rfl
        rw [hsame]
        exact ⟨rfl, hwithin⟩
      next hbreak => exact ⟨rfl, hd⟩

theorem blockBreaks_keeps (indent : Nat) (c : Cursor) (hc : start.Reaches c) :
    Keeps σ start (c.blockBreaks indent) ((c.below σ).blockBreaks indent) := by
  induction hn : c.rest.length using Nat.strongRecOn generalizing c with
  | ind n ih =>
    have hd : start.Reaches (c.skipIndent indent) := hc.advance _
    rw [blockBreaks.eq_def _ c, blockBreaks.eq_def _ (c.below σ), below_skipIndent]
    simp only [below_rest, below_lineBreak]
    split
    next hrest => exact ⟨rfl, hd⟩
    next char rest hrest =>
      split
      next hbreak =>
        have hlt : (c.skipIndent indent).lineBreak.2.rest.length < n :=
          hn ▸ Nat.lt_of_lt_of_le (lineBreak_lt hrest hbreak) (advance_le c _)
        obtain ⟨hsame, hwithin⟩ := ih _ hlt _ (hd.lineBreak) rfl
        rw [hsame]
        exact ⟨rfl, hwithin⟩
      next hbreak => exact ⟨rfl, hd⟩

theorem blockLines_keeps (folded : Bool) (chomping : Chomping) (indent : Nat) (breaks : List Char) (c : Cursor)
    (hc : start.Reaches c) :
    Keeps σ start (c.blockLines folded chomping indent breaks)
      ((c.below σ).blockLines folded chomping indent breaks) := by
  induction hn : c.rest.length using Nat.strongRecOn generalizing breaks c with
  | ind n ih =>
    have hd := (hc.advance (c.word (!isBreak ·)).length).lineBreak
    rw [blockLines.eq_def _ _ _ _ c, blockLines.eq_def _ _ _ _ (c.below σ), below_word]
    dsimp only
    rw [below_advance, below_lineBreak]
    generalize (c.advance (c.word (!isBreak ·)).length).lineBreak = ending at hd ⊢
    obtain ⟨hsame, hwithin⟩ := @blockBreaks_keeps σ start indent ending.2 hd
    simp only [hsame]
    generalize ending.2.blockBreaks indent = empty at hwithin ⊢
    obtain ⟨after, e⟩ := empty
    refine .dite Iff.rfl (fun hmore _ => ?_) fun _ _ => ⟨rfl, hwithin⟩
    obtain ⟨hsame, hwithin⟩ := ih _ (hn ▸ hmore.2.2) after e hwithin rfl
    refine ⟨?_, hwithin⟩
    simp only [Placed.below, below_isAt]
    rw [hsame]
    rfl

/-- A block scalar ends behind its indicator. -/
theorem blockScalar_steady (folded : Bool) (outer : Int) (hc : start.Reaches c.next) :
    Steady σ start (c.blockScalar folded outer) ((c.below σ).blockScalar folded outer) := by
  rw [blockScalar, blockScalar, below_next]
  refine (blockHeader_steady hc).bind fun p hd => ?_
  obtain ⟨chomping, increment, d⟩ := p
  refine (restOfLine_steady hd).bind fun e he => ?_
  have hlines (breaks : List Char) (indent : Nat) (f : Cursor) (hf : start.Reaches f) : Steady σ start
      (if f.column = indent ∧ f.atEnd = false then .ok (f.blockLines folded chomping indent breaks)
        else .ok (if chomping = .keep then breaks else [], f))
      (if f.column = indent ∧ f.atEnd = false then .ok ((f.below σ).blockLines folded chomping indent breaks)
        else .ok (if chomping = .keep then breaks else [], f.below σ)) :=
    .ite Iff.rfl (fun _ => .ok (blockLines_keeps folded chomping indent breaks f hf)) fun _ => .ok ⟨rfl, hf⟩
  cases increment with
  | none =>
    obtain ⟨hsame, hwithin⟩ := @blockIndentation_keeps σ start 0 e he
    dsimp only [Placed.below] at hsame ⊢
    rw [hsame]
    exact hlines _ _ _ hwithin
  | some n =>
    obtain ⟨hsame, hwithin⟩ := @blockBreaks_keeps σ start (max (outer + 1).toNat 1 + n - 1) e he
    dsimp only [Placed.below] at hsame ⊢
    rw [hsame]
    exact hlines _ _ _ hwithin

/-! ## Anchors, tags and directives -/

/-- A name ends behind its indicator. -/
theorem anchorName_steady (hc : start.Reaches c.next) : Steady σ start c.anchorName (c.below σ).anchorName := by
  rw [anchorName, anchorName]
  simp only [below_next, below_word, below_advance, below_peek]
  exact demand_steady fun _ => demand_steady fun _ => .ok ⟨rfl, hc.advance _⟩

theorem escapedBytes_steady (c : Cursor) (hc : start.Reaches c) :
    Steady σ start c.escapedBytes (c.below σ).escapedBytes := by
  induction hn : c.rest.length using Nat.strongRecOn generalizing c with
  | ind n ih =>
    rw [escapedBytes.eq_def c, escapedBytes.eq_def (c.below σ)]
    simp only [below_rest, below_advance]
    split
    · split
      · refine .ite Iff.rfl (fun _ => ?_) fun _ => fail_steady .tokens
        refine .dite Iff.rfl (fun hlt _ => ?_) fun _ _ => .ok ⟨rfl, hc⟩
        exact (ih _ (hn ▸ hlt) _ (hc.advance 3) rfl).bind_pair fun more e he => .ok ⟨rfl, he⟩
      · exact fail_steady .tokens
    · exact .ok ⟨rfl, hc⟩

theorem tagText_steady (c : Cursor) (hc : start.Reaches c) : Steady σ start c.tagText (c.below σ).tagText := by
  induction hn : c.rest.length using Nat.strongRecOn generalizing c with
  | ind n ih =>
    rw [tagText.eq_def c, tagText.eq_def (c.below σ)]
    simp only [below_rest, below_next]
    split
    · exact .ok ⟨rfl, hc⟩
    next char _ _ =>
      refine .ite Iff.rfl (fun _ => ?_) fun _ => .ite Iff.rfl (fun _ => ?_) fun _ => .ok ⟨rfl, hc⟩
      · refine (escapedBytes_steady c hc).bind_pair fun bytes d hd => ?_
        dsimp only
        split
        · exact fail_steady .tokens
        · refine .dite Iff.rfl (fun hlt _ => ?_) fun _ _ => .ok ⟨rfl, hc⟩
          exact (ih _ (hn ▸ hlt) d hd rfl).bind_pair fun more e he => .ok ⟨rfl, he⟩
      · refine .dite Iff.rfl (fun hlt _ => ?_) fun _ _ => .ok ⟨rfl, hc⟩
        exact (ih _ (hn ▸ hlt) _ (hc.next) rfl).bind_pair fun more e he => .ok ⟨rfl, he⟩

theorem tagUri_steady (hc : start.Reaches c) : Steady σ start c.tagUri (c.below σ).tagUri := by
  rw [tagUri, tagUri]
  exact (tagText_steady c hc).bind_pair fun text d hd => demand_steady fun _ => .ok ⟨rfl, hd⟩

theorem tagHandle_steady (hc : start.Reaches c.next) : Steady σ start c.tagHandle (c.below σ).tagHandle := by
  rw [tagHandle, tagHandle]
  simp only [below_next, below_word, below_advance, below_isAt]
  have hd := hc.advance (c.next.word isNameChar).length
  refine demand_steady fun _ => .ite Iff.rfl (fun _ => .ok ⟨rfl, hd⟩) fun _ => ?_
  exact demand_steady fun _ => .ok ⟨rfl, hd.next⟩

/-- A tag ends behind its indicator. -/
theorem tag_steady (hc : start.Reaches c.next) : Steady σ start c.tag (c.below σ).tag := by
  rw [tag, tag]
  simp only [below_next, below_advance, below_peekAt, below_word]
  refine Steady.bind ?_ fun p hp => demand_steady fun _ => .ok ⟨rfl, hp⟩
  refine .ite Iff.rfl (fun _ => ?_) fun _ => .ite Iff.rfl (fun _ => .ok ⟨rfl, hc⟩) fun _ => ?_
  · refine (tagUri_steady (hc.advance 1)).bind_pair fun suffix d hd => ?_
    rw [below_next]
    exact demand_steady fun _ => .ok ⟨rfl, hd.next⟩
  · refine .ite Iff.rfl (fun _ => (tagHandle_steady hc).bind_pair fun handle d hd => ?_) fun _ => ?_
    all_goals refine (tagUri_steady ‹_›).bind_pair fun suffix e he => .ok ⟨rfl, he⟩

theorem versionNumber_steady (hc : start.Reaches c) :
    Steady σ start c.versionNumber (c.below σ).versionNumber := by
  rw [versionNumber, versionNumber]
  simp only [below_word, below_advance]
  exact demand_steady fun _ => .ok ⟨rfl, hc.advance _⟩

/-- A directive ends behind its indicator. -/
theorem directive_steady (hc : start.Reaches c.next) : Steady σ start c.directive (c.below σ).directive := by
  have hd := hc.advance (c.next.word isNameChar).length
  have hspaces : start.Reaches (c.next.advance (c.next.word isNameChar).length).skipSpaces := hd.skip _
  rw [directive, directive]
  simp only [below_next, below_word, below_advance, below_peek, below_skipSpaces, below_skip]
  refine demand_steady fun _ => demand_steady fun _ =>
    .ite Iff.rfl (fun _ => ?_) fun _ => .ite Iff.rfl (fun _ => ?_) fun _ => ?_
  · refine (versionNumber_steady hspaces).bind_pair fun major e he => demand_steady fun _ => ?_
    rw [below_next]
    refine (versionNumber_steady (he.next)).bind_pair fun _ f hf => demand_steady fun _ => ?_
    exact (restOfLine_steady hf).bind fun g hg => .ok ⟨rfl, hg⟩
  · refine (tagHandle_steady (hspaces.next)).bind_pair fun handle e he => demand_steady fun _ => ?_
    rw [below_skipSpaces]
    refine (tagUri_steady (he.skip _)).bind_pair fun start f hf => demand_steady fun _ => ?_
    exact (restOfLine_steady hf).bind fun g hg => .ok ⟨rfl, hg⟩
  · exact (restOfLine_steady (hd.skip _)).bind fun g hg => .ok ⟨rfl, hg⟩

end Cursor

end Yaml

end PipelineTemplate
