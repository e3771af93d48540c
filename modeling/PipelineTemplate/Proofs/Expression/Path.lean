import PipelineTemplate.Expression.Evaluation
import PipelineTemplate.Proofs.Expression.RoundTrip
import PipelineTemplate.Proofs.Text.Separation

/-!
# Paths of members

A path is a name with members, positions and quoted keys behind it. Its text is an expression of the
grammar, and where it is not read as one, it is rewritten to names with points between them. Main
statements: what expression the text of a path is, and which names are along it.
-/

namespace PipelineTemplate

/-- The character on both sides of a quotation. -/
def Quotation.mark : Quotation → Char
  | .apostrophes => '\''
  | .marks => '"'

/-- Whether a key is quoted as it is and is one name between points: it is not empty, and no quote, point,
backslash or opening bracket stands in it. -/
def isPlainKey (key : String) : Bool :=
  key != "" && key.toList.all (· ∉ ['\'', '"', '.', '\\', '['])

/-- A step of a path. -/
inductive PathStep where
  | member (name : String) (h : Text.isName name.toList = true)
  | position (n : Nat)
  | quoted (q : Quotation) (key : String) (h : isPlainKey key = true)

/-- A name with steps behind it. -/
structure MemberPath where
  first : String
  named : Text.isName first.toList = true
  steps : List PathStep

namespace PathStep

/-- The text of a step. -/
def chars : PathStep → List Char
  | .member name _ => '.' :: name.toList
  | .position n => '[' :: ((Text.ofNat n).toList ++ [']'])
  | .quoted q key _ => '[' :: q.mark :: (key.toList ++ [q.mark, ']'])

/-- The name that a step is along the path. -/
def name : PathStep → String
  | .member name _ => name
  | .position n => Text.ofNat n
  | .quoted _ key _ => key

def tokens : PathStep → List Token
  | .member name _ => [.mark .dot, .name name]
  | .position n => [.mark .openBracket, .number (.int n), .mark .closeBracket]
  | .quoted _ key _ => [.mark .openBracket, .text key, .mark .closeBracket]

/-- The expression of a step that is taken from a target. -/
def access (target : Expr) : PathStep → Expr
  | .member name _ => .member target name
  | .position n => .index target (.literal (.int n))
  | .quoted _ key _ => .index target (.literal (.text key))

end PathStep

namespace MemberPath

def chars (p : MemberPath) : List Char := p.first.toList ++ p.steps.flatMap PathStep.chars

def text (p : MemberPath) : String := String.ofList p.chars

def expr (p : MemberPath) : Expr := p.steps.foldl PathStep.access (.name p.first)

end MemberPath

/-! ## The expression of a path -/

namespace Token

theorem read?_name_of_isName {name : String} (h : Text.isName name.toList = true) {rest : List Char}
    (hr : ∀ c ∈ rest.head?, Text.isNameChar c = false) :
    read? (name.toList ++ rest) = some (.name name, rest) := by
  have hwritable : (Token.name name).isWritable = true := h
  have spelled : Spells name.toList (.name name) := spells_written .marks hwritable
  exact spelled.read_parted hr

end Token

theorem isNameChar_of_isName {cs : List Char} (h : Text.isName cs = true) : ∀ c ∈ cs, Text.isNameChar c = true := by
  cases cs with
  | nil => cases h
  | cons c cs =>
    obtain ⟨hc, hcs⟩ := Bool.and_eq_true_iff.1 h
    exact List.forall_mem_cons.2 ⟨Token.isNameChar_of_isNameStart hc, List.all_eq_true.1 hcs⟩

theorem notMem_of_isName {cs : List Char} {c : Char} (h : Text.isName cs = true) (hc : Text.isNameChar c = false) :
    c ∉ cs := by
  intro hmem
  rw [isNameChar_of_isName h c hmem] at hc
  cases hc

theorem notMem_of_isPlainKey {key : String} {c : Char} (h : isPlainKey key = true)
    (hc : c ∈ ['\'', '"', '.', '\\', '[']) : c ∉ key.toList := by
  intro hmem
  have hall := List.all_eq_true.1 (Bool.and_eq_true_iff.1 h).2 c hmem
  exact of_decide_eq_true hall hc

theorem solid_of_isName {cs : List Char} (h : Text.isName cs = true) : Text.Solid cs := by
  have hne : cs ≠ [] := by
    rintro rfl
    cases h
  exact .of_all hne fun c hc => Token.isBlank_of_isNameChar (isNameChar_of_isName h c hc)

/-- A plain key is quoted as it is. -/
theorem Quotation.quote_plain {key : String} (h : isPlainKey key = true) (q : Quotation) :
    q.quote key.toList = q.mark :: (key.toList ++ [q.mark]) := by
  have hplain (d : Char) (hd : d ∈ ['\'', '"', '.', '\\', '[']) : ∀ c ∈ key.toList, c ≠ d := by
    rintro c hc rfl
    exact notMem_of_isPlainKey h hd hc
  have hsame {f : Char → List Char} (hf : ∀ c ∈ key.toList, f c = [c]) : key.toList.flatMap f = key.toList := by
    rw [List.flatMap_congr hf]
    simp
  cases q with
  | apostrophes =>
    have hdoubled : Token.doubled key.toList = key.toList := hsame fun c hc => if_neg (hplain _ (by decide) c hc)
    rw [Quotation.quote, hdoubled]
    rfl
  | marks =>
    have hbackslashed : Token.backslashed key.toList = key.toList :=
      hsame fun c hc => if_neg (not_or.2 ⟨hplain _ (by decide) c hc, hplain _ (by decide) c hc⟩)
    rw [Quotation.quote, hbackslashed]
    rfl

namespace PathStep

open Token

/-- What follows a name or a step of a path: another step or nothing. -/
def Follows (rest : List Char) : Prop := ∀ c ∈ rest.head?, c = '.' ∨ c = '['

theorem follows_flatMap (steps : List PathStep) : Follows (steps.flatMap chars) := by
  intro c hc
  cases steps with
  | nil => cases hc
  | cons step steps =>
    cases step with
    | member => exact .inl (Option.some.inj hc).symm
    | position | quoted => exact .inr (Option.some.inj hc).symm

theorem Follows.parted {rest : List Char} (h : Follows rest) : ∀ c ∈ rest.head?, Text.isNameChar c = false := by
  intro c hc
  rcases h c hc with rfl | rfl <;> decide

theorem splits_bracketed {cs rest : List Char} {t : Token} {ts : List Token}
    (h : read? (cs ++ ']' :: rest) = some (t, ']' :: rest)) (later : Splits rest ts) :
    Splits ('[' :: (cs ++ ']' :: rest)) (.mark .openBracket :: t :: .mark .closeBracket :: ts) := by
  have hopen : read? ('[' :: (cs ++ ']' :: rest)) = some (.mark .openBracket, cs ++ ']' :: rest) := rfl
  have hclose : read? (']' :: rest) = some (.mark .closeBracket, rest) := rfl
  exact .of_read hopen (.of_read h (.of_read hclose later))

/-- The text of a step splits into its tokens. -/
theorem splits_step (step : PathStep) {rest : List Char} {ts : List Token} (hrest : Follows rest)
    (later : Splits rest ts) : Splits (step.chars ++ rest) (step.tokens ++ ts) := by
  cases step with
  | member name h =>
    have hpoint : read? ('.' :: (name.toList ++ rest)) = some (.mark .dot, name.toList ++ rest) := rfl
    exact .of_read hpoint (.of_read (read?_name_of_isName h hrest.parted) later)
  | position n =>
    have hnumeral : Numeral (Text.ofNat n).toList (.int n) := by
      rw [← Text.ofInt_natCast]
      exact numeral_ofInt (Int.natCast_nonneg n)
    have hstops : NumberStops (']' :: rest) := by
      simpa [NumberStops] using show Text.isDecimal ']' = false by decide
    have hread := (Spells.number hnumeral).read_parted hstops
    simpa [chars, tokens] using splits_bracketed hread later
  | quoted q key h =>
    have hapart : Parted (.text key) (']' :: rest) := by simp [Parted]
    have hread := (q.spells key).read_parted hapart
    have hsplits := splits_bracketed hread later
    rw [q.quote_plain h] at hsplits
    simpa [chars, tokens] using hsplits

theorem splits_steps (steps : List PathStep) : Splits (steps.flatMap chars) (steps.flatMap tokens) := by
  induction steps with
  | nil => exact .done (List.forall_mem_nil _)
  | cons step steps ih => exact splits_step step (follows_flatMap steps) ih

theorem solid_bracketed (cs : List Char) : Text.Solid ('[' :: (cs ++ [']'])) := by
  have hopen : Text.Solid ['['] := .of_all (List.cons_ne_nil _ _) (by simp; rfl)
  have hclose : Text.Solid [']'] := .of_all (List.cons_ne_nil _ _) (by simp; rfl)
  exact hopen.append hclose cs

theorem solid_chars (step : PathStep) : Text.Solid step.chars := by
  cases step with
  | member name h =>
    have hpoint : Text.Solid ['.'] := .of_all (List.cons_ne_nil _ _) (by simp; rfl)
    exact hpoint.append (solid_of_isName h) []
  | position n => exact solid_bracketed _
  | quoted q key h =>
    have hcs : (quoted q key h).chars = '[' :: ((q.mark :: (key.toList ++ [q.mark])) ++ [']']) := by simp [chars]
    rw [hcs]
    exact solid_bracketed _

theorem solid_append_steps {cs : List Char} (h : Text.Solid cs) (steps : List PathStep) :
    Text.Solid (cs ++ steps.flatMap chars) := by
  induction steps generalizing cs with
  | nil => simpa using h
  | cons step steps ih =>
    have hstep := h.append step.solid_chars []
    rw [List.append_nil] at hstep
    rw [List.flatMap_cons, ← List.append_assoc]
    exact ih hstep

/-- The tokens of a step stand behind those of its target. -/
theorem tokens_access {target : Expr} (h : Layer.access.rank ≤ target.layer.rank) (step : PathStep) :
    (step.access target).tokens = target.tokens ++ step.tokens ∧
      Layer.access.rank ≤ (step.access target).layer.rank := by
  cases step with
  | member name hname => exact ⟨by simp [access, tokens, Expr.tokens, Layer.enclose, h], Nat.le_refl _⟩
  | position n =>
    exact ⟨by simp [access, tokens, Expr.tokens, Layer.enclose, h, Value.tokens, Value.int], Nat.le_refl _⟩
  | quoted q key hkey =>
    exact ⟨by simp [access, tokens, Expr.tokens, Layer.enclose, h, Value.tokens], Nat.le_refl _⟩

theorem tokens_foldl {target : Expr} (h : Layer.access.rank ≤ target.layer.rank) (steps : List PathStep) :
    (steps.foldl access target).tokens = target.tokens ++ steps.flatMap tokens := by
  induction steps generalizing target with
  | nil => simp
  | cons step steps ih =>
    obtain ⟨htokens, hrank⟩ := tokens_access h step
    rw [List.foldl_cons, ih hrank, htokens]
    simp

theorem printable_access {target : Expr} (h : target.Printable) (step : PathStep) :
    (step.access target).Printable := by
  cases step with
  | member name hname => exact .member h hname
  | position n => exact .index h (.literal (.number (by simp [Number.Numeric.hasNumeral])))
  | quoted q key hkey => exact .index h (.literal (.text key))

end PathStep

namespace MemberPath

open PathStep

variable (p : MemberPath)

theorem printable_expr : p.expr.Printable := by
  apply List.foldlRecOn p.steps PathStep.access (.name p.named)
  intro target htarget step _
  exact printable_access htarget step

theorem tokens_expr : p.expr.tokens = .name p.first :: p.steps.flatMap tokens := by
  have hrank : Layer.access.rank ≤ (Expr.name p.first).layer.rank := Nat.le_succ 9
  exact tokens_foldl hrank p.steps

theorem splits_chars : Token.Splits p.chars p.expr.tokens := by
  rw [tokens_expr]
  have hfirst := Token.read?_name_of_isName p.named (follows_flatMap p.steps).parted
  exact .of_read hfirst (splits_steps p.steps)

theorem solid_chars : Text.Solid p.chars := solid_append_steps (solid_of_isName p.named) p.steps

/-- The text of a path is read as the expression that takes its steps one after the other. -/
theorem parse_text : Expr.parse p.text = .ok p.expr := by
  obtain ⟨phrase, htokens, htree⟩ := p.printable_expr.derivable.whole
  apply Expr.parse_eq_ok_iff_splits.2
  refine ⟨phrase, ?_, htree⟩
  rw [text, String.toList_ofList, p.solid_chars.trim_eq, htokens]
  exact p.splits_chars

end MemberPath

/-! ## The names along a path -/

section Rewriting

variable {xs rest : List Char}

theorem pointIndexes_append (h : '[' ∉ xs) (rest : List Char) :
    pointIndexes 0 (xs ++ rest) = xs ++ pointIndexes 0 rest := by
  induction xs with
  | nil => rfl
  | cons x xs ih =>
    obtain ⟨hx, hxs⟩ := List.ne_and_not_mem_of_not_mem_cons h
    rw [List.cons_append, pointIndexes, if_neg (Ne.symm hx), ih hxs]
    rfl

theorem pointIndexes_skip (xs ys : List Char) : pointIndexes xs.length (xs ++ ys) = pointIndexes 0 ys := by
  induction xs with
  | nil => rfl
  | cons x xs ih => rw [List.length_cons, List.cons_append, pointIndexes, ih]

theorem pointIndexes_digits {digits : List Char} (hne : digits ≠ []) (h : digits.all Text.isPlainDigit = true)
    (rest : List Char) : pointIndexes 0 ('[' :: (digits ++ ']' :: rest)) = '.' :: digits ++ pointIndexes 0 rest := by
  have hstop : Text.NoDigitFirst (']' :: rest) := rfl
  have hskip := pointIndexes_skip (digits ++ [']']) rest
  rw [List.length_append, List.append_assoc] at hskip
  rw [pointIndexes, if_pos rfl]
  simp only [Text.spanDecimal_append h hstop, hne, if_false]
  exact congrArg _ hskip

theorem pointIndexes_other {c : Char} (hc : c ≠ ']') (hdigit : Text.isDecimal c = false) (rest : List Char) :
    pointIndexes 0 ('[' :: c :: rest) = '[' :: pointIndexes 0 (c :: rest) := by
  have hspan : Text.spanDecimal (c :: rest) = ([], c :: rest) := by
    have hstop : Text.NoDigitFirst (c :: rest) := by simp [Text.NoDigitFirst, hdigit]
    exact Text.spanDecimal_of_isDecimal (List.forall_mem_nil _) hstop
  rw [pointIndexes, if_pos rfl, hspan]
  simp only
  split
  · next heq => exact absurd (List.cons.inj heq).1 hc
  · rfl

theorem pointKeys_append (h : '[' ∉ xs) (rest : List Char) :
    pointKeys 0 (xs ++ rest) = xs ++ pointKeys 0 rest := by
  induction xs with
  | nil => rfl
  | cons x xs ih =>
    obtain ⟨hx, hxs⟩ := List.ne_and_not_mem_of_not_mem_cons h
    rw [List.cons_append, pointKeys, ih hxs]
    · rfl
    · intro _ _ heq
      exact absurd heq.symm hx

theorem pointKeys_skip (xs ys : List Char) : pointKeys xs.length (xs ++ ys) = pointKeys 0 ys := by
  induction xs with
  | nil => rfl
  | cons x xs ih => rw [List.length_cons, List.cons_append, pointKeys, ih]

theorem isQuote_mark (q : Quotation) : isQuote q.mark = true := by
  cases q <;> rfl

theorem pointKeys_quoted {key : List Char} (hne : key ≠ []) (h : ∀ c ∈ key, isQuote c = false) (q : Quotation)
    (rest : List Char) :
    pointKeys 0 ('[' :: q.mark :: (key ++ q.mark :: ']' :: rest)) = '.' :: key ++ pointKeys 0 rest := by
  have hopen : ∀ c ∈ key, (!isQuote c) = true := by
    intro c hc
    rw [h c hc]
    rfl
  have htake : (key ++ q.mark :: ']' :: rest).takeWhile (fun c => !isQuote c) = key := by
    rw [List.takeWhile_append_of_pos hopen]
    simp [isQuote_mark]
  have hdrop : (key ++ q.mark :: ']' :: rest).dropWhile (fun c => !isQuote c) = q.mark :: ']' :: rest := by
    rw [List.dropWhile_append_of_pos hopen]
    simp [isQuote_mark]
  have hskip := pointKeys_skip (q.mark :: (key ++ [q.mark, ']'])) rest
  rw [List.length_cons, List.length_append, List.cons_append, List.append_assoc] at hskip
  rw [pointKeys]
  simp only [htake, hdrop, isQuote_mark, hne, ne_eq, not_false_eq_true, and_self, if_true]
  exact congrArg _ hskip

end Rewriting

namespace PathStep

/-- The text of a step once positions are written as members. -/
def pointed : PathStep → List Char
  | .quoted q key h => (PathStep.quoted q key h).chars
  | step => '.' :: step.name.toList

/-- A step has a name, in which no point and no opening bracket stands. -/
theorem name_spec (step : PathStep) :
    step.name.toList ≠ [] ∧ '.' ∉ step.name.toList ∧ '[' ∉ step.name.toList := by
  cases step with
  | member name h =>
    exact ⟨(solid_of_isName h).nonempty, notMem_of_isName h (by decide), notMem_of_isName h (by decide)⟩
  | position n =>
    have hdigits := List.all_eq_true.1 (Text.all_ofNat n)
    refine ⟨Text.ofNat_ne_nil n, ?_, ?_⟩
    · intro hpoint
      exact absurd (hdigits _ hpoint) (by decide)
    · intro hbracket
      exact absurd (hdigits _ hbracket) (by decide)
  | quoted q key h =>
    have hne : key.toList ≠ [] := by
      obtain ⟨hkey, -⟩ := Bool.and_eq_true_iff.1 h
      simpa using hkey
    exact ⟨hne, notMem_of_isPlainKey h (by decide), notMem_of_isPlainKey h (by decide)⟩

theorem pointIndexes_step (step : PathStep) (rest : List Char) :
    pointIndexes 0 (step.chars ++ rest) = step.pointed ++ pointIndexes 0 rest := by
  obtain ⟨hne, -, hbracket⟩ := step.name_spec
  cases step with
  | member name h =>
    have hopen : '[' ∉ '.' :: name.toList := List.not_mem_cons_of_ne_of_not_mem (by decide) hbracket
    exact pointIndexes_append hopen rest
  | position n =>
    have hrewritten := pointIndexes_digits hne (Text.all_ofNat n) rest
    simpa [chars, pointed, name] using hrewritten
  | quoted q key h =>
    have hmark : q.mark ≠ ']' ∧ q.mark ≠ '[' ∧ Text.isDecimal q.mark = false := by cases q <;> decide
    obtain ⟨hclose, hopen, hdigit⟩ := hmark
    have hinside : '[' ∉ q.mark :: (key.toList ++ [q.mark, ']']) := by
      simpa [name, Ne.symm hopen] using hbracket
    calc
      pointIndexes 0 ((quoted q key h).chars ++ rest) =
          pointIndexes 0 ('[' :: q.mark :: (key.toList ++ [q.mark, ']'] ++ rest)) := by simp [chars]
      _ = '[' :: pointIndexes 0 (q.mark :: (key.toList ++ [q.mark, ']']) ++ rest) :=
        pointIndexes_other hclose hdigit _
      _ = (quoted q key h).pointed ++ pointIndexes 0 rest := by
        rw [pointIndexes_append hinside rest]
        rfl

theorem pointKeys_step (step : PathStep) (rest : List Char) :
    pointKeys 0 (step.pointed ++ rest) = '.' :: step.name.toList ++ pointKeys 0 rest := by
  obtain ⟨hne, -, hbracket⟩ := step.name_spec
  have hplain := pointKeys_append (List.not_mem_cons_of_ne_of_not_mem (by decide : '[' ≠ '.') hbracket) rest
  cases step with
  | member name h => exact hplain
  | position n => exact hplain
  | quoted q key h =>
    have hquote : ∀ c ∈ key.toList, isQuote c = false := by
      intro c hc
      rw [isQuote, Bool.or_eq_false_iff, decide_eq_false_iff_not, decide_eq_false_iff_not]
      constructor
      · rintro rfl
        exact notMem_of_isPlainKey h (by decide) hc
      · rintro rfl
        exact notMem_of_isPlainKey h (by decide) hc
    have hrewritten := pointKeys_quoted hne hquote q rest
    simpa [chars, pointed, name] using hrewritten

/-- What is rewritten step by step. -/
theorem flatMap_of_steps {f : List Char → List Char} {before after : PathStep → List Char} (hnil : f [] = [])
    (h : ∀ step rest, f (before step ++ rest) = after step ++ f rest) (steps : List PathStep) :
    f (steps.flatMap before) = steps.flatMap after := by
  induction steps with
  | nil => exact hnil
  | cons step steps ih => rw [List.flatMap_cons, h, ih, List.flatMap_cons]

end PathStep

namespace MemberPath

open PathStep

variable (p : MemberPath)

/-- The segments of a path are its names. -/
theorem pathSegments_text : pathSegments p.text = p.first :: p.steps.map PathStep.name := by
  have hpoint : '.' ∉ p.first.toList := notMem_of_isName p.named (by decide)
  have hbracket : '[' ∉ p.first.toList := notMem_of_isName p.named (by decide)
  have hne : p.first.toList ≠ [] := (solid_of_isName p.named).nonempty
  have hrewritten : pointKeys 0 (pointIndexes 0 p.chars) =
      p.first.toList ++ (p.steps.map fun step => step.name.toList).flatMap ('.' :: ·) := by
    unfold chars
    rw [pointIndexes_append hbracket, flatMap_of_steps rfl pointIndexes_step, pointKeys_append hbracket,
      flatMap_of_steps rfl pointKeys_step, List.flatMap_map]
  have hpieces : ∀ piece ∈ p.steps.map fun step => step.name.toList, '.' ∉ piece :=
    List.forall_mem_map.2 fun step _ => step.name_spec.2.1
  have hnonempty : ∀ piece ∈ p.first.toList :: p.steps.map fun step => step.name.toList, piece ≠ [] :=
    List.forall_mem_cons.2 ⟨hne, List.forall_mem_map.2 fun step _ => step.name_spec.1⟩
  have hkept := List.filter_eq_self.2 fun piece hpiece => decide_eq_true (hnonempty piece hpiece)
  unfold pathSegments text
  rw [String.toList_ofList, hrewritten, Text.split_pieces hpoint hpieces, hkept]
  simp

end MemberPath

end PipelineTemplate
