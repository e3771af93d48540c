import PipelineTemplate.Proofs.Yaml.Encoding
import PipelineTemplate.Proofs.Yaml.Scalar.Quoted

/-!
# Texts on one line in quotes

A text on one line is put between quotes by hand: apostrophes are doubled, or quotation marks and
backslashes get a backslash. All other characters stand for themselves, tabs and byte order marks too,
which the writer would escape.
-/

namespace PipelineTemplate.Yaml

/-- The characters of a line of a document. -/
def IsLine (cs : List Char) : Prop := ∀ c ∈ cs, isAllowed c = true ∧ isBreak c = false

/-- What is written for a character between quotes. -/
def quotedChar (double : Bool) (c : Char) : List Char :=
  if double then if c = '"' ∨ c = '\\' then ['\\', c] else [c]
  else if c = '\'' then ['\'', '\''] else [c]

def quoteEncoder (double : Bool) : Encoder := fun c _ => quotedChar double c

/-- A text on one line in quotes. -/
def quotedLine (double : Bool) (cs : List Char) : List Char :=
  Cursor.quoteMark double :: (cs.flatMap (quotedChar double) ++ [Cursor.quoteMark double])

theorem encode_quoteEncoder (double : Bool) (next : Option Char) (cs : List Char) :
    encode (quoteEncoder double) next cs = cs.flatMap (quotedChar double) := by
  induction cs with
  | nil => rfl
  | cons c cs ih => rw [encode, ih, List.flatMap_cons]; rfl

section

variable {double : Bool} {c : Char}

theorem quotedChar_cases (double : Bool) (c : Char) :
    quotedChar double c = [c] ∧ c ≠ Cursor.quoteMark double ∧ (double = true → c ≠ '\\') ∨
      double = false ∧ c = '\'' ∧ quotedChar double c = ['\'', '\''] ∨
      double = true ∧ (c = '"' ∨ c = '\\') ∧ quotedChar double c = ['\\', c] := by
  cases double with
  | false =>
    by_cases hc : c = '\''
    · exact .inr (.inl ⟨rfl, hc, by simp [quotedChar, hc]⟩)
    · exact .inl ⟨by simp [quotedChar, hc], hc, fun h => absurd h Bool.false_ne_true⟩
  | true =>
    by_cases hc : c = '"' ∨ c = '\\'
    · exact .inr (.inr ⟨rfl, hc, by simp [quotedChar, hc]⟩)
    · exact .inl ⟨by simp [quotedChar, hc], fun h => hc (.inl h), fun _ h => hc (.inr h)⟩

theorem quotedChar_self (hc : c ≠ '\'' ∧ c ≠ '"' ∧ c ≠ '\\') : quotedChar double c = [c] := by
  rcases quotedChar_cases double c with ⟨h, -⟩ | ⟨-, h, -⟩ | ⟨-, h, -⟩
  · exact h
  · exact absurd h hc.1
  · exact h.elim (fun h => absurd h hc.2.1) fun h => absurd h hc.2.2

/-- The characters are those of the text, quotes and backslashes. -/
theorem mem_quotedChar {d : Char} (h : d ∈ quotedChar double c) : d = c ∨ d = '\\' := by
  rcases quotedChar_cases double c with ⟨heq, -⟩ | ⟨-, rfl, heq⟩ | ⟨-, -, heq⟩ <;> rw [heq] at h
  · exact .inl (List.mem_singleton.1 h)
  · exact .inl (by simpa using h)
  · exact (List.mem_cons.1 h).elim .inr fun h => .inl (List.mem_singleton.1 h)

theorem isLocal_quoteEncoder (double : Bool) : IsLocal (quoteEncoder double) := by
  refine ⟨fun c next hc => quotedChar_self (fixed_range (.inl hc)).2.2,
    fun c next hc => quotedChar_self (fixed_range (.inr hc)).2.2, fun c next hc => ⟨?_, fun d hd => ?_⟩, fun _ _ _ _ => rfl⟩
  · show quotedChar double c ≠ []
    rcases quotedChar_cases double c with ⟨heq, -⟩ | ⟨-, -, heq⟩ | ⟨-, -, heq⟩ <;> rw [heq] <;> simp
  · rcases mem_quotedChar hd with rfl | rfl
    · exact hc
    · decide

end

namespace Cursor

theorem flatMap_quotedChar_blanks {double : Bool} {bs : List Char} (h : bs.all isBlank = true) :
    bs.flatMap (quotedChar double) = bs := by
  induction bs with
  | nil => rfl
  | cons b bs ih =>
    rw [List.all_cons, Bool.and_eq_true] at h
    have hb : b ≠ '\'' ∧ b ≠ '"' ∧ b ≠ '\\' := by
      refine ⟨?_, ?_, ?_⟩
      all_goals
        rintro rfl
        exact absurd h.1 (by decide)
    rw [List.flatMap_cons, quotedChar_self hb, ih h.2]
    rfl

/-- A text without line breaks is read from what is written for its characters and the closing quote. -/
theorem quotedRest_line {double : Bool} {cs tail : List Char} (hcs : ∀ c ∈ cs, isBreak c = false)
    (ht : double = false → tail.head? ≠ some '\'') (c : Cursor)
    (hc : c.rest = cs.flatMap (quotedChar double) ++ quoteMark double :: tail) :
    c.quotedRest double = .ok (cs, c.advance ((cs.flatMap (quotedChar double)).length + 1)) := by
  induction cs using runs_induction isBlank (fun _ => false) generalizing c with
  | nil => exact quotedRest_close hc ht
  | char x cs hblank _ ih =>
    obtain ⟨hbreak, hcs⟩ := List.forall_mem_cons.1 hcs
    rw [List.flatMap_cons, List.append_assoc] at hc
    have hmore := ih hcs _ (advance_rest_append hc)
    rw [advance_advance] at hmore
    rw [List.flatMap_cons, List.length_append, Nat.add_assoc]
    rcases quotedChar_cases double x with ⟨heq, hquote, hslash⟩ | ⟨rfl, rfl, heq⟩ | ⟨rfl, hx, heq⟩
    · rw [heq] at hc hmore ⊢
      exact quotedRest_char hc hblank hbreak hquote hslash hmore
    · rw [heq] at hc hmore ⊢
      exact quotedRest_apostrophe hc hmore
    · rw [heq] at hc hmore ⊢
      have hnext : c.next.rest = x :: (cs.flatMap (quotedChar true) ++ quoteMark true :: tail) := by
        rw [next_rest, hc]
        rfl
      have hescape : c.next.escape = .ok ([x], c.advance 2) := by
        rcases hx with rfl | rfl <;> simp [escape, hnext, shortEscape?, advance]
      have hlt : (c.advance 2).rest.length < c.rest.length := by
        rw [advance_length, hc, List.length_append, List.length_cons]
        omega
      exact quotedRest_escape hc hescape hlt hmore
  | first b bs cs hbs hhead ih =>
    have hself : (b :: bs).flatMap (quotedChar double) = b :: bs := flatMap_quotedChar_blanks hbs
    have hmore : ∀ d ∈ cs, isBreak d = false := fun d hd => hcs d (List.mem_append_right _ hd)
    rw [List.flatMap_append, hself, List.append_assoc] at hc
    obtain ⟨x, rest, htext, hx, hbreak⟩ : ∃ x rest, cs.flatMap (quotedChar double) ++ quoteMark double :: tail = x :: rest ∧
        isBlank x = false ∧ isBreak x = false := by
      cases cs with
      | nil => exact ⟨quoteMark double, tail, rfl, by cases double <;> decide, by cases double <;> decide⟩
      | cons y cs =>
        have hy : isBlank y = false := by simpa using hhead
        rw [List.flatMap_cons]
        rcases quotedChar_cases double y with ⟨heq, -⟩ | ⟨-, rfl, heq⟩ | ⟨-, -, heq⟩ <;> rw [heq]
        · exact ⟨y, _, rfl, hy, hmore y List.mem_cons_self⟩
        · exact ⟨'\'', _, rfl, by decide, by decide⟩
        · exact ⟨'\\', _, rfl, by decide, by decide⟩
    rw [List.flatMap_append, hself, List.length_append, Nat.add_assoc]
    exact quotedRest_blanks hbs hc htext hx hbreak (ih hmore)
  | second x run cs hrun _ _ => exact absurd (List.all_eq_true.1 hrun x (by simp)) Bool.false_ne_true

end Cursor

end PipelineTemplate.Yaml
