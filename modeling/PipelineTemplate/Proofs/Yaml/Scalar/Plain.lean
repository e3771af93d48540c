import Mathlib.Data.List.Chain
import Mathlib.Data.List.TakeWhile
import PipelineTemplate.Proofs.Yaml.Cursor
import PipelineTemplate.Yaml.ScalarText

/-!
# Plain scalars

A plain scalar is read word by word. What the writer allows to be plain is read back as it stands,
before the colon of a key and at the end of a line.
-/

namespace PipelineTemplate.Yaml

/-! ## Pairs of neighbours -/

theorem hasPair_eq_false_iff {p q : Char → Bool} {cs : List Char} :
    ScalarText.hasPair p q cs = false ↔ cs.IsChain fun c d => ¬(p c = true ∧ q d = true) := by
  induction cs with
  | nil => simp [ScalarText.hasPair]
  | cons c cs ih =>
    cases cs with
    | nil => simp [ScalarText.hasPair]
    | cons d cs => simp [ScalarText.hasPair, ih]

/-! ## Words -/

/-- A text is a word, or a word and a gap before a further text. -/
theorem words_induction {P : List Char → Prop} (word : ∀ w, ' ' ∉ w → P w)
    (gap : ∀ w n cs, ' ' ∉ w → Cursor.NoSpaceFirst cs → P cs →
      P (w ++ (List.replicate (n + 1) ' ' ++ cs))) (cs : List Char) : P cs := by
  induction h : cs.length using Nat.strongRecOn generalizing cs with
  | ind m ih =>
    have hw : ' ' ∉ cs.takeWhile (· ≠ ' ') := fun hm => by
      simpa using List.mem_takeWhile_imp hm
    have hcs : cs = cs.takeWhile (· ≠ ' ') ++ cs.dropWhile (· ≠ ' ') := by simp
    cases hd : cs.dropWhile (· ≠ ' ') with
    | nil =>
      rw [hd, List.append_nil] at hcs
      rw [hcs]
      exact word _ hw
    | cons c rest =>
      have hc : c = ' ' := by
        have := List.head?_dropWhile_not (· ≠ ' ') cs
        rw [hd] at this
        simpa using this
      subst hc
      have hrest : rest = rest.takeWhile (· = ' ') ++ rest.dropWhile (· = ' ') := by simp
      have hspaces : rest.takeWhile (· = ' ') =
          List.replicate (rest.takeWhile (· = ' ')).length ' ' :=
        List.eq_replicate_iff.2 ⟨rfl, fun b hb => by simpa using List.mem_takeWhile_imp hb⟩
      have hfirst : Cursor.NoSpaceFirst (rest.dropWhile (· = ' ')) := by
        have := List.head?_dropWhile_not (· = ' ') rest
        unfold Cursor.NoSpaceFirst
        cases hh : (rest.dropWhile (· = ' ')).head? with
        | none => rfl
        | some d =>
          rw [hh] at this
          simpa using this
      have hlt : (rest.dropWhile (· = ' ')).length < m := by
        have h₁ := congrArg List.length hcs
        have h₂ := congrArg List.length hrest
        rw [List.length_append] at h₂
        rw [hd, List.length_append, List.length_cons] at h₁
        omega
      have hcs' : cs = cs.takeWhile (· ≠ ' ') ++
          (List.replicate ((rest.takeWhile (· = ' ')).length + 1) ' ' ++ rest.dropWhile (· = ' ')) := by
        rw [List.replicate_succ, List.cons_append, ← hspaces, ← hrest, ← hd]
        exact hcs
      rw [hcs']
      exact gap _ _ _ hw hfirst (ih _ hlt _ rfl)

/-! ## Reading words -/

/-- Plain text, as a plain scalar holds it. -/
structure IsPlainText (cs : List Char) : Prop where
  straight : ∀ c ∈ cs, isStraight c = true ∧ c ≠ '\t'
  first : ∃ c rest, cs = c :: rest ∧ c ≠ ' ' ∧ c ≠ '#'
  last : cs.getLast? ≠ some ' ' ∧ cs.getLast? ≠ some ':'
  colon : cs.IsChain fun c d => ¬(c = ':' ∧ d = ' ')
  comment : cs.IsChain fun c d => ¬(c = ' ' ∧ d = '#')

/-- What follows a word and a gap is plain text again. -/
theorem IsPlainText.rest {w cs : List Char} {n : Nat} (hc : Cursor.NoSpaceFirst cs)
    (h : IsPlainText (w ++ (List.replicate (n + 1) ' ' ++ cs))) : IsPlainText cs := by
  have hne : cs ≠ [] := by
    rintro rfl
    have := h.last.1
    rw [List.append_nil, List.replicate_succ', ← List.append_assoc, List.getLast?_concat] at this
    exact this rfl
  obtain ⟨c, rest, rfl⟩ := List.exists_cons_of_ne_nil hne
  have hlast : (w ++ (List.replicate (n + 1) ' ' ++ c :: rest)).getLast? = (c :: rest).getLast? := by
    rw [← List.append_assoc, List.getLast?_append_of_ne_nil _ hne]
  have hchain {R : Char → Char → Prop} (hr : (w ++ (List.replicate (n + 1) ' ' ++ c :: rest)).IsChain R) :
      (' ' :: c :: rest).IsChain R := by
    rw [List.replicate_succ', List.append_assoc, ← List.append_assoc] at hr
    exact (List.isChain_append.1 hr).2.1
  have hspace : c ≠ ' ' := by simpa [Cursor.NoSpaceFirst] using hc
  refine ⟨fun d hd => h.straight d (by simp [hd]), ⟨c, rest, rfl, hspace, ?_⟩, ?_, ?_, ?_⟩
  · rintro rfl
    exact (List.isChain_cons_cons.1 (hchain h.comment)).1 ⟨rfl, rfl⟩
  · rw [← hlast]
    exact h.last
  · exact (List.isChain_cons_cons.1 (hchain h.colon)).2
  · exact (List.isChain_cons_cons.1 (hchain h.comment)).2

/-- What may stand behind the last word of a plain scalar. -/
def StopsWord : List Char → Prop
  | [] => True
  | c :: rest => endsWord (some c) = true ∨ (c = ':' ∧ endsWord rest.head? = true)

namespace Cursor

theorem plainLength_stops {rest : List Char} (h : StopsWord rest) : plainLength false rest = 0 := by
  cases rest with
  | nil => rfl
  | cons c rest =>
    rw [plainLength]
    rcases h with h | ⟨rfl, h⟩
    · rw [if_pos h]
    · by_cases hw : endsWord (some ':') = true
      · rw [if_pos hw]
      · rw [if_neg hw, if_pos (by simp [h])]

/-- A word ends where a word can end. -/
theorem plainLength_word {w rest : List Char} (hw : ∀ c ∈ w, endsWord (some c) = false)
    (hl : w.getLast? ≠ some ':') (hr : StopsWord rest) :
    plainLength false (w ++ rest) = w.length := by
  induction w with
  | nil => exact plainLength_stops hr
  | cons c w ih =>
    have hc := hw c (by simp)
    have hcolon : (c = ':' && endsWord (w ++ rest).head?) = false := by
      cases w with
      | nil =>
        have : c ≠ ':' := by simpa using hl
        simp [this]
      | cons d w => simp [hw d (by simp)]
    have hlast : w.getLast? ≠ some ':' := by
      cases w with
      | nil => simp
      | cons d w => simpa [List.getLast?_cons_cons] using hl
    rw [List.cons_append, plainLength]
    simp only [hc, Bool.false_eq_true, if_false, Bool.false_and, Bool.or_false, hcolon,
      ih (fun d hd => hw d (by simp [hd])) hlast, List.length_cons]

/-! ## Gaps -/

theorem plainGap_spaces {c : Char} {rest : List Char} (hs : isStraight c = true) (hc : c ≠ ' ') (n i l k : Nat) :
    plainGap ⟨List.replicate n ' ' ++ c :: rest, i, l, k⟩ =
      (List.replicate n ' ', false, ⟨c :: rest, i + n, l, k + n⟩) := by
  have hword := @word_eq _ _ (c :: rest) (@all_spaces (· = ' ') (by decide) n)
    (by simpa using hc) i l k
  have hadvance := advance_straight (all_spaces (by decide) n) (c :: rest) i l k
  have hb : isBreak c = false := by
    simp only [isStraight, Bool.and_eq_true, Bool.not_eq_true'] at hs
    exact hs.1
  rw [List.length_replicate] at hadvance
  simp only [plainGap, hword, List.length_replicate, hadvance, peek, List.head?_cons, hb,
    Bool.false_eq_true, if_false]

/-- The breaks before a token that begins a line. -/
theorem plainBreaks_begins {rest : List Char} (h : Begins rest) (n i l : Nat) :
    plainBreaks ⟨List.replicate n ' ' ++ rest, i, l, 0⟩ =
      (if atDocumentMark ⟨List.replicate n ' ' ++ rest, i, l, 0⟩ then none else some [],
        ⟨rest, i + n, l, n⟩) := by
  have hskip := skipSpaces_eq n (NoSpaceFirst.of_begins h) i l 0
  rw [Nat.zero_add] at hskip
  rw [plainBreaks]
  by_cases hm : atDocumentMark ⟨List.replicate n ' ' ++ rest, i, l, 0⟩ = true
  · -- a document mark does not begin with a space
    cases n with
    | zero =>
      rw [if_pos hm, if_pos hm]
      rfl
    | succ n => simp [atDocumentMark, List.replicate_succ] at hm
  · rw [if_neg hm, if_neg hm, hskip]
    cases rest with
    | nil => rfl
    | cons c rest =>
      have hb : isBreak c = false := by
        have := (begins_cons.1 h).1
        simp only [isStraight, Bool.and_eq_true, Bool.not_eq_true'] at this
        exact this.1
      simp [hb]

/-- At the end of a line the gap reaches the next token. -/
theorem plainGap_newline {rest : List Char} (h : Begins rest) (n i l k : Nat) :
    plainGap ⟨'\n' :: (List.replicate n ' ' ++ rest), i, l, k⟩ =
      (if atDocumentMark ⟨List.replicate n ' ' ++ rest, i + 1, l + 1, 0⟩ then [] else [' '], true,
        ⟨rest, i + 1 + n, l + 1, n⟩) := by
  have hword : word ⟨'\n' :: (List.replicate n ' ' ++ rest), i, l, k⟩ (· = ' ') = [] := rfl
  have hb : isBreak '\n' = true := by decide
  simp only [plainGap, hword, List.length_nil, advance, peek, List.head?_cons, hb, if_true,
    lineBreak_newline, plainBreaks_begins h]
  by_cases hm : atDocumentMark ⟨List.replicate n ' ' ++ rest, i + 1, l + 1, 0⟩ = true <;> simp [hm]

/-! ## Whole scalars -/

theorem endsWord_eq_false {c : Char} (hs : isStraight c = true) (ht : c ≠ '\t') (hc : c ≠ ' ') :
    endsWord (some c) = false := by
  simp only [isStraight, Bool.and_eq_true, Bool.not_eq_true'] at hs
  simp [endsWord, ht, hc, hs.1]

/-- The first word of a plain scalar is taken as a whole. -/
theorem plainScalar_word {c : Char} {w rest : List Char} (hc : c ≠ '#')
    (hlen : plainLength false (c :: w ++ rest) = (c :: w).length) (hs : (c :: w).all isStraight = true)
    (indent : Int) (gap : List Char) (before : Bool) (i l k : Nat) :
    plainScalar false indent gap before ⟨c :: w ++ rest, i, l, k⟩ =
      let (nextGap, nextCrossed, d) :=
        plainGap ⟨rest, i + (c :: w).length, l, k + (c :: w).length⟩
      if nextGap = [] || d.isAt '#' || (d.column : Int) < indent then
        (gap ++ c :: w, nextCrossed, d)
      else if d.rest.length < (c :: w ++ rest).length then
        let (more, lastCrossed, e) := plainScalar false indent nextGap nextCrossed d
        (gap ++ c :: w ++ more, lastCrossed, e)
      else (gap ++ c :: w, nextCrossed, d) := by
  have hat : isAt ⟨c :: w ++ rest, i, l, k⟩ '#' = false := by simp [isAt, peek, hc]
  have hzero : ¬ ((c :: w).length = 0) := by simp
  rw [plainScalar]
  simp only [hat, hlen, Bool.false_or, decide_eq_true_eq, hzero, if_false,
    advance_straight hs, List.take_left, Bool.not_false, Bool.true_and]
  rfl

/-- A word and the gap behind it, before plain text. -/
theorem plainScalar_gap {w cs tail : List Char} {n : Nat} (hw : ' ' ∉ w) (hfirst : NoSpaceFirst cs)
    (hcs : IsPlainText (w ++ (List.replicate (n + 1) ' ' ++ cs))) {indent : Int} (gap : List Char) (before : Bool)
    (i l k : Nat) (hk : indent ≤ k + 1) :
    plainScalar false indent gap before ⟨w ++ (List.replicate (n + 1) ' ' ++ cs) ++ tail, i, l, k⟩ =
      let (more, crossed, e) := plainScalar false indent (List.replicate (n + 1) ' ') false
        ⟨cs ++ tail, i + w.length + (n + 1), l, k + w.length + (n + 1)⟩
      (gap ++ w ++ more, crossed, e) := by
  have hrest := hcs.rest hfirst
  obtain ⟨d, more, rfl, hspace, hd⟩ := hrest.first
  have hne : w ≠ [] := by
    rintro rfl
    obtain ⟨c, rest, heq, hc, -⟩ := hcs.first
    rw [List.replicate_succ] at heq
    exact hc (List.cons.inj heq).1.symm
  obtain ⟨c, v, rfl⟩ := List.exists_cons_of_ne_nil hne
  have hhash : c ≠ '#' := by
    obtain ⟨c', rest, heq, -, hc⟩ := hcs.first
    rw [(List.cons.inj heq).1]
    exact hc
  have hall : (c :: v).all isStraight = true :=
    List.all_eq_true.2 fun d hd => (hcs.straight d (List.mem_append_left _ hd)).1
  have hcolon : (c :: v).getLast? ≠ some ':' := by
    intro hl
    have := (List.isChain_append.1 hcs.colon).2.2 ':' hl ' ' (by simp [List.replicate_succ])
    exact this ⟨rfl, rfl⟩
  have hlen : plainLength false (c :: v ++ (List.replicate (n + 1) ' ' ++ (d :: more) ++ tail)) =
      (c :: v).length := by
    refine plainLength_word (fun e he => ?_) hcolon (Or.inl (by decide))
    have := hcs.straight e (List.mem_append_left _ he)
    exact endsWord_eq_false this.1 this.2 (fun h => hw (h ▸ he))
  have hgap := @plainGap_spaces _ (more ++ tail) (hrest.straight d (by simp)).1 hspace (n + 1)
    (i + (c :: v).length) l (k + (c :: v).length)
  have hat (i k : Nat) : isAt ⟨d :: (more ++ tail), i, l, k⟩ '#' = false := by simp [isAt, peek, hd]
  have hgoes : (decide (List.replicate (n + 1) ' ' = []) || false ||
      decide (((k + (c :: v).length + (n + 1) : Nat) : Int) < indent)) = false := by
    have hcolumn : ¬ (((k + (c :: v).length + (n + 1) : Nat) : Int) < indent) := by
      simp only [List.length_cons]
      omega
    rw [decide_eq_false hcolumn]
    rfl
  have hshort : (d :: (more ++ tail)).length <
      (c :: v ++ (List.replicate (n + 1) ' ' ++ d :: (more ++ tail))).length := by
    simp only [List.length_append, List.length_cons, List.length_replicate]
    omega
  rw [List.append_assoc, plainScalar_word hhash hlen hall, List.append_assoc, List.cons_append, hgap]
  simp only [hat, hgoes, Bool.false_eq_true, if_false, hshort, if_true]

/-- A plain scalar is read up to what stops it. The gap behind its last word does not lead to a further
one, since it is empty or ends too far to the left. -/
theorem plainScalar_text {cs tail : List Char} (hcs : IsPlainText cs) (hstop : StopsWord tail) {l : Nat}
    {last : List Char} {crossed : Bool} {after : Nat → Nat → Cursor}
    (hgap : ∀ i k, plainGap ⟨tail, i, l, k⟩ = (last, crossed, after i k)) {indent : Int}
    (hend : ∀ i k, last = [] ∨ ((after i k).column : Int) < indent) (gap : List Char) (before : Bool)
    (i k : Nat) (hk : indent ≤ k + 1) :
    plainScalar false indent gap before ⟨cs ++ tail, i, l, k⟩ =
      (gap ++ cs, crossed, after (i + cs.length) (k + cs.length)) := by
  induction cs using words_induction generalizing gap before i k with
  | word w hw =>
    obtain ⟨c, rest, rfl, -, hhash⟩ := hcs.first
    have hall : (c :: rest).all isStraight = true :=
      List.all_eq_true.2 fun d hd => (hcs.straight d hd).1
    have hlen : plainLength false (c :: rest ++ tail) = (c :: rest).length := by
      refine plainLength_word (fun d hd => ?_) hcs.last.2 hstop
      exact endsWord_eq_false (hcs.straight d hd).1 (hcs.straight d hd).2 (fun h => hw (h ▸ hd))
    rw [plainScalar_word hhash hlen hall, hgap]
    have hstops : (last = [] || (after (i + (c :: rest).length) (k + (c :: rest).length)).isAt '#' ||
        ((after (i + (c :: rest).length) (k + (c :: rest).length)).column : Int) < indent) = true := by
      rcases hend (i + (c :: rest).length) (k + (c :: rest).length) with h | h
      · simp [h]
      · rw [decide_eq_true h, Bool.or_true]
    simp only [hstops, if_true]
  | gap w n cs hw hfirst ih =>
    have hlength (j : Nat) : j + w.length + (n + 1) + cs.length =
        j + (w ++ (List.replicate (n + 1) ' ' ++ cs)).length := by
      simp only [List.length_append, List.length_replicate]
      omega
    rw [plainScalar_gap hw hfirst hcs gap before i l k hk, ih (hcs.rest hfirst) _ _ _ _ (by omega), hlength, hlength]
    simp only [List.append_assoc]

end Cursor

end PipelineTemplate.Yaml
