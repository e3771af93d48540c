import PipelineTemplate.Proofs.Yaml.Scalar.Quoted

/-!
# Literal blocks

The lines of a literal block are read back with their breaks: the indentation is found from the first
line or from the mark behind the indicator, and what becomes of the last breaks is as the marks say.
-/

namespace PipelineTemplate.Yaml

/-- The line breaks that a literal block keeps as they are. -/
def isKept (c : Char) : Bool := c = '\n' || Cursor.isSeparator c

theorem isKept_iff {b : Char} : isKept b = true ↔ b = '\n' ∨ b = '\u2028' ∨ b = '\u2029' := by
  simp [isKept, Cursor.isSeparator]

theorem isBreak_of_kept {b : Char} (h : isKept b = true) : isBreak b = true := by
  rcases isKept_iff.1 h with rfl | rfl | rfl <;> decide

/-- A text whose characters take one column each, and whose breaks are kept. -/
def IsBlockText (cs : List Char) : Prop := ∀ c ∈ cs, isStraight c = true ∨ isKept c = true

theorem straight_iff_not_kept {cs : List Char} (h : IsBlockText cs) {c : Char} (hc : c ∈ cs) :
    isStraight c = true ↔ isKept c = false := by
  constructor
  · intro hs
    cases hk : isKept c with
    | false => rfl
    | true => exact absurd (isBreak_of_kept hk) (by rw [ScalarText.isBreak_of_straight hs]; decide)
  · intro hk
    rcases h c hc with hs | hb
    · exact hs
    · rw [hk] at hb
      cases hb

theorem head_dropWhile {p : Char → Bool} {cs : List Char} {c : Char} (h : (cs.dropWhile p).head? = some c) :
    p c = false := by
  have := List.head?_dropWhile_not p cs
  rw [h] at this
  simpa using this

/-- A text that does not begin with a break is a line, the breaks behind it and a text that does not
begin with a break either. -/
theorem exists_line {cs : List Char} (hcs : IsBlockText cs) {c : Char} (hc : cs.head? = some c)
    (hs : isStraight c = true) :
    ∃ line bs rest, line ≠ [] ∧ line.all isStraight = true ∧ bs.all isKept = true ∧
      (rest.head?.all isStraight) = true ∧ (bs = [] → rest = []) ∧ cs = line ++ (bs ++ rest) := by
  obtain ⟨more, hmore⟩ : ∃ more, more = cs.dropWhile isStraight := ⟨_, rfl⟩
  have hsplit : cs = cs.takeWhile isStraight ++ (more.takeWhile isKept ++ more.dropWhile isKept) := by
    rw [hmore, List.takeWhile_append_dropWhile, List.takeWhile_append_dropWhile]
  have hmem {d : Char} (hd : d ∈ more) : d ∈ cs := (List.dropWhile_suffix isStraight).subset (hmore ▸ hd)
  refine ⟨_, _, _, ?_, List.all_takeWhile, List.all_takeWhile, ?_, ?_, hsplit⟩
  · intro hnil
    cases cs with
    | nil => cases hc
    | cons d cs =>
      have hd : d = c := by simpa using hc
      rw [hd, List.takeWhile_cons_of_pos hs] at hnil
      cases hnil
  · cases hd : (more.dropWhile isKept).head? with
    | none => rfl
    | some d =>
      have hin : d ∈ more := (List.dropWhile_suffix isKept).subset (List.mem_of_head? hd)
      exact (straight_iff_not_kept hcs (hmem hin)).2 (head_dropWhile hd)
  · intro hnil
    cases hd : more with
    | nil => rfl
    | cons d rest =>
      have hin : d ∈ more := by simp [hd]
      have hns : isStraight d = false := head_dropWhile (by rw [← hmore, hd]; rfl)
      have hk : isKept d = true := by
        rcases hcs d (hmem hin) with h | h
        · rw [hns] at h
          cases h
        · exact h
      rw [hd, List.takeWhile_cons_of_pos hk] at hnil
      cases hnil

namespace Cursor

theorem lineBreak_kept {b : Char} (hb : isKept b = true) (rest : List Char) (i l k : Nat) :
    lineBreak ⟨b :: rest, i, l, k⟩ = ([b], ⟨rest, i + 1, l + 1, 0⟩) := by
  rcases isKept_iff.1 hb with rfl | rfl | rfl <;> rfl

/-- The indentation of a line is passed over, but not the spaces behind it. -/
theorem skipIndent_eq {m n : Nat} (hm : m ≤ n) {rest : List Char} (hr : m = n ∨ NoSpaceFirst rest)
    (i l : Nat) : skipIndent ⟨List.replicate m ' ' ++ rest, i, l, 0⟩ n = ⟨rest, i + m, l, m⟩ := by
  have hadvance := advance_straight (all_spaces (by decide) m) rest i l 0
  rw [List.length_replicate, Nat.zero_add] at hadvance
  have hword : m ≤ (word ⟨List.replicate m ' ' ++ rest, i, l, 0⟩ (· = ' ')).length := by
    rw [word, List.takeWhile_append_of_pos fun c hc => by simp [List.eq_of_mem_replicate hc],
      List.length_append, List.length_replicate]
    omega
  have hmin : min (word ⟨List.replicate m ' ' ++ rest, i, l, 0⟩ (· = ' ')).length (n - 0) = m := by
    rcases hr with rfl | hr
    · omega
    · have hexact := @word_eq _ _ rest (@all_spaces (· = ' ') (by decide) m)
        (by simpa [NoSpaceFirst] using hr) i l 0
      rw [hexact, List.length_replicate]
      omega
  rw [skipIndent]
  simp only [hmin, hadvance]

/-- Empty lines are passed over up to the next line. -/
theorem blockBreaks_eq {m n : Nat} (hm : m ≤ n) {bs rest : List Char} (hbs : bs.all isKept = true)
    (hr : m = n ∨ NoSpaceFirst rest) (hb : rest.head?.all fun c => !isBreak c) (i l : Nat) :
    blockBreaks n ⟨bs ++ (List.replicate m ' ' ++ rest), i, l, 0⟩ =
      (bs, ⟨rest, i + bs.length + m, l + bs.length, m⟩) := by
  induction bs generalizing i l with
  | nil =>
    rw [List.nil_append, blockBreaks, skipIndent_eq hm hr]
    cases rest with
    | nil => rfl
    | cons c rest =>
      have hc : isBreak c = false := by simpa using hb
      simp [hc]
  | cons b bs ih =>
    rw [List.all_cons, Bool.and_eq_true] at hbs
    have hskip : skipIndent ⟨b :: bs ++ (List.replicate m ' ' ++ rest), i, l, 0⟩ n =
        ⟨b :: bs ++ (List.replicate m ' ' ++ rest), i, l, 0⟩ := by
      have hne : b ≠ ' ' := by
        rintro rfl
        exact absurd hbs.1 (by decide)
      simp [skipIndent, word, hne, advance]
    rw [blockBreaks, hskip]
    simp only [List.cons_append, isBreak_of_kept hbs.1, dif_pos, lineBreak_kept hbs.1, ih hbs.2,
      List.length_cons]
    congr 2 <;> omega

end Cursor

namespace ScalarText

/-- What becomes of the breaks at the end of a text, so that it is read back. -/
def chomping (cs : List Char) : Cursor.Chomping :=
  match cs.reverse with
  | last :: rest => if !isLineBreak last then .strip else if rest.head?.all isLineBreak then .keep else .clip
  | [] => .clip

theorem isLineBreak_of_kept {b : Char} (h : isKept b = true) : isLineBreak b = true := by
  rcases isKept_iff.1 h with rfl | rfl | rfl <;> decide

theorem all_isLineBreak_of_kept {bs : List Char} (h : bs.all isKept = true) : bs.all isLineBreak = true :=
  List.all_eq_true.2 fun b hb => isLineBreak_of_kept (List.all_eq_true.1 h b hb)

theorem noLineBreak {line : List Char} (h : line.all isStraight = true) (c : Char) (hc : c ∈ line) :
    isLineBreak c = false :=
  isLineBreak_eq_false (isBreak_of_straight (List.all_eq_true.1 h c hc))

/-- Breaks at the end of a text end a line. -/
theorem endsLine_breaks (cs : List Char) {b : Char} {bs : List Char} (h : (b :: bs).all isLineBreak = true) :
    (cs ++ b :: bs).getLast?.any isLineBreak = true := by
  rw [List.getLast?_append_of_ne_nil _ (List.cons_ne_nil b bs),
    List.getLast?_eq_some_getLast (List.cons_ne_nil b bs)]
  exact List.all_eq_true.1 h _ (List.getLast_mem _)

/-- Only the end of a text counts, from a character on that is no break. -/
theorem chomping_append {pre cs : List Char} {c : Char} (hc : cs.head? = some c)
    (hl : isLineBreak c = false) : chomping (pre ++ cs) = chomping cs := by
  have hne : cs ≠ [] := by
    rintro rfl
    cases hc
  rcases List.eq_nil_or_concat cs with rfl | ⟨front, last, rfl⟩
  · exact absurd rfl hne
  · simp only [chomping, List.concat_eq_append, ← List.append_assoc, List.reverse_append,
      List.reverse_singleton, List.singleton_append]
    cases front with
    | nil =>
      have hlast : last = c := by simpa using hc
      simp [hlast, hl]
    | cons d front =>
      rcases List.eq_nil_or_concat (d :: front) with hnil | ⟨more, e, heq⟩
      · cases hnil
      · rw [heq]
        simp
        rfl

theorem chomping_line {line : List Char} (hne : line ≠ []) (hl : ∀ c ∈ line, isLineBreak c = false) :
    chomping line = .strip := by
  rcases List.eq_nil_or_concat line with rfl | ⟨front, last, rfl⟩
  · exact absurd rfl hne
  · have hlast : isLineBreak last = false := hl last (by simp)
    simp [chomping, hlast]

theorem chomping_breaks {line : List Char} (hne : line ≠ []) (hl : ∀ c ∈ line, isLineBreak c = false) {b : Char}
    {bs : List Char} (hb : (b :: bs).all isLineBreak = true) :
    chomping (line ++ b :: bs) = if bs = [] then .clip else .keep := by
  rw [List.all_eq_true] at hb
  rcases List.eq_nil_or_concat bs with rfl | ⟨front, last, rfl⟩
  · rcases List.eq_nil_or_concat line with rfl | ⟨front, last, rfl⟩
    · exact absurd rfl hne
    · have hlast : isLineBreak last = false := hl last (by simp)
      simp [chomping, hb b (by simp), hlast]
  · have hlast : isLineBreak last = true := hb last (by simp)
    obtain ⟨before, hbefore⟩ : ∃ before, before = (b :: front).reverse ++ line.reverse := ⟨_, rfl⟩
    have hhead : before.head?.all isLineBreak = true := by
      rcases List.eq_nil_or_concat (b :: front) with hnil | ⟨more, e, heq⟩
      · cases hnil
      · have he : isLineBreak e = true := hb e (by
          rw [List.concat_eq_append, ← List.cons_append, heq]
          simp)
        rw [hbefore, heq]
        simp [he]
    have hrev : (line ++ b :: front.concat last).reverse = last :: before := by
      rw [hbefore]
      simp
    rw [chomping, hrev]
    simp [hlast, hhead]

theorem chomping_all {bs : List Char} (hne : bs ≠ []) (hb : bs.all isLineBreak = true) :
    chomping bs = .keep := by
  rw [List.all_eq_true] at hb
  rcases List.eq_nil_or_concat bs with rfl | ⟨front, last, rfl⟩
  · exact absurd rfl hne
  · have hlast : isLineBreak last = true := hb last (by simp)
    have hhead : front.reverse.head?.all isLineBreak = true := by
      cases hf : front.reverse.head? with
      | none => rfl
      | some c =>
        have hc := List.mem_of_head? hf
        exact hb c (by simp [List.mem_reverse.1 hc])
    have hrev : (front.concat last).reverse = last :: front.reverse := by simp
    rw [chomping, hrev]
    simp only [hlast, hhead, Bool.not_true, Bool.false_eq_true, if_false, if_true]

/-! ## Indentation -/

variable {n : Nat}

theorem indented_line {line : List Char} (hl : ∀ c ∈ line, isLineBreak c = false) (cs : List Char) :
    indented n false (line ++ cs) = line ++ indented n false cs := by
  induction line with
  | nil => rfl
  | cons c line ih =>
    have hc := hl c (by simp)
    rw [List.cons_append, indented, hc, ih fun d hd => hl d (by simp [hd])]
    rfl

theorem indented_breaks {b : Char} {bs : List Char} (hb : (b :: bs).all isLineBreak = true) (start : Bool)
    (cs : List Char) : indented n start (b :: bs ++ cs) = b :: bs ++ indented n true cs := by
  induction bs generalizing b start with
  | nil =>
    rw [List.all_cons, Bool.and_eq_true] at hb
    rw [List.cons_append, List.nil_append, indented, if_pos hb.1]
    rfl
  | cons d bs ih =>
    rw [List.all_cons, Bool.and_eq_true] at hb
    rw [List.cons_append, indented, if_pos hb.1, ih hb.2]
    rfl

theorem indented_start {c : Char} (hc : isLineBreak c = false) (cs : List Char) :
    indented n true (c :: cs) = List.replicate n ' ' ++ indented n false (c :: cs) := by
  simp [indented, hc]

end ScalarText

namespace Cursor

/-- The text after a part that may end a line: the rest of its line and the indentation of the next. -/
def lineTail (ended : Bool) (k : Nat) (rest : List Char) : List Char :=
  (if ended then [] else ['\n']) ++ (List.replicate k ' ' ++ rest)

/-- One line of a block, the breaks behind it and the indentation of the next line. -/
theorem blockLines_line {m n : Nat} (hm : m ≤ n) {line : List Char} (hline : line.all isStraight = true)
    {b : Char} {bs rest : List Char} (hb : isKept b = true) (hbs : bs.all isKept = true)
    (hr : m = n ∨ NoSpaceFirst rest) (hhead : rest.head?.all fun c => !isBreak c) (chomp : Chomping)
    (pre : List Char) (i l : Nat) :
    blockLines false chomp n pre ⟨line ++ (b :: bs ++ (List.replicate m ' ' ++ rest)), i, l, n⟩ =
      if m = n ∧ rest ≠ [] then
        let (more, f) := blockLines false chomp n bs
          ⟨rest, i + line.length + 1 + bs.length + m, l + 1 + bs.length, m⟩
        (pre ++ line ++ [b] ++ more, f)
      else
        (pre ++ line ++ (if chomp = .strip then [] else [b]) ++ (if chomp = .keep then bs else []),
          ⟨rest, i + line.length + 1 + bs.length + m, l + 1 + bs.length, m⟩) := by
  have hbreak := isBreak_of_kept hb
  have hnonbreak : line.all (fun c => !isBreak c) = true := by
    rw [List.all_eq_true] at hline ⊢
    intro c hc
    rw [ScalarText.isBreak_of_straight (hline c hc)]
    rfl
  have hword := @word_eq (fun c => !isBreak c) _ (b :: bs ++ (List.replicate m ' ' ++ rest))
    hnonbreak (by simp [hbreak]) i l n
  have hadvance := advance_straight hline (b :: bs ++ (List.replicate m ' ' ++ rest)) i l n
  have hlength : rest.length < (line ++ (b :: bs ++ (List.replicate m ' ' ++ rest))).length := by
    simp only [List.length_append, List.length_cons]
    omega
  have hend : atEnd ⟨rest, i + line.length + 1 + bs.length + m, l + 1 + bs.length, m⟩ = false ↔ rest ≠ [] := by
    simp [atEnd]
  rw [blockLines]
  simp only [hword, hadvance]
  rw [List.cons_append, lineBreak_kept hb]
  simp only [blockBreaks_eq hm hbs hr hhead, hend]
  by_cases hgo : m = n ∧ rest ≠ []
  · rw [if_pos hgo, dif_pos ⟨hgo.1, hgo.2, by simpa using hlength⟩]
    simp
  · rw [if_neg hgo, dif_neg fun h => hgo ⟨h.1, h.2.1⟩]

/-- A token does not begin with a break. -/
theorem noBreak_of_begins {rest : List Char} (h : Begins rest) : rest.head?.all fun c => !isBreak c := by
  cases rest with
  | nil => rfl
  | cons c rest => simp [ScalarText.isBreak_of_straight (begins_cons.1 h).1]

/-- The rest of a block from the first character of a line on, up to the next token, which stands in
column `k`. -/
def linesFrom (n k : Nat) (cs rest : List Char) : List Char :=
  ScalarText.indented n false cs ++ lineTail (cs.getLast?.any ScalarText.isLineBreak) k rest

theorem linesFrom_head {d : Char} (hd : isStraight d = true) (n k : Nat) (more rest : List Char) :
    ∃ t, linesFrom n k (d :: more) rest = d :: t := by
  have hline := ScalarText.isLineBreak_eq_false (ScalarText.isBreak_of_straight hd)
  exact ⟨_, by rw [linesFrom, ScalarText.indented, hline]; rfl⟩

section Lines

variable {k n : Nat} {line rest : List Char} {b : Char} {bs : List Char} (hline : line.all isStraight = true)
include hline

/-- A line before others, which are read. -/
theorem blockLines_before (hbs : (b :: bs).all isKept = true) {d : Char} (hd : isStraight d = true)
    {more read : List Char} {c : Cursor} {i l : Nat} (pre : List Char)
    (hmore : blockLines false (ScalarText.chomping (d :: more)) n bs
      ⟨linesFrom n k (d :: more) rest, i + line.length + 1 + bs.length + n, l + 1 + bs.length, n⟩ = (read, c)) :
    blockLines false (ScalarText.chomping (line ++ b :: bs ++ d :: more)) n pre
      ⟨linesFrom n k (line ++ b :: bs ++ d :: more) rest, i, l, n⟩ = (pre ++ line ++ [b] ++ read, c) := by
  have hbreak := ScalarText.isLineBreak_eq_false (ScalarText.isBreak_of_straight hd)
  have hbreaks := ScalarText.all_isLineBreak_of_kept hbs
  obtain ⟨t, ht⟩ := linesFrom_head hd n k more rest
  rw [List.all_cons, Bool.and_eq_true] at hbs
  have hstep := @blockLines_line n n (Nat.le_refl n) line hline b bs (linesFrom n k (d :: more) rest) hbs.1 hbs.2
    (.inl rfl) (by simp [ht, ScalarText.isBreak_of_straight hd]) (ScalarText.chomping (d :: more)) pre i l
  rw [if_pos ⟨rfl, by simp [ht]⟩, hmore] at hstep
  have htext : linesFrom n k (line ++ b :: bs ++ d :: more) rest =
      line ++ (b :: bs ++ (List.replicate n ' ' ++ linesFrom n k (d :: more) rest)) := by
    have hlast : (line ++ b :: bs ++ d :: more).getLast? = (d :: more).getLast? :=
      List.getLast?_append_of_ne_nil _ (List.cons_ne_nil d more)
    rw [linesFrom, hlast, List.append_assoc, ScalarText.indented_line (ScalarText.noLineBreak hline),
      ScalarText.indented_breaks hbreaks, ScalarText.indented_start hbreak, linesFrom]
    simp
  rw [htext, ScalarText.chomping_append rfl hbreak, hstep]

variable (hk : k < n) (hrest : Begins rest)
include hk hrest

/-- The last line, without a break of its own. -/
theorem blockLines_last (hne : line ≠ []) (pre : List Char) (i l : Nat) :
    blockLines false (ScalarText.chomping line) n pre ⟨linesFrom n k line rest, i, l, n⟩ =
      (pre ++ line, ⟨rest, i + line.length + 1 + k, l + 1, k⟩) := by
  have hnot := ScalarText.noLineBreak hline
  have hlast : line.getLast?.any ScalarText.isLineBreak = false := by
    cases hl : line.getLast? with
    | none => rfl
    | some d => exact hnot d (List.mem_of_getLast? hl)
  have htext : linesFrom n k line rest = line ++ ('\n' :: [] ++ (List.replicate k ' ' ++ rest)) := by
    have hindented := @ScalarText.indented_line n _ hnot []
    rw [List.append_nil, ScalarText.indented, List.append_nil] at hindented
    rw [linesFrom, hlast, hindented]
    rfl
  have hstep := @blockLines_line k n (Nat.le_of_lt hk) line hline '\n' [] rest (by decide) rfl
    (.inr (.of_begins hrest)) (noBreak_of_begins hrest) (ScalarText.chomping line) pre i l
  rw [if_neg fun h => Nat.ne_of_lt hk h.1] at hstep
  rw [htext, hstep, ScalarText.chomping_line hne hnot]
  simp

/-- The last line and the breaks at the end of the text. -/
theorem blockLines_end (hne : line ≠ []) (hbs : (b :: bs).all isKept = true) (pre : List Char) (i l : Nat) :
    blockLines false (ScalarText.chomping (line ++ b :: bs)) n pre
        ⟨linesFrom n k (line ++ b :: bs) rest, i, l, n⟩ =
      (pre ++ (line ++ b :: bs), ⟨rest, i + line.length + 1 + bs.length + k, l + 1 + bs.length, k⟩) := by
  have hbreaks := ScalarText.all_isLineBreak_of_kept hbs
  have hnot := ScalarText.noLineBreak hline
  rw [List.all_cons, Bool.and_eq_true] at hbs
  have htext : linesFrom n k (line ++ b :: bs) rest = line ++ (b :: bs ++ (List.replicate k ' ' ++ rest)) := by
    have hindented := @ScalarText.indented_breaks n _ _ hbreaks false []
    rw [List.append_nil, ScalarText.indented, List.append_nil] at hindented
    rw [linesFrom, ScalarText.endsLine_breaks line hbreaks, ScalarText.indented_line hnot, hindented]
    simp [lineTail]
  have hstep := blockLines_line (Nat.le_of_lt hk) hline hbs.1 hbs.2 (.inr (.of_begins hrest))
    (noBreak_of_begins hrest) (ScalarText.chomping (line ++ b :: bs)) pre i l
  rw [if_neg fun h => Nat.ne_of_lt hk h.1] at hstep
  rw [htext, hstep, ScalarText.chomping_breaks hne hnot hbreaks]
  by_cases hnil : bs = [] <;> simp [hnil]

omit hline

/-- The lines of a block from the first character of one on. -/
theorem blockLines_text {cs : List Char} (hcs : IsBlockText cs) {c : Char} (hc : cs.head? = some c)
    (hstraight : isStraight c = true) (pre : List Char) (i l : Nat) :
    ∃ i' l', l < l' ∧ blockLines false (ScalarText.chomping cs) n pre ⟨linesFrom n k cs rest, i, l, n⟩ =
      (pre ++ cs, ⟨rest, i', l', k⟩) := by
  induction h : cs.length using Nat.strongRecOn generalizing cs c pre i l with
  | ind m ih =>
    obtain ⟨line, bs, more, hne, hline, hbs, hmore, hnil, rfl⟩ := exists_line hcs hc hstraight
    cases bs with
    | nil =>
      rw [hnil rfl, List.nil_append, List.append_nil]
      exact ⟨_, _, Nat.lt_succ_self l, blockLines_last hline hk hrest hne pre i l⟩
    | cons b bs =>
      cases more with
      | nil =>
        rw [List.append_nil]
        exact ⟨_, _, by omega, blockLines_end hline hk hrest hne hbs pre i l⟩
      | cons d more =>
        have hd : isStraight d = true := by simpa using hmore
        have hlt : (d :: more).length < m := by
          rw [← h]
          simp only [List.length_append, List.length_cons]
          omega
        obtain ⟨i', l', hl, hread⟩ := ih _ hlt (fun e he => hcs e (by simp [he])) rfl hd bs
          (i + line.length + 1 + bs.length + n) (l + 1 + bs.length) rfl
        refine ⟨i', l', by omega, ?_⟩
        rw [← List.append_assoc line, blockLines_before hline hbs hd pre hread]
        simp

end Lines

/-! ## Whole blocks -/

/-- The mark for what becomes of the last breaks. -/
def Chomping.mark : Chomping → List Char
  | .strip => ['-']
  | .clip => []
  | .keep => ['+']

theorem blockHeader_eq (marked : Bool) (chomp : Chomping) (t : List Char) (i l k : Nat) :
    ∃ i' k', blockHeader ⟨(if marked then ['2'] else []) ++ chomp.mark ++ '\n' :: t, i, l, k⟩ =
      .ok (chomp, if marked then some 2 else none, ⟨'\n' :: t, i', l, k'⟩) := by
  cases marked <;> cases chomp <;> exact ⟨_, _, rfl⟩

/-- The indentation of a block that begins with a line that is not empty. -/
theorem blockIndentation_line {n : Nat} (hn : 0 < n) {rest : List Char} (hs : NoSpaceFirst rest)
    (hb : rest.head?.all fun c => !isBreak c) (i l : Nat) :
    blockIndentation 0 ⟨List.replicate n ' ' ++ rest, i, l, 0⟩ = ([], n, ⟨rest, i + n, l, n⟩) := by
  have hskip := skipSpaces_eq n hs i l 0
  rw [Nat.zero_add] at hskip
  have hlt : rest.length < (List.replicate n ' ' ++ rest).length := by
    rw [List.length_append, List.length_replicate]
    omega
  rw [blockIndentation, hskip]
  simp only [hlt, if_true, Nat.zero_max]
  cases rest with
  | nil => rfl
  | cons c rest =>
    have hc : isBreak c = false := by simpa using hb
    simp [hc]

theorem restOfLine_newline (t : List Char) (i l k : Nat) :
    restOfLine ⟨'\n' :: t, i, l, k⟩ = .ok ⟨t, i + 1, l + 1, 0⟩ := rfl

end Cursor

namespace ScalarText

/-- Whether the indentation of a block is written before its first line. -/
def marksIndent (cs : List Char) : Bool := cs.head?.any fun c => c = ' ' || isLineBreak c

theorem blockHints_eq (cs : List Char) :
    blockHints cs = (if marksIndent cs then ['2'] else []) ++ (chomping cs).mark := by
  rw [blockHints, marksIndent, chomping]
  congr 1
  cases cs.reverse with
  | nil => rfl
  | cons last rest =>
    simp only
    split
    · rfl
    · split <;> rfl

theorem mem_blockHints {cs : List Char} {c : Char} (h : c ∈ blockHints cs) : c ∈ ['2', '-', '+'] := by
  rw [blockHints_eq, List.mem_append] at h
  rcases h with h | h
  · split at h
    · rw [List.mem_singleton.1 h]
      decide
    · cases h
  · cases hm : chomping cs with
    | clip =>
      rw [hm] at h
      cases h
    | strip | keep =>
      rw [hm] at h
      rw [List.mem_singleton.1 h]
      decide

end ScalarText

namespace Cursor

/-- What a block scalar is behind its first line: the breaks before its lines, its indentation and where
its lines begin, and then the lines. -/
def blockBody (chomp : Chomping) : List Char × Nat × Cursor → List Char × Cursor
  | (breaks, indent, d) =>
    if d.column = indent ∧ d.atEnd = false then d.blockLines false chomp indent breaks
    else (if chomp = .keep then breaks else [], d)

theorem blockScalar_header {n : Nat} {outer : Int} (hn : n = max (outer + 1).toNat 1 + 1) (cs t : List Char)
    (i l k : Nat) :
    ∃ i', blockScalar false outer ⟨'|' :: (ScalarText.blockHints cs ++ '\n' :: t), i, l, k⟩ =
      .ok (blockBody (ScalarText.chomping cs)
        (if ScalarText.marksIndent cs then
          ((blockBreaks n ⟨t, i', l + 1, 0⟩).1, n, (blockBreaks n ⟨t, i', l + 1, 0⟩).2)
        else
          ((blockIndentation 0 ⟨t, i', l + 1, 0⟩).1, max (n - 1) (blockIndentation 0 ⟨t, i', l + 1, 0⟩).2.1,
            (blockIndentation 0 ⟨t, i', l + 1, 0⟩).2.2))) := by
  obtain ⟨i₁, k₁, hheader⟩ :=
    blockHeader_eq (ScalarText.marksIndent cs) (ScalarText.chomping cs) t (i + 1) l (k + 1)
  have hnext (t : List Char) : next ⟨'|' :: t, i, l, k⟩ = ⟨t, i + 1, l, k + 1⟩ :=
    next_straight (by decide) t i l k
  have hmarked : max (outer + 1).toNat 1 + 2 - 1 = n := by omega
  have hleast : max (outer + 1).toNat 1 = n - 1 := by omega
  refine ⟨i₁ + 1, ?_⟩
  rw [ScalarText.blockHints_eq, blockScalar, hnext, hheader]
  cases ScalarText.marksIndent cs with
  | true =>
    simp only [bind, Except.bind, restOfLine_newline, pure, Except.pure, if_true, hmarked, blockBody]
    split <;> rfl
  | false =>
    simp only [bind, Except.bind, restOfLine_newline, pure, Except.pure, Bool.false_eq_true, if_false, hleast,
      blockBody]
    split <;> rfl

section Blocks

variable {n k : Nat} {rest : List Char} (hk : k < n) (hrest : Begins rest)
include hk hrest

/-- A block of nothing but breaks. -/
theorem blockBody_breaks {bs : List Char} (hne : bs ≠ []) (hbs : bs.all isKept = true) (i l : Nat) :
    let read := blockBreaks n ⟨ScalarText.indented n true bs ++
      lineTail (bs.getLast?.any ScalarText.isLineBreak) k rest, i, l, 0⟩
    blockBody (ScalarText.chomping bs) (read.1, n, read.2) = (bs, ⟨rest, i + bs.length + k, l + bs.length, k⟩) := by
  have hbreaks := ScalarText.all_isLineBreak_of_kept hbs
  obtain ⟨b, bs, rfl⟩ := List.exists_cons_of_ne_nil hne
  have hindented := @ScalarText.indented_breaks n _ _ hbreaks true []
  rw [List.append_nil, ScalarText.indented, List.append_nil] at hindented
  have hread := blockBreaks_eq (Nat.le_of_lt hk) hbs (.inr (.of_begins hrest)) (noBreak_of_begins hrest) i l
  have hends := ScalarText.endsLine_breaks [] hbreaks
  rw [List.nil_append] at hends
  simp only [hindented, hends, lineTail, if_true, List.nil_append, hread, blockBody]
  rw [if_neg fun h => Nat.ne_of_lt hk h.1, ScalarText.chomping_all (List.cons_ne_nil b bs) hbreaks, if_pos rfl]

/-- A block of lines, behind its first breaks. -/
theorem blockBody_lines {bs more : List Char} {d : Char} (hcs : IsBlockText (d :: more)) (hd : isStraight d = true)
    (i l : Nat) :
    ∃ i' l', l < l' ∧ blockBody (ScalarText.chomping (bs ++ d :: more))
      (bs, n, ⟨linesFrom n k (d :: more) rest, i, l, n⟩) = (bs ++ d :: more, ⟨rest, i', l', k⟩) := by
  obtain ⟨t, ht⟩ := linesFrom_head hd n k more rest
  obtain ⟨i', l', hl, hlines⟩ := blockLines_text hk hrest hcs rfl hd bs i l
  refine ⟨i', l', hl, ?_⟩
  rw [blockBody, if_pos ⟨rfl, by rw [ht]; rfl⟩,
    ScalarText.chomping_append rfl (ScalarText.isLineBreak_eq_false (ScalarText.isBreak_of_straight hd)), hlines]

omit hk hrest in
/-- The lines of a block with the breaks before them. -/
theorem indented_lines {bs : List Char} (hbs : bs.all isKept = true) {d : Char} (hd : isStraight d = true)
    (more : List Char) :
    ScalarText.indented n true (bs ++ d :: more) ++
        lineTail ((bs ++ d :: more).getLast?.any ScalarText.isLineBreak) k rest =
      bs ++ (List.replicate n ' ' ++ linesFrom n k (d :: more) rest) := by
  have hline := ScalarText.isLineBreak_eq_false (ScalarText.isBreak_of_straight hd)
  have hlast : (bs ++ d :: more).getLast? = (d :: more).getLast? :=
    List.getLast?_append_of_ne_nil _ (List.cons_ne_nil d more)
  have hindented : ScalarText.indented n true (bs ++ d :: more) = bs ++ ScalarText.indented n true (d :: more) := by
    cases bs with
    | nil => rfl
    | cons b bs => exact ScalarText.indented_breaks (ScalarText.all_isLineBreak_of_kept hbs) true (d :: more)
  rw [hlast, hindented, ScalarText.indented_start hline, linesFrom]
  simp

/-- A literal block is read as the text that it was made from. -/
theorem blockScalar_literal {outer : Int} (hn : n = max (outer + 1).toNat 1 + 1) {cs : List Char}
    (hcs : IsBlockText cs) (hne : cs ≠ []) (i l col : Nat) :
    ∃ i' l', l < l' ∧ blockScalar false outer
        ⟨(ScalarText.literal n cs).text ++ lineTail (ScalarText.literal n cs).endsLine k rest, i, l, col⟩ =
      .ok (cs, ⟨rest, i', l', k⟩) := by
  obtain ⟨i₁, hheader⟩ := blockScalar_header hn cs
    (ScalarText.indented n true cs ++ lineTail (cs.getLast?.any ScalarText.isLineBreak) k rest) i l col
  have htext : (ScalarText.literal n cs).text ++ lineTail (ScalarText.literal n cs).endsLine k rest =
      '|' :: (ScalarText.blockHints cs ++ '\n' :: (ScalarText.indented n true cs ++
        lineTail (cs.getLast?.any ScalarText.isLineBreak) k rest)) := by
    simp [ScalarText.literal]
  rw [htext, hheader]
  obtain ⟨bs, more, hbs, hsplit, hmore⟩ : ∃ bs more, bs.all isKept = true ∧ cs = bs ++ more ∧
      ∀ d, more.head? = some d → isKept d = false :=
    ⟨cs.takeWhile isKept, cs.dropWhile isKept, List.all_takeWhile, by simp, fun d hd => head_dropWhile hd⟩
  subst hsplit
  cases more with
  | nil =>
    rw [List.append_nil] at hne ⊢
    have hmarks : ScalarText.marksIndent bs = true := by
      obtain ⟨b, bs, rfl⟩ := List.exists_cons_of_ne_nil hne
      simp [ScalarText.marksIndent, ScalarText.isLineBreak_of_kept (List.all_eq_true.1 hbs b (by simp))]
    rw [hmarks, if_pos rfl, blockBody_breaks hk hrest hne hbs]
    exact ⟨_, _, by omega, rfl⟩
  | cons d more =>
    have hd := (straight_iff_not_kept hcs (c := d) (by simp)).2 (hmore d rfl)
    obtain ⟨t, ht⟩ := linesFrom_head hd n k more rest
    have hbegins : (linesFrom n k (d :: more) rest).head?.all fun c => !isBreak c := by
      simp [ht, ScalarText.isBreak_of_straight hd]
    obtain ⟨i', l', hl, hlines⟩ := @blockBody_lines _ _ _ hk hrest bs _ _
      (fun e he => hcs e (List.mem_append_right _ he)) hd (i₁ + bs.length + n) (l + 1 + bs.length)
    refine ⟨i', l', by omega, ?_⟩
    rw [indented_lines hbs hd]
    cases hmarks : ScalarText.marksIndent (bs ++ d :: more) with
    | true =>
      rw [if_pos rfl, blockBreaks_eq (Nat.le_refl n) hbs (.inl rfl) hbegins, hlines]
    | false =>
      -- the text begins with neither a break nor a space, and so its first line shows the indentation
      obtain rfl : bs = [] := by
        cases bs with
        | nil => rfl
        | cons b bs =>
          have hb := ScalarText.isLineBreak_of_kept (List.all_eq_true.1 hbs b (by simp))
          simp [ScalarText.marksIndent, hb] at hmarks
      have hspace : d ≠ ' ' := by
        rintro rfl
        simp [ScalarText.marksIndent] at hmarks
      have hread := blockIndentation_line (n := n) (by omega) (by simp [NoSpaceFirst, ht, hspace]) hbegins i₁
        (l + 1)
      have hmax : max (n - 1) n = n := by omega
      rw [List.nil_append, if_neg Bool.false_ne_true, List.nil_append, hread, hmax]
      exact congrArg Except.ok hlines

end Blocks

end Cursor

end PipelineTemplate.Yaml
