import PipelineTemplate.Proofs.Yaml.Protected.Division
import PipelineTemplate.Proofs.Yaml.Scalar.Line
import PipelineTemplate.Proofs.Yaml.Steady.Construction

/-!
# Comments

A line with a comment in front of a document leaves its value as it is, unless an expression begins in the
comment and ends behind it: expressions are taken out before it is known what is a comment.
-/

namespace PipelineTemplate

/-- The failure without the line that it names. -/
def Failure.bare : Failure → Failure
  | .malformedDocument origin (.yaml e) file _ => .malformedDocument origin (.yaml ⟨e.stage, none⟩) file none
  | failure => failure

namespace Yaml

/-! ## Tokens behind a comment -/

namespace Cursor

theorem advance_unbroken {w : List Char} (h : ∀ c ∈ w, isBreak c = false) (rest : List Char) (i l k : Nat) :
    ∃ k', (⟨w ++ rest, i, l, k⟩ : Cursor).advance w.length = ⟨rest, i + w.length, l, k'⟩ := by
  induction w generalizing i k with
  | nil => exact ⟨k, rfl⟩
  | cons c w ih =>
    obtain ⟨hc, hw⟩ := List.forall_mem_cons.1 h
    obtain ⟨k', hk⟩ := ih hw (i + 1) (if c = '\uFEFF' then k else k + 1)
    have hnext : (⟨c :: w ++ rest, i, l, k⟩ : Cursor).next =
        ⟨w ++ rest, i + 1, l, if c = '\uFEFF' then k else k + 1⟩ := by
      simp [next, hc]
    refine ⟨k', ?_⟩
    rw [List.length_cons, advance, hnext, hk, Nat.add_assoc, Nat.add_comm 1]

theorem next_index (c : Cursor) : c.next.index = c.index + min 1 c.rest.length := by
  rw [next]
  split
  next hrest => rw [hrest]; rfl
  next hrest =>
    rw [hrest, List.length_cons, Nat.min_eq_left (Nat.succ_le_succ (Nat.zero_le _))]
    split <;> rfl

theorem advance_index (c : Cursor) (n : Nat) : (c.advance n).index = c.index + min n c.rest.length := by
  induction n generalizing c with
  | zero => rw [advance, Nat.zero_min, Nat.add_zero]
  | succ n ih =>
    rw [advance, ih, next_index, next_length]
    omega

theorem word_unbroken {w : List Char} (h : ∀ c ∈ w, isBreak c = false) (rest : List Char) (i l k : Nat) :
    (⟨w ++ '\n' :: rest, i, l, k⟩ : Cursor).word (!isBreak ·) = w := by
  rw [word]
  change (w ++ '\n' :: rest).takeWhile (!isBreak ·) = w
  rw [List.takeWhile_append_of_pos]
  · rw [List.takeWhile_cons_of_neg (by decide), List.append_nil]
  · intro c hc
    rw [h c hc]
    rfl

end Cursor

namespace Reader

/-- The reader in front of a text. -/
def atStart (text : List Char) : Reader := { cursor := { rest := text }, tokens := [⟨.mark .streamStart, 0⟩] }

variable {line text : List Char}

/-- The reader passes over a comment to the next line. -/
theorem skipToToken_comment (hline : ∀ c ∈ line, isBreak c = false) :
    (atStart ('#' :: line ++ '\n' :: text)).skipToToken =
      ((atStart text).below ⟨line.length + 2, 1⟩).skipToToken := by
  have hword : ∀ c ∈ '#' :: line, isBreak c = false := List.forall_mem_cons.2 ⟨rfl, hline⟩
  obtain ⟨k, hk⟩ := Cursor.advance_unbroken hword ('\n' :: text) 0 0 0
  have hmark : afterMark (atStart ('#' :: line ++ '\n' :: text)).cursor =
      ⟨'#' :: line ++ '\n' :: text, 0, 0, 0⟩ := rfl
  have hspaces : (⟨'#' :: line ++ '\n' :: text, 0, 0, 0⟩ : Cursor).skipSpaces =
      ⟨'#' :: line ++ '\n' :: text, 0, 0, 0⟩ := rfl
  have hat : (⟨'#' :: line ++ '\n' :: text, 0, 0, 0⟩ : Cursor).isAt '#' = true := rfl
  have hcomment : (⟨'#' :: line ++ '\n' :: text, 0, 0, 0⟩ : Cursor).skipComment =
      ⟨'\n' :: text, line.length + 1, 0, k⟩ := by
    rw [Cursor.skipComment, if_pos hat, Cursor.skip, Cursor.word_unbroken hword, hk, List.length_cons,
      Nat.zero_add]
  have hbreak : (⟨'\n' :: text, line.length + 1, 0, k⟩ : Cursor).lineBreak.2 = ⟨text, line.length + 2, 1, 0⟩ := rfl
  have hbelow : { atStart ('#' :: line ++ '\n' :: text) with
      cursor := ⟨text, line.length + 2, 1, 0⟩
      keyAllowed := true } = (atStart text).below ⟨line.length + 2, 1⟩ := by
    rw [below, Cursor.below, atStart, atStart]
    simp [Lexeme.below]
  rw [skipToToken_parts, hmark, hspaces, hcomment, hbreak, if_pos]
  · exact congrArg skipToToken hbelow
  · change text.length < text.length + 1 ∧ text.length < ('#' :: line ++ '\n' :: text).length
    rw [List.length_append, List.length_cons, List.length_cons]
    omega

theorem step_comment (hline : ∀ c ∈ line, isBreak c = false) :
    (atStart ('#' :: line ++ '\n' :: text)).step = ((atStart text).below ⟨line.length + 2, 1⟩).step := by
  rw [step_eq, step_eq, arrive, arrive, skipToToken_comment hline]

/-- A text without a byte order mark in front has none further down. -/
theorem unmarked_of_head (hmark : text.head? ≠ some '\uFEFF') (σ : Shift) : Unmarked σ (atStart text).cursor := by
  intro c hc
  have hfirst : c.isAt '\uFEFF' = true → c.index ≠ 0 := by
    obtain ⟨n, rfl⟩ := hc
    rw [Cursor.advance_index, Cursor.isAt, Cursor.peek, Cursor.advance_rest, beq_iff_eq]
    change (text.drop n).head? = some '\uFEFF' → 0 + min n text.length ≠ 0
    intro hhead hzero
    -- where nothing is passed stands the first character; where something is, the position has moved
    rcases Nat.eq_zero_or_pos n with rfl | hn
    · exact hmark hhead
    · have hnil : text = [] := by
        rw [← List.length_eq_zero_iff]
        omega
      rw [hnil, List.drop_nil] at hhead
      cases hhead
  rw [afterMark, afterMark, Cursor.below_isAt]
  cases hat : c.isAt '\uFEFF' with
  | false => simp only [Bool.and_false, Bool.false_eq_true, if_false]
  | true =>
    have hindex := hfirst hat
    have hbelow : (c.below σ).index ≠ 0 := by
      change c.index + σ.chars ≠ 0
      omega
    simp only [hindex, hbelow, decide_false, Bool.false_and, Bool.false_eq_true, if_false]

/-- The tokens behind a comment are those of the text. -/
theorem readAll_comment (hline : ∀ c ∈ line, isBreak c = false) :
    (atStart ('#' :: line ++ '\n' :: text)).readAll = ((atStart text).below ⟨line.length + 2, 1⟩).readAll := by
  rw [readAll.eq_def (atStart _), readAll.eq_def (below _ _), step_comment hline]
  have hshorter (next : Reader) := @step_shorter ((atStart text).below ⟨line.length + 2, 1⟩) next
  generalize ((atStart text).below ⟨line.length + 2, 1⟩).step = x at hshorter ⊢
  cases x with
  | error f => rfl
  | ok next =>
    dsimp only
    by_cases hended : next.ended = true
    · rw [if_pos hended, if_pos hended]
    · have hlt := hshorter next rfl (Bool.eq_false_iff.2 hended)
      have hwhole : next.cursor.rest.length < (atStart ('#' :: line ++ '\n' :: text)).cursor.rest.length := by
        refine Nat.lt_of_lt_of_le hlt ?_
        change text.length ≤ ('#' :: line ++ '\n' :: text).length
        rw [List.length_append, List.length_cons]
        exact Nat.le_trans (Nat.le_succ _) (Nat.le_add_left _ _)
      rw [if_neg hended, if_neg hended, dif_pos hlt, dif_pos hwhole]

end Reader

/-- The tokens of a text with a comment in front are those of the text. -/
theorem tokens_comment {line text : List Char} (hline : IsLine line) (hmark : text.head? ≠ some '\uFEFF')
    {ls : List Lexeme} {failure : Option Fault} (h : tokens text = .ok (ls, failure)) :
    ∃ ls' failure', tokens ('#' :: line ++ '\n' :: text) = .ok (ls', failure') ∧
      ls'.map Lexeme.token = ls.map Lexeme.token ∧ failure'.map Fault.bare = failure.map Fault.bare := by
  rw [tokens] at h
  split at h
  next hallowed =>
    have hall : ('#' :: line ++ '\n' :: text).all isAllowed = true := by
      rw [List.all_append, List.all_cons, List.all_cons, hallowed, List.all_eq_true.2 fun c hc => (hline c hc).1]
      rfl
    have hread := (Reader.readAll_below (Reader.unmarked_of_head hmark ⟨line.length + 2, 1⟩) (Reader.atStart text)
      (.refl _)).1
    rw [← Reader.readAll_comment fun c hc => (hline c hc).2] at hread
    rw [Except.ok.injEq] at h
    change (Reader.atStart text).readAll = _ at h
    rw [h] at hread
    refine ⟨ls.map (Lexeme.below 1), failure.map (Fault.below 1), ?_, ?_, ?_⟩
    · rw [tokens, if_pos hall]
      exact congrArg Except.ok hread
    · rw [List.map_map]
      exact List.map_congr_left fun l _ => l.below_token 1
    · rw [Option.map_map]
      exact Option.map_congr fun f _ => f.bare_below 1
  · cases h

/-- A text that may not have a character may not have it behind a comment. -/
theorem tokens_comment_error {line text : List Char} (hline : IsLine line) {f : Fault}
    (h : tokens text = .error f) : tokens ('#' :: line ++ '\n' :: text) = .error f := by
  have hall : ('#' :: line ++ '\n' :: text).all isAllowed = text.all isAllowed := by
    rw [List.all_append, List.all_cons, List.all_cons, List.all_eq_true.2 fun c hc => (hline c hc).1]
    rfl
  rw [tokens] at h ⊢
  rw [hall]
  split at h
  · cases h
  next hallowed => rwa [if_neg hallowed]

/-- A comment in front of a text leaves its value as it is. -/
theorem valueOf_comment (rules : Rules) {line text : List Char} (hline : IsLine line)
    (hmark : text.head? ≠ some '\uFEFF') :
    Twin (fun f f' => f'.bare = f.bare) Eq (valueOf rules text) (valueOf rules ('#' :: line ++ '\n' :: text)) := by
  cases h : tokens text with
  | error f =>
    have hboth : Node.ofText .core text = .error f ∧
        Node.ofText .core ('#' :: line ++ '\n' :: text) = .error f := by
      rw [Node.ofText, Node.ofText, h, tokens_comment_error hline h]
      exact ⟨rfl, rfl⟩
    rw [valueOf, valueOf, hboth.1, hboth.2]
    exact .error rfl
  | ok p =>
    obtain ⟨ls', failure', h', hls, hfailure⟩ := tokens_comment hline hmark h
    exact (valueOf_twin rules h h' hls hfailure).mono fun _ _ h => h.1

/-! ## Expressions behind a comment -/

namespace Protected

variable {cs rest : List Char} {parts : List Part}

/-- Opening braces that begin in a text lie in it if no brace follows. -/
theorem opening_prefix (hrest : ∀ c, rest.head? = some c → isBrace c = false) (h : opening <+: cs ++ rest) :
    opening <+: cs := by
  rcases List.prefix_or_prefix_of_prefix h (List.prefix_append cs rest) with hp | ⟨u, hu⟩
  · exact hp
  · cases u with
    | nil => exact ⟨[], by rw [← hu, List.append_nil, List.append_nil]⟩
    | cons b more =>
      obtain ⟨t, ht⟩ := h
      rw [← hu, List.append_assoc, List.append_cancel_left_eq] at ht
      have hbrace := braces_opening b (by rw [← hu]; simp)
      rw [hrest b (by rw [← ht]; rfl)] at hbrace
      cases hbrace

/-- If no expression begins in a text and ends behind it, its expressions are taken out before those of what
follows. -/
theorem Divided.protectFrom_append (h : Divided cs parts) (hrest : ∀ c, rest.head? = some c → isBrace c = false)
    (hclosed : ∀ body, opening ++ body <:+ cs → closing <:+: body ∨ ¬closing <:+: body ++ rest) (index : Nat) :
    Protected.protectFrom 0 index (cs ++ rest) =
      (sealedText index parts ++ (Protected.protectFrom 0 (index + (lineSpans parts).length) rest).1,
        lineSpans parts ++ (Protected.protectFrom 0 (index + (lineSpans parts).length) rest).2) := by
  induction h generalizing index with
  | nil => rfl
  | @char c cs parts outside more ih =>
    have hmore := ih fun body hbody => hclosed body (hbody.trans (List.suffix_cons c cs))
    have hnone : spanOf? (c :: (cs ++ rest)) = none := by
      rw [Option.eq_none_iff_forall_ne_some]
      intro span hspan
      -- An expression here would begin in the text. It ends in it, and then it begins here without what follows,
      -- or it ends behind it, which `hclosed` excludes.
      obtain ⟨⟨body, rfl, -⟩, t, ht⟩ := spanOf?_iff.1 hspan
      rw [List.append_assoc, List.append_assoc, ← List.cons_append] at ht
      obtain ⟨after, hafter⟩ := opening_prefix hrest ⟨_, ht⟩
      rw [← hafter, List.append_assoc, List.append_cancel_left_eq] at ht
      rcases hclosed after ⟨[], hafter⟩ with hin | hnot
      · obtain ⟨span, hs, hprefix⟩ := exists_isSpan hin
        exact outside span hs (hafter ▸ hprefix)
      · exact hnot ⟨body, t, by rw [← ht, List.append_assoc]⟩
    rw [List.cons_append, Protected.protectFrom, hnone, hmore]
    rfl
  | @span span cs parts isSpan more ih =>
    have hmore := ih fun body hbody => hclosed body (hbody.trans (List.suffix_append span cs))
    have hspan : spanOf? (span ++ (cs ++ rest)) = some span := spanOf?_iff.2 ⟨isSpan, List.prefix_append _ _⟩
    rw [List.append_assoc, protectFrom_span hspan isSpan.ne_nil, hmore, hmore, sealedText, lineSpans]
    split
    · rw [List.append_assoc]
      rfl
    · rw [List.append_assoc, List.length_cons, Nat.add_right_comm, Nat.add_assoc]
      rfl

/-- Where the first expression of a text begins there is a mark; all other characters stay. -/
theorem head_protectFrom {index : Nat} {c : Char} {text : List Char}
    (h : (Protected.protectFrom 0 index text).1.head? = some c) : text.head? = some c ∨ c = '_' := by
  cases text with
  | nil => cases h
  | cons first text =>
    cases hspan : spanOf? (first :: text) with
    | none =>
      rw [Protected.protectFrom, hspan] at h
      exact .inl h
    | some span =>
      obtain ⟨hs, rest, hrest⟩ := spanOf?_iff.1 hspan
      rw [← hrest] at h hspan
      rw [protectFrom_span hspan hs.ne_nil] at h
      right
      split at h
      · obtain ⟨inner, hinner⟩ := bracketed_start hs
        change (bracketed span ++ _).head? = some c at h
        rw [hinner, List.append_assoc] at h
        exact (Option.some.inj h).symm
      · rw [mark, List.append_assoc, List.append_assoc] at h
        exact (Option.some.inj h).symm

/-- In a text every opening is closed or is closed nowhere. -/
theorem spans_protect (comment : String) (h : Divided comment.toList parts) :
    (protect comment).2 = (lineSpans parts).map String.ofList := by
  have hclosed : ∀ body, opening ++ body <:+ comment.toList → closing <:+: body ∨ ¬closing <:+: body ++ [] := by
    intro body _
    rw [List.append_nil]
    exact Classical.em _
  have hprotect := h.protectFrom_append (by simp) hclosed 0
  rw [List.append_nil] at hprotect
  rw [protect, hprotect]
  simp [Protected.protectFrom]

/-! ## Loading behind a comment -/

/-- The value of a document whose expressions are numbered behind earlier ones. -/
def readBehind (earlier : List String) (text : String) : Except Fault Value :=
  let (cs, spans) := Protected.protectFrom 0 earlier.length text.toList
  valueOf (coreRules (earlier ++ spans.map String.ofList)) cs

/-- Loads a document whose expressions are numbered behind earlier ones. -/
def loadBehind (earlier : List String) (text : String) (file : Option String) : Except Failure Value :=
  (readBehind earlier text).mapError (documentFailure file)

theorem read_eq_valueOf (text : String) :
    read text = valueOf (coreRules (protect text).2) (protect text).1.toList := rfl

theorem readBehind_nil (text : String) : readBehind [] text = read text := by
  rw [read_eq_valueOf, readBehind, protect, String.toList_ofList]
  rfl

theorem bare_documentFailure {f f' : Fault} (h : f'.bare = f.bare) (file : Option String) :
    (documentFailure file f').bare = (documentFailure file f).bare := by
  cases f <;> cases f' <;> simp_all [Fault.bare, documentFailure, Failure.bare, Fault.failure]

theorem bare_load {x y : Except Fault Value} (h : Twin (fun f f' => f'.bare = f.bare) Eq x y)
    (file : Option String) :
    (y.mapError (documentFailure file)).mapError Failure.bare =
      (x.mapError (documentFailure file)).mapError Failure.bare := by
  cases h with
  | ok related => rw [related]
  | error related => exact congrArg Except.error (bare_documentFailure related file)

theorem read_comment {comment text : String} (hline : IsLine comment.toList)
    (hmark : text.toList.head? ≠ some '\uFEFF')
    (hclosed : ∀ body, opening ++ body <:+ comment.toList → closing <:+: body ∨
      ¬closing <:+: body ++ '\n' :: text.toList) :
    Twin (fun f f' => f'.bare = f.bare) Eq (readBehind (protect comment).2 text)
      (read ("#" ++ comment ++ "\n" ++ text)) := by
  obtain ⟨parts, hparts⟩ := exists_divided comment.toList
  obtain ⟨opened, hsealed⟩ := hparts.sealed keepsLines_plain 0
  have hsealedLine : IsLine (sealedText 0 parts) :=
    hsealed.all hline fun c hc => ⟨(straight_markChar hc).2.1, isBreak_markChar hc⟩
  have hhead : (Protected.protectFrom 0 (lineSpans parts).length text.toList).1.head? ≠ some '\uFEFF' := by
    intro h
    rcases head_protectFrom h with h | h
    · exact hmark h
    · cases h
  have hrest : ∀ c, ('\n' :: text.toList).head? = some c → isBrace c = false := by
    rintro c hc
    cases hc
    rfl
  have hbefore := hparts.protectFrom_append hrest hclosed 0
  rw [Nat.zero_add, protectFrom_char (fun h => absurd (opening_cons h) (by decide))] at hbefore
  have hwhole : ("#" ++ comment ++ "\n" ++ text).toList = '#' :: (comment.toList ++ '\n' :: text.toList) := by
    simp [String.toList_append]
  rw [read_eq_valueOf, readBehind, spans_protect comment hparts, protect, hwhole,
    protectFrom_char (fun h => absurd (opening_cons h) (by decide)), hbefore, List.length_map,
    String.toList_ofList]
  dsimp only
  rw [List.map_append]
  exact valueOf_comment _ hsealedLine hhead

/-- A line with a comment in front of a document changes nothing but the lines that failures name, as long
as no expression begins in the comment and ends behind it. The expressions of the comment are taken out too,
so that those of the document are numbered behind them. -/
theorem load_comment {comment text : String} (hline : IsLine comment.toList)
    (hmark : text.toList.head? ≠ some '\uFEFF')
    (hclosed : ∀ body, opening ++ body <:+ comment.toList → closing <:+: body ∨
      ¬closing <:+: body ++ '\n' :: text.toList) (file : Option String) :
    (load ("#" ++ comment ++ "\n" ++ text) file).mapError Failure.bare =
        (loadBehind (protect comment).2 text file).mapError Failure.bare ∧
      (¬opening <:+: comment.toList → (load ("#" ++ comment ++ "\n" ++ text) file).mapError Failure.bare =
        (load text file).mapError Failure.bare) := by
  have hload := bare_load (read_comment hline hmark hclosed) file
  refine ⟨hload, fun hnone => ?_⟩
  obtain ⟨parts, hparts⟩ := exists_divided comment.toList
  have hspans : lineSpans parts = [] := by
    rw [List.eq_nil_iff_forall_not_mem]
    intro span hspan
    obtain ⟨⟨body, rfl, -⟩, -, hin⟩ := hparts.mem_lineSpans hspan
    rw [List.append_assoc] at hin
    exact hnone ((List.prefix_append opening (body ++ closing)).isInfix.trans hin)
  rw [spans_protect comment hparts, hspans, List.map_nil, readBehind_nil] at hload
  exact hload

theorem load_comment_expression : IsLine " 'a' $\x7b\x7b b \x7d\x7d: [".toList ∧
    "k: $\x7b\x7b c \x7d\x7d\n".toList.head? ≠ some '\uFEFF' ∧ Closed " 'a' $\x7b\x7b b \x7d\x7d: [".toList ∧
    (load ("#" ++ " 'a' $\x7b\x7b b \x7d\x7d: [" ++ "\n" ++ "k: $\x7b\x7b c \x7d\x7d\n") none).mapError
        Failure.bare =
      (loadBehind (protect " 'a' $\x7b\x7b b \x7d\x7d: [").2 "k: $\x7b\x7b c \x7d\x7d\n" none).mapError
        Failure.bare := by
  have hline : IsLine " 'a' $\x7b\x7b b \x7d\x7d: [".toList := forall_mem_of_all (by decide)
  have hmark : "k: $\x7b\x7b c \x7d\x7d\n".toList.head? ≠ some '\uFEFF' := by decide
  have hclosed : Closed " 'a' $\x7b\x7b b \x7d\x7d: [".toList := by decide
  exact ⟨hline, hmark, hclosed, (load_comment hline hmark (fun body h => .inl (hclosed body h)) none).1⟩

end Protected

end Yaml

end PipelineTemplate
