import Mathlib.Data.List.InsertIdx
import PipelineTemplate.Proofs.Yaml.Reader
import PipelineTemplate.Proofs.Yaml.Steady.Cursor

/-!
# The tokens of a text further down

A reader that stands further down with the same tokens read makes the same steps.
-/

namespace PipelineTemplate.Yaml

/-- The same token further down. The mark of the stream stays on the first line. -/
def Lexeme.below (lines : Nat) (l : Lexeme) : Lexeme :=
  if l.token = .mark .streamStart then l else ⟨l.token, l.line + lines⟩

theorem Lexeme.below_mk {lines line : Nat} {token : Token} (h : token ≠ .mark .streamStart) :
    Lexeme.below lines ⟨token, line⟩ = ⟨token, line + lines⟩ := if_neg h

@[simp] theorem Lexeme.below_token (lines : Nat) (l : Lexeme) : (l.below lines).token = l.token := by
  rw [Lexeme.below]
  split <;> rfl

def Candidate.below (σ : Shift) (k : Candidate) : Candidate := { k with cursor := k.cursor.below σ }

namespace Reader

/-- The same reader further down. -/
def below (σ : Shift) (r : Reader) : Reader :=
  { r with
    cursor := r.cursor.below σ
    tokens := r.tokens.map (Lexeme.below σ.lines)
    candidates := r.candidates.map fun p => (p.1, p.2.below σ) }

instance : Placed Reader := ⟨Reader.cursor, Reader.below⟩

variable {σ : Shift} {start : Cursor} {r : Reader}

section Fields

variable (σ : Shift) (r : Reader)

@[simp] theorem below_cursor : (r.below σ).cursor = r.cursor.below σ := rfl

@[simp] theorem below_inFlow : (r.below σ).inFlow = r.inFlow := rfl

@[simp] theorem below_depth : (r.below σ).depth = r.depth := rfl

@[simp] theorem below_keyAllowed : (r.below σ).keyAllowed = r.keyAllowed := rfl

@[simp] theorem below_indent : (r.below σ).indent = r.indent := rfl

@[simp] theorem below_lookup (depth : Int) :
    (r.below σ).candidates.lookup depth = (r.candidates.lookup depth).map (Candidate.below σ) := by
  change (r.candidates.map fun p => (p.1, p.2.below σ)).lookup depth = _
  induction r.candidates with
  | nil => rfl
  | cons p ps ih =>
    rw [List.map_cons, List.lookup_cons, List.lookup_cons, ih]
    cases depth == p.1 <;> rfl

theorem below_filter (keep keep' : Int × Candidate → Bool) (h : ∀ p, keep' (p.1, p.2.below σ) = keep p) :
    (r.below σ).candidates.filter keep' = (r.candidates.filter keep).map fun p => (p.1, p.2.below σ) := by
  change (r.candidates.map fun p => (p.1, p.2.below σ)).filter keep' = _
  rw [List.filter_map]
  congr 1
  exact List.filter_congr fun p _ => h p

theorem below_any (test test' : Int × Candidate → Bool) (h : ∀ p, test' (p.1, p.2.below σ) = test p) :
    (r.below σ).candidates.any test' = r.candidates.any test := by
  change (r.candidates.map fun p => (p.1, p.2.below σ)).any test' = _
  rw [List.any_map]
  congr 1
  exact funext h

theorem below_put {token : Token} (h : token ≠ .mark .streamStart) (line : Nat) :
    (r.below σ).put token (line + σ.lines) = (r.put token line).below σ := by
  rw [put, put, below, below]
  simp only [List.map_cons, Lexeme.below_mk h]

theorem below_putMark {m : Mark} (h : m ≠ .streamStart) : (r.below σ).putMark m = (r.putMark m).below σ := by
  apply below_put
  intro heq
  cases heq
  exact h rfl

theorem below_putBefore {m : Mark} (h : m ≠ .streamStart) (position line : Nat) :
    (r.below σ).putBefore position m (line + σ.lines) = (r.putBefore position m line).below σ := by
  have htoken : (Token.mark m) ≠ .mark .streamStart := fun heq => by
    cases heq
    exact h rfl
  rw [putBefore, putBefore, below, below]
  rw [List.length_map, List.map_insertIdx, Lexeme.below_mk htoken]

@[simp] theorem below_unwind (column : Int) : (r.below σ).unwind column = (r.unwind column).below σ := by
  rw [unwind, unwind, below_inFlow]
  split
  · rfl
  · rw [below, below]
    simp only [List.map_append, List.map_replicate,
      Lexeme.below_mk (show Token.mark .blockEnd ≠ .mark .streamStart by decide)]
    rfl

theorem below_putWide {m : Mark} (h : m ≠ .streamStart) (length : Nat) :
    (r.below σ).putWide m length = (r.putWide m length).below σ := by
  rw [putWide, putWide, below_putMark σ r h, below_cursor, Cursor.below_advance]
  rfl

end Fields

/-! ## Candidates -/

/-- Whether a colon can no longer follow a candidate. -/
def stale (r : Reader) (k : Candidate) : Bool :=
  k.cursor.line != r.cursor.line || 1024 < r.cursor.index - k.cursor.index

theorem dropStale_eq (r : Reader) : r.dropStale =
    if r.candidates.any fun p => r.stale p.2 && p.2.required then r.cursor.fail .tokens
    else .ok { r with candidates := r.candidates.filter fun p => !r.stale p.2 } := rfl

theorem below_stale (σ : Shift) (r : Reader) (k : Candidate) : (r.below σ).stale (k.below σ) = r.stale k := by
  have hline : (k.cursor.line + σ.lines != r.cursor.line + σ.lines) = (k.cursor.line != r.cursor.line) := by
    rw [Bool.eq_iff_iff, bne_iff_ne, bne_iff_ne, Nat.add_right_cancel_iff.ne]
  have hindex : r.cursor.index + σ.chars - (k.cursor.index + σ.chars) = r.cursor.index - k.cursor.index :=
    Nat.add_sub_add_right _ _ _
  change (k.cursor.line + σ.lines != r.cursor.line + σ.lines ||
    decide (1024 < r.cursor.index + σ.chars - (k.cursor.index + σ.chars))) = _
  rw [hline, hindex, stale]

theorem dropStale_steady (hc : start.Reaches r.cursor) : Steady σ start r.dropStale (r.below σ).dropStale := by
  have hany := below_any σ r (fun p => r.stale p.2 && p.2.required)
    (fun p => (r.below σ).stale p.2 && p.2.required) fun p => by rw [below_stale]; rfl
  have hfilter := below_filter σ r (fun p => !r.stale p.2) (fun p => !(r.below σ).stale p.2) fun p => by
    rw [below_stale]
  rw [dropStale_eq, dropStale_eq, hany, hfilter]
  exact .ite Iff.rfl (fun _ => Cursor.fail_steady .tokens) fun _ => .ok ⟨rfl, hc⟩

section Kept

variable {ρ : Type} [Placed ρ] {g h : Reader → Except Fault ρ}

/-- What follows when a reader has given up a candidate and stands where it stood. -/
theorem dropCandidate_steady (hg : ∀ s, s.cursor = r.cursor → s.inFlow = r.inFlow →
      Steady σ start (g s) (h (s.below σ))) :
    Steady σ start (r.dropCandidate >>= g) ((r.below σ).dropCandidate >>= h) := by
  have hany : ((r.below σ).candidates.lookup (r.below σ).depth).any (·.required) =
      (r.candidates.lookup r.depth).any (·.required) := by
    rw [below_lookup, Option.any_map]
    rfl
  have hfilter := below_filter σ r (fun p => p.1 != r.depth) (fun p => p.1 != (r.below σ).depth) fun _ => rfl
  rw [dropCandidate, dropCandidate, hany, hfilter]
  split
  · exact Cursor.fail_steady .tokens
  · exact hg { r with candidates := r.candidates.filter fun p => p.1 != r.depth } rfl rfl

theorem saveCandidate_steady (hg : ∀ s, s.cursor = r.cursor → s.inFlow = r.inFlow →
      Steady σ start (g s) (h (s.below σ))) :
    Steady σ start (r.saveCandidate >>= g) ((r.below σ).saveCandidate >>= h) := by
  rw [saveCandidate, saveCandidate, below_keyAllowed]
  split
  · rw [bind_assoc, bind_assoc]
    refine dropCandidate_steady fun s hcursor hflow => ?_
    have hsame : (⟨(s.below σ).tokens.length,
        !(s.below σ).inFlow && (s.below σ).indent == (s.below σ).cursor.column, (s.below σ).cursor⟩ : Candidate) =
        Candidate.below σ ⟨s.tokens.length, !s.inFlow && s.indent == s.cursor.column, s.cursor⟩ := by
      rw [below, List.length_map]
      rfl
    dsimp only
    rw [hsame]
    exact hg { s with candidates :=
      (s.depth, ⟨s.tokens.length, !s.inFlow && s.indent == s.cursor.column, s.cursor⟩) :: s.candidates } hcursor
      hflow
  · exact hg r rfl rfl

theorem leaveBlocks_steady (hg : ∀ s, s.cursor = r.cursor → Steady σ start (g s) (h (s.below σ))) :
    Steady σ start (r.leaveBlocks >>= g) ((r.below σ).leaveBlocks >>= h) := by
  rw [leaveBlocks, leaveBlocks, bind_assoc, bind_assoc, below_unwind]
  refine dropCandidate_steady fun s hcursor _ => ?_
  exact hg { s with keyAllowed := false } (hcursor.trans (unwind_cursor r (-1)))

end Kept

/-! ## Tokens -/

variable (hc : start.Reaches r.cursor.next)
include hc

theorem putIndicator_keeps {m : Mark} (hm : m ≠ .streamStart) :
    Keeps σ start (r.putIndicator m) ((r.below σ).putIndicator m) := ⟨below_putWide σ r hm 1, hc⟩

omit hc in
/-- What follows a block collection that begins where the reader stands, if one does. -/
theorem beginBlock_steady {m : Mark} (hm : m ≠ .streamStart) {g h : Reader → Except Fault Reader}
    (hg : ∀ s, s.cursor = r.cursor → Steady σ start (g s) (h (s.below σ))) :
    Steady σ start
      (g (if !r.inFlow && r.beginsBlock r.cursor.column then (r.pushIndent r.cursor.column).putMark m else r))
      (h (if !r.inFlow && r.beginsBlock r.cursor.column then ((r.below σ).pushIndent r.cursor.column).putMark m
        else r.below σ)) := by
  split
  · have hsame := below_putMark σ (r.pushIndent r.cursor.column) hm
    change Steady σ start _ (h (((r.pushIndent r.cursor.column).below σ).putMark m))
    rw [hsame]
    exact hg _ rfl
  · exact hg r rfl

theorem putBlockIndicator_steady {collection entry : Mark} (hcollection : collection ≠ .streamStart)
    (hentry : entry ≠ .streamStart) (keyFollows : Bool) :
    Steady σ start (r.putBlockIndicator collection entry keyFollows)
      ((r.below σ).putBlockIndicator collection entry keyFollows) := by
  let ending (s : Reader) : Except Fault Reader := do
    let s ← { s with keyAllowed := keyFollows }.dropCandidate
    return s.putIndicator entry
  have hending : Steady σ start
      (ending (if !r.inFlow && r.beginsBlock r.cursor.column then (r.pushIndent r.cursor.column).putMark collection
        else r))
      (ending (if !r.inFlow && r.beginsBlock r.cursor.column then
        ((r.below σ).pushIndent r.cursor.column).putMark collection else r.below σ)) := by
    apply beginBlock_steady hcollection
    intro s hs
    apply dropCandidate_steady
    intro t ht _
    exact .ok (putIndicator_keeps (by rw [ht]; exact hs ▸ hc) hentry)
  rw [putBlockIndicator, putBlockIndicator]
  exact .ite Iff.rfl (fun _ => Cursor.demand_steady fun _ => hending) fun _ => hending

/-- The reader in the block mapping that a key begins, if it begins one. -/
def beginMapping (r : Reader) (k : Candidate) : Reader :=
  if !r.inFlow && r.beginsBlock k.cursor.column then
    (r.pushIndent k.cursor.column).putBefore k.position .blockMapping k.cursor.line
  else r

/-- The reader when a candidate of its depth has become a key. -/
def markKey (r : Reader) (k : Candidate) : Reader :=
  ({ r with candidates := r.candidates.filter fun p => p.1 != r.depth }.putBefore k.position .key
    k.cursor.line).beginMapping k

omit hc in
theorem putValue_candidate {k : Candidate} (h : r.candidates.lookup r.depth = some k) :
    r.putValue = .ok { (r.markKey k).putIndicator .value with keyAllowed := false } := by
  rw [putValue, h]
  rfl

omit hc in
theorem markKey_cursor (k : Candidate) : (r.markKey k).cursor = r.cursor := by
  rw [markKey, beginMapping]
  split <;> rfl

omit hc in
theorem below_beginMapping (k : Candidate) :
    (r.below σ).beginMapping (k.below σ) = (r.beginMapping k).below σ := by
  have hput := below_putBefore σ (r.pushIndent k.cursor.column) (show Mark.blockMapping ≠ .streamStart by decide)
    k.position k.cursor.line
  have hbegins : (!(r.below σ).inFlow && (r.below σ).beginsBlock (k.below σ).cursor.column) =
      (!r.inFlow && r.beginsBlock k.cursor.column) := rfl
  rw [beginMapping, beginMapping, hbegins]
  split
  · exact hput
  · rfl

omit hc in
theorem below_markKey (k : Candidate) : (r.below σ).markKey (k.below σ) = (r.markKey k).below σ := by
  have hfilter := below_filter σ r (fun p => p.1 != r.depth) (fun p => p.1 != r.depth) fun _ => rfl
  have hkey := below_putBefore σ { r with candidates := r.candidates.filter fun p => p.1 != r.depth }
    (show Mark.key ≠ .streamStart by decide) k.position k.cursor.line
  rw [markKey, markKey, below_depth, hfilter, ← below_beginMapping, ← hkey]
  rfl

theorem putValue_steady : Steady σ start r.putValue (r.below σ).putValue := by
  cases hlookup : r.candidates.lookup r.depth with
  | none =>
    have hbelow : (r.below σ).candidates.lookup (r.below σ).depth = none := by
      rw [below_depth, below_lookup, hlookup]
      rfl
    rw [putValue, putValue, hlookup, hbelow]
    exact putBlockIndicator_steady hc (by decide) (by decide) (!r.inFlow)
  | some k =>
    have hbelow : (r.below σ).candidates.lookup (r.below σ).depth = some (k.below σ) := by
      rw [below_depth, below_lookup, hlookup]
      rfl
    rw [putValue_candidate hlookup, putValue_candidate hbelow, below_markKey]
    have hkeeps := @putIndicator_keeps σ start (r.markKey k) (by rw [markKey_cursor]; exact hc) .value (by decide)
    rw [hkeeps.same]
    exact .ok ⟨rfl, hkeeps.within⟩

theorem putContent_steady {read : Cursor → Except Fault (Token × Cursor)}
    (hread : ∀ c, start.Reaches c.next → Steady σ start (read c) (read (c.below σ)))
    (htoken : ∀ c p, read c = .ok p → p.1 ≠ .mark .streamStart) :
    Steady σ start (r.putContent read) ((r.below σ).putContent read) := by
  apply saveCandidate_steady
  intro s hs _
  have hsteady := hread s.cursor (hs ▸ hc)
  rw [below_cursor]
  generalize hx : read s.cursor = x at hsteady ⊢
  generalize read (s.cursor.below σ) = y at hsteady ⊢
  cases hsteady with
  | @ok a b keeps =>
    obtain ⟨rfl, hwithin⟩ := keeps
    have hput := below_put σ s (htoken s.cursor a hx) s.cursor.line
    refine .ok ⟨?_, hwithin⟩
    change { (s.below σ).put a.1 (s.cursor.line + σ.lines) with cursor := a.2.below σ, keyAllowed := false } = _
    rw [hput]
    rfl
  | error excused => exact .error excused

omit hc in
theorem token_of_bind {α : Type} {x : Except Fault α} {k : α → Except Fault (Token × Cursor)} {p : Token × Cursor}
    (h : x >>= k = .ok p) (hk : ∀ a q, k a = .ok q → q.1 ≠ .mark .streamStart) : p.1 ≠ .mark .streamStart := by
  cases x with
  | error f => cases h
  | ok a => exact hk a p h

theorem putContent_token {α : Type} {scan : Cursor → Except Fault (α × Cursor)} (token : α → Token)
    (hscan : ∀ c, start.Reaches c.next → Steady σ start (scan c) (scan (c.below σ)))
    (htoken : ∀ a, token a ≠ .mark .streamStart) :
    Steady σ start (r.putContent fun c => do let p ← scan c; return (token p.1, p.2))
      ((r.below σ).putContent fun c => do let p ← scan c; return (token p.1, p.2)) := by
  refine putContent_steady hc (fun c hc => ?_) fun c p hp => token_of_bind hp fun a q hq => ?_
  · exact (hscan c hc).bind_pair fun a d hd => .ok ⟨rfl, hd⟩
  · cases hq
    exact htoken a.1

omit hc in
/-- A place where a plain scalar begins has a first character of it. -/
theorem plainLength_of_beginsPlain (h : r.beginsPlain = true) :
    r.cursor.isAt '#' = false ∧ Cursor.plainLength r.inFlow r.cursor.rest ≠ 0 := by
  rw [beginsPlain, Cursor.peek, Cursor.peekAt] at h
  rw [Cursor.isAt, Cursor.peek]
  cases hrest : r.cursor.rest with
  | nil => simp [hrest] at h
  | cons char rest =>
    simp only [hrest, List.head?_cons, List.getElem?_cons_succ, ← List.head?_eq_getElem?] at h
    rw [List.head?_cons, Cursor.plainLength]
    by_cases hindicator : isIndicator char = true
    · rw [hindicator] at h
      simp only [Bool.not_true, Bool.and_false, Bool.false_or, Bool.and_eq_true, Bool.not_eq_true',
        Bool.or_eq_true, decide_eq_true_eq] at h
      obtain ⟨hend, rfl | ⟨hflow, rfl | rfl⟩⟩ := h
      · simp [endsWord, isBreak]
      · simp [endsWord, isBreak, hflow]
      · have hcolon : endsWord (some ':') = false := by decide
        simp [hcolon, hflow, hend]
    · have hother : ∀ c ∈ "-?:,[]\x7b\x7d#&*!|>'\"%@`".toList, char ≠ c := by
        rintro c hc rfl
        exact hindicator (by rw [isIndicator, decide_eq_true hc])
      have hcolon := hother ':' (by decide)
      have hmark := hother '#' (by decide)
      have hword : endsWord (some char) = false := by
        simpa [hindicator, hcolon, hother '-' (by decide), hother '?' (by decide)] using h
      simp [hword, hcolon, hmark, hother ',' (by decide), hother '?' (by decide), hother '[' (by decide),
        hother ']' (by decide), hother '\x7b' (by decide), hother '\x7d' (by decide)]

theorem putPlain_steady (h : r.beginsPlain = true) : Steady σ start r.putPlain (r.below σ).putPlain := by
  apply saveCandidate_steady
  intro s hs hflow
  obtain ⟨hmark, hlength⟩ := plainLength_of_beginsPlain h
  obtain ⟨hsame, hwithin⟩ := @Cursor.plainScalar_keeps_next σ start s.cursor s.inFlow (s.indent + 1) [] false
    (hs ▸ hmark) (by rw [hs, hflow]; exact hlength) (hs ▸ hc)
  dsimp only
  rw [below_cursor, below_inFlow, below_indent, hsame]
  generalize s.cursor.plainScalar s.inFlow (s.indent + 1) [] false = p at hwithin ⊢
  obtain ⟨text, crossed, d⟩ := p
  have hput := below_put σ s (show scalarToken .plain text ≠ .mark .streamStart by simp [scalarToken]) s.cursor.line
  refine .ok ⟨?_, hwithin⟩
  change { (s.below σ).put (scalarToken .plain text) (s.cursor.line + σ.lines) with
    cursor := d.below σ, keyAllowed := crossed } = _
  rw [hput]
  rfl

theorem putBlockScalar_steady (folded : Bool) :
    Steady σ start (r.putBlockScalar folded) ((r.below σ).putBlockScalar folded) := by
  rw [putBlockScalar, putBlockScalar]
  refine @dropCandidate_steady σ start { r with keyAllowed := true } _ _ _ _ fun s hs _ => ?_
  refine (Cursor.blockScalar_steady folded _ (by rw [hs]; exact hc)).bind_pair fun text d hd => ?_
  have hnotStart : scalarToken (if folded then .folded else .literal) text ≠ .mark .streamStart := by
    simp [scalarToken]
  have hput := below_put σ s hnotStart s.cursor.line
  refine .ok ⟨?_, hd⟩
  change { (s.below σ).put (scalarToken (if folded then .folded else .literal) text) (s.cursor.line + σ.lines) with
    cursor := d.below σ } = _
  rw [hput]
  rfl

theorem openFlow_steady {m : Mark} (hm : m ≠ .streamStart) :
    Steady σ start (r.openFlow m) ((r.below σ).openFlow m) := by
  apply saveCandidate_steady
  intro s hs _
  obtain ⟨hsame, hwithin⟩ := @putIndicator_keeps σ start s (hs ▸ hc) m hm
  rw [hsame]
  exact .ok ⟨rfl, hwithin⟩

theorem closeFlow_steady {m : Mark} (hm : m ≠ .streamStart) :
    Steady σ start (r.closeFlow m) ((r.below σ).closeFlow m) := by
  apply dropCandidate_steady
  intro s hs _
  obtain ⟨hsame, hwithin⟩ := @putIndicator_keeps σ start s (hs ▸ hc) m hm
  rw [hsame]
  exact .ok ⟨rfl, hwithin⟩

/-- A token ends behind its first character, and the last one where the text does. -/
theorem readToken_steady : Steady σ start r.readToken (r.below σ).readToken := by
  have hwide {m : Mark} (hm : m ≠ .streamStart) : Steady σ start (do return (← r.leaveBlocks).putWide m 3)
      (do return (← (r.below σ).leaveBlocks).putWide m 3) := by
    refine leaveBlocks_steady fun s hs => .ok ⟨below_putWide σ s hm 3, ?_⟩
    change start.Reaches (s.cursor.advance 3)
    rw [hs]
    exact hc.advance 2
  rw [readToken, readToken, below_cursor, Cursor.below_peek]
  cases hpeek : r.cursor.peek with
  | none =>
    refine leaveBlocks_steady fun s hs => .ok ⟨?_, ?_⟩
    · rw [below_putMark σ s (by decide)]
      rfl
    · have hnext : r.cursor.next = r.cursor := by
        rw [Cursor.peek, List.head?_eq_none_iff] at hpeek
        rw [Cursor.next, hpeek]
      change start.Reaches s.cursor
      rw [hs, ← hnext]
      exact hc
  | some char =>
    dsimp only
    refine .ite Iff.rfl (fun _ => ?_) fun _ => ?_
    · refine leaveBlocks_steady fun s _ => (Cursor.directive_steady hc).bind_pair fun p d hd => .ok ⟨?_, hd⟩
      change { (s.below σ).put (.prologue p) (r.cursor.line + σ.lines) with cursor := d.below σ } = _
      rw [below_put σ s (by simp)]
      rfl
    refine .ite Iff.rfl (fun _ => hwide (by decide)) fun _ => ?_
    refine .ite Iff.rfl (fun _ => hwide (by decide)) fun _ => ?_
    refine .ite Iff.rfl (fun _ => openFlow_steady hc (by decide)) fun _ => ?_
    refine .ite Iff.rfl (fun _ => openFlow_steady hc (by decide)) fun _ => ?_
    refine .ite Iff.rfl (fun _ => closeFlow_steady hc (by decide)) fun _ => ?_
    refine .ite Iff.rfl (fun _ => closeFlow_steady hc (by decide)) fun _ => ?_
    refine .ite Iff.rfl (fun _ => ?_) fun _ => ?_
    · refine @dropCandidate_steady σ start { r with keyAllowed := true } _ _ _ _ fun s hs _ => ?_
      exact .ok (putIndicator_keeps (by rw [hs]; exact hc) (by decide))
    refine .ite Iff.rfl (fun _ => putBlockIndicator_steady hc (by decide) (by decide) true) fun _ => ?_
    refine .ite Iff.rfl (fun _ => putBlockIndicator_steady hc (by decide) (by decide) (!r.inFlow)) fun _ => ?_
    refine .ite Iff.rfl (fun _ => putValue_steady hc) fun _ => ?_
    have hname : ∀ c : Cursor, start.Reaches c.next → Steady σ start c.anchorName (c.below σ).anchorName :=
      fun _ hc => Cursor.anchorName_steady hc
    refine .ite Iff.rfl (fun _ => putContent_token hc Token.aliasOf hname (by simp)) fun _ => ?_
    refine .ite Iff.rfl (fun _ => putContent_token hc Token.anchor hname (by simp)) fun _ => ?_
    refine .ite Iff.rfl (fun _ => ?_) fun _ => ?_
    · refine putContent_steady hc (fun c hc => ?_) fun c p hp => token_of_bind hp fun a q hq => ?_
      · refine (Cursor.tag_steady hc).bind fun q hq => ?_
        exact .ok ⟨rfl, hq⟩
      · cases hq
        simp
    refine .ite Iff.rfl (fun _ => putBlockScalar_steady hc false) fun _ => ?_
    refine .ite Iff.rfl (fun _ => putBlockScalar_steady hc true) fun _ => ?_
    have htoken (style : Style) (text : List Char) : scalarToken style text ≠ .mark .streamStart := by
      simp [scalarToken]
    have hquoted (double : Bool) : ∀ c : Cursor, start.Reaches c.next →
        Steady σ start (c.quotedScalar double) ((c.below σ).quotedScalar double) :=
      fun _ hc => Cursor.quotedScalar_steady double hc
    refine .ite Iff.rfl (fun _ => putContent_token hc _ (hquoted false) (htoken .single)) fun _ => ?_
    refine .ite Iff.rfl (fun _ => putContent_token hc _ (hquoted true) (htoken .double)) fun _ => ?_
    exact .ite Iff.rfl (fun h => putPlain_steady hc h) fun _ => Cursor.fail_steady .tokens

/-! ## Steps -/

omit hc

/-- Passes over a byte order mark with which a text begins. -/
def afterMark (c : Cursor) : Cursor := if c.index = 0 && c.isAt '\uFEFF' then c.next else c

theorem skipToToken_parts (r : Reader) : r.skipToToken =
    if (afterMark r.cursor).skipSpaces.skipComment.lineBreak.2.rest.length <
        (afterMark r.cursor).skipSpaces.skipComment.rest.length ∧
        (afterMark r.cursor).skipSpaces.skipComment.lineBreak.2.rest.length < r.cursor.rest.length then
      skipToToken { r with
        cursor := (afterMark r.cursor).skipSpaces.skipComment.lineBreak.2
        keyAllowed := r.keyAllowed || !r.inFlow }
    else { r with cursor := (afterMark r.cursor).skipSpaces.skipComment } := by
  rw [skipToToken]
  rfl

/-- No byte order mark begins the text, unless it does not move. -/
def Unmarked (σ : Shift) (start : Cursor) : Prop :=
  ∀ c, start.Reaches c → afterMark (c.below σ) = (afterMark c).below σ

theorem unmarked_of_chars (h : σ.chars = 0) (start : Cursor) : Unmarked σ start := by
  intro c _
  have hindex : (c.below σ).index = c.index := by rw [Cursor.below, h]; rfl
  rw [afterMark, afterMark, hindex, Cursor.below_isAt, Cursor.below_next]
  split <;> rfl

theorem afterMark_reaches {c : Cursor} (h : start.Reaches c) : start.Reaches (afterMark c) := by
  rw [afterMark]
  split
  · exact h.next
  · exact h

theorem skipToToken_keeps (hmark : Unmarked σ start) (r : Reader) (hc : start.Reaches r.cursor) :
    Keeps σ start r.skipToToken (r.below σ).skipToToken := by
  induction hn : r.cursor.rest.length using Nat.strongRecOn generalizing r with
  | ind n ih =>
    have he : start.Reaches (afterMark r.cursor).skipSpaces.skipComment :=
      ((afterMark_reaches hc).skip _).skipComment
    rw [skipToToken_parts r, skipToToken_parts (r.below σ), below_cursor, hmark _ hc, Cursor.below_skipSpaces,
      Cursor.below_skipComment, Cursor.below_lineBreak]
    refine .ite Iff.rfl (fun hlt => ?_) fun _ => ⟨rfl, he⟩
    exact ih _ (hn ▸ hlt.2) { r with
      cursor := (afterMark r.cursor).skipSpaces.skipComment.lineBreak.2
      keyAllowed := r.keyAllowed || !r.inFlow } he.lineBreak rfl

theorem arrive_steady (hmark : Unmarked σ start) (hc : start.Reaches r.cursor) :
    Steady σ start r.arrive (r.below σ).arrive := by
  obtain ⟨hsame, hwithin⟩ := skipToToken_keeps hmark r hc
  rw [arrive, arrive, hsame]
  refine (dropStale_steady hwithin).bind fun s hs => .ok ⟨?_, ?_⟩
  · exact below_unwind σ s _
  · change start.Reaches (s.unwind s.cursor.column).cursor
    rw [unwind_cursor]
    exact hs

/-- What the reader reads next is behind the first character that it has not passed over. -/
theorem step_steady (hmark : Unmarked σ start) (hc : start.Reaches r.cursor) :
    Steady σ start r.step (r.below σ).step := by
  rw [step_eq, step_eq]
  refine (arrive_steady hmark hc).bind fun a ha => ?_
  refine ((readToken_steady (.refl a.cursor.next)).mono ha.next).bind fun s hs => ?_
  exact .ite Iff.rfl (fun _ => .ok ⟨rfl, hs⟩) fun _ => dropStale_steady hs

/-- Every token but the end of the text takes a character at least. -/
theorem readToken_shorter {s : Reader} (h : r.readToken = .ok s) (hrunning : s.ended = false) :
    s.cursor.rest.length < r.cursor.rest.length := by
  cases hrest : r.cursor.rest with
  | nil =>
    rw [readToken, Cursor.peek, hrest] at h
    dsimp only [List.head?_nil] at h
    cases hleave : r.leaveBlocks with
    | error f =>
      rw [hleave] at h
      cases h
    | ok t =>
      rw [hleave] at h
      cases h
      cases hrunning
  | cons char rest =>
    -- the reader is compared with itself, for the place alone where it ends
    have hsteady := readToken_steady (σ := ⟨0, 0⟩) (.refl r.cursor.next)
    rw [h] at hsteady
    generalize (r.below ⟨0, 0⟩).readToken = y at hsteady
    cases hsteady with
    | ok keeps =>
      have hle := keeps.within.suffix.length_le
      rw [Cursor.next_length, hrest] at hle
      exact Nat.lt_succ_of_le hle

theorem step_shorter {s : Reader} (h : r.step = .ok s) (hrunning : s.ended = false) :
    s.cursor.rest.length < r.cursor.rest.length := by
  rw [step_eq] at h
  cases harrive : r.arrive with
  | error f =>
    rw [harrive] at h
    cases h
  | ok a =>
    rw [harrive] at h
    cases hread : a.readToken with
    | error f =>
      simp only [hread, bind, Except.bind] at h
      cases h
    | ok t =>
      simp only [hread, bind, Except.bind] at h
      have hshorter (ht : t.ended = false) : t.cursor.rest.length < r.cursor.rest.length :=
        Nat.lt_of_lt_of_le (readToken_shorter hread ht) (arrive_le harrive)
      split at h
      next hended =>
        cases h
        exact hshorter hrunning
      next hended =>
        rw [dropStale_cursor h]
        exact hshorter (Bool.eq_false_iff.2 hended)

theorem below_settled (σ : Shift) (r : Reader) : (r.below σ).settled = r.settled := by
  rw [settled, settled, below, List.foldl_map, List.length_map]
  rfl

theorem readAll_below (hmark : Unmarked σ start) (r : Reader) (hc : start.Reaches r.cursor) :
    (r.below σ).readAll = (r.readAll.1.map (Lexeme.below σ.lines), r.readAll.2.map (Fault.below σ.lines)) ∧
      ∀ f ∈ r.readAll.2, Excused start.rest f := by
  -- a step that takes no character ends both runs, so what is left gets shorter
  induction hn : r.cursor.rest.length using Nat.strongRecOn generalizing r with
  | ind n ih =>
    rw [readAll.eq_def r, readAll.eq_def (r.below σ)]
    have hstep := step_steady hmark hc
    generalize r.step = x at hstep ⊢
    generalize (r.below σ).step = y at hstep ⊢
    cases hstep with
    | @error f excused =>
      refine ⟨?_, ?_⟩
      · dsimp only
        rw [below_settled, List.map_take, List.map_reverse]
        rfl
      · intro f' hf
        cases hf
        exact excused
    | @ok next _ keeps =>
      obtain ⟨rfl, hwithin⟩ := keeps
      have hall : (next.below σ).tokens.reverse = next.tokens.reverse.map (Lexeme.below σ.lines) :=
        List.map_reverse.symm
      change (if next.ended then ((next.below σ).tokens.reverse, none)
        else if next.cursor.rest.length < r.cursor.rest.length then readAll (next.below σ)
        else ((next.below σ).tokens.reverse, none)) = _ ∧ _
      dsimp only
      rw [hall]
      by_cases hended : next.ended
      · rw [if_pos hended, if_pos hended]
        exact ⟨rfl, by simp⟩
      rw [if_neg hended, if_neg hended]
      by_cases hlt : next.cursor.rest.length < r.cursor.rest.length
      · rw [if_pos hlt, dif_pos hlt]
        exact ih _ (hn ▸ hlt) next hwithin rfl
      · rw [if_neg hlt, dif_neg hlt]
        exact ⟨rfl, by simp⟩

end Reader

/-- The causes for which the tokens of a text stop are those of its characters. -/
theorem tokens_excused {text : List Char} {ls : List Lexeme} {failure : Option Fault}
    (h : tokens text = .ok (ls, failure)) : ∀ f ∈ failure, Excused text f := by
  rw [tokens] at h
  split at h
  -- the text is compared with itself, for the causes alone
  · have hread := Reader.readAll_below (σ := ⟨0, 0⟩) (Reader.unmarked_of_chars rfl _)
      { cursor := { rest := text }, tokens := [⟨.mark .streamStart, 0⟩] } (.refl _)
    rw [Except.ok.injEq] at h
    rw [h] at hread
    exact hread.2
  · cases h

end PipelineTemplate.Yaml
