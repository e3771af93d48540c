import PipelineTemplate.Proofs.Yaml.Draft
import PipelineTemplate.Proofs.Yaml.Protected.Sealing

/-!
# Scalars with marks

A text with marks in the place of its expressions is written in the same style as the text, and fits it.
-/

namespace PipelineTemplate.Yaml

namespace Protected

section Sealed

variable {f : Encoder} {index : Nat} {cs opened cs' : List Char} {spans : List (List Char)}

/-! ## What a text with marks keeps -/

theorem Sealed.all (h : Sealed f index cs opened cs' spans) {p : Char → Prop} (hp : ∀ c ∈ cs, p c)
    (hm : ∀ c, isMarkChar c = true → p c) : ∀ c ∈ cs', p c := by
  induction h with
  | nil => exact hp
  | char more ih =>
    obtain ⟨hc, hcs⟩ := List.forall_mem_cons.1 hp
    exact List.forall_mem_cons.2 ⟨hc, ih hcs⟩
  | bracket hb more ih =>
    rw [List.forall_mem_append] at hp ⊢
    exact ⟨fun c hc => hm c (hb.marks.2 c hc), ih hp.2⟩
  | line hspan hline more ih =>
    rw [List.forall_mem_append] at hp ⊢
    exact ⟨fun c hc => hm c (marks_mark _ c hc), ih hp.2⟩

theorem isChain_marks {R : Char → Char → Prop} {m rest : List Char} (hm : ∀ c ∈ m, isMarkChar c = true)
    (hr : ∀ x y, isMarkChar x = true ∨ isMarkChar y = true → R x y) (h : rest.IsChain R) : (m ++ rest).IsChain R := by
  induction m with
  | nil => exact h
  | cons c m ih =>
    obtain ⟨hc, hm⟩ := List.forall_mem_cons.1 hm
    exact List.IsChain.cons (ih hm) fun y _ => hr c y (.inl hc)

/-- What no mark breaks holds of neighbours in the text with marks. -/
theorem Sealed.chain (h : Sealed f index cs opened cs' spans) {R : Char → Char → Prop} (hcs : cs.IsChain R)
    (hr : ∀ x y, isMarkChar x = true ∨ isMarkChar y = true → R x y) : cs'.IsChain R := by
  induction h with
  | nil => exact hcs
  | @char index c cs opened cs' spans more ih =>
    have htail := ih (List.IsChain.tail hcs)
    refine List.IsChain.cons htail fun y hy => ?_
    rcases more.head with heq | ⟨hmark, -⟩
    · rw [heq] at hy
      cases cs with
      | nil => cases hy
      | cons d cs =>
        cases hy
        exact (List.isChain_cons_cons.1 hcs).1
    · rw [hmark] at hy
      cases hy
      exact hr _ _ (.inr (by decide))
  | bracket hb more ih => exact isChain_marks hb.marks.2 hr (ih (List.isChain_append.1 hcs).2.1)
  | line hspan hline more ih => exact isChain_marks (marks_mark _) hr (ih (List.isChain_append.1 hcs).2.1)

theorem getLast?_mark (index : Nat) : (mark index).getLast? = some '_' := by
  rw [mark, List.getLast?_append_of_ne_nil _ (by decide)]
  rfl

theorem IsBracket.last {braces mark : List Char} (h : IsBracket braces mark) :
    mark.getLast? = some '_' ∧ ∃ c, braces.getLast? = some c ∧ isBrace c = true := by
  cases h with
  | opening => exact ⟨rfl, _, rfl, by decide⟩
  | closing => exact ⟨rfl, _, rfl, by decide⟩

theorem Sealed.nil_iff (h : Sealed f index cs opened cs' spans) : cs' = [] ↔ cs = [] := by
  have := h.head
  cases cs <;> cases cs' <;> simp_all

/-- Marks end with a low line where expressions and braces end with a brace. -/
theorem Sealed.last (h : Sealed f index cs opened cs' spans) :
    cs'.getLast? = cs.getLast? ∨ (cs'.getLast? = some '_' ∧ ∃ c, cs.getLast? = some c ∧ isBrace c = true) := by
  have happend {m xs cs cs' : List Char} (hiff : cs' = [] ↔ cs = []) (hm : m.getLast? = some '_')
      (hxs : ∃ c, xs.getLast? = some c ∧ isBrace c = true)
      (ih : cs'.getLast? = cs.getLast? ∨ (cs'.getLast? = some '_' ∧ ∃ c, cs.getLast? = some c ∧ isBrace c = true)) :
      (m ++ cs').getLast? = (xs ++ cs).getLast? ∨
        ((m ++ cs').getLast? = some '_' ∧ ∃ c, (xs ++ cs).getLast? = some c ∧ isBrace c = true) := by
    by_cases hnil : cs = []
    · rw [hnil, hiff.2 hnil, List.append_nil, List.append_nil]
      exact .inr ⟨hm, hxs⟩
    · rwa [List.getLast?_append_of_ne_nil _ hnil, List.getLast?_append_of_ne_nil _ (fun h => hnil (hiff.1 h))]
  induction h with
  | nil => exact .inl rfl
  | @char index c cs opened cs' spans more ih =>
    by_cases hnil : cs = []
    · rw [hnil, more.nil_iff.2 hnil]
      exact .inl rfl
    · rw [List.getLast?_cons_of_ne_nil hnil, List.getLast?_cons_of_ne_nil (fun h => hnil (more.nil_iff.1 h))]
      exact ih
  | bracket hb more ih => exact happend more.nil_iff hb.last.1 hb.last.2 ih
  | line hspan hline more ih => exact happend more.nil_iff (getLast?_mark _) ⟨_, hspan.last, by decide⟩ ih

/-! ## Block scalars -/

open ScalarText (isLineBreak blockHints)

/-- Whether the last two characters of a text are line breaks. -/
def lastBreaks (cs : List Char) : List Bool := (cs.reverse.map isLineBreak).take 2

theorem lastBreaks_append (xs ys : List Char) :
    lastBreaks (xs ++ ys) = (lastBreaks ys ++ lastBreaks xs).take 2 := by
  simp only [lastBreaks, List.reverse_append, List.map_append]
  generalize ys.reverse.map isLineBreak = a
  generalize xs.reverse.map isLineBreak = b
  rcases a with _ | ⟨x, _ | ⟨y, a⟩⟩ <;> rcases b with _ | ⟨z, _ | ⟨w, b⟩⟩ <;> simp

theorem lastBreaks_fixed {cs : List Char} (h : ∀ c ∈ cs, isBrace c = true ∨ isMarkChar c = true)
    (hl : 2 ≤ cs.length) : lastBreaks cs = [false, false] := by
  have hall : ∀ b ∈ cs.reverse.map isLineBreak, b = false := by
    intro b hb
    obtain ⟨c, hc, rfl⟩ := List.mem_map.1 hb
    exact isLineBreak_fixed (h c (List.mem_reverse.1 hc))
  have hrep := List.eq_replicate_of_mem hall
  rw [lastBreaks, hrep]
  simp only [List.length_map, List.length_reverse, List.take_replicate, Nat.min_eq_left hl]
  rfl

theorem Sealed.lastBreaks (h : Sealed f index cs opened cs' spans) : lastBreaks cs' = lastBreaks cs := by
  induction h with
  | nil => rfl
  | @char index c cs opened cs' spans more ih =>
    rw [← List.singleton_append, lastBreaks_append, ih, ← lastBreaks_append, List.singleton_append]
  | bracket hb more ih =>
    rw [lastBreaks_append, lastBreaks_append, ih, lastBreaks_fixed (fun c hc => .inl (hb.marks.1 c hc)),
      lastBreaks_fixed (fun c hc => .inr (hb.marks.2 c hc))]
    all_goals cases hb <;> decide
  | @line index span cs opened cs' spans hspan hline more ih =>
    have hlong : 2 ≤ (mark index).length := by
      rw [mark, List.length_append, List.length_append]
      have : markEnd.length = 2 := by decide
      omega
    have hspan' : Protected.lastBreaks span = [false, false] := by
      obtain ⟨body, rfl, -⟩ := hspan
      rw [lastBreaks_append, lastBreaks_fixed (fun c hc => .inl (braces_closing c hc)) (by decide)]
      rfl
    rw [lastBreaks_append, lastBreaks_append, ih, lastBreaks_fixed (fun c hc => .inr (marks_mark _ c hc)) hlong,
      hspan']

theorem blockHints_lastBreaks (cs : List Char) :
    blockHints cs = (if cs.head?.any fun c => c = ' ' || isLineBreak c then ['2'] else []) ++
      match Protected.lastBreaks cs with
      | [] => []
      | false :: _ => ['-']
      | [true] => ['+']
      | true :: b :: _ => if b then ['+'] else [] := by
  rw [blockHints, Protected.lastBreaks]
  rcases cs.reverse with _ | ⟨x, _ | ⟨y, a⟩⟩
  · rfl
  · cases hx : isLineBreak x <;> simp [hx]
  · cases hx : isLineBreak x <;> cases hy : isLineBreak y <;> simp [hx, hy]

theorem Sealed.blockHints (h : Sealed f index cs opened cs' spans) : blockHints cs' = blockHints cs := by
  have hhead : (cs'.head?.any fun c => c = ' ' || isLineBreak c) = cs.head?.any fun c => c = ' ' || isLineBreak c := by
    rcases h.head with heq | ⟨hmark, c, hc, hbrace⟩
    · rw [heq]
    · have hspace : c ≠ ' ' := by
        rintro rfl
        cases hbrace
      rw [hmark, hc]
      simp [isLineBreak_fixed (.inl hbrace), hspace]
      decide
  rw [blockHints_lastBreaks, blockHints_lastBreaks, hhead, h.lastBreaks]

theorem Sealed.opener (h : Sealed f index cs opened cs' spans) (n : Nat) (style : Style) :
    opener n cs' style = opener n cs style := by
  have hany : cs'.head?.any (!isLineBreak ·) = cs.head?.any (!isLineBreak ·) := (any_break h.head_break).2
  cases style <;> simp only [Yaml.opener, h.blockHints, hany]

theorem Sealed.endsLine (h : Sealed f index cs opened cs' spans) (n : Nat) (style : Style) :
    (writtenIn n cs' style).endsLine = (writtenIn n cs style).endsLine := by
  have hlast : cs'.getLast?.any isLineBreak = cs.getLast?.any isLineBreak := by
    rcases h.last with heq | ⟨hmark, c, hc, hbrace⟩
    · rw [heq]
    · rw [hmark, hc]
      simp [isLineBreak_fixed (.inl hbrace)]
      decide
  cases style with
  | plain | single | double => rfl
  | literal | folded => exact hlast

/-! ## Fitting a style -/

theorem straight_markChar {c : Char} (h : isMarkChar c = true) :
    isStraight c = true ∧ isAllowed c = true ∧ c ≠ '\t' ∧ c ≠ ' ' := by
  obtain ⟨hl, hu, -⟩ := fixed_range (.inr h)
  obtain ⟨hs, ha⟩ := ScalarText.straight_of_ascii hl hu
  refine ⟨hs, ha, ?_, ?_⟩
  · rintro rfl
    exact absurd hl (by decide)
  · rintro rfl
    exact absurd h (by decide)

theorem isPrefixOf_triple {x : Char} (hx : isMarkChar x = false) (h : Sealed f index cs opened cs' spans)
    (hcs : [x, x, x].isPrefixOf cs = false) : [x, x, x].isPrefixOf cs' = false := by
  have hone (n : Nat) {index : Nat} {cs opened cs' : List Char} {spans : List (List Char)}
      (h : Sealed f index cs opened cs' spans) (hp : List.replicate n x <+: cs') : List.replicate n x <+: cs := by
    induction n generalizing index cs opened cs' spans with
    | zero => exact List.nil_prefix
    | succ n ih =>
      rw [List.replicate_succ] at hp ⊢
      cases h with
      | nil => exact hp
      | char more =>
        obtain ⟨rfl, hp'⟩ := List.cons_prefix_cons.1 hp
        exact (List.prefix_cons_inj x).2 (ih more hp')
      | bracket hb more =>
        cases hb with
        | opening | closing =>
          have := (List.cons_prefix_cons.1 hp).1
          rw [this] at hx
          exact absurd hx (by decide)
      | line hspan hline more =>
        have := (List.cons_prefix_cons.1 hp).1
        rw [this] at hx
        exact absurd hx (by decide)
  rw [Bool.eq_false_iff, ne_eq, List.isPrefixOf_iff_prefix] at hcs ⊢
  exact fun hp => hcs (hone 3 h hp)

/-- Behind its first character a text with marks goes on as the text does, or with a mark. -/
theorem Sealed.start (h : Sealed f index cs opened cs' spans) {c : Char} {rest' : List Char} (hc : cs' = c :: rest') :
    c = '_' ∨ ∃ rest, cs = c :: rest ∧ (rest'.head? = rest.head? ∨ rest'.head? = some '_') := by
  cases h with
  | nil => cases hc
  | char more =>
    cases hc
    exact .inr ⟨_, rfl, more.head.imp id And.left⟩
  | bracket hb =>
    cases hb with
    | opening | closing => exact .inl (List.cons.inj hc).1.symm
  | line => exact .inl (List.cons.inj hc).1.symm

theorem Sealed.isPlain (h : Sealed f index cs opened cs' spans) (hcs : IsPlain cs) : IsPlain cs' := by
  constructor
  · constructor
    · exact h.all hcs.text.straight fun c hc => ⟨(straight_markChar hc).1, (straight_markChar hc).2.2.1⟩
    · obtain ⟨c, rest, hcons, hspace, hhash⟩ := hcs.text.first
      have hne : cs' ≠ [] := by
        rw [ne_eq, h.nil_iff, hcons]
        exact List.cons_ne_nil c rest
      obtain ⟨x, rest', hx⟩ := List.exists_cons_of_ne_nil hne
      refine ⟨x, rest', hx, ?_⟩
      rcases h.start hx with rfl | ⟨more, hmore, -⟩
      · decide
      · rw [hcons, List.cons.injEq] at hmore
        rw [← hmore.1]
        exact ⟨hspace, hhash⟩
    · rcases h.last with heq | ⟨hmark, -⟩
      · rw [heq]
        exact hcs.text.last
      · rw [hmark]
        decide
    · exact h.chain hcs.text.colon fun x y hxy => by
        rintro ⟨rfl, rfl⟩
        revert hxy
        decide
    · exact h.chain hcs.text.comment fun x y hxy => by
        rintro ⟨rfl, rfl⟩
        revert hxy
        decide
  · rintro c rest' rfl
    rcases h.start rfl with rfl | ⟨rest, hrest, hnext⟩
    · refine ⟨by decide, fun hc => ?_⟩
      rcases hc with hc | hc | hc <;> exact absurd hc (by decide)
    · obtain ⟨hlist, hsecond⟩ := hcs.start c rest hrest
      refine ⟨hlist, fun hc => ?_⟩
      obtain ⟨d, more, rfl, hd⟩ := hsecond hc
      cases rest' with
      | nil => rcases hnext with hnext | hnext <;> cases hnext
      | cons e more' =>
        refine ⟨e, more', rfl, ?_⟩
        rcases hnext with hnext | hnext
        · cases hnext
          exact hd
        · cases hnext
          decide
  · exact ⟨isPrefixOf_triple (by decide) h hcs.noMark.1, isPrefixOf_triple (by decide) h hcs.noMark.2⟩

theorem isBreak_markChar {c : Char} (h : isMarkChar c = true) : isBreak c = false :=
  ScalarText.isBreak_of_straight (straight_markChar h).1

theorem Sealed.isSingleText (h : Sealed f index cs opened cs' spans) (hcs : IsSingleText cs) : IsSingleText cs' := by
  constructor
  · refine h.all hcs.breaks fun c hc => ⟨(straight_markChar hc).2.2.1, fun hb => ?_⟩
    rw [isBreak_markChar hc] at hb
    cases hb
  · refine h.chain hcs.before fun x y hxy => ?_
    rintro ⟨rfl, hy⟩
    rcases hxy with hx | hmark
    · revert hx
      decide
    · rw [isBreak_markChar hmark] at hy
      cases hy
  · refine h.chain hcs.behind fun x y hxy => ?_
    rintro ⟨hx, rfl⟩
    rcases hxy with hmark | hy
    · rw [isBreak_markChar hmark] at hx
      cases hx
    · revert hy
      decide

theorem Sealed.fits (h : Sealed f index cs opened cs' spans) {style : Style} (hcs : Fits cs style) : Fits cs' style := by
  cases style with
  | plain => exact h.isPlain hcs
  | single => exact h.isSingleText hcs
  | double => trivial
  | literal =>
    obtain ⟨hblock, hne⟩ := hcs
    exact ⟨h.all hblock fun c hc => .inl (straight_markChar hc).1, fun hnil => hne (h.nil_iff.1 hnil)⟩
  | folded => exact hcs.elim

theorem Sealed.writable (h : Sealed f index cs opened cs' spans) {style : Style} (hcs : Draft.Writable cs style) :
    Draft.Writable cs' style :=
  ⟨h.fits hcs.fits, hcs.allowed.imp id fun ha => h.all ha fun _ hc => (straight_markChar hc).2.1⟩

end Sealed

/-! ## Taking expressions out of what is written -/

theorem opener_pass (n : Nat) (cs : List Char) (style : Style) : ∀ c ∈ opener n cs style, c ≠ '$' := by
  have hhints : ∀ c ∈ ScalarText.blockHints cs, c ≠ '$' := by
    have hall : ∀ c ∈ ['2', '-', '+'], c ≠ '$' := forall_mem_of_all (by decide)
    exact fun c hc => hall c (ScalarText.mem_blockHints hc)
  have hspaces (condition : Bool) : ∀ c ∈ (if condition then List.replicate n ' ' else []), c ≠ '$' := by
    cases condition with
    | true =>
      intro c hc
      rw [show c = ' ' from List.eq_of_mem_replicate hc]
      decide
    | false => exact fun c hc => absurd hc List.not_mem_nil
  have hliteral : ∀ c ∈ opener n cs .literal, c ≠ '$' :=
    List.forall_mem_append.2 ⟨List.forall_mem_cons.2 ⟨by decide, hhints⟩,
      List.forall_mem_cons.2 ⟨by decide, hspaces _⟩⟩
  cases style with
  | plain => exact fun c hc => absurd hc List.not_mem_nil
  | single => exact List.forall_mem_singleton.2 (by decide)
  | double => exact List.forall_mem_singleton.2 (by decide)
  | literal => exact hliteral
  | folded => exact hliteral

theorem closer_pass (style : Style) : ∀ c ∈ closer style, c ≠ '$' := by
  cases style <;> exact forall_mem_of_all (by decide)

/-- No braces that end a scalar go on behind it. -/
theorem apart_followed (n : Nat) (cs : List Char) (style : Style) (k : Nat) (rest : List Char) :
    Apart cs (closer style ++ Cursor.lineTail (writtenIn n cs style).endsLine k rest) := by
  have hliteral : Apart cs (Cursor.lineTail (ScalarText.literal n cs).endsLine k rest) := by
    intro c hlast hc
    have hbreak : ScalarText.isLineBreak c = false := by
      rcases hc with rfl | rfl <;> decide
    have hends : (ScalarText.literal n cs).endsLine = false := by
      simp [ScalarText.literal, hlast, hbreak]
    rw [hends]
    simp [Cursor.lineTail]
  cases style with
  | plain | single | double =>
    intro c _ _
    simp [closer, writtenIn, ScalarText.single, ScalarText.double, Cursor.lineTail]
  | literal => exact hliteral
  | folded => exact hliteral

theorem apart_closer (cs : List Char) (style : Style) {rest : List Char} (h : rest.head? ≠ some '\x7b') :
    Apart cs (closer style ++ rest) := by
  intro c _ _
  cases style with
  | single | double => simp [closer]
  | plain | literal | folded => exact h

/-- The expressions of a scalar are taken out of what is written of it: what is left is written of the text
with marks. -/
theorem exists_sealed_written (n : Nat) (style : Style) {cs : List Char} (hclosed : Closed cs) (index : Nat) :
    ∃ opened cs' spans, Sealed (styleEncoder n style) index cs opened cs' spans ∧
      ∀ rest, Apart cs (closer style ++ rest) →
        protectFrom 0 index ((writtenIn n cs style).text ++ rest) =
          ((writtenIn n cs' style).text ++ (protectFrom 0 (index + spans.length) rest).1,
            spans ++ (protectFrom 0 (index + spans.length) rest).2) := by
  obtain ⟨opened, cs', spans, hsealed, hprotect⟩ := exists_sealed (isLocal_styleEncoder n style) hclosed index
  refine ⟨opened, cs', spans, hsealed, fun rest ha => ?_⟩
  rw [written_encode, written_encode, hsealed.opener, List.append_assoc, List.append_assoc,
    protectFrom_pass (opener_pass n cs style), hprotect none _ ha, protectFrom_pass (closer_pass style)]
  simp only [List.append_assoc]

end Protected

end PipelineTemplate.Yaml
