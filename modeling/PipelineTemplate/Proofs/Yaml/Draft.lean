import PipelineTemplate.Proofs.Yaml.Scalar.Token
import PipelineTemplate.Yaml.Outline

/-!
# Drafts

A draft is an outline of which it is settled how each scalar is written. It is laid out as outlines are,
and the tokens of the layout are those that its form asks for: by induction on the draft, a part of the
layout is read from its first character up to the token behind it.
-/

namespace PipelineTemplate.Yaml

/-- A key: its text, how it is written, and whether it stands before a colon on one line. -/
structure DraftKey where
  style : Style
  text : List Char
  simple : Bool

inductive Draft where
  | scalar (style : Style) (text : List Char)
  | sequence (items : List Draft)
  | mapping (entries : List (DraftKey × Draft))

namespace Draft

open Reader (scalarToken)

/-- Whether the draft takes lines of its own. -/
def isBlock : Draft → Bool
  | .scalar .. => false
  | .sequence items => !items.isEmpty
  | .mapping entries => !entries.isEmpty

mutual

/-- The layout, from a line that is indented already. -/
def block (indent : Nat) : Draft → Written
  | .scalar style text => writtenIn indent text style
  | .sequence items =>
    match blockItems indent items with
    | [] => ⟨['[', ']'], false, false⟩
    | first :: others => Outline.stacked indent first others
  | .mapping entries =>
    match blockEntries indent entries with
    | [] => ⟨['\x7b', '\x7d'], false, false⟩
    | first :: others => Outline.stacked indent first others

def blockItems (indent : Nat) : List Draft → List Written
  | [] => []
  | item :: items => Outline.behind ['-', ' '] (block (indent + 2) item) :: blockItems indent items

def blockEntries (indent : Nat) : List (DraftKey × Draft) → List Written
  | [] => []
  | (key, value) :: entries =>
    Outline.entry indent key.simple value.isBlock (writtenIn (indent + 2) key.text key.style)
      (block (indent + 2) value) :: blockEntries indent entries

end

mutual

/-- The tokens of a draft. -/
def tokens : Draft → List Token
  | .scalar style text => [scalarToken style text]
  | .sequence [] => [.mark .openSequence, .mark .closeSequence]
  | .sequence (item :: items) =>
    .mark .blockSequence :: itemTokens (item :: items) ++ [.mark .blockEnd]
  | .mapping [] => [.mark .openMapping, .mark .closeMapping]
  | .mapping (entry :: entries) =>
    .mark .blockMapping :: entryTokens (entry :: entries) ++ [.mark .blockEnd]

def itemTokens : List Draft → List Token
  | [] => []
  | item :: items => .mark .blockEntry :: tokens item ++ itemTokens items

def entryTokens : List (DraftKey × Draft) → List Token
  | [] => []
  | (key, value) :: entries =>
    .mark .key :: scalarToken key.style key.text :: .mark .value :: tokens value ++ entryTokens entries

end

/-- Whether a text can be written in a style: it is read back, and outside of quotation marks its
characters may stand in a document. -/
structure Writable (text : List Char) (style : Style) : Prop where
  fits : Fits text style
  allowed : style = .double ∨ ∀ c ∈ text, isAllowed c = true

mutual

/-- Whether all scalars can be written as the draft says, at an indentation. -/
def Valid (indent : Nat) : Draft → Prop
  | .scalar style text => Writable text style
  | .sequence items => ValidItems indent items
  | .mapping entries => ValidEntries indent entries

def ValidItems (indent : Nat) : List Draft → Prop
  | [] => True
  | item :: items => Valid (indent + 2) item ∧ ValidItems indent items

def ValidEntries (indent : Nat) : List (DraftKey × Draft) → Prop
  | [] => True
  | (key, value) :: entries =>
    Writable key.text key.style ∧ (key.simple = true → Reader.IsKey (indent + 2) key.text key.style) ∧
      Valid (indent + 2) value ∧ ValidEntries indent entries

end

end Draft

/-! ## Layout -/

/-- A part with the rest of its line and the indentation of the next. -/
def Written.followed (w : Written) (k : Nat) (rest : List Char) : List Char :=
  w.text ++ Cursor.lineTail w.endsLine k rest

namespace Outline

theorem followed_behind (start : List Char) (w : Written) (k : Nat) (rest : List Char) :
    (behind start w).followed k rest = start ++ w.followed k rest :=
  List.append_assoc _ _ _

theorem followed_above (n : Nat) (first second : Written) (k : Nat) (rest : List Char) :
    (above n first second).followed k rest = first.followed n (second.followed k rest) := by
  simp [above, Written.followed, Cursor.lineTail]

theorem above_assoc (n : Nat) (u v w : Written) :
    above n (above n u v) w = above n u (above n v w) := by
  simp [above]

/-- The first of several parts stands above the others. -/
theorem stacked_cons (n : Nat) (first second : Written) (others : List Written) :
    stacked n first (second :: others) = above n first (stacked n second others) := by
  rw [stacked, List.foldl_cons, stacked]
  induction others generalizing second with
  | nil => rfl
  | cons other others ih => rw [List.foldl_cons, List.foldl_cons, above_assoc, ih]

theorem stacked_nil (n : Nat) (first : Written) : stacked n first [] = first := rfl

theorem stacked_followed (n : Nat) (first : Written) (others : List Written) (k : Nat) (rest : List Char) :
    ∃ l more, (stacked n first others).followed k rest = first.followed l more := by
  cases others with
  | nil => exact ⟨k, rest, rfl⟩
  | cons second others =>
    rw [stacked_cons, followed_above]
    exact ⟨n, _, rfl⟩

section Entry

variable (n : Nat) (key value : Written) (k : Nat) (rest : List Char)

theorem followed_entry_inline : (entry n true false key value).followed k rest =
    key.text ++ ':' :: ' ' :: value.followed k rest := by
  simp [entry, behind, Written.followed]

theorem followed_entry_below : (entry n true true key value).followed k rest =
    key.text ++ ':' :: Cursor.lineTail false (n + 2) (value.followed k rest) := by
  rw [entry, if_pos rfl, if_pos rfl, followed_above]
  simp [Written.followed]

theorem followed_entry_marked (blockValue : Bool) : (entry n false blockValue key value).followed k rest =
    '?' :: ' ' :: key.followed n (':' :: ' ' :: value.followed k rest) := by
  simp [entry, followed_above, followed_behind]

end Entry

end Outline

theorem begins_written {cs : List Char} {style : Style} (h : Fits cs style) (n : Nat) (rest : List Char) :
    Begins ((writtenIn n cs style).text ++ rest) := by
  cases style with
  | plain =>
    obtain ⟨c, more, rfl, hspace, hhash⟩ := (h : IsPlain cs).text.first
    exact begins_cons.2 ⟨((h : IsPlain (c :: more)).text.straight c (by simp)).1, hspace, hhash⟩
  | single => exact begins_cons.2 (by decide)
  | double => exact begins_cons.2 (by decide)
  | literal => exact begins_cons.2 (by decide)
  | folded => exact h.elim

namespace Draft

theorem block_sequence (n : Nat) (item : Draft) (items : List Draft) :
    block n (.sequence (item :: items)) =
      Outline.stacked n (Outline.behind ['-', ' '] (block (n + 2) item)) (blockItems n items) := by
  rw [block, blockItems]

theorem block_mapping (n : Nat) (key : DraftKey) (value : Draft) (entries : List (DraftKey × Draft)) :
    block n (.mapping ((key, value) :: entries)) =
      Outline.stacked n (Outline.entry n key.simple value.isBlock (writtenIn (n + 2) key.text key.style)
        (block (n + 2) value)) (blockEntries n entries) := by
  rw [block, blockEntries]

theorem begins_entry {n : Nat} {key : DraftKey} (h : Fits key.text key.style) (blockValue : Bool)
    (value : Written) (k : Nat) (rest : List Char) :
    Begins ((Outline.entry n key.simple blockValue (writtenIn (n + 2) key.text key.style) value).followed
      k rest) := by
  cases key.simple with
  | true =>
    cases blockValue with
    | true =>
      rw [Outline.followed_entry_below]
      exact begins_written h _ _
    | false =>
      rw [Outline.followed_entry_inline]
      exact begins_written h _ _
  | false =>
    rw [Outline.followed_entry_marked]
    exact begins_cons.2 (by decide)

/-- A part begins with a character that no indentation or comment begins with. -/
theorem begins_block {n : Nat} {d : Draft} (h : Valid n d) (k : Nat) (rest : List Char) :
    Begins ((block n d).followed k rest) := by
  match d with
  | .scalar style text =>
    rw [block]
    rw [Valid] at h
    exact begins_written h.fits n _
  | .sequence [] => exact begins_cons.2 (by decide)
  | .sequence (item :: items) =>
    rw [block_sequence]
    obtain ⟨l, more, hfirst⟩ := Outline.stacked_followed n
      (Outline.behind ['-', ' '] (block (n + 2) item)) (blockItems n items) k rest
    rw [hfirst, Outline.followed_behind]
    exact begins_cons.2 (by decide)
  | .mapping [] => exact begins_cons.2 (by decide)
  | .mapping ((key, value) :: entries) =>
    rw [block_mapping]
    obtain ⟨l, more, hfirst⟩ := Outline.stacked_followed n
      (Outline.entry n key.simple value.isBlock (writtenIn (n + 2) key.text key.style) (block (n + 2) value))
      (blockEntries n entries) k rest
    rw [hfirst]
    rw [Valid, ValidEntries] at h
    exact begins_entry h.1.fits _ _ l more

/-! ## Reading a layout -/

open Reader

variable {rest : List Char} {n k : Nat} {i : Int} {is : List Int} {toks : List Token}

/-- A part on one line. -/
theorem runs_inline {m : Nat} {d : Draft} {ka : Bool} (hd : d.isBlock = false) (hvalid : Valid m d) {a : Reader}
    (h : Stands a ((block m d).followed k rest) n (i :: is) toks ka)
    (hi : i < n) (hm : m = max (i + 1).toNat 1 + 1) (hk : k < m) (hrest : Begins rest)
    (hnext : (k : Int) ≤ i ∨ (k = 0 ∧ Cursor.atDocumentMark ⟨rest, 0, 0, 0⟩ = true) ∨
      ∀ text, d ≠ .scalar .plain text) :
    ∃ b, Runs a b ∧ Stands b rest k (openAt k (i :: is))
      (blockEnds k (i :: is) ++ (tokens d).reverse ++ toks) true := by
  match d with
  | .scalar style text =>
    rw [block] at h
    rw [Valid] at hvalid
    obtain ⟨b, hmove, hb⟩ := moves_scalar hvalid.fits h hi hm hk hrest (by
      rintro rfl
      rcases hnext with hle | hmark | hne
      · exact Or.inl hle
      · exact Or.inr hmark
      · exact absurd rfl (hne text))
    refine ⟨b, .single hmove, ?_⟩
    simpa [tokens] using hb
  | .sequence [] =>
    obtain ⟨b, hruns, hb⟩ := @runs_brackets _ rest _ _ _ _ _ _ _ _ _ .sequence k h hi hrest
    refine ⟨b, hruns, ?_⟩
    simpa [tokens] using hb
  | .mapping [] =>
    obtain ⟨b, hruns, hb⟩ := @runs_brackets _ rest _ _ _ _ _ _ _ _ _ .mapping k h hi hrest
    refine ⟨b, hruns, ?_⟩
    simpa [tokens] using hb
  | .sequence (item :: items) => simp [isBlock] at hd
  | .mapping (entry :: entries) => simp [isBlock] at hd

/-- What the last of several parts leaves open, and what it ends. -/
theorem opened_cons (n : Nat) {i : Int} {is : List Int} (hi : i ≤ n) :
    ∃ js, opened n (i :: is) = (n : Int) :: js := by
  by_cases h : i < n
  · exact ⟨i :: is, opened_of_lt h⟩
  · have : i = n := by omega
    subst this
    exact ⟨is, opened_self⟩

/-- A part is read up to the token behind it, which stands further to the left. A block begins at its
indentation, where a key may begin. -/
def Readable (d : Draft) : Prop :=
  ∀ (m n k : Nat) (i : Int) (is : List Int) (rest : List Char) (toks : List Token) (ka : Bool) (a : Reader),
    Valid m d → Stands a ((block m d).followed k rest) n (i :: is) toks ka → i < n →
    m = max (i + 1).toNat 1 + 1 → (d.isBlock = true → m = n ∧ ka = true) → (k : Int) ≤ i → Begins rest →
    ∃ b, Runs a b ∧ Stands b rest k (openAt k (i :: is))
      (blockEnds k (i :: is) ++ (tokens d).reverse ++ toks) true

theorem readable_inline {d : Draft} (hd : d.isBlock = false) : Readable d := by
  intro m n k i is rest toks ka a hvalid h hi hm _ hk hrest
  exact runs_inline hd hvalid h hi hm (by omega) hrest (.inl hk)

section Collection

variable {a : Reader} (hi : i ≤ n) (hk : k ≤ n) (hrest : Begins rest)
include hi hk hrest

/-- The items of a sequence. -/
theorem runs_items {item : Draft} {items : List Draft} (hread : ∀ d ∈ item :: items, Readable d)
    (hvalid : ValidItems n (item :: items))
    (h : Stands a ((Outline.stacked n (Outline.behind ['-', ' '] (block (n + 2) item))
      (blockItems n items)).followed k rest) n (i :: is) toks true) :
    ∃ b, Runs a b ∧ Stands b rest k (openAt k (opened n (i :: is)))
      (blockEnds k (opened n (i :: is)) ++ (itemTokens (item :: items)).reverse ++
        opening .blockSequence n (i :: is) ++ toks) true := by
  induction items generalizing item a i is toks with
  | nil =>
    rw [ValidItems] at hvalid
    rw [blockItems, Outline.stacked_nil, Outline.followed_behind] at h
    obtain ⟨b, hhyphen, hb⟩ := moves_indicator (by decide) h hi (begins_block hvalid.1 k rest) (readToken_hyphen h)
    obtain ⟨js, hjs⟩ := @opened_cons n _ is hi
    rw [hjs] at hb ⊢
    obtain ⟨c, hruns, hc⟩ := hread item (by simp) _ _ k _ _ rest _ _ b hvalid.1 hb (by omega) (by omega)
      (fun _ => ⟨rfl, rfl⟩) (by omega) hrest
    refine ⟨c, .head hhyphen hruns, ?_⟩
    simpa [itemTokens] using hc
  | cons second more ih =>
    rw [ValidItems] at hvalid
    rw [blockItems, Outline.stacked_cons, Outline.followed_above, Outline.followed_behind] at h
    obtain ⟨b, hhyphen, hb⟩ := moves_indicator (by decide) h hi (begins_block hvalid.1 _ _) (readToken_hyphen h)
    have hnext : Begins ((Outline.stacked n (Outline.behind ['-', ' '] (block (n + 2) second))
        (blockItems n more)).followed k rest) := by
      obtain ⟨l, after, hfirst⟩ := Outline.stacked_followed n
        (Outline.behind ['-', ' '] (block (n + 2) second)) (blockItems n more) k rest
      rw [hfirst, Outline.followed_behind]
      exact begins_cons.2 (by decide)
    obtain ⟨js, hjs⟩ := @opened_cons n _ is hi
    rw [hjs] at hb ⊢
    obtain ⟨c, hruns, hc⟩ := hread item (by simp) _ _ n _ _ _ _ _ b hvalid.1 hb (by omega) (by omega)
      (fun _ => ⟨rfl, rfl⟩) (by omega) hnext
    rw [openAt_of_le (Int.le_refl _), blockEnds_of_le (Int.le_refl _)] at hc
    obtain ⟨e, hmore, he⟩ := ih (Int.le_refl _) (fun d hd => hread d (List.mem_cons_of_mem _ hd)) hvalid.2 hc
    rw [opened_self, opening_self] at he
    refine ⟨e, .head hhyphen (hruns.trans hmore), ?_⟩
    rw [itemTokens]
    simpa using he

/-- An entry of a mapping: the value stands on the line of a simple key, on the next line, or behind a
colon of its own. -/
theorem runs_entry {key : DraftKey} {value : Draft} (hread : Readable value) (hkey : Fits key.text key.style)
    (hsimple : key.simple = true → IsKey (n + 2) key.text key.style) (hvalue : Valid (n + 2) value)
    (h : Stands a ((Outline.entry n key.simple value.isBlock (writtenIn (n + 2) key.text key.style)
      (block (n + 2) value)).followed k rest) n (i :: is) toks true) :
    ∃ b, Runs a b ∧ Stands b rest k (openAt k (opened n (i :: is)))
      (blockEnds k (opened n (i :: is)) ++
        (.mark .key :: scalarToken key.style key.text :: .mark .value :: tokens value).reverse ++
        opening .blockMapping n (i :: is) ++ toks) true := by
  obtain ⟨js, hjs⟩ := @opened_cons n _ is hi
  have hbegins := begins_block hvalue k rest
  cases hs : key.simple with
  | true =>
    cases hb : value.isBlock with
    | false =>
      rw [hs, hb, Outline.followed_entry_inline] at h
      obtain ⟨b, column, hruns, hcolumn, hstands⟩ := runs_key_inline (by omega) (hsimple hs) h hi rfl hbegins
      rw [hjs] at hstands ⊢
      obtain ⟨c, hmore, hc⟩ := hread _ _ k _ _ _ _ _ b hvalue hstands (by omega) (by omega)
        (fun hblock => by rw [hb] at hblock; cases hblock) (by omega) hrest
      refine ⟨c, hruns.trans hmore, ?_⟩
      simpa using hc
    | true =>
      rw [hs, hb, Outline.followed_entry_below] at h
      obtain ⟨b, hruns, hstands⟩ := runs_key_below (k := n + 2) (by omega) (hsimple hs) h hi (by omega)
        (lineTail_false _ _) hbegins
      rw [hjs] at hstands ⊢
      obtain ⟨c, hmore, hc⟩ := hread _ _ k _ _ _ _ _ b hvalue hstands (by omega) (by omega)
        (fun _ => ⟨rfl, rfl⟩) (by omega) hrest
      refine ⟨c, hruns.trans hmore, ?_⟩
      simpa using hc
  | false =>
    rw [hs, Outline.followed_entry_marked] at h
    obtain ⟨b, hquestion, hb⟩ := moves_indicator (by decide) h hi (begins_written hkey _ _) (readToken_question h)
    rw [hjs] at hb ⊢
    obtain ⟨c, hscalar, hc⟩ := moves_scalar hkey hb (by omega) (by omega) (by omega)
      (begins_cons.2 (by decide)) (fun _ => .inl (Int.le_refl _))
    rw [openAt_of_le (Int.le_refl _), blockEnds_of_le (Int.le_refl _)] at hc
    obtain ⟨d, hcolon, hd⟩ := moves_indicator (by decide) hc (Int.le_refl _) hbegins (readToken_colon hc)
    rw [opened_self, opening_self] at hd
    obtain ⟨e, hmore, he⟩ := hread _ _ k _ _ _ _ _ d hvalue hd (by omega) (by omega)
      (fun _ => ⟨rfl, rfl⟩) (by omega) hrest
    refine ⟨e, .head hquestion (.head hscalar (.head hcolon hmore)), ?_⟩
    simpa using he

/-- The entries of a mapping. -/
theorem runs_entries {key : DraftKey} {value : Draft} {entries : List (DraftKey × Draft)}
    (hread : ∀ e ∈ (key, value) :: entries, Readable e.2) (hvalid : ValidEntries n ((key, value) :: entries))
    (h : Stands a ((Outline.stacked n (Outline.entry n key.simple value.isBlock
      (writtenIn (n + 2) key.text key.style) (block (n + 2) value)) (blockEntries n entries)).followed k rest)
      n (i :: is) toks true) :
    ∃ b, Runs a b ∧ Stands b rest k (openAt k (opened n (i :: is)))
      (blockEnds k (opened n (i :: is)) ++ (entryTokens ((key, value) :: entries)).reverse ++
        opening .blockMapping n (i :: is) ++ toks) true := by
  induction entries generalizing key value a i is toks with
  | nil =>
    rw [ValidEntries] at hvalid
    rw [blockEntries, Outline.stacked_nil] at h
    obtain ⟨b, hruns, hb⟩ := runs_entry hi hk hrest (hread (key, value) (by simp)) hvalid.1.fits hvalid.2.1
      hvalid.2.2.1 h
    refine ⟨b, hruns, ?_⟩
    simpa [entryTokens] using hb
  | cons second more ih =>
    rw [ValidEntries] at hvalid
    rw [blockEntries, Outline.stacked_cons, Outline.followed_above] at h
    have hnext : Begins ((Outline.stacked n (Outline.entry n second.1.simple second.2.isBlock
        (writtenIn (n + 2) second.1.text second.1.style) (block (n + 2) second.2))
        (blockEntries n more)).followed k rest) := by
      obtain ⟨l, after, hfirst⟩ := Outline.stacked_followed n
        (Outline.entry n second.1.simple second.2.isBlock (writtenIn (n + 2) second.1.text second.1.style)
          (block (n + 2) second.2)) (blockEntries n more) k rest
      have hsecond := hvalid.2.2.2
      rw [ValidEntries] at hsecond
      rw [hfirst]
      exact begins_entry hsecond.1.fits _ _ _ _
    obtain ⟨b, hruns, hb⟩ := runs_entry hi (Nat.le_refl n) hnext (hread (key, value) (by simp)) hvalid.1.fits
      hvalid.2.1 hvalid.2.2.1 h
    obtain ⟨js, hjs⟩ := @opened_cons n _ is hi
    rw [hjs, openAt_of_le (Int.le_refl _), blockEnds_of_le (Int.le_refl _)] at hb
    obtain ⟨e, hmore, he⟩ := ih (Int.le_refl _) (fun d hd => hread d (List.mem_cons_of_mem _ hd)) hvalid.2.2.2 hb
    rw [opened_self, opening_self] at he
    refine ⟨e, hruns.trans hmore, ?_⟩
    rw [hjs, entryTokens]
    simpa using he

end Collection

theorem readable_sequence {items : List Draft} (h : ∀ d ∈ items, Readable d) : Readable (.sequence items) := by
  cases items with
  | nil => exact readable_inline rfl
  | cons item items =>
    intro m n k i is rest toks ka a hvalid hstands hi hm hblock hk hrest
    obtain ⟨rfl, rfl⟩ := hblock rfl
    rw [block_sequence] at hstands
    rw [Valid] at hvalid
    obtain ⟨b, hruns, hb⟩ := runs_items (by omega) (by omega) hrest h hvalid hstands
    rw [opened_of_lt hi, openAt_of_lt (by omega), blockEnds_of_lt (by omega), opening_of_lt hi] at hb
    refine ⟨b, hruns, ?_⟩
    simpa [tokens] using hb

theorem readable_mapping {entries : List (DraftKey × Draft)} (h : ∀ e ∈ entries, Readable e.2) :
    Readable (.mapping entries) := by
  cases entries with
  | nil => exact readable_inline rfl
  | cons entry entries =>
    intro m n k i is rest toks ka a hvalid hstands hi hm hblock hk hrest
    obtain ⟨rfl, rfl⟩ := hblock rfl
    rw [block_mapping] at hstands
    rw [Valid] at hvalid
    obtain ⟨b, hruns, hb⟩ := runs_entries (by omega) (by omega) hrest h hvalid hstands
    rw [opened_of_lt hi, openAt_of_lt (by omega), blockEnds_of_lt (by omega), opening_of_lt hi] at hb
    refine ⟨b, hruns, ?_⟩
    simpa [tokens] using hb

mutual

theorem readable : ∀ d : Draft, Readable d
  | .scalar .. => readable_inline rfl
  | .sequence items => readable_sequence (readable_items items)
  | .mapping entries => readable_mapping (readable_entries entries)

theorem readable_items : ∀ items : List Draft, ∀ d ∈ items, Readable d
  | [] => fun _ hd => absurd hd List.not_mem_nil
  | item :: items => List.forall_mem_cons.2 ⟨readable item, readable_items items⟩

theorem readable_entries : ∀ entries : List (DraftKey × Draft), ∀ e ∈ entries, Readable e.2
  | [] => fun _ he => absurd he List.not_mem_nil
  | (_, value) :: entries => List.forall_mem_cons.2 ⟨readable value, readable_entries entries⟩

end

end Draft

end PipelineTemplate.Yaml
