import PipelineTemplate.Proofs.Yaml.Protected.Written

/-!
# Expressions taken out of what is laid out

Expressions are taken out of the parts of a document one by one: what stands between the parts has no
expressions in it. So the layout of parts with marks is what is left of the layout of the parts.
-/

namespace PipelineTemplate.Yaml

namespace Protected

/-- Taking the expressions out of a part, with what follows it, leaves another part. -/
def Protects (index : Nat) (w w' : Written) (spans : List (List Char)) : Prop :=
  ∀ k rest, protectFrom 0 index (w.followed k rest) =
    (w'.followed k (protectFrom 0 (index + spans.length) rest).1,
      spans ++ (protectFrom 0 (index + spans.length) rest).2)

/-- The same for several parts in turn. -/
inductive ProtectsAll : Nat → List Written → List Written → List (List Char) → Prop
  | nil {index : Nat} : ProtectsAll index [] [] []
  | cons {index : Nat} {w w' : Written} {ws ws' : List Written} {spans more : List (List Char)}
      (first : Protects index w w' spans) (others : ProtectsAll (index + spans.length) ws ws' more) :
      ProtectsAll index (w :: ws) (w' :: ws') (spans ++ more)

theorem pass_spaces (n : Nat) : ∀ c ∈ List.replicate n ' ', c ≠ '$' := by
  intro c hc
  rw [List.eq_of_mem_replicate hc]
  decide

theorem pass_lineTail (endsLine : Bool) (k : Nat) : ∀ c ∈ Cursor.lineTail endsLine k [], c ≠ '$' := by
  rw [Cursor.lineTail, List.append_nil]
  refine List.forall_mem_append.2 ⟨?_, pass_spaces k⟩
  cases endsLine <;> exact forall_mem_of_all (by decide)

theorem lineTail_append (endsLine : Bool) (k : Nat) (rest : List Char) :
    Cursor.lineTail endsLine k rest = Cursor.lineTail endsLine k [] ++ rest := by
  simp [Cursor.lineTail]

/-- The rest of a line and the indentation of the next have no expressions. -/
theorem protectFrom_lineTail (endsLine : Bool) (k index : Nat) (rest : List Char) :
    protectFrom 0 index (Cursor.lineTail endsLine k rest) =
      (Cursor.lineTail endsLine k (protectFrom 0 index rest).1, (protectFrom 0 index rest).2) := by
  rw [lineTail_append, protectFrom_pass (pass_lineTail endsLine k), ← lineTail_append]

section Parts

variable {index : Nat} {w w' v v' : Written} {spans more : List (List Char)}

/-- A part without dollar signs is left as it is. -/
theorem Protects.of_pass (h : ∀ c ∈ w.text, c ≠ '$') : Protects index w w [] := by
  intro k rest
  rw [Written.followed, protectFrom_pass h, protectFrom_lineTail]
  rfl

theorem Protects.behind {start : List Char} (hs : ∀ c ∈ start, c ≠ '$') (h : Protects index w w' spans) :
    Protects index (Outline.behind start w) (Outline.behind start w') spans := by
  intro k rest
  rw [Outline.followed_behind, protectFrom_pass hs, h k rest, Outline.followed_behind]

theorem Protects.above (n : Nat) (h : Protects index w w' spans) (hv : Protects (index + spans.length) v v' more) :
    Protects index (Outline.above n w v) (Outline.above n w' v') (spans ++ more) := by
  intro k rest
  rw [Outline.followed_above, h n, hv k rest, Outline.followed_above, List.append_assoc, List.length_append,
    Nat.add_assoc]

theorem ProtectsAll.stacked (n : Nat) {ws ws' : List Written} (h : ProtectsAll index (w :: ws) (w' :: ws') spans) :
    Protects index (Outline.stacked n w ws) (Outline.stacked n w' ws') spans := by
  induction ws generalizing index w w' ws' spans with
  | nil =>
    cases h with
    | cons first others =>
      cases others
      rwa [List.append_nil]
  | cons v ws ih =>
    cases h with
    | cons first others =>
      cases ws' with
      | nil => cases others
      | cons v' ws' =>
        rw [Outline.stacked_cons, Outline.stacked_cons]
        exact first.above n (ih others)

/-- Taking the expressions out of a key, before its colon, leaves another key. -/
def ProtectsKey (index : Nat) (key key' : List Char) (spans : List (List Char)) : Prop :=
  ∀ rest, rest.head? ≠ some '\x7b' → protectFrom 0 index (key ++ rest) =
    (key' ++ (protectFrom 0 (index + spans.length) rest).1,
      spans ++ (protectFrom 0 (index + spans.length) rest).2)

theorem ProtectsKey.colon {key key' : List Char} (h : ProtectsKey index key key' spans) (rest : List Char) :
    protectFrom 0 index (key ++ ':' :: rest) =
      (key' ++ ':' :: (protectFrom 0 (index + spans.length) rest).1,
        spans ++ (protectFrom 0 (index + spans.length) rest).2) := by
  rw [h _ (by simp), protectFrom_char fun hp => absurd (opening_cons hp) (by decide)]

variable {key key' : Written}

/-- An entry is left as an entry. -/
theorem Protects.entry (n : Nat) (simple blockValue : Bool) (hkey : ProtectsKey index key.text key'.text spans)
    (hmarked : Protects index key key' spans) (hv : Protects (index + spans.length) v v' more) :
    Protects index (Outline.entry n simple blockValue key v) (Outline.entry n simple blockValue key' v')
      (spans ++ more) := by
  cases simple with
  | true =>
    intro k rest
    have hmore := hv k rest
    rw [List.length_append, ← Nat.add_assoc, List.append_assoc]
    cases blockValue with
    | true =>
      rw [Outline.followed_entry_below, Outline.followed_entry_below, hkey.colon, protectFrom_lineTail, hmore]
    | false =>
      have hspace (rest : List Char) : ¬opening <+: ' ' :: rest := fun hp => absurd (opening_cons hp) (by decide)
      rw [Outline.followed_entry_inline, Outline.followed_entry_inline, hkey.colon, protectFrom_char (hspace _), hmore]
  | false =>
    have hquestion : ∀ c ∈ ['?', ' '], c ≠ '$' := forall_mem_of_all (by decide)
    have hcolon : ∀ c ∈ [':', ' '], c ≠ '$' := forall_mem_of_all (by decide)
    exact (hmarked.behind hquestion).above n (hv.behind hcolon)

end Parts

/-- A scalar is left as a scalar in the same style, as a key too. -/
theorem exists_sealed_parts (n : Nat) (style : Style) {cs : List Char} (hclosed : Closed cs) (index : Nat) :
    ∃ opened cs' spans, Sealed (styleEncoder n style) index cs opened cs' spans ∧
      Protects index (writtenIn n cs style) (writtenIn n cs' style) spans ∧
        ProtectsKey index (writtenIn n cs style).text (writtenIn n cs' style).text spans := by
  obtain ⟨opened, cs', spans, hsealed, hprotects⟩ := exists_sealed_written n style hclosed index
  refine ⟨opened, cs', spans, hsealed, fun k rest => ?_, fun rest hrest => ?_⟩
  · rw [Written.followed, Written.followed, hprotects _ (apart_followed n cs style k rest), protectFrom_lineTail,
      hsealed.endsLine]
  · exact hprotects rest (apart_closer cs style hrest)

end Protected

end PipelineTemplate.Yaml
