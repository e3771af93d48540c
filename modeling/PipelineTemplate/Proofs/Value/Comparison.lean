import Mathlib
import PipelineTemplate.Expression.Function
import PipelineTemplate.Proofs.Number.Numeral
import PipelineTemplate.Proofs.Value.Equality

/-!
# The coherence of comparisons

Numbers are compared by rank, truth values as such, and all else by text. Numbers are of one rank exactly
if they have one text, so that whatever is compared, operands are equal exactly if their readings have the
same text. Equality is thus an equivalence across all kinds of values, and within one kind of reading the
comparison is a total order. Only numbers that are none are not equal to themselves.
-/

namespace PipelineTemplate

open Number (Numeric)

namespace Value

/-- The three ways in which the readings of operands are compared. -/
inductive Regime where
  | number
  | truth
  | text
  deriving DecidableEq

/-- The way in which a value is compared with values of its own kind. -/
def regime (v : Value) : Regime :=
  match v.comparand with
  | .number _ => .number
  | .bool _ => .truth
  | _ => .text

/-- Whether a value is not read as NaN. -/
def Comparable (v : Value) : Prop := ∀ n, v.comparand = .number n → n.isNaN = false

/-- The text by which a value is compared with values of other kinds. -/
def comparedText (v : Value) : String := v.comparand.toText

section Reading

variable {v : Value}

theorem exists_number (h : v.regime = .number) : ∃ n, v.comparand = .number n := by
  unfold regime at h
  split at h
  · next n hn => exact ⟨n, hn⟩
  · cases h
  · cases h

theorem exists_truth (h : v.regime = .truth) : ∃ b, v.comparand = .bool b := by
  unfold regime at h
  split at h
  · cases h
  · next b hb => exact ⟨b, hb⟩
  · cases h

theorem regime_of_number {n : Numeric} (h : v.comparand = .number n) : v.regime = .number := by
  rw [regime, h]

theorem regime_of_truth {b : Bool} (h : v.comparand = .bool b) : v.regime = .truth := by
  rw [regime, h]

end Reading

/-- Strictly equal readings that are not both numbers have the same text. -/
theorem toText_of_strictEqual {a b : Value} (h : a.strictEqual b = true)
    (hn : ∀ m n, a = .number m → b ≠ .number n) : a.toText = b.toText := by
  unfold strictEqual at h
  split at h
  · rfl
  · rfl
  · rw [eq_of_beq h]
  · exact absurd rfl (hn _ _ rfl)
  · rw [eq_of_beq h]
  · rfl
  · cases h

section Compare

variable {a b : Value}

/-- Numbers are compared by their ranks. -/
theorem compare_numbers {m n : Numeric} (ha : a.comparand = .number m) (hb : b.comparand = .number n)
    (hm : m.isNaN = false) (hn : n.isNaN = false) : a.compare b = cmp m.rank n.rank := by
  simp only [compare, ha, hb, strictEqual]
  by_cases heq : m.rank = n.rank
  · rw [if_pos ((Numeric.eq_iff_rank hm hn).2 heq), heq, cmp_self_eq_eq]
  rw [if_neg (mt (Numeric.eq_iff_rank hm hn).1 heq)]
  by_cases hlt : n.rank < m.rank
  · rw [if_pos ((Numeric.lt_iff_rank hn hm).2 hlt), (cmp_eq_gt_iff ..).2 hlt]
  · rw [if_neg (mt (Numeric.lt_iff_rank hn hm).1 hlt),
      (cmp_eq_lt_iff ..).2 (lt_of_le_of_ne (not_lt.1 hlt) heq)]

theorem compare_truths {p q : Bool} (ha : a.comparand = .bool p) (hb : b.comparand = .bool q) :
    a.compare b = cmp p q := by
  simp only [compare, ha, hb]
  cases p <;> cases q <;> rfl

/-- What is not compared as numbers or truth values is compared by text. -/
theorem compare_texts (h : a.regime = b.regime → a.regime = .text) :
    a.compare b = cmp a.comparedText b.comparedText := by
  have hnumbers (m n : Numeric) (ha : a.comparand = .number m) :
      b.comparand ≠ .number n := by
    intro hb
    rw [regime_of_number ha, regime_of_number hb] at h
    cases h rfl
  have htruths (p q : Bool) (ha : a.comparand = .bool p) (hb : b.comparand = .bool q) : False := by
    rw [regime_of_truth ha, regime_of_truth hb] at h
    cases h rfl
  unfold comparedText compare
  by_cases hs : a.comparand.strictEqual b.comparand = true
  · rw [toText_of_strictEqual hs hnumbers, cmp_self_eq_eq]
    exact if_pos hs
  · -- The readings are not two numbers and not two truth values, which leaves the last alternative.
    simp only [if_neg hs]
    generalize a.comparand.toText = s
    generalize b.comparand.toText = t
    rcases lt_trichotomy s t with hlt | rfl | hlt
    · rw [if_neg hlt.ne, if_neg hlt.not_gt, (cmp_eq_lt_iff ..).2 hlt]
    · rw [if_pos rfl, cmp_self_eq_eq]
    · rw [if_neg hlt.ne', if_pos hlt, (cmp_eq_gt_iff ..).2 hlt]

/-- Two values are compared as numbers, as truth values or by text. -/
theorem compare_cases (a b : Value) :
    (∃ m n, a.comparand = .number m ∧ b.comparand = .number n) ∨
      (∃ p q, a.comparand = .bool p ∧ b.comparand = .bool q) ∨
      (a.regime = b.regime → a.regime = .text) := by
  cases ha : a.regime with
  | text => exact .inr (.inr fun _ => rfl)
  | number =>
    by_cases hb : b.regime = .number
    · obtain ⟨m, hm⟩ := exists_number ha
      obtain ⟨n, hn⟩ := exists_number hb
      exact .inl ⟨m, n, hm, hn⟩
    · exact .inr (.inr fun h => absurd h.symm hb)
  | truth =>
    by_cases hb : b.regime = .truth
    · obtain ⟨p, hp⟩ := exists_truth ha
      obtain ⟨q, hq⟩ := exists_truth hb
      exact .inr (.inl ⟨p, q, hp, hq⟩)
    · exact .inr (.inr fun h => absurd h.symm hb)

/-- Whatever is compared, equal operands are those whose readings have the same text. -/
theorem compare_eq_iff (ha : a.Comparable) (hb : b.Comparable) :
    a.compare b = .eq ↔ a.comparedText = b.comparedText := by
  rcases compare_cases a b with ⟨m, n, hm, hn⟩ | ⟨p, q, hp, hq⟩ | htext
  · rw [compare_numbers hm hn (ha m hm) (hb n hn), cmp_eq_eq_iff, comparedText, comparedText, hm, hn]
    exact (Numeric.text_eq_iff (ha m hm) (hb n hn)).symm
  · rw [compare_truths hp hq, cmp_eq_eq_iff, comparedText, comparedText, hp, hq]
    cases p <;> cases q <;> simp [toText]
  · rw [compare_texts htext, cmp_eq_eq_iff]

/-- Operands in the other order are compared the other way. -/
theorem compare_swap (ha : a.Comparable) (hb : b.Comparable) : (a.compare b).swap = b.compare a := by
  rcases compare_cases a b with ⟨m, n, hm, hn⟩ | ⟨p, q, hp, hq⟩ | htext
  · rw [compare_numbers hm hn (ha m hm) (hb n hn), compare_numbers hn hm (hb n hn) (ha m hm), cmp_swap]
  · rw [compare_truths hp hq, compare_truths hq hp, cmp_swap]
  · rw [compare_texts htext, compare_texts fun h => h.trans (htext h.symm), cmp_swap]

/-- NaN is equal to no other number; its text is equal to what it is for other values. -/
theorem compare_eq_comm : a.compare b = .eq ↔ b.compare a = .eq := by
  rcases compare_cases a b with ⟨m, n, hm, hn⟩ | ⟨p, q, hp, hq⟩ | htext
  · have hcompare {a b : Value} {m n : Numeric} (hm : a.comparand = .number m) (hn : b.comparand = .number n) :
        a.compare b = .eq ↔ m.eq n = true := by
      simp only [compare, hm, hn, strictEqual]
      split
      · next h => exact iff_of_true rfl h
      · next h =>
        refine iff_of_false ?_ h
        split <;> simp
    rw [hcompare hm hn, hcompare hn hm]
    exact ⟨Numeric.eq_symm, Numeric.eq_symm⟩
  · rw [compare_truths hp hq, compare_truths hq hp, cmp_eq_eq_iff, cmp_eq_eq_iff, eq_comm]
  · rw [compare_texts htext, compare_texts fun h => h.trans (htext h.symm), cmp_eq_eq_iff, cmp_eq_eq_iff,
      eq_comm]

end Compare

/-- Values of one kind of reading are compared along a linear order. -/
theorem compare_trans {a b c : Value} (ha : a.Comparable) (hb : b.Comparable) (hc : c.Comparable)
    (hab : a.regime = b.regime) (hbc : b.regime = c.regime) (h : a.compare b ≠ .gt)
    (h' : b.compare c ≠ .gt) : a.compare c ≠ .gt := by
  cases hr : a.regime with
  | number =>
    obtain ⟨m, hm⟩ := exists_number hr
    obtain ⟨n, hn⟩ := exists_number (hab ▸ hr)
    obtain ⟨k, hk⟩ := exists_number (hbc ▸ hab ▸ hr)
    rw [compare_numbers hm hn (ha m hm) (hb n hn), ne_eq, cmp_eq_gt_iff, not_lt] at h
    rw [compare_numbers hn hk (hb n hn) (hc k hk), ne_eq, cmp_eq_gt_iff, not_lt] at h'
    rw [compare_numbers hm hk (ha m hm) (hc k hk), ne_eq, cmp_eq_gt_iff, not_lt]
    exact h.trans h'
  | truth =>
    obtain ⟨p, hp⟩ := exists_truth hr
    obtain ⟨q, hq⟩ := exists_truth (hab ▸ hr)
    obtain ⟨s, hs⟩ := exists_truth (hbc ▸ hab ▸ hr)
    rw [compare_truths hp hq, ne_eq, cmp_eq_gt_iff, not_lt] at h
    rw [compare_truths hq hs, ne_eq, cmp_eq_gt_iff, not_lt] at h'
    rw [compare_truths hp hs, ne_eq, cmp_eq_gt_iff, not_lt]
    exact h.trans h'
  | text =>
    rw [compare_texts fun _ => hr, ne_eq, cmp_eq_gt_iff, not_lt] at h
    rw [compare_texts fun _ => hab ▸ hr, ne_eq, cmp_eq_gt_iff, not_lt] at h'
    rw [compare_texts fun _ => hr, ne_eq, cmp_eq_gt_iff, not_lt]
    exact h.trans h'

theorem compare_self {v : Value} (h : v.Comparable) : v.compare v = .eq := (compare_eq_iff h h).2 rfl

/-- One of two values is not above the other. -/
theorem compare_total {a b : Value} (ha : a.Comparable) (hb : b.Comparable) :
    a.compare b ≠ .gt ∨ b.compare a ≠ .gt := by
  rw [← compare_swap ha hb]
  cases a.compare b <;> decide

end Value

/-! ## Containment -/

namespace Builtin

theorem anyEqual_eq_any (items : List Value) (v : Value) :
    anyEqual items v = items.any fun item => v.compare item == .eq := by
  unfold anyEqual
  congr 1
  funext item
  rw [Bool.eq_iff_iff, beq_iff_eq, beq_iff_eq]
  exact Value.compare_eq_comm

/-- What contains an item, and how often the item is asked for, makes no difference. -/
theorem containing_sequence {container : Value} {items : List Value} (h : container.items? = some items)
    (v : Value) : containing container v = anyEqual items v ∧ containingValue container v = anyEqual items v := by
  cases container <;> cases h <;> exact ⟨rfl, rfl⟩

end Builtin

namespace Value

/-- Comparison is coherent: whatever kinds of values are mixed, operands in the other order are compared
the other way, and equality is an equivalence; within a kind the comparison is a total preorder. A list
contains a value, NaN or not, exactly if the value is in its items. -/
theorem compare_coherent :
    (∀ a b : Value, a.Comparable → b.Comparable → b.compare a = (a.compare b).swap) ∧
    Equivalence (fun a b : {v : Value // v.Comparable} => a.1.compare b.1 = .eq) ∧
    (∀ kind : Regime, ∀ a b c : {v : Value // v.Comparable ∧ v.regime = kind},
      (a.1.compare b.1 ≠ .gt ∨ b.1.compare a.1 ≠ .gt) ∧
      (a.1.compare b.1 ≠ .gt → b.1.compare c.1 ≠ .gt → a.1.compare c.1 ≠ .gt)) ∧
    ∀ (container v : Value) (items : List Value), container.items? = some items →
      ∃ found : Bool, (found = true ↔ ∃ item ∈ items, v.compare item = .eq) ∧
        Builtin.callNamed "contains" [container, v] = pure (.bool found) ∧
        Builtin.callNamed "containsValue" [container, v] = pure (.bool found) ∧
        Builtin.callNamed "in" (v :: items) = pure (.bool found) ∧
        Builtin.callNamed "notIn" (v :: items) = pure (.bool !found) := by
  refine ⟨fun a b ha hb => (compare_swap ha hb).symm, ⟨?_, ?_, ?_⟩, ?_, ?_⟩
  · exact fun v => compare_self v.2
  · exact fun h => compare_eq_comm.1 h
  · intro a b c hab hbc
    rw [compare_eq_iff a.2 b.2] at hab
    rw [compare_eq_iff b.2 c.2] at hbc
    exact (compare_eq_iff a.2 c.2).2 (hab.trans hbc)
  · rintro kind ⟨a, ha, hak⟩ ⟨b, hb, hbk⟩ ⟨c, hc, hck⟩
    exact ⟨compare_total ha hb, compare_trans ha hb hc (hak.trans hbk.symm) (hbk.trans hck.symm)⟩
  · intro container v items h
    obtain ⟨hcontaining, hvalue⟩ := Builtin.containing_sequence h v
    refine ⟨Builtin.anyEqual items v, ?_, ?_, ?_, ?_, ?_⟩
    · rw [Builtin.anyEqual_eq_any, List.any_eq_true]
      simp only [beq_iff_eq]
    · exact congrArg (fun b => pure (Value.bool b)) hcontaining
    · exact congrArg (fun b => pure (Value.bool b)) hvalue
    · exact congrArg (fun b => pure (Value.bool b)) (Builtin.anyEqual_eq_any items v).symm
    · exact congrArg (fun b => pure (Value.bool !b)) (Builtin.anyEqual_eq_any items v).symm

/-- Null, an empty list and a blank text are equal to each other; NaN is in no list. -/
theorem compare_coherent_mixed :
    (Value.text " ").compare (.list []) = .eq ∧ (Value.list []).compare .null = .eq ∧
      (Value.text " ").compare .null = .eq ∧
      Builtin.callNamed "in" [.number (.float .nan), .number (.float .nan)] = pure (.bool false) := by
  have htext : (Value.text " ").comparand = .text "" := rfl
  have hall : ∀ v ∈ [Value.text " ", .list [], .null], v.Comparable := by
    intro v hv n hn
    simp only [List.mem_cons, List.not_mem_nil, or_false] at hv
    rcases hv with rfl | rfl | rfl
    · rw [htext] at hn
      cases hn
    · cases hn
    · cases hn
  have hblank : (Value.text " ").compare (.list []) = .eq := by rw [compare, htext]; rfl
  have hnull : (Value.list []).compare .null = .eq := rfl
  obtain ⟨found, hiff, -, -, hin, -⟩ := compare_coherent.2.2.2 (.list [.number (.float .nan)])
    (.number (.float .nan)) _ rfl
  have hnone : found = false := by
    rw [Bool.eq_false_iff, ne_eq, hiff]
    rintro ⟨item, hm, hi⟩
    rw [List.mem_singleton] at hm
    subst hm
    cases hi
  refine ⟨hblank, hnull, ?_, hnone ▸ hin⟩
  exact compare_coherent.2.1.trans (x := ⟨_, hall _ (by simp)⟩) (y := ⟨_, hall _ (by simp)⟩)
    (z := ⟨_, hall _ (by simp)⟩) hblank hnull

end Value

end PipelineTemplate
