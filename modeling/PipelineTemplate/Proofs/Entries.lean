import PipelineTemplate.Proofs.Value.Equality

/-!
# Look-up of keys

The value of a key in entries that were updated. A name is equal to no other key.
-/

namespace PipelineTemplate

theorem Value.equal_text {k : Value} {n : String} : k.equal (.text n) = true ↔ k = .text n := by
  cases k <;> simp [Value.equal]

theorem Value.text_equal {k : Value} {n : String} : (Value.text n).equal k = true ↔ k = .text n := by
  cases k with
  | text s =>
    simp only [Value.equal, beq_iff_eq, Value.text.injEq]
    exact eq_comm
  | _ => simp [Value.equal]

namespace Entries

theorem get?_cons (k v : Value) (rest : Entries) (key : Value) :
    get? key ((k, v) :: rest) = (get? key rest).or (if k.equal key then some v else none) := by
  rw [get?]
  cases get? key rest <;> rfl

theorem get?_filter {rest : Entries} {k key : Value} (h : k.equal key = false) :
    get? key (rest.filter fun (l, _) => !l.equal k) = get? key rest := by
  induction rest with
  | nil => rfl
  | cons entry rest ih =>
    obtain ⟨l, v⟩ := entry
    cases he : l.equal k with
    | true =>
      have hl : l.equal key = false := (Value.equal_congr_left he key).trans h
      simp only [List.filter_cons, he, get?_cons, hl, Bool.not_true, Bool.false_eq_true, if_false,
        Option.or_none]
      exact ih
    | false =>
      simp only [List.filter_cons, he, get?_cons, Bool.not_false, if_true]
      rw [ih]

theorem get?_filter_self (rest : Entries) (key : Value) :
    get? key (rest.filter fun (l, _) => !l.equal key) = none := by
  induction rest with
  | nil => rfl
  | cons entry rest ih =>
    obtain ⟨l, v⟩ := entry
    cases he : l.equal key with
    | true => simpa only [List.filter_cons, he, Bool.not_true, Bool.false_eq_true, if_false] using ih
    | false =>
      simp only [List.filter_cons, he, get?_cons, Bool.not_false, Bool.false_eq_true, if_true, if_false]
      rw [ih]
      rfl

/-- A key has the value that is put under it, and any other key the value that it had. -/
theorem get?_insert (k v : Value) (entries : Entries) (key : Value) :
    get? key (insert k v entries) = if k.equal key then some v else get? key entries := by
  induction entries with
  | nil => simp only [insert, get?_cons, get?, Option.none_or]
  | cons entry rest ih =>
    obtain ⟨l, w⟩ := entry
    cases he : l.equal k with
    | true =>
      cases hk : k.equal key with
      | true =>
        have hsame (m : Value) : m.equal k = m.equal key := Value.equal_congr_right hk m
        have hl : l.equal key = true := (hsame l).symm.trans he
        simp only [insert, he, if_true, get?_cons, hsame, get?_filter_self, hl, Option.none_or]
      | false =>
        have hl : l.equal key = false := (Value.equal_congr_left he key).trans hk
        simp only [insert, he, if_true, get?_cons, get?_filter hk, hl, Bool.false_eq_true, if_false]
    | false =>
      simp only [insert, he, Bool.false_eq_true, if_false, get?_cons, ih]
      cases hk : k.equal key with
      | true => simp
      | false => simp

/-- A key has the value that it has last in an update, or else the value that it had. -/
theorem get?_update (entries others : Entries) (key : Value) :
    get? key (entries.update others) = (get? key others).or (get? key entries) := by
  induction others generalizing entries with
  | nil => rfl
  | cons entry rest ih =>
    obtain ⟨k, v⟩ := entry
    rw [update_cons, ih, get?_cons, get?_insert]
    cases get? key rest with
    | some w => rfl
    | none => cases k.equal key <;> rfl

end Entries

end PipelineTemplate
