import PipelineTemplate.Proofs.Value.Equality

/-!
# Updates one after the other

An update with entries that were updated themselves is the same as both updates one after the other: a key
keeps its first place, and its last value counts.
-/

namespace PipelineTemplate

namespace Entries

theorem insert_cons_of_equal {key k : Value} (h : key.equal k = true) (u v : Value) (rest : Entries) :
    insert k v ((key, u) :: rest) = (key, v) :: rest.erase k := by
  simp only [insert, h, if_true, erase]

theorem insert_cons_of_ne {key k : Value} (h : key.equal k = false) (u v : Value) (rest : Entries) :
    insert k v ((key, u) :: rest) = (key, u) :: insert k v rest := by
  simp only [insert, h, Bool.false_eq_true, if_false]

theorem erase_cons_of_equal {key k : Value} (h : key.equal k = true) (u : Value) (rest : Entries) :
    erase k ((key, u) :: rest) = rest.erase k := by
  simp [erase, h]

theorem erase_cons_of_ne {key k : Value} (h : key.equal k = false) (u : Value) (rest : Entries) :
    erase k ((key, u) :: rest) = (key, u) :: rest.erase k := by
  simp [erase, h]

theorem erase_comm (k l : Value) (entries : Entries) :
    (entries.erase k).erase l = (entries.erase l).erase k := by
  simp only [erase, List.filter_filter, Bool.and_comm]

theorem erase_congr {k l : Value} (h : k.equal l = true) (entries : Entries) :
    entries.erase k = entries.erase l := by
  simp only [erase, Value.equal_congr_right h]

theorem erase_erase (k : Value) (entries : Entries) :
    (entries.erase k).erase k = entries.erase k := by
  simp [erase, List.filter_filter]

/-- What is put under another key stays when the entries with a key are left out. -/
theorem erase_insert {k l : Value} (h : l.equal k = false) (w : Value) (entries : Entries) :
    (entries.insert l w).erase k = (entries.erase k).insert l w := by
  induction entries with
  | nil => exact erase_cons_of_ne h w []
  | cons entry rest ih =>
    obtain ⟨key, u⟩ := entry
    cases hl : key.equal l with
    | true =>
      have hk : key.equal k = false := (Value.equal_congr_left hl k).trans h
      rw [insert_cons_of_equal hl, erase_cons_of_ne hk, erase_cons_of_ne hk,
        insert_cons_of_equal hl, erase_comm]
    | false =>
      cases hk : key.equal k with
      | true =>
        rw [insert_cons_of_ne hl, erase_cons_of_equal hk, erase_cons_of_equal hk, ih]
      | false =>
        rw [insert_cons_of_ne hl, erase_cons_of_ne hk, erase_cons_of_ne hk, insert_cons_of_ne hl, ih]

/-- Of two values that are put under the same key the second one counts. -/
theorem insert_insert {k l : Value} (h : k.equal l = true) (v w : Value) (entries : Entries) :
    (entries.insert k v).insert l w = entries.insert k w := by
  induction entries with
  | nil => exact insert_cons_of_equal h v w []
  | cons entry rest ih =>
    obtain ⟨key, u⟩ := entry
    have hkl : key.equal k = key.equal l := Value.equal_congr_right h key
    cases hk : key.equal k with
    | true =>
      rw [insert_cons_of_equal hk, insert_cons_of_equal (hkl ▸ hk), insert_cons_of_equal hk,
        ← erase_congr h, erase_erase]
    | false =>
      rw [insert_cons_of_ne hk, insert_cons_of_ne (hkl ▸ hk), insert_cons_of_ne hk, ih]

/-- Whether some entry has a key that equals a key. -/
def Has (k : Value) (entries : Entries) : Prop := ∃ entry ∈ entries, entry.1.equal k = true

theorem has_cons_iff {k key u : Value} {rest : Entries} :
    Has k ((key, u) :: rest) ↔ key.equal k = true ∨ Has k rest := by
  simp only [Has, List.exists_mem_cons_iff]

theorem Has.insert {k : Value} {entries : Entries} (h : entries.Has k) (l w : Value) :
    (entries.insert l w).Has k := by
  induction entries with
  | nil =>
    obtain ⟨_, hm, _⟩ := h
    cases hm
  | cons entry rest ih =>
    obtain ⟨key, u⟩ := entry
    cases hl : key.equal l with
    | true =>
      rw [insert_cons_of_equal hl, has_cons_iff]
      rcases has_cons_iff.1 h with hk | ⟨e, he, hk⟩
      · exact .inl hk
      · cases hel : e.1.equal l with
        | true =>
          have hkey := Value.equal_trans hl (Value.equal_symm hel)
          exact .inl (Value.equal_trans hkey hk)
        | false => exact .inr ⟨e, by simp [erase, he, hel], hk⟩
    | false =>
      rw [insert_cons_of_ne hl, has_cons_iff]
      rcases has_cons_iff.1 h with hk | hr
      · exact .inl hk
      · exact .inr (ih hr)

theorem has_insert {key k : Value} (h : key.equal k = true) (v : Value) (entries : Entries) :
    (entries.insert key v).Has k := by
  induction entries with
  | nil => exact ⟨(key, v), by simp [insert], h⟩
  | cons entry rest ih =>
    obtain ⟨first, u⟩ := entry
    cases he : first.equal key with
    | true => exact insert_cons_of_equal he u v rest ▸ has_cons_iff.2 (.inl (Value.equal_trans he h))
    | false => exact insert_cons_of_ne he u v rest ▸ has_cons_iff.2 (.inr ih)

/-- A key that is there keeps its spelling. -/
theorem insert_congr {k l : Value} (h : k.equal l = true) {entries : Entries} (hk : entries.Has k)
    (v : Value) : entries.insert k v = entries.insert l v := by
  induction entries with
  | nil =>
    obtain ⟨_, hm, _⟩ := hk
    cases hm
  | cons entry rest ih =>
    obtain ⟨key, u⟩ := entry
    have hkl : key.equal k = key.equal l := Value.equal_congr_right h key
    cases he : key.equal k with
    | true => rw [insert_cons_of_equal he, insert_cons_of_equal (hkl ▸ he), erase_congr h]
    | false =>
      have hr := (has_cons_iff.1 hk).resolve_left (by simp [he])
      rw [insert_cons_of_ne he, insert_cons_of_ne (hkl ▸ he), ih hr]

/-- Values that are put under different keys, one of which is there, do not depend on each other. -/
theorem insert_comm {k l : Value} (h : l.equal k = false) {entries : Entries} (hk : entries.Has k)
    (v w : Value) : (entries.insert l w).insert k v = (entries.insert k v).insert l w := by
  induction entries with
  | nil =>
    obtain ⟨_, hm, _⟩ := hk
    cases hm
  | cons entry rest ih =>
    obtain ⟨key, u⟩ := entry
    cases he : key.equal k with
    | true =>
      have hl : key.equal l = false := by
        rw [Value.equal_congr_left he, Value.equal_comm, h]
      rw [insert_cons_of_ne hl, insert_cons_of_equal he, insert_cons_of_equal he, insert_cons_of_ne hl,
        erase_insert h]
    | false =>
      have hr := (has_cons_iff.1 hk).resolve_left (by simp [he])
      cases hl : key.equal l with
      | true =>
        rw [insert_cons_of_equal hl, insert_cons_of_ne he, insert_cons_of_ne he, insert_cons_of_equal hl,
          erase_insert (by rw [Value.equal_comm, h])]
      | false =>
        rw [insert_cons_of_ne hl, insert_cons_of_ne he, insert_cons_of_ne he, insert_cons_of_ne hl, ih hr]

/-- A key that is there already is given its value first when it is updated. -/
theorem update_insert_of_has {k : Value} {entries : Entries} (hk : entries.Has k) (v : Value)
    (others : Entries) :
    entries.update (others.insert k v) = (entries.insert k v).update (others.erase k) := by
  induction others generalizing entries with
  | nil => rfl
  | cons other rest ih =>
    obtain ⟨key, w⟩ := other
    cases he : key.equal k with
    | true =>
      have hkey := insert_congr (Value.equal_symm he) hk v
      rw [insert_cons_of_equal he, update_cons, erase_cons_of_equal he, hkey]
    | false =>
      rw [insert_cons_of_ne he, update_cons, erase_cons_of_ne he, update_cons, ih (hk.insert key w),
        insert_comm he hk]

/-- What is put after an update may be put into the update. -/
theorem update_insert (entries others : Entries) (k v : Value) :
    entries.update (others.insert k v) = (entries.update others).insert k v := by
  induction others generalizing entries with
  | nil => rfl
  | cons other rest ih =>
    obtain ⟨key, w⟩ := other
    cases he : key.equal k with
    | true =>
      rw [insert_cons_of_equal he, update_cons, update_cons, ← ih,
        update_insert_of_has (has_insert he w entries) v rest, insert_insert he]
    | false => rw [insert_cons_of_ne he, update_cons, update_cons, ih]

theorem update_update (entries xs ys : Entries) :
    entries.update (xs.update ys) = (entries.update xs).update ys := by
  induction ys generalizing xs with
  | nil => rfl
  | cons y rest ih =>
    obtain ⟨k, v⟩ := y
    rw [update_cons, update_cons, ih, update_insert]

end Entries

end PipelineTemplate
