import PipelineTemplate.Proofs.Entries
import PipelineTemplate.Proofs.Entries.Update

/-!
# Entries whose keys are distinct

Of the entries with the same key there stays one, at the first place of the key and with its last value.
That is what becomes of entries that are inserted one after the other.
-/

namespace PipelineTemplate.Entries

/-- Each key at its first place, with its last value. -/
def settled : Entries → Entries
  | [] => []
  | (k, v) :: rest => (k, (get? k rest).getD v) :: settled (erase k rest)
termination_by entries => entries.length
decreasing_by exact Nat.lt_succ_of_le (List.length_filter_le _ _)

/-- No two entries have the same key. -/
def Distinct (entries : Entries) : Prop := entries.Pairwise fun a b => a.1.equal b.1 = false

theorem settled_nil : settled [] = [] := by rw [settled]

theorem settled_cons (k v : Value) (rest : Entries) :
    settled ((k, v) :: rest) = (k, (get? k rest).getD v) :: settled (erase k rest) := by
  rw [settled]

theorem get?_cons_of_equal {k key : Value} (h : key.equal k = true) (v : Value) (rest : Entries) :
    get? k ((key, v) :: rest) = some ((get? k rest).getD v) := by
  rw [get?, h]
  cases get? k rest <;> rfl

theorem get?_cons_of_ne {k key : Value} (h : key.equal k = false) (v : Value) (rest : Entries) :
    get? k ((key, v) :: rest) = get? k rest := by
  rw [get?, h]
  cases get? k rest <;> rfl

theorem get?_map_values (f : Value → Value) (k : Value) (entries : Entries) :
    get? k (entries.map fun entry => (entry.1, f entry.2)) = (get? k entries).map f := by
  induction entries with
  | nil => rfl
  | cons entry rest ih =>
    obtain ⟨key, v⟩ := entry
    rw [List.map_cons]
    cases hk : key.equal k with
    | true =>
      rw [get?_cons_of_equal hk, get?_cons_of_equal hk, ih]
      cases get? k rest <;> rfl
    | false => rw [get?_cons_of_ne hk, get?_cons_of_ne hk, ih]

theorem erase_eq_self {k : Value} {entries : Entries} (h : ∀ entry ∈ entries, entry.1.equal k = false) :
    entries.erase k = entries := by
  apply List.filter_eq_self.2
  intro entry he
  simp [h entry he]

theorem get?_eq_none {k : Value} {entries : Entries} (h : ∀ entry ∈ entries, entry.1.equal k = false) :
    get? k entries = none := by
  induction entries with
  | nil => rfl
  | cons entry rest ih =>
    obtain ⟨key, v⟩ := entry
    rw [get?_cons_of_ne (h _ List.mem_cons_self)]
    exact ih fun e he => h e (List.mem_cons_of_mem _ he)

/-- A value that is put under another key leaves no entry with a key. -/
theorem insert_ne {k l : Value} {entries : Entries} (h : ∀ entry ∈ entries, entry.1.equal k = false)
    (hl : l.equal k = false) (w : Value) : ∀ entry ∈ entries.insert l w, entry.1.equal k = false := by
  induction entries with
  | nil =>
    intro entry he
    obtain rfl := List.mem_singleton.1 he
    exact hl
  | cons first rest ih =>
    obtain ⟨key, u⟩ := first
    have hr (e) (he : e ∈ rest) := h e (List.mem_cons_of_mem _ he)
    have hk : key.equal k = false := h (key, u) List.mem_cons_self
    intro entry he
    cases hkl : key.equal l with
    | true =>
      rw [insert_cons_of_equal hkl] at he
      rcases List.mem_cons.1 he with rfl | he
      · exact hk
      · exact hr entry (List.mem_filter.1 he).1
    | false =>
      rw [insert_cons_of_ne hkl] at he
      rcases List.mem_cons.1 he with rfl | he
      · exact hk
      · exact ih hr entry he

/-- An update leaves the first key in its place, with the last value that it is given. -/
theorem update_cons_first (k v : Value) {before : Entries}
    (h : ∀ entry ∈ before, entry.1.equal k = false) (others : Entries) :
    update ((k, v) :: before) others =
      (k, (get? k others).getD v) :: before.update (others.erase k) := by
  induction others generalizing v before with
  | nil => rfl
  | cons other rest ih =>
    obtain ⟨key, w⟩ := other
    have comm : k.equal key = key.equal k := Value.equal_comm k key
    rw [update_cons]
    cases hk : key.equal k with
    | true =>
      have hb : before.erase key = before := by
        rw [erase_congr hk]
        exact erase_eq_self h
      rw [insert_cons_of_equal (comm.trans hk), hb, ih w h, erase_cons_of_equal hk,
        get?_cons_of_equal hk]
      rfl
    | false =>
      rw [insert_cons_of_ne (comm.trans hk), ih v (insert_ne h hk w), erase_cons_of_ne hk, update_cons,
        get?_cons_of_ne hk]

/-- Entries that are inserted one after the other settle. -/
theorem update_nil_eq_settled (entries : Entries) : update [] entries = settled entries := by
  induction entries using settled.induct with
  | case1 => rw [settled_nil, update_nil]
  | case2 k v rest ih =>
    rw [settled_cons, ← ih, update_cons]
    exact update_cons_first k v (by simp) rest

/-- What is true of all keys stays true when the entries settle. -/
theorem settled_keys {p : Value → Prop} {entries : Entries} (h : ∀ entry ∈ entries, p entry.1) :
    ∀ entry ∈ entries.settled, p entry.1 := by
  induction entries using settled.induct with
  | case1 => simpa only [settled_nil] using h
  | case2 k v rest ih =>
    intro entry he
    rw [settled_cons] at he
    rcases List.mem_cons.1 he with rfl | he
    · exact h (k, v) List.mem_cons_self
    · exact ih (fun e hm => h e (List.mem_cons_of_mem _ (List.mem_filter.1 hm).1)) entry he

theorem get?_of_all {p : Value → Prop} {k v : Value} {entries : Entries}
    (h : ∀ entry ∈ entries, p entry.2) (hv : get? k entries = some v) : p v := by
  induction entries with
  | nil => cases hv
  | cons entry rest ih =>
    obtain ⟨key, w⟩ := entry
    have hr (e) (he : e ∈ rest) := h e (List.mem_cons_of_mem _ he)
    rw [get?] at hv
    cases hg : get? k rest with
    | some u =>
      rw [hg] at hv
      cases hv
      exact ih hr hg
    | none =>
      rw [hg] at hv
      cases hk : key.equal k with
      | false => simp [hk] at hv
      | true =>
        obtain rfl : w = v := by simpa [hk] using hv
        exact h (key, w) List.mem_cons_self

/-! A property of all values of entries is kept when entries are put into them and taken out of them. -/

theorem forall_insert {p : Value → Prop} {entries : Entries} (h : ∀ entry ∈ entries, p entry.2) {v : Value}
    (hv : p v) (k : Value) : ∀ entry ∈ entries.insert k v, p entry.2 := by
  induction entries with
  | nil =>
    intro entry he
    obtain rfl := List.mem_singleton.1 he
    exact hv
  | cons other rest ih =>
    obtain ⟨key, u⟩ := other
    obtain ⟨hu, hr⟩ := List.forall_mem_cons.1 h
    cases hk : key.equal k with
    | true =>
      rw [insert_cons_of_equal hk]
      exact List.forall_mem_cons.2 ⟨hv, fun e he => hr e (List.mem_filter.1 he).1⟩
    | false =>
      rw [insert_cons_of_ne hk]
      exact List.forall_mem_cons.2 ⟨hu, ih hr⟩

theorem forall_keys_insert {p : Value → Prop} {entries : Entries} (h : ∀ entry ∈ entries, p entry.1) {k : Value}
    (hk : p k) (v : Value) : ∀ entry ∈ entries.insert k v, p entry.1 := by
  induction entries with
  | nil => exact List.forall_mem_singleton.2 hk
  | cons other rest ih =>
    obtain ⟨key, u⟩ := other
    obtain ⟨hkey, hr⟩ := List.forall_mem_cons.1 h
    cases he : key.equal k with
    | true =>
      rw [insert_cons_of_equal he]
      exact List.forall_mem_cons.2 ⟨hkey, fun e hm => hr e (List.mem_filter.1 hm).1⟩
    | false =>
      rw [insert_cons_of_ne he]
      exact List.forall_mem_cons.2 ⟨hkey, ih hr⟩

theorem forall_update {p : Value → Prop} {entries others : Entries} (h : ∀ entry ∈ entries, p entry.2)
    (ho : ∀ entry ∈ others, p entry.2) : ∀ entry ∈ entries.update others, p entry.2 := by
  induction others generalizing entries with
  | nil => exact h
  | cons other rest ih =>
    obtain ⟨hv, hr⟩ := List.forall_mem_cons.1 ho
    exact ih (forall_insert h hv other.1) hr

theorem forall_erase {p : Value → Prop} {entries : Entries} (h : ∀ entry ∈ entries, p entry.2) (k : Value) :
    ∀ entry ∈ entries.erase k, p entry.2 := fun entry he => h entry (List.mem_filter.1 he).1

theorem settled_values {p : Value → Prop} {entries : Entries} (h : ∀ entry ∈ entries, p entry.2) :
    ∀ entry ∈ entries.settled, p entry.2 := by
  induction entries using settled.induct with
  | case1 => simpa only [settled_nil] using h
  | case2 k v rest ih =>
    have hr (e) (he : e ∈ rest) := h e (List.mem_cons_of_mem _ he)
    intro entry he
    rw [settled_cons] at he
    rcases List.mem_cons.1 he with rfl | he
    · cases hg : get? k rest with
      | none => exact h (k, v) List.mem_cons_self
      | some w => exact get?_of_all hr hg
    · exact ih (fun e hm => hr e (List.mem_filter.1 hm).1) entry he

theorem settled_distinct (entries : Entries) : entries.settled.Distinct := by
  induction entries using settled.induct with
  | case1 =>
    rw [settled_nil]
    exact List.Pairwise.nil
  | case2 k v rest ih =>
    have others : ∀ entry ∈ erase k rest, k.equal entry.1 = false := by
      intro entry he
      rw [Value.equal_comm]
      simpa using (List.mem_filter.1 he).2
    rw [settled_cons]
    refine List.Pairwise.cons ?_ ih
    exact settled_keys (p := fun key => k.equal key = false) others

theorem settled_of_distinct {entries : Entries} (h : entries.Distinct) : entries.settled = entries := by
  induction entries with
  | nil => exact settled_nil
  | cons entry rest ih =>
    obtain ⟨k, v⟩ := entry
    obtain ⟨hk, hr⟩ := List.pairwise_cons.1 h
    have others (e) (he : e ∈ rest) : e.1.equal k = false := (Value.equal_comm e.1 k).trans (hk e he)
    rw [settled_cons, get?_eq_none others, erase_eq_self others, ih hr]
    rfl

end PipelineTemplate.Entries
