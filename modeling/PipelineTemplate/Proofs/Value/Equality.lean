import Mathlib.Data.List.Basic
import PipelineTemplate.Value.Mapping

/-!
# Equality of contents

Equality of values is symmetric and transitive. It is not reflexive: a double that is no number is equal
to nothing.
-/

namespace PipelineTemplate

namespace Number.Numeric

theorem eq_symm {a b : Numeric} (h : a.eq b = true) : b.eq a = true := by
  unfold eq at h ⊢
  cases ha : a.toRat? <;> cases hb : b.toRat? <;> simp_all
  exact h.2 ▸ h.1

theorem eq_trans {a b c : Numeric} (hab : a.eq b = true) (hbc : b.eq c = true) : a.eq c = true := by
  unfold eq at hab hbc ⊢
  cases ha : a.toRat? <;> cases hb : b.toRat? <;> cases hc : c.toRat? <;> simp_all

end Number.Numeric

namespace Value

/-- The value that entries have last under a key that a value is equal to. -/
def lastEqual (k : Value) (entries : Entries) : Option Value :=
  (entries.reverse.find? fun entry => k.equal entry.1).map (·.2)

theorem lastEqual_cons (k key v : Value) (rest : Entries) :
    lastEqual k ((key, v) :: rest) =
      (lastEqual k rest).or (if k.equal key then some v else none) := by
  simp only [lastEqual, List.reverse_cons, List.find?_append, List.find?_cons, List.find?_nil]
  cases rest.reverse.find? fun entry => k.equal entry.1 with
  | some entry => rfl
  | none => cases k.equal key <;> rfl

theorem exists_of_lastEqual {k v : Value} {entries : Entries} (h : lastEqual k entries = some v) :
    ∃ entry ∈ entries, k.equal entry.1 = true ∧ entry.2 = v := by
  obtain ⟨entry, hf, rfl⟩ := Option.map_eq_some_iff.1 h
  have hk := List.find?_some hf
  exact ⟨entry, List.mem_reverse.1 (List.mem_of_find?_eq_some hf), hk, rfl⟩

theorem lastEqual_isSome {k : Value} {entries : Entries} {entry : Value × Value}
    (he : entry ∈ entries) (h : k.equal entry.1 = true) : ∃ v, lastEqual k entries = some v := by
  cases hf : entries.reverse.find? fun entry => k.equal entry.1 with
  | some found => exact ⟨found.2, by simp [lastEqual, hf]⟩
  | none => exact absurd h (List.find?_eq_none.1 hf entry (List.mem_reverse.2 he))

theorem equalSomeKey_iff {entries : Entries} {k : Value} :
    equalSomeKey entries k = true ↔ ∃ entry ∈ entries, entry.1.equal k = true := by
  induction entries with
  | nil => simp [equalSomeKey]
  | cons entry rest ih =>
    obtain ⟨key, v⟩ := entry
    simp only [equalSomeKey, Bool.or_eq_true, ih, List.exists_mem_cons_iff]

theorem equalEntries_cons {k v : Value} {rest others : Entries} :
    equalEntries ((k, v) :: rest) others = true ↔
      ((∃ entry ∈ rest, entry.1.equal k = true) ∨
        ∃ w, lastEqual k others = some w ∧ v.equal w = true) ∧
      equalEntries rest others = true := by
  simp only [equalEntries, Bool.and_eq_true, Bool.or_eq_true, equalSomeKey_iff, lastEqual]
  cases others.reverse.find? fun entry => k.equal entry.1 <;> simp

/-- Two lists of entries have equal values under a key. -/
def AgreeAt (xs ys : Entries) (k : Value) : Prop :=
  ∃ v w, lastEqual k xs = some v ∧ lastEqual k ys = some w ∧ v.equal w = true

/-- Equality is symmetric and transitive among some values. -/
structure EqualityOn (U : Value → Prop) : Prop where
  symm : ∀ {a b}, U a → U b → a.equal b = true → b.equal a = true
  trans : ∀ {a b c}, U a → U b → U c → a.equal b = true → b.equal c = true → a.equal c = true

/-- The keys and values of some entries are among some values. -/
def Among (U : Value → Prop) (entries : Entries) : Prop := ∀ entry ∈ entries, U entry.1 ∧ U entry.2

namespace EqualityOn

variable {U : Value → Prop} (eq : EqualityOn U) {xs ys zs : Entries}

include eq

theorem lastEqual_congr {k l : Value} (hk : U k) (hl : U l) (h : k.equal l = true) (hx : Among U xs) :
    lastEqual k xs = lastEqual l xs := by
  induction xs with
  | nil => rfl
  | cons entry rest ih =>
    obtain ⟨key, v⟩ := entry
    have hu : U key := (hx (key, v) (by simp)).1
    have same : k.equal key = l.equal key := by
      rw [Bool.eq_iff_iff]
      exact ⟨eq.trans hl hk hu (eq.symm hk hl h), eq.trans hk hl hu h⟩
    rw [lastEqual_cons, lastEqual_cons, same, ih fun e he => hx e (List.mem_cons_of_mem _ he)]

theorem refl_of_equal {k l : Value} (hk : U k) (hl : U l) (h : k.equal l = true) :
    k.equal k = true := eq.trans hk hl hk h (eq.symm hk hl h)

theorem lastEqual_eq_none {k : Value} (hk : U k) (hx : Among U xs)
    (h : ¬ ∃ entry ∈ xs, entry.1.equal k = true) : lastEqual k xs = none := by
  refine Option.eq_none_iff_forall_ne_some.2 fun v hv => h ?_
  obtain ⟨entry, he, hke, -⟩ := exists_of_lastEqual hv
  exact ⟨entry, he, eq.symm hk (hx entry he).1 hke⟩

theorem agreeAt_congr {k l : Value} (hk : U k) (hl : U l) (h : k.equal l = true) (hx : Among U xs)
    (hy : Among U ys) (ha : AgreeAt xs ys k) : AgreeAt xs ys l := by
  unfold AgreeAt at ha ⊢
  rwa [← eq.lastEqual_congr hk hl h hx, ← eq.lastEqual_congr hk hl h hy]

/-- The entries of the first list have values equal to those of the other list exactly if the two agree
at all its keys. -/
theorem equalEntries_iff (hx : Among U xs) (hy : Among U ys) :
    equalEntries xs ys = true ↔ ∀ entry ∈ xs, AgreeAt xs ys entry.1 := by
  induction xs with
  | nil => simp [equalEntries]
  | cons entry rest ih =>
    obtain ⟨k, v⟩ := entry
    have hk : U k := (hx (k, v) (by simp)).1
    have hrest : Among U rest := fun e he => hx e (List.mem_cons_of_mem _ he)
    rw [equalEntries_cons, ih hrest]
    constructor
    · rintro ⟨first, others⟩
      have later (e : Value × Value) (he : e ∈ rest) : AgreeAt ((k, v) :: rest) ys e.1 := by
        obtain ⟨a, b, ha, hb, hab⟩ := others e he
        exact ⟨a, b, by rw [lastEqual_cons, ha]; rfl, hb, hab⟩
      intro e he
      rcases List.mem_cons.1 he with rfl | he
      · by_cases hd : ∃ e ∈ rest, e.1.equal k = true
        · obtain ⟨e, he, hek⟩ := hd
          exact eq.agreeAt_congr (hrest e he).1 hk hek hx hy (later e he)
        · obtain ⟨w, hw, hvw⟩ := first.resolve_left hd
          obtain ⟨e, he, hke, -⟩ := exists_of_lastEqual hw
          have hkk := eq.refl_of_equal hk (hy e he).1 hke
          have hn := eq.lastEqual_eq_none hk hrest hd
          exact ⟨v, w, by simp [lastEqual_cons, hn, hkk], hw, hvw⟩
      · exact later e he
    · intro agree
      -- Whether the key comes again decides where its last value stands.
      have ofRest (e : Value × Value) (he : e ∈ rest) : AgreeAt rest ys e.1 := by
        obtain ⟨a, b, ha, hb, hab⟩ := agree e (List.mem_cons_of_mem _ he)
        obtain ⟨c, hc, hec, -⟩ := exists_of_lastEqual hb
        have hee := eq.refl_of_equal (hrest e he).1 (hy c hc).1 hec
        obtain ⟨d, hd⟩ := lastEqual_isSome he hee
        rw [lastEqual_cons, hd, Option.some_or] at ha
        exact ⟨a, b, hd.trans ha, hb, hab⟩
      refine ⟨?_, ofRest⟩
      by_cases hd : ∃ e ∈ rest, e.1.equal k = true
      · exact .inl hd
      · obtain ⟨a, b, ha, hb, hab⟩ := agree (k, v) (by simp)
        rw [lastEqual_cons, eq.lastEqual_eq_none hk hrest hd, Option.none_or] at ha
        split at ha
        · cases ha
          exact .inr ⟨b, hb, hab⟩
        · cases ha

/-- Equality of mappings: they agree at all keys that one of them has. -/
theorem equalMappings_iff (hx : Among U xs) (hy : Among U ys) :
    (equalEntries xs ys && ys.all fun entry => equalSomeKey xs entry.1) = true ↔
      (∀ entry ∈ xs, AgreeAt xs ys entry.1) ∧ ∀ entry ∈ ys, AgreeAt xs ys entry.1 := by
  rw [Bool.and_eq_true, eq.equalEntries_iff hx hy, List.all_eq_true]
  refine and_congr_right fun agree => forall₂_congr fun entry he => ?_
  have hk := (hy entry he).1
  rw [equalSomeKey_iff]
  constructor
  · rintro ⟨e, hm, h⟩
    exact eq.agreeAt_congr (hx e hm).1 hk h hx hy (agree e hm)
  · rintro ⟨v, w, hv, -, -⟩
    obtain ⟨e, hm, h, -⟩ := exists_of_lastEqual hv
    exact ⟨e, hm, eq.symm hk (hx e hm).1 h⟩

theorem agreeAt_symm (hx : Among U xs) (hy : Among U ys) {k : Value} (h : AgreeAt xs ys k) :
    AgreeAt ys xs k := by
  obtain ⟨v, w, hv, hw, hvw⟩ := h
  obtain ⟨e, he, -, rfl⟩ := exists_of_lastEqual hv
  obtain ⟨f, hf, -, rfl⟩ := exists_of_lastEqual hw
  exact ⟨f.2, e.2, hw, hv, eq.symm (hx e he).2 (hy f hf).2 hvw⟩

/-- Lists of entries that agree at all keys of the one in the middle agree with each other. -/
theorem agreeAt_trans (hx : Among U xs) (hy : Among U ys) (hz : Among U zs) {k : Value} (hk : U k)
    (h : AgreeAt xs ys k) (agree : ∀ entry ∈ ys, AgreeAt ys zs entry.1) : AgreeAt xs zs k := by
  obtain ⟨v, w, hv, hw, hvw⟩ := h
  obtain ⟨e, he, hke, hew⟩ := exists_of_lastEqual hw
  have hek := eq.symm hk (hy e he).1 hke
  obtain ⟨w', u, hw', hu, hwu⟩ := eq.agreeAt_congr (hy e he).1 hk hek hy hz (agree e he)
  obtain rfl : w' = w := Option.some.inj (hw'.symm.trans hw)
  obtain ⟨f, hf, -, rfl⟩ := exists_of_lastEqual hu
  obtain ⟨g, hg, -, rfl⟩ := exists_of_lastEqual hv
  exact ⟨g.2, f.2, hv, hu, eq.trans (hx g hg).2 (hew ▸ (hy e he).2) (hz f hf).2 hvw hwu⟩

theorem equalMappings_symm (hx : Among U xs) (hy : Among U ys)
    (h : (equalEntries xs ys && ys.all fun entry => equalSomeKey xs entry.1) = true) :
    (equalEntries ys xs && xs.all fun entry => equalSomeKey ys entry.1) = true := by
  rw [eq.equalMappings_iff hx hy] at h
  rw [eq.equalMappings_iff hy hx]
  exact ⟨fun e he => eq.agreeAt_symm hx hy (h.2 e he), fun e he => eq.agreeAt_symm hx hy (h.1 e he)⟩

theorem equalMappings_trans (hx : Among U xs) (hy : Among U ys) (hz : Among U zs)
    (hxy : (equalEntries xs ys && ys.all fun entry => equalSomeKey xs entry.1) = true)
    (hyz : (equalEntries ys zs && zs.all fun entry => equalSomeKey ys entry.1) = true) :
    (equalEntries xs zs && zs.all fun entry => equalSomeKey xs entry.1) = true := by
  rw [eq.equalMappings_iff hx hy] at hxy
  rw [eq.equalMappings_iff hy hz] at hyz
  rw [eq.equalMappings_iff hx hz]
  refine ⟨fun e he => eq.agreeAt_trans hx hy hz (hx e he).1 (hxy.1 e he) hyz.1, fun e he => ?_⟩
  refine eq.agreeAt_symm hz hx (eq.agreeAt_trans hz hy hx (hz e he).1 ?_ fun f hf => ?_)
  · exact eq.agreeAt_symm hy hz (hyz.2 e he)
  · exact eq.agreeAt_symm hx hy (hxy.2 f hf)

theorem equalItems_symm {xs ys : List Value} (hx : ∀ x ∈ xs, U x) (hy : ∀ y ∈ ys, U y)
    (h : equalItems xs ys = true) : equalItems ys xs = true := by
  induction xs generalizing ys with
  | nil => cases ys <;> simp_all [equalItems]
  | cons x xs ih =>
    cases ys with
    | nil => simp [equalItems] at h
    | cons y ys =>
      simp only [equalItems, Bool.and_eq_true] at h ⊢
      exact ⟨eq.symm (hx x (by simp)) (hy y (by simp)) h.1,
        ih (fun x h => hx x (by simp [h])) (fun y h => hy y (by simp [h])) h.2⟩

theorem equalItems_trans {xs ys zs : List Value} (hx : ∀ x ∈ xs, U x) (hy : ∀ y ∈ ys, U y)
    (hz : ∀ z ∈ zs, U z) (hxy : equalItems xs ys = true) (hyz : equalItems ys zs = true) :
    equalItems xs zs = true := by
  induction xs generalizing ys zs with
  | nil => cases ys <;> simp_all [equalItems]
  | cons x xs ih =>
    cases ys with
    | nil => simp [equalItems] at hxy
    | cons y ys =>
      cases zs with
      | nil => simp [equalItems] at hyz
      | cons z zs =>
        simp only [equalItems, Bool.and_eq_true] at hxy hyz ⊢
        exact ⟨eq.trans (hx x (by simp)) (hy y (by simp)) (hz z (by simp)) hxy.1 hyz.1,
          ih (fun x h => hx x (by simp [h])) (fun y h => hy y (by simp [h]))
            (fun z h => hz z (by simp [h])) hxy.2 hyz.2⟩

end EqualityOn

/-- The number that a value is compared by. -/
def numeric? : Value → Option Number.Numeric
  | .bool b => some (.int (if b then 1 else 0))
  | .number n => some n
  | _ => none

/-- A value that is equal to itself alone. -/
def isAtom : Value → Bool
  | .null | .undefined | .text _ | .date _ | .time _ | .callable _ => true
  | _ => false

/-- The ways in which two values are equal. -/
inductive EqualBy (a b : Value) : Prop where
  | atom (ha : a.isAtom = true) (h : a = b)
  | number {m n : Number.Numeric} (ha : a.numeric? = some m) (hb : b.numeric? = some n)
      (h : m.eq n = true)
  | list {xs ys : List Value} (ha : a.list? = some xs) (hb : b.list? = some ys)
      (h : equalItems xs ys = true)
  | tuple {xs ys : List Value} (ha : a = .tuple xs) (hb : b = .tuple ys)
      (h : equalItems xs ys = true)
  | mapping {xs ys : Entries} (ha : a.pairs? = some xs) (hb : b.pairs? = some ys)
      (h : (equalEntries xs ys && ys.all fun entry => equalSomeKey xs entry.1) = true)
  | reference {s t p q : Value} (ha : a = .reference s p) (hb : b = .reference t q)
      (hs : s.equal t = true) (hp : p.equal q = true)

theorem numeric_bool_eq {a b : Bool} :
    (Number.Numeric.int (if a then 1 else 0)).eq (.int (if b then 1 else 0)) = (a == b) := by
  cases a <;> cases b <;> rfl

theorem equal_iff {a b : Value} : a.equal b = true ↔ EqualBy a b := by
  constructor
  · intro h
    cases a <;> cases b <;> simp only [equal, Bool.false_eq_true] at h
    case bool.bool => exact .number rfl rfl (numeric_bool_eq.trans h)
    case bool.number => exact .number rfl rfl (Number.Numeric.eq_symm h)
    case number.bool | number.number => exact .number rfl rfl h
    case tuple.tuple => exact .tuple rfl rfl h
    case reference.reference =>
      rw [Bool.and_eq_true] at h
      exact .reference rfl rfl h.1 h.2
    case list.list | list.aliased | aliased.list | aliased.aliased => exact .list rfl rfl h
    case map.map | map.pairs | pairs.map | pairs.pairs => exact .mapping rfl rfl h
    case null.null | undefined.undefined => exact .atom rfl rfl
    all_goals exact .atom rfl (by simpa using h)
  · rintro (⟨ha, rfl⟩ | ⟨ha, hb, h⟩ | ⟨ha, hb, h⟩ | ⟨rfl, rfl, h⟩ | ⟨ha, hb, h⟩ | ⟨rfl, rfl, hs, hp⟩)
    · cases a <;> simp_all [isAtom, equal]
    · cases a <;> cases b <;> simp only [numeric?, Option.some.injEq, reduceCtorEq] at ha hb
      all_goals subst ha hb
      case bool.bool => simpa only [equal] using numeric_bool_eq.symm.trans h
      case bool.number => simpa only [equal] using Number.Numeric.eq_symm h
      all_goals simpa only [equal] using h
    · cases a <;> cases b <;> simp only [list?, Option.some.injEq, reduceCtorEq] at ha hb
      all_goals
        subst ha hb
        simpa only [equal] using h
    · simpa only [equal] using h
    · cases a <;> cases b <;> simp only [pairs?, Option.some.injEq, reduceCtorEq] at ha hb
      all_goals
        subst ha hb
        simpa only [equal] using h
    · simp only [equal, hs, hp, Bool.and_self]

theorem sizeOf_of_list? {v x : Value} {xs : List Value} (h : v.list? = some xs) (hx : x ∈ xs) :
    sizeOf x < sizeOf v := by
  have := List.sizeOf_lt_of_mem hx
  cases v <;> simp only [list?, Option.some.injEq, reduceCtorEq] at h <;> subst h <;> simp <;> omega

theorem sizeOf_of_pairs? {v : Value} {xs : Entries} (h : v.pairs? = some xs) :
    Among (fun w => sizeOf w < sizeOf v) xs := by
  intro entry he
  have hm := List.sizeOf_lt_of_mem he
  have hv : sizeOf xs < sizeOf v := by
    cases v <;> simp only [pairs?, Option.some.injEq, reduceCtorEq] at h <;> subst h <;> simp
  obtain ⟨k, w⟩ := entry
  simp only [Prod.mk.sizeOf_spec] at hm
  exact ⟨show sizeOf k < sizeOf v by omega, show sizeOf w < sizeOf v by omega⟩

namespace EqualBy

variable {b c : Value} (h : EqualBy b c)

include h

theorem of_number {n : Number.Numeric} (hb : b.numeric? = some n) :
    ∃ k, c.numeric? = some k ∧ n.eq k = true := by
  cases h with
  | number hb' hc h =>
    cases hb.symm.trans hb'
    exact ⟨_, hc, h⟩
  | _ => cases b <;> simp_all [numeric?, isAtom, list?, pairs?]

theorem of_list {ys : List Value} (hb : b.list? = some ys) :
    ∃ zs, c.list? = some zs ∧ equalItems ys zs = true := by
  cases h with
  | list hb' hc h =>
    cases hb.symm.trans hb'
    exact ⟨_, hc, h⟩
  | _ => cases b <;> simp_all [numeric?, isAtom, list?, pairs?]

theorem of_mapping {ys : Entries} (hb : b.pairs? = some ys) :
    ∃ zs, c.pairs? = some zs ∧
      (equalEntries ys zs && zs.all fun entry => equalSomeKey ys entry.1) = true := by
  cases h with
  | mapping hb' hc h =>
    cases hb.symm.trans hb'
    exact ⟨_, hc, h⟩
  | _ => cases b <;> simp_all [numeric?, isAtom, list?, pairs?]

end EqualBy

/-- Equality is symmetric and transitive among the values below any size. -/
theorem equalityOn_below (n : Nat) : EqualityOn fun v => sizeOf v < n := by
  induction n with
  | zero => exact ⟨fun h => by omega, fun h => by omega⟩
  | succ n eq =>
    have items {v : Value} {xs : List Value} (hv : sizeOf v < n + 1) (h : v.list? = some xs) :
        ∀ x ∈ xs, sizeOf x < n := by
      intro x hx
      have := sizeOf_of_list? h hx
      omega
    have tuple {xs : List Value} (hv : sizeOf (tuple xs) < n + 1) : ∀ x ∈ xs, sizeOf x < n := by
      intro x hx
      have := List.sizeOf_lt_of_mem hx
      simp only [tuple.sizeOf_spec] at hv
      omega
    have entries {v : Value} {xs : Entries} (hv : sizeOf v < n + 1) (h : v.pairs? = some xs) :
        Among (fun w => sizeOf w < n) xs := by
      intro entry he
      have := sizeOf_of_pairs? h entry he
      exact ⟨by omega, by omega⟩
    have parts {s p : Value} (hv : sizeOf (reference s p) < n + 1) : sizeOf s < n ∧ sizeOf p < n := by
      simp only [reference.sizeOf_spec] at hv
      exact ⟨by omega, by omega⟩
    constructor
    · intro a b ha hb h
      rw [equal_iff] at h ⊢
      rcases h with ⟨hx, rfl⟩ | ⟨hx, hy, h⟩ | ⟨hx, hy, h⟩ | ⟨rfl, rfl, h⟩ | ⟨hx, hy, h⟩ |
        ⟨rfl, rfl, hs, hp⟩
      · exact .atom hx rfl
      · exact .number hy hx (Number.Numeric.eq_symm h)
      · exact .list hy hx (eq.equalItems_symm (items ha hx) (items hb hy) h)
      · exact .tuple rfl rfl (eq.equalItems_symm (tuple ha) (tuple hb) h)
      · exact .mapping hy hx (eq.equalMappings_symm (entries ha hx) (entries hb hy) h)
      · exact .reference rfl rfl (eq.symm (parts ha).1 (parts hb).1 hs)
          (eq.symm (parts ha).2 (parts hb).2 hp)
    · intro a b c ha hb hc hab hbc
      rw [equal_iff] at hab ⊢
      rcases hab with ⟨hx, rfl⟩ | ⟨hx, hy, h⟩ | ⟨hx, hy, h⟩ | ⟨rfl, rfl, h⟩ | ⟨hx, hy, h⟩ |
        ⟨rfl, rfl, hs, hp⟩
      · exact equal_iff.1 hbc
      · obtain ⟨k, hz, h'⟩ := (equal_iff.1 hbc).of_number hy
        exact .number hx hz (Number.Numeric.eq_trans h h')
      · obtain ⟨zs, hz, h'⟩ := (equal_iff.1 hbc).of_list hy
        exact .list hx hz (eq.equalItems_trans (items ha hx) (items hb hy) (items hc hz) h h')
      · cases c <;> simp only [equal, Bool.false_eq_true] at hbc
        exact .tuple rfl rfl (eq.equalItems_trans (tuple ha) (tuple hb) (tuple hc) h hbc)
      · obtain ⟨zs, hz, h'⟩ := (equal_iff.1 hbc).of_mapping hy
        exact .mapping hx hz
          (eq.equalMappings_trans (entries ha hx) (entries hb hy) (entries hc hz) h h')
      · cases c <;> simp only [equal, Bool.false_eq_true, Bool.and_eq_true] at hbc
        exact .reference rfl rfl (eq.trans (parts ha).1 (parts hb).1 (parts hc).1 hs hbc.1)
          (eq.trans (parts ha).2 (parts hb).2 (parts hc).2 hp hbc.2)

theorem equal_symm {a b : Value} (h : a.equal b = true) : b.equal a = true :=
  (equalityOn_below (sizeOf a + sizeOf b + 1)).symm (by omega) (by omega) h

theorem equal_trans {a b c : Value} (hab : a.equal b = true) (hbc : b.equal c = true) :
    a.equal c = true :=
  (equalityOn_below (sizeOf a + sizeOf b + sizeOf c + 1)).trans (by omega) (by omega) (by omega) hab hbc

theorem equal_congr_left {a b : Value} (h : a.equal b = true) (c : Value) : a.equal c = b.equal c := by
  rw [Bool.eq_iff_iff]
  exact ⟨equal_trans (equal_symm h), equal_trans h⟩

theorem equal_congr_right {a b : Value} (h : a.equal b = true) (c : Value) : c.equal a = c.equal b := by
  rw [Bool.eq_iff_iff]
  exact ⟨fun hc => equal_trans hc h, fun hc => equal_trans hc (equal_symm h)⟩

theorem equal_comm (a b : Value) : a.equal b = b.equal a := by
  rw [Bool.eq_iff_iff]
  exact ⟨equal_symm, equal_symm⟩

end Value

end PipelineTemplate
