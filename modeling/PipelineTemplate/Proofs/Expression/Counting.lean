import Mathlib.Data.List.DropRight
import PipelineTemplate.Proofs.Expression.Outcome
import PipelineTemplate.Proofs.Text.Blank

/-!
# Counters

Functions are called and counters reset, in any order. What a counter gives depends on the calls of its
own key since the last reset alone: it starts from what the first of them asks for and goes up by one with
each. The main statement describes the counters after every sequence of steps, and the answer of the next
call.
-/

namespace PipelineTemplate.Counting

open Builtin (argument seed)
open Number (Numeric)

/-! ## Where a counter starts -/

/-- A sign before digits, and whether it makes a number negative. -/
inductive Sign : List Char → Bool → Prop where
  | none : Sign [] false
  | plus : Sign ['+'] false
  | minus : Sign ['-'] true

/-- The integer that a text begins with, behind blanks. -/
inductive LeadingInteger : List Char → Int → Prop where
  | intro {blanks sign digits rest : List Char} {negative : Bool}
      (blank : ∀ c ∈ blanks, Text.isBlank c = true) (signed : Sign sign negative)
      (decimal : ∀ c ∈ digits, Text.isDecimal c = true) (nonempty : digits ≠ [])
      (ends : Text.NoDigitFirst rest) :
      LeadingInteger (blanks ++ (sign ++ (digits ++ rest)))
        (if negative then -(Text.numeral digits : Int) else Text.numeral digits)

/-- The integer that a counter starts from when a value is given for it: an integer itself, the one that
a text begins with, and zero for all else. Doubles are left out. -/
inductive Starts : Value → Int → Prop where
  | integer (n : Int) : Starts (.int n) n
  | text {s : String} {n : Int} (h : LeadingInteger s.toList n) : Starts (.text s) n
  | wordless {s : String} (h : ∀ n, ¬LeadingInteger s.toList n) : Starts (.text s) 0
  | other {v : Value} (number : ∀ n, v ≠ .number n) (text : ∀ s, v ≠ .text s) : Starts v 0

/-- A sign or a digit is no blank. -/
theorem dropWhile_signed {sign digits rest : List Char} {negative : Bool} (signed : Sign sign negative)
    (decimal : ∀ c ∈ digits, Text.isDecimal c = true) (nonempty : digits ≠ []) :
    (sign ++ (digits ++ rest)).dropWhile Text.isBlank = sign ++ (digits ++ rest) := by
  obtain ⟨d, ds, rfl⟩ := List.exists_cons_of_ne_nil nonempty
  have hd : Text.isBlank d = false := Text.isBlank_of_isDecimal (decimal d List.mem_cons_self)
  cases signed with
  | none => exact List.dropWhile_cons_of_neg (by simp [hd])
  | plus => rfl
  | minus => rfl

theorem seed_of_leadingInteger {s : String} {n : Int} (h : LeadingInteger s.toList n) :
    seed (.text s) = .int n := by
  generalize hs : s.toList = cs at h
  obtain ⟨blank, signed, decimal, nonempty, ends⟩ := h
  rename_i blanks sign digits rest negative
  have hdrop : s.toList.dropWhile Text.isBlank = sign ++ (digits ++ rest) := by
    rw [hs, List.dropWhile_append_of_pos blank, dropWhile_signed signed decimal nonempty]
  have hspan : Text.spanDecimal (digits ++ rest) = (digits, rest) := Text.spanDecimal_of_isDecimal decimal ends
  unfold seed
  simp only [hdrop]
  cases signed with
  | none =>
    obtain ⟨d, ds, rfl⟩ := List.exists_cons_of_ne_nil nonempty
    have hne (c : Char) (hc : Text.isDecimal c = false) : d ≠ c := by
      rintro rfl
      rw [decimal d List.mem_cons_self] at hc
      cases hc
    have hminus : d ≠ '-' := hne '-' (by decide)
    have hplus : d ≠ '+' := hne '+' (by decide)
    rw [List.cons_append] at hspan
    simp [hminus, hplus, hspan]
  | plus => simp [hspan]
  | minus => simp [hspan]

/-- Behind the blanks of a text and a sign, if there is one, its digits are read. -/
theorem exists_seed (s : String) : ∃ sign unsigned negative, Sign sign negative ∧
    s.toList.dropWhile Text.isBlank = sign ++ unsigned ∧
    seed (.text s) = .int (if negative then -(Text.numeral (Text.spanDecimal unsigned).1 : Int)
      else Text.numeral (Text.spanDecimal unsigned).1) := by
  unfold seed
  simp only
  split
  · next unsigned hs => exact ⟨_, unsigned, _, .minus, hs, rfl⟩
  · next unsigned hs => exact ⟨_, unsigned, _, .plus, hs, rfl⟩
  · exact ⟨[], _, _, .none, rfl, rfl⟩

/-- Without an integer at its beginning a text counts for zero. -/
theorem seed_of_wordless {s : String} (h : ∀ n, ¬LeadingInteger s.toList n) : seed (.text s) = .int 0 := by
  obtain ⟨sign, unsigned, negative, signed, hs, hseed⟩ := exists_seed s
  have hspan : Text.spanDecimal unsigned = (unsigned.takeWhile Text.isDecimal, unsigned.dropWhile Text.isDecimal) :=
    List.span_eq_takeWhile_dropWhile _ _
  have hnone : unsigned.takeWhile Text.isDecimal = [] := by
    by_contra hne
    have ends : Text.NoDigitFirst (unsigned.dropWhile Text.isDecimal) := by
      have hhead := List.head?_dropWhile_not Text.isDecimal unsigned
      unfold Text.NoDigitFirst
      split at hhead
      · next heq => simp [heq, hhead]
      · next heq => simp [heq]
    have hleading := LeadingInteger.intro (List.all_eq_true.1 (List.all_takeWhile (l := s.toList))) signed
      (List.all_eq_true.1 List.all_takeWhile) hne ends
    rw [List.takeWhile_append_dropWhile, ← hs, List.takeWhile_append_dropWhile] at hleading
    exact h _ hleading
  rw [hseed, hspan, hnone]
  cases negative <;> rfl

theorem Starts.seed_eq {v : Value} {n : Int} (h : Starts v n) : seed v = .int n := by
  cases h with
  | integer n => rfl
  | text h => exact seed_of_leadingInteger h
  | wordless h => exact seed_of_wordless h
  | other number text =>
    cases v with
    | number n => exact absurd rfl (number n)
    | text s => exact absurd rfl (text s)
    | _ => rfl

/-- Every value but a double gives a counter one integer to start from. -/
theorem existsUnique_starts (v : Value) : (∃! n, Starts v n) ↔ ∀ x, v ≠ .number (.float x) := by
  constructor
  · rintro ⟨n, hn, -⟩ x rfl
    have hseed := hn.seed_eq
    cases hseed
  · intro h
    have hex : ∃ n, Starts v n := by
      cases v with
      | number n =>
        cases n with
        | int n => exact ⟨n, .integer n⟩
        | float x => exact absurd rfl (h x)
      | text s =>
        by_cases hs : ∃ n, LeadingInteger s.toList n
        · obtain ⟨n, hn⟩ := hs
          exact ⟨n, .text hn⟩
        · exact ⟨0, .wordless fun n hn => hs ⟨n, hn⟩⟩
      | _ => exact ⟨0, .other (by simp) (by simp)⟩
    obtain ⟨n, hn⟩ := hex
    exact ⟨n, hn, fun m hm => Numeric.int.inj (hm.seed_eq.symm.trans hn.seed_eq)⟩

/-! ## Steps -/

/-- What is done with the functions: one is called by name, or the counters are reset. -/
inductive Step where
  | call (name : String) (arguments : List Value)
  | reset

namespace Step

def isReset : Step → Bool
  | reset => true
  | call _ _ => false

def perform : Step → Run Value
  | call name arguments => Builtin.callNamed name arguments
  | reset => do
    modify fun s => { s with counters := [] }
    return .null

/-- The arguments of a call of the counter of a key. -/
def use? (key : String) : Step → Option (List Value)
  | call name arguments =>
    if Text.lower name = "counter" ∧ (argument arguments 0).toText = key then some arguments else none
  | reset => none

end Step

/-- The session that steps leave, whether they fail or not. -/
def after (s : Session) (steps : List Step) : Session :=
  steps.foldl (fun s step => (step.perform.start s).2) s

/-- The uses of a counter since the last reset, each by its arguments. -/
def uses (key : String) (steps : List Step) : List (List Value) :=
  (steps.rtakeWhile fun step => !step.isReset).filterMap (Step.use? key)

theorem after_concat (s : Session) (steps : List Step) (step : Step) :
    after s (steps ++ [step]) = (step.perform.start (after s steps)).2 := by
  rw [after, List.foldl_append]
  rfl

theorem uses_reset (key : String) (steps : List Step) : uses key (steps ++ [.reset]) = [] := by
  rw [uses, List.rtakeWhile_concat_neg _ _ _ (by simp [Step.isReset])]
  rfl

theorem uses_call (key : String) (steps : List Step) (name : String) (arguments : List Value) :
    uses key (steps ++ [.call name arguments]) =
      uses key steps ++ ((Step.call name arguments).use? key).toList := by
  rw [uses, List.rtakeWhile_concat_pos _ _ _ (by rfl), List.filterMap_append]
  cases h : (Step.call name arguments).use? key <;> simp [h, uses]

/-! ## One step -/

theorem lookup_cons_ite (key k : String) (n : Numeric) (rest : Counters) :
    ((k, n) :: rest).lookup key = if key = k then some n else rest.lookup key := by
  by_cases h : key = k
  · rw [if_pos h, h, List.lookup_cons_self]
  · rw [if_neg h, List.lookup_cons, beq_eq_false_iff_ne.2 h]

section Advance

variable (counters : Counters) (key : String)

/-- The counters with the one of a key set. -/
theorem lookup_put (next : Numeric) (other : String) :
    (counters.map fun (k, n) => if k == key then (k, next) else (k, n)).lookup other =
      if other = key then (counters.lookup key).map fun _ => next else counters.lookup other := by
  induction counters with
  | nil => simp
  | cons counter rest ih =>
    obtain ⟨k, n⟩ := counter
    rw [List.map_cons, lookup_cons_ite key]
    by_cases hk : k = key
    · subst hk
      simp only [BEq.rfl, if_true, lookup_cons_ite, ih]
      split <;> simp
    · simp only [beq_eq_false_iff_ne.2 hk, Bool.false_eq_true, if_false, lookup_cons_ite, ih]
      grind

theorem keys_put (next : Numeric) :
    (counters.map fun (k, n) => if k == key then (k, next) else (k, n)).map Prod.fst =
      counters.map Prod.fst := by
  rw [List.map_map]
  refine List.map_congr_left fun counter _ => ?_
  simp only [Function.comp_apply]
  split <;> rfl

theorem isSome_lookup : (counters.lookup key).isSome = true ↔ key ∈ counters.map Prod.fst := by
  rw [List.lookup_isSome_iff, List.mem_map]
  constructor
  · rintro ⟨counter, hc, hk⟩
    exact ⟨counter, hc, (eq_of_beq hk).symm⟩
  · rintro ⟨counter, hc, rfl⟩
    exact ⟨counter, hc, BEq.rfl⟩

/-- A counter that is used gives its value, goes up by one and leaves the others as they are. -/
theorem advance_eq (start : Numeric) (hdistinct : (counters.map Prod.fst).Nodup) :
    ∃ next counters', Builtin.advance counters key start = .ok ((counters.lookup key).getD start, counters') ∧
      ((counters.lookup key).getD start).add (.int 1) = .ok next ∧ (counters'.map Prod.fst).Nodup ∧
      ∀ other, counters'.lookup other = if other = key then some next else counters.lookup other := by
  obtain ⟨r, hr⟩ := Builtin.exists_advance counters key start
  unfold Builtin.advance at hr ⊢
  simp only at hr ⊢
  cases hadd : ((counters.lookup key).getD start).add (.int 1) with
  | error cause =>
    rw [hadd] at hr
    cases hr
  | ok next =>
    refine ⟨next, _, rfl, rfl, ?_⟩
    cases hs : (counters.lookup key).isSome with
    | true =>
      obtain ⟨n, hn⟩ := Option.isSome_iff_exists.1 hs
      rw [if_pos rfl, keys_put]
      refine ⟨hdistinct, fun other => ?_⟩
      rw [lookup_put, hn]
      rfl
    | false =>
      have hnone : counters.lookup key = none := by simpa using hs
      have hnew : key ∉ counters.map Prod.fst := by
        rw [← isSome_lookup, hs]
        simp
      rw [if_neg Bool.false_ne_true]
      refine ⟨?_, fun other => ?_⟩
      · rw [List.map_append, List.map_singleton, ← List.concat_eq_append]
        exact hdistinct.concat hnew
      · rw [List.lookup_append, lookup_cons_ite]
        split
        · next h => rw [h, hnone, Option.none_or]
        · exact Option.or_none

end Advance

theorem named?_counter {name : String} : Builtin.named? name = some .counter ↔ Text.lower name = "counter" := by
  constructor
  · intro h
    obtain ⟨before, rest, htable, -⟩ := List.lookup_eq_some_iff.1 h
    have hmem : (Text.lower name, Builtin.counter) ∈ Builtin.table := by simp [htable]
    simpa [Builtin.table] using hmem
  · intro h
    rw [Builtin.named?, h]
    rfl

/-- A counter gives its value and goes up by one. -/
theorem start_counter {name : String} (hname : Text.lower name = "counter") (arguments : List Value)
    (s : Session) (hdistinct : (s.counters.map Prod.fst).Nodup) :
    let key := (argument arguments 0).toText
    let current := (s.counters.lookup key).getD (seed (argument arguments 1))
    ∃ next counters, (Step.call name arguments).perform.start s = (.ok (.number current), { s with counters }) ∧
      current.add (.int 1) = .ok next ∧ (counters.map Prod.fst).Nodup ∧
      ∀ other, counters.lookup other = if other = key then some next else s.counters.lookup other := by
  intro key current
  obtain ⟨next, counters, hadvance, hnext, hkeys, hlookup⟩ :=
    advance_eq s.counters key (seed (argument arguments 1)) hdistinct
  refine ⟨next, counters, ?_, hnext, hkeys, hlookup⟩
  have hrun : (Step.call name arguments).perform = Builtin.call .counter arguments := by
    rw [Step.perform, Builtin.callNamed, named?_counter.2 hname]
  rw [hrun, Builtin.call, Run.start_bind_ok (Run.start_get s)]
  simp only [key, hadvance]
  rfl

/-- No other function touches the counters. -/
theorem counters_other {name : String} (hname : Text.lower name ≠ "counter") (arguments : List Value)
    (s : Session) : ((Step.call name arguments).perform.start s).2.counters = s.counters := by
  rw [Step.perform, Builtin.callNamed]
  split
  · next f hf =>
    have hne : f ≠ .counter := by
      rintro rfl
      exact hname (named?_counter.1 hf)
    unfold Builtin.call
    split
    · split
      · rfl
      · split <;> rfl
    · exact absurd rfl hne
    · rfl
  · rfl

/-! ## All steps -/

/-- Counters as steps leave them: those of the keys that have been used since the last reset, each with
its next value. -/
structure Tallies (steps : List Step) (counters : Counters) : Prop where
  distinct : (counters.map Prod.fst).Nodup
  keys : ∀ key, key ∈ counters.map Prod.fst ↔ uses key steps ≠ []
  next : ∀ key first later start, uses key steps = first :: later → Starts (argument first 1) start →
    counters.lookup key = some (.int (start + (later.length + 1)))

namespace Tallies

variable {steps : List Step}

/-- The value of a counter that is used once more. -/
theorem current {counters : Counters} (h : Tallies steps counters) {key : String}
    {arguments first : List Value} {later : List (List Value)} {start : Int}
    (huses : uses key steps ++ [arguments] = first :: later) (hstart : Starts (argument first 1) start) :
    (counters.lookup key).getD (seed (argument arguments 1)) = .int (start + later.length) := by
  cases hu : uses key steps with
  | nil =>
    rw [hu] at huses
    cases huses
    have hnew : (counters.lookup key).isSome ≠ true := by
      rw [ne_eq, isSome_lookup, h.keys, hu]
      simp
    rw [Option.not_isSome_iff_eq_none.1 hnew, Option.getD_none, hstart.seed_eq]
    simp
  | cons earliest rest =>
    rw [hu, List.cons_append] at huses
    cases huses
    rw [h.next key first rest start hu hstart, Option.getD_some, List.length_append]
    rfl

/-- Each step keeps the tally. -/
theorem concat {s : Session} (h : Tallies steps s.counters) (step : Step) :
    Tallies (steps ++ [step]) (step.perform.start s).2.counters := by
  cases step with
  | reset =>
    have hnone (key : String) : uses key (steps ++ [.reset]) = [] := uses_reset key steps
    refine ⟨List.nodup_nil, fun key => ?_, fun key first later start hu => ?_⟩
    · change key ∈ List.map Prod.fst ([] : Counters) ↔ _
      simp [hnone]
    · rw [hnone] at hu
      cases hu
  | call name arguments =>
    by_cases hname : Text.lower name = "counter"
    · obtain ⟨next, counters, hstart, hnext, hdistinct, hlookup⟩ := start_counter hname arguments s h.distinct
      have hown : uses (argument arguments 0).toText (steps ++ [.call name arguments]) =
          uses (argument arguments 0).toText steps ++ [arguments] := by
        rw [uses_call, Step.use?, if_pos ⟨hname, rfl⟩]
        rfl
      have hother {key : String} (hk : key ≠ (argument arguments 0).toText) :
          uses key (steps ++ [.call name arguments]) = uses key steps := by
        rw [uses_call, Step.use?, if_neg fun hc => hk hc.2.symm]
        exact List.append_nil _
      rw [hstart]
      refine ⟨hdistinct, fun key => ?_, fun key first later start hu hs => ?_⟩
      · rw [← isSome_lookup, hlookup]
        split
        · next hk =>
          subst hk
          simp [hown]
        · next hk => rw [hother hk, isSome_lookup, h.keys]
      · rw [hlookup]
        split
        · next hk =>
          subst hk
          rw [hown] at hu
          rw [h.current hu hs] at hnext
          cases hnext
          simp [Int.add_assoc]
        · next hk =>
          rw [hother hk] at hu
          exact h.next key first later start hu hs
    · have hsame (key : String) : uses key (steps ++ [.call name arguments]) = uses key steps := by
        rw [uses_call, Step.use?, if_neg fun hc => hname hc.1]
        exact List.append_nil _
      rw [counters_other hname]
      refine ⟨h.distinct, fun key => ?_, fun key => ?_⟩
      · rw [hsame, h.keys]
      · rw [hsame]
        exact h.next key

end Tallies

/-- Steps from a session without counters leave the tally of their uses. -/
theorem tallies_after {s : Session} (hs : s.counters = []) (steps : List Step) :
    Tallies steps (after s steps).counters := by
  induction steps using List.reverseRecOn with
  | nil =>
    change Tallies [] s.counters
    rw [hs]
    exact ⟨List.nodup_nil, fun key => by simp [uses], fun key first later start hu => by cases hu⟩
  | append_singleton steps step ih =>
    rw [after_concat]
    exact ih.concat step

/-- Counters neither repeat nor skip. Whatever steps have been taken, those that failed included, the
counters are those of the keys used since the last reset, each with its next value; and the next use of a
key gives the integer that its first use since the reset asked for, one more for each use after that.
Every value that is no double asks for exactly one integer. -/
theorem count_after (s : Session) (hs : s.counters = []) (steps : List Step) :
    (∀ v, (∃! n, Starts v n) ↔ ∀ x, v ≠ .number (.float x)) ∧
    Tallies steps (after s steps).counters ∧
    ∀ name arguments first later start, Text.lower name = "counter" →
      uses (argument arguments 0).toText steps ++ [arguments] = first :: later →
      Starts (argument first 1) start →
      ((Step.call name arguments).perform.start (after s steps)).1 = .ok (.int (start + later.length)) := by
  have htally := tallies_after hs steps
  refine ⟨existsUnique_starts, htally, fun name arguments first later start hname huses hstart => ?_⟩
  obtain ⟨next, counters, hrun, -⟩ := start_counter hname arguments (after s steps) htally.distinct
  rw [hrun, htally.current huses hstart]
  rfl

/-- A counter that was used before a reset starts again from what the first use after it asks for; the
call of another key and a later seed for the key, spelled in another way, do not matter. -/
theorem count_after_twice :
    let steps : List Step := [.call "counter" [.text "1", .int 9], .reset, .call "Counter" [.text "1", .text " -4x"],
      .call "counter" [.text "b", .text "x"], .call "upper" [.text "1"]]
    let again := [Value.int 1, .int 70]
    ({} : Session).counters = [] ∧ Text.lower "COUNTER" = "counter" ∧
      uses (argument again 0).toText steps ++ [again] = [[.text "1", .text " -4x"], again] ∧
      Starts (.text " -4x") (-4) ∧
      ((Step.call "COUNTER" again).perform.start (after {} steps)).1 = .ok (.int (-3)) := by
  intro steps again
  have hname : Text.lower "COUNTER" = "counter" := by decide +kernel
  have huses : uses (argument again 0).toText steps ++ [again] = [[.text "1", .text " -4x"], again] := by
    rfl
  have hstart : Starts (.text " -4x") (-4) :=
    .text (@LeadingInteger.intro [' '] ['-'] ['4'] ['x'] true (List.forall_mem_singleton.2 (by decide)) .minus
      (List.forall_mem_singleton.2 (by decide)) (by decide) rfl)
  exact ⟨rfl, hname, huses, hstart, (count_after {} rfl steps).2.2 "COUNTER" again _ _ _ hname huses hstart⟩

end PipelineTemplate.Counting
