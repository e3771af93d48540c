import PipelineTemplate.Resources
import PipelineTemplate.Proofs.Text.Digit
import PipelineTemplate.Proofs.Value.Inert

/-!
# Values whose keys are texts

A position can be given as a number or as a text of digits. Where all keys of mappings are texts and no
alias of a list is made of digits, both lead to the same value.
-/

namespace PipelineTemplate

namespace Text

theorem index?_ofNat (n : Nat) : index? (ofNat n) = some n := by
  simp [index?, ofNat, spanDecimal_digits (all_toDigits n), Nat.toDigits_ne_nil]

theorem isNumeric_ofNat (n : Nat) : isNumeric (ofNat n) = true := by
  have hall : ∀ c ∈ (ofNat n).toList, isDigit c = true := by
    intro c hc
    simp [isDigit, isDecimal_of_isPlainDigit (List.all_eq_true.1 (all_ofNat n) c hc)]
  have hne : ofNat n ≠ "" := by
    intro hempty
    exact ofNat_ne_nil n (congrArg String.toList hempty)
  simpa [isNumeric, hne] using hall

theorem ofNat_ne {s : String} (h : isNumeric s = false) (n : Nat) : ofNat n ≠ s := by
  rintro rfl
  rw [isNumeric_ofNat] at h
  cases h

end Text

namespace Value

/-- The keys of a mapping. -/
def keys (v : Value) : List Value := (v.pairs?.getD []).map Prod.fst

/-- The names by which items of a list can be reached. -/
def aliases : Value → List String
  | .aliased _ aliases => aliases.map Prod.fst
  | _ => []

/-- At any depth, the keys of mappings are texts and the aliases of lists are not made of digits. -/
inductive TextKeyed : Value → Prop where
  | intro {v : Value} (keys : ∀ key ∈ v.keys, key.isText = true)
      (aliases : ∀ name ∈ v.aliases, Text.isNumeric name = false) (held : ∀ c ∈ v.held, TextKeyed c) :
      TextKeyed v

namespace TextKeyed

variable {v w target : Value}

theorem keys (h : v.TextKeyed) : ∀ key ∈ v.keys, key.isText = true := by
  cases h with
  | intro hkeys _ _ => exact hkeys

theorem aliases (h : v.TextKeyed) : ∀ name ∈ v.aliases, Text.isNumeric name = false := by
  cases h with
  | intro _ haliases _ => exact haliases

theorem undefined : TextKeyed .undefined := .intro nofun nofun nofun
theorem number (n : Number.Numeric) : TextKeyed (.number n) := .intro nofun nofun nofun
theorem text (s : String) : TextKeyed (.text s) := .intro nofun nofun nofun

theorem list {items : List Value} (h : ∀ item ∈ items, item.TextKeyed) : TextKeyed (.list items) :=
  .intro nofun nofun h

theorem map {entries : Entries} (hkeys : ∀ entry ∈ entries, entry.1.isText = true)
    (h : ∀ entry ∈ entries, entry.2.TextKeyed) : TextKeyed (.map entries) :=
  .intro (List.forall_mem_map.2 hkeys) nofun (List.forall_mem_map.2 h)

theorem of_offers (h : target.TextKeyed) (ho : target.Offers v) : v.TextKeyed := by
  cases ho with
  | undefined => exact undefined
  | number n => exact number n
  | text s => exact text s
  | held hv =>
    cases h with
    | intro _ _ hheld => exact hheld v hv

theorem member (h : target.TextKeyed) (key : Value) : (target.member key).TextKeyed :=
  h.of_offers (.member target key)

/-! ## Positions -/

theorem get?_number {entries : Entries} (h : ∀ entry ∈ entries, entry.1.isText = true) (n : Number.Numeric) :
    entries.get? (.number n) = none := by
  apply Entries.get?_eq_none
  intro entry he
  have htext := h entry he
  cases hkey : entry.1 with
  | text s => simp [equal]
  | _ =>
    rw [hkey] at htext
    cases htext

theorem entryAt_position {entries : Entries} (h : ∀ entry ∈ entries, entry.1.isText = true) (n : Nat) :
    entryAt entries (.int n) = entryAt entries (.text (Text.ofNat n)) := by
  have hposition : entries.get? (.int n) = none := get?_number h _
  have htext : (Number.Numeric.int n).text = Text.ofNat n := Text.ofInt_natCast n
  have hnumber : entryAt entries (.int n) = entries.getD (.text (Text.ofNat n)) .undefined := by
    unfold entryAt
    rw [hposition]
    exact congrArg (fun s => entries.getD (.text s) .undefined) htext
  rw [hnumber]
  unfold entryAt Entries.getD
  cases entries.get? (.text (Text.ofNat n)) with
  | some v => rfl
  | none => simp [Text.index?_ofNat, hposition]

theorem itemAt_position (items : List Value) (n : Nat) :
    itemAt items (.int n) = itemAt items (.text (Text.ofNat n)) := by
  have hlength : Text.ofNat n ≠ "length" := Text.ofNat_ne (by decide) n
  have htext : toIndex? (.text (Text.ofNat n)) = some n := Text.index?_ofNat n
  have hnumber : toIndex? (.int n) = some n := by simp [toIndex?, int, Number.Numeric.normalize]
  calc
    itemAt items (.int n) = ((toIndex? (.int n)).bind (items[·]?)).getD .undefined := rfl
    _ = itemAt items (.text (Text.ofNat n)) := by simp [itemAt, hlength, htext, hnumber]

/-- A position leads to the same value as a number and as a text. -/
theorem member_position (h : target.TextKeyed) (n : Nat) :
    target.member (.int n) = target.member (.text (Text.ofNat n)) := by
  cases target with
  | map entries | pairs entries => exact entryAt_position (List.forall_mem_map.1 h.keys) n
  | list items | tuple items => exact itemAt_position items n
  | text s => exact itemAt_position _ n
  | aliased items aliases =>
    have hlookup : aliases.lookup (Text.ofNat n) = none := by
      apply List.lookup_eq_none_iff.2
      intro entry he
      have hname : Text.ofNat n ≠ entry.1 := Text.ofNat_ne (h.aliases _ (List.mem_map_of_mem he)) n
      simpa using hname
    have hitems : (Value.aliased items aliases).member (.text (Text.ofNat n)) =
        itemAt items (.text (Text.ofNat n)) := by
      simp [Value.member, isMissing, hlookup]
    rw [hitems]
    exact itemAt_position items n
  | reference template parameters =>
    have htemplate : Text.ofNat n ≠ "template" := Text.ofNat_ne (by decide) n
    have hparameters : Text.ofNat n ≠ "parameters" := Text.ofNat_ne (by decide) n
    simp [Value.member, isMissing, int, htemplate, hparameters]
  | _ => rfl

end TextKeyed

end Value

/-! ## Resources -/

namespace Resources

open Value

/-- An alias of a repository is not made of digits, and leads to the fields of the repository. -/
theorem mem_aliases {repositories : List Repository} : ∀ entry ∈ aliases repositories,
    Text.isNumeric entry.1 = false ∧ ∃ r ∈ repositories, entry.2 = .map r.fields := by
  unfold aliases
  apply List.foldlRecOn (motive := fun found : List (String × Value) => ∀ entry ∈ found,
    Text.isNumeric entry.1 = false ∧ ∃ r ∈ repositories, entry.2 = .map r.fields) repositories _
    (List.forall_mem_nil _)
  intro found hfound r hr
  split
  · next name _ =>
    split
    · exact hfound
    · next hname =>
      rw [Bool.not_eq_true, Bool.or_eq_false_iff] at hname
      exact List.forall_mem_append.2 ⟨hfound, List.forall_mem_singleton.2 ⟨hname.1, r, hr, rfl⟩⟩
  · exact hfound

/-- Resources whose keys are texts are seen as a value whose keys are texts. -/
theorem textKeyed_toValue {r : Resources} (hothers : TextKeyed (.map r.others))
    (hfields : ∀ repository ∈ r.repositories, TextKeyed (.map repository.fields)) : r.toValue.TextKeyed := by
  have hlist : TextKeyed (.aliased (r.repositories.map fun repository => .map repository.fields)
      (aliases r.repositories)) := by
    have hreached : ∀ entry ∈ aliases r.repositories, entry.2.TextKeyed := by
      intro entry he
      obtain ⟨repository, hr, hvalue⟩ := (mem_aliases entry he).2
      rw [hvalue]
      exact hfields repository hr
    have hnames : ∀ entry ∈ aliases r.repositories, Text.isNumeric entry.1 = false :=
      fun entry he => (mem_aliases entry he).1
    exact .intro nofun (List.forall_mem_map.2 hnames)
      (List.forall_mem_append.2 ⟨List.forall_mem_map.2 hfields, List.forall_mem_map.2 hreached⟩)
  have hvalues : ∀ entry ∈ r.others, entry.2.TextKeyed := by
    intro entry he
    exact hothers.of_offers (.held (List.mem_map_of_mem he))
  exact .map (Entries.forall_keys_insert (List.forall_mem_map.1 hothers.keys) rfl _)
    (Entries.forall_insert hvalues hlist _)

end Resources

end PipelineTemplate
