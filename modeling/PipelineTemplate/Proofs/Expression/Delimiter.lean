import PipelineTemplate.Expression.Function
import PipelineTemplate.Proofs.Text.Separation

/-!
# Delimiters

A text is split into pieces at a delimiter, pieces are joined with a delimiter, and what is replaced in a
text stands between its pieces too. The main statement says how these three functions fit together, for
every delimiter, one that overlaps itself included.
-/

namespace PipelineTemplate.Delimiter

open Builtin (callNamed)

/-- The pieces of a text; an empty delimiter stands between each two characters. -/
def pieces (text delimiter : String) : List String :=
  if delimiter = "" then text.toList.map String.singleton
  else (Text.split delimiter.toList text.toList).map String.ofList

variable {delimiter : String}

theorem toList_pieces (hd : delimiter ≠ "") (text : String) :
    (pieces text delimiter).map String.toList = Text.split delimiter.toList text.toList := by
  rw [pieces, if_neg hd, List.map_map]
  exact (List.map_congr_left fun _ _ => String.toList_ofList).trans (List.map_id _)

/-- Joining the pieces of a text gives it back. -/
theorem join_pieces (text delimiter : String) : Text.join delimiter (pieces text delimiter) = text := by
  rw [← String.toList_inj, Text.join, String.toList_intercalate]
  by_cases hd : delimiter = ""
  · rw [pieces, if_pos hd, hd, List.map_map]
    have hsingle : text.toList.map (String.toList ∘ String.singleton) = text.toList.map fun c => [c] :=
      List.map_congr_left fun c _ => String.toList_singleton c
    rw [hsingle]
    exact Text.intercalate_characters text.toList
  · rw [toList_pieces hd, Text.intercalate_split (mt String.toList_eq_nil_iff.1 hd)]

/-- Joined texts are taken apart as they were exactly if the delimiter keeps them separated. -/
theorem pieces_join_iff (hd : delimiter ≠ "") (texts : List String) :
    pieces (Text.join delimiter texts) delimiter = texts ↔
      Text.Separated delimiter.toList (texts.map String.toList) := by
  rw [← List.map_inj_right fun _ _ => String.toList_inj.1, toList_pieces hd, Text.join, String.toList_intercalate]
  exact (Text.split_eq_iff (mt String.toList_eq_nil_iff.1 hd)).trans (and_iff_right rfl)

/-- Replacing is joining the pieces with the replacement. -/
theorem replaceText_eq_join (hd : delimiter ≠ "") (replacement text : String) :
    Text.replaceText delimiter replacement text = Text.join replacement (pieces text delimiter) := by
  rw [← String.toList_inj, Text.replaceText, String.toList_ofList, Text.join, String.toList_intercalate, toList_pieces hd,
    Text.replace_eq_intercalate (mt String.toList_eq_nil_iff.1 hd)]

/-! ## The functions -/

theorem callNamed_split (t : String) (d : Value) :
    callNamed "split" [.text t, d] = return .list ((pieces t d.toText).map .text) := by
  have hname : Builtin.named? "split" = some .split := by decide +kernel
  have hpieces : Builtin.splitText t d.toText = (pieces t d.toText).map .text := by
    unfold Builtin.splitText pieces
    split <;> rw [List.map_map] <;> rfl
  rw [callNamed, hname, ← hpieces]
  rfl

theorem callNamed_join (d : Value) (texts : List String) :
    callNamed "join" [d, .list (texts.map .text)] = return .text (Text.join d.toText texts) := by
  have hname : Builtin.named? "join" = some .join := by decide +kernel
  have htexts : (texts.map Value.text).map Builtin.joinedText = texts := by
    rw [List.map_map]
    exact (List.map_congr_left fun _ _ => rfl).trans (List.map_id texts)
  rw [callNamed, hname]
  exact congrArg (fun texts => (return .text (Text.join d.toText texts) : Run Value)) htexts

theorem callNamed_replace {a : Value} (ha : a.toText ≠ "") (t : String) (b : Value) :
    callNamed "replace" [.text t, a, b] = return .text (Text.replaceText a.toText b.toText t) := by
  have hname : Builtin.named? "replace" = some .replace := by decide +kernel
  rw [callNamed, hname]
  exact congrArg (fun s => (return .text s : Run Value)) (if_neg ha)

/-- What texts are split into after they were joined. -/
theorem callNamed_join_split (d : Value) (texts : List String) :
    (do
      let whole ← callNamed "join" [d, .list (texts.map .text)]
      callNamed "split" [whole, d]) =
      (return .list ((pieces (Text.join d.toText texts) d.toText).map .text) : Run Value) := by
  rw [callNamed_join]
  exact callNamed_split _ d

/-- What a text becomes if it is split at one value and joined with another. -/
theorem callNamed_split_join (t : String) (a b : Value) :
    (do
      let parts ← callNamed "split" [.text t, a]
      callNamed "join" [b, parts]) = (return .text (Text.join b.toText (pieces t a.toText)) : Run Value) := by
  rw [callNamed_split]
  exact callNamed_join b _

theorem return_texts_inj {texts texts' : List String}
    (h : (return .list (texts.map .text) : Run Value) = return .list (texts'.map .text)) : texts = texts' := by
  have hresult := congrArg (fun r : Run Value => (r.start default).1) h
  have hlist : texts.map Value.text = texts'.map Value.text := Value.list.inj (Except.ok.inj hresult)
  exact (List.map_inj_right fun _ _ => Value.text.inj).1 hlist

/-- Texts that were joined are split again as they were exactly if they are separated. -/
theorem callNamed_join_split_iff {d : Value} (hd : d.toText ≠ "") (texts : List String) :
    (do
      let whole ← callNamed "join" [d, .list (texts.map .text)]
      callNamed "split" [whole, d]) = (return .list (texts.map .text) : Run Value) ↔
      Text.Separated d.toText.toList (texts.map String.toList) := by
  rw [callNamed_join_split, ← pieces_join_iff hd]
  exact ⟨return_texts_inj, fun h => by rw [h]⟩

/-- A text is joined again from what it is split into, whatever the delimiter. Joined texts are split again
as they were exactly if they are separated; for a delimiter of one character, if none of them has it.
Replacing is splitting and joining with the replacement. -/
theorem split_join_replace (t : String) (a b d : Value) (texts : List String) :
    (do
      let parts ← callNamed "split" [.text t, d]
      callNamed "join" [d, parts]) = (return .text t : Run Value) ∧
    (∀ c, d.toText = String.singleton c → texts ≠ [] → (∀ s ∈ texts, c ∉ s.toList) →
      (do
        let whole ← callNamed "join" [d, .list (texts.map .text)]
        callNamed "split" [whole, d]) = (return .list (texts.map .text) : Run Value)) ∧
    (d.toText ≠ "" →
      ((do
        let whole ← callNamed "join" [d, .list (texts.map .text)]
        callNamed "split" [whole, d]) = (return .list (texts.map .text) : Run Value) ↔
      Text.Separated d.toText.toList (texts.map String.toList))) ∧
    (a.toText ≠ "" →
      callNamed "replace" [.text t, a, b] = (do
        let parts ← callNamed "split" [.text t, a]
        callNamed "join" [b, parts])) := by
  refine ⟨?_, ?_, ?_, ?_⟩
  · rw [callNamed_split_join, join_pieces]
  · intro c hc hne hmem
    have hd : d.toText ≠ "" := hc ▸ String.singleton_ne_empty
    rw [callNamed_join_split_iff hd, hc, String.toList_singleton, Text.separated_singleton]
    exact ⟨by simpa using hne, by simpa using hmem⟩
  · intro hd
    exact callNamed_join_split_iff hd texts
  · intro ha
    rw [callNamed_split_join, callNamed_replace ha, replaceText_eq_join ha]

/-- A delimiter that overlaps itself, where a text ends as the delimiter begins, and a number as delimiter
at both ends. -/
theorem split_join_replace_overlapping :
    (do
      let parts ← callNamed "split" [.text "aaa", .text "aa"]
      callNamed "join" [.text "aa", parts]) = (return .text "aaa" : Run Value) ∧
    (do
      let whole ← callNamed "join" [.int 5, .list [.text "", .text "x", .text ""]]
      callNamed "split" [whole, .int 5]) = (return .list [.text "", .text "x", .text ""] : Run Value) ∧
    (do
      let whole ← callNamed "join" [.text "aa", .list [.text "ab", .text "a"]]
      callNamed "split" [whole, .text "aa"]) = (return .list [.text "ab", .text "a"] : Run Value) ∧
    callNamed "replace" [.text "aaa", .text "aa", .undefined] = (do
      let parts ← callNamed "split" [.text "aaa", .text "aa"]
      callNamed "join" [.undefined, parts]) := by
  have hseparated : Text.Separated "aa".toList ["ab".toList, "a".toList] := .next (by decide) (.last (by decide))
  obtain ⟨hjoin, -, hsplit, hreplace⟩ := split_join_replace "aaa" (.text "aa") .undefined (.text "aa") ["ab", "a"]
  obtain ⟨-, hcharacter, -, -⟩ := split_join_replace "" .null .null (.int 5) ["", "x", ""]
  exact ⟨hjoin, hcharacter '5' (by decide +kernel) (by decide) (by decide), (hsplit (by decide)).2 hseparated,
    hreplace (by decide)⟩

end PipelineTemplate.Delimiter
