import PipelineTemplate.Template.Resolution
import PipelineTemplate.Proofs.Run.Quiet

/-!
# Absolute paths

A normalized path from the root has a directory around it, and templates are found under such paths.
-/

namespace PipelineTemplate

namespace Path

theorem isAbsolute_iff {path : String} : isAbsolute path = true ↔ ∃ cs, path.toList = '/' :: cs := by
  simp only [isAbsolute, String.startsWith_string_iff]
  constructor
  · rintro ⟨cs, h⟩
    exact ⟨cs, h.symm⟩
  · rintro ⟨cs, h⟩
    exact ⟨cs, h.symm⟩

theorem isAbsolute_append {path : String} (h : isAbsolute path = true) (next : String) :
    isAbsolute (path ++ next) = true := by
  obtain ⟨cs, hc⟩ := isAbsolute_iff.1 h
  exact isAbsolute_iff.2 ⟨cs ++ next.toList, by simp [hc]⟩

theorem isAbsolute_join {path : String} (h : isAbsolute path = true) (next : String) :
    isAbsolute (join path next) = true := by
  unfold join
  split
  · assumption
  · split
    · exact isAbsolute_append h next
    · rw [String.append_assoc]
      exact isAbsolute_append h _

theorem isAbsolute_root {path : String} (h : isAbsolute path = true) :
    isAbsolute (root path) = true := by
  obtain ⟨cs, hc⟩ := isAbsolute_iff.1 h
  rw [isAbsolute_iff]
  unfold root
  split
  · exact ⟨[], rfl⟩
  · exact ⟨['/'], rfl⟩
  · exact ⟨[], rfl⟩
  · rename_i hs
    exact absurd hc (hs cs)

theorem isAbsolute_normalize {path : String} (h : isAbsolute path = true) :
    isAbsolute (normalize path) = true := by
  have hr : isAbsolute (ofComponents (root path)
      ((components path).foldl (step (isAbsolute path)) []).reverse) = true :=
    isAbsolute_append (isAbsolute_root h) _
  unfold normalize
  simp only
  split
  · rename_i he
    rw [he] at hr
    obtain ⟨cs, hc⟩ := isAbsolute_iff.1 hr
    cases hc
  · exact hr

theorem isAbsolute_absolute {directory : String} (h : isAbsolute directory = true) (path : String) :
    isAbsolute (absolute directory path) = true := by
  unfold absolute
  split
  · exact isAbsolute_normalize ‹_›
  · exact isAbsolute_normalize (isAbsolute_join h path)

theorem parent_ne_empty {path : String} (h : isAbsolute path = true) : parent path ≠ "" := by
  obtain ⟨cs, hc⟩ := isAbsolute_iff.1 h
  have hl : 2 ≤ (components path).reverse.length := by
    simp [components, Text.split, Text.splitFrom, hc]
  unfold parent
  split
  · simp only
    split
    · simp
    · assumption
  · rename_i hn
    match hr : (components path).reverse with
    | [] => simp [hr] at hl
    | [_] => simp [hr] at hl
    | last :: part :: before => exact absurd hr (hn last part before)

end Path

namespace Template

open Run

variable {s t : Session} (hw : Path.isAbsolute s.world.workingDirectory = true)

include hw

theorem firstFile_absolute {paths : List String} {path : String}
    (h : (firstFile paths).start s = (.ok (some path), t)) : Path.isAbsolute path = true := by
  induction paths generalizing s with
  | nil => cases h
  | cons first rest ih =>
    rw [firstFile, start_bind_ok (show (absolute first).start s = _ from rfl),
      start_bind_ok (start_look ..)] at h
    split at h
    · cases h
      exact Path.isAbsolute_absolute hw first
    · exact ih (by exact hw) h

theorem findWithin_absolute {template : String} {directory repository : Option String} {path : String}
    (h : (findWithin template directory repository).start s = (.ok (some path), t)) :
    Path.isAbsolute path = true := by
  simp only [findWithin] at h
  split at h
  · cases h
  · exact firstFile_absolute hw h

theorem foundOr_absolute {path : String} {found : Option String} {result : String}
    (hf : ∀ p, found = some p → Path.isAbsolute p = true)
    (h : (foundOr path found).start s = (.ok result, t)) : Path.isAbsolute result = true := by
  cases found with
  | some p =>
    cases h
    exact hf _ rfl
  | none =>
    cases h
    exact Path.isAbsolute_absolute hw path

theorem place_absolute {engine : Engine} {ctx : Context} {name : String} {located : Located}
    (h : (place engine ctx name).start s = (.ok located, t)) :
    Path.isAbsolute located.path = true := by
  unfold place at h
  split at h
  · obtain ⟨found, u, hf, h⟩ := of_start_bind_ok h
    obtain ⟨path, v, hp, h⟩ := of_start_bind_ok h
    have hu : u.world = s.world := by rw [← ((quiet_search engine).findWithin ..).world s, hf]
    cases h
    refine foundOr_absolute (by rw [hu]; exact hw) (fun p hp => ?_) hp
    subst hp
    exact findWithin_absolute hw hf
  · obtain ⟨root, u, hr, h⟩ := of_start_bind_ok h
    obtain ⟨found, v, hf, h⟩ := of_start_bind_ok h
    obtain ⟨path, w, hp, h⟩ := of_start_bind_ok h
    have hu : u.world = s.world := by rw [← ((quiet_search engine).repositoryRoot ..).world s, hr]
    have hv : v.world = u.world := by rw [← ((quiet_search engine).findWithin ..).world u, hf]
    cases h
    refine foundOr_absolute (by rw [hv, hu]; exact hw) (fun p hp => ?_) hp
    subst hp
    exact findWithin_absolute (by rw [hu]; exact hw) hf

/-- A template is found under an absolute path. -/
theorem locate_absolute {engine : Engine} {ctx : Context} {name : String} {located : Located}
    (h : (locate engine ctx name).start s = (.ok located, t)) :
    Path.isAbsolute located.path = true := by
  obtain ⟨placed, u, hp, h⟩ := of_start_bind_ok h
  obtain ⟨isFile, v, -, h⟩ := of_start_bind_ok h
  split at h
  · cases h
    exact place_absolute hw hp
  · cases h

end Template

end PipelineTemplate
