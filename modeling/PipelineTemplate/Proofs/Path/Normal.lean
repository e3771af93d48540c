import Mathlib.Data.List.Basic
import PipelineTemplate.Proofs.Path
import PipelineTemplate.Proofs.Text.Separation

/-!
# Normal paths

The normal form of an absolute path is the text of a route, the names from the root on. Every spelling that
leads to a place of the disk has the text of the route of this place for its normal form.
-/

namespace PipelineTemplate

namespace Path

/-! ## Routes -/

/-- A component that names something: it is neither empty nor made of dots for this or the upper directory. -/
structure Named (part : List Char) : Prop where
  nonempty : part ≠ []
  notHere : part ≠ ['.']
  notUpper : part ≠ ['.', '.']
  noSlash : '/' ∉ part

/-- The path of a route. -/
def ofRoute (route : Route) : String := ofComponents "/" route

/-- An absolute path without empty, `.` and `..` components and without slashes at its end. -/
def Normal (path : String) : Prop := ∃ route : Route, (∀ part ∈ route, Named part) ∧ path = ofRoute route

/-- An absolute path that does not start with exactly two slashes. -/
structure Rooted (path : String) : Prop where
  absolute : isAbsolute path = true
  notDouble : root path ≠ "//"

/-- The route that the text of an absolute path describes. -/
def route (path : String) : Route := ((components path).foldl (step true) []).reverse

theorem ofRoute_toList (route : Route) : (ofRoute route).toList = '/' :: ['/'].intercalate route := by
  simp [ofRoute, ofComponents, Text.join, String.toList_intercalate, List.map_map, Function.comp_def]

theorem components_ofRoute_nil : components (ofRoute []) = [[], []] := by
  rw [components, ofRoute_toList]
  rfl

theorem components_ofRoute {route : Route} (h : ∀ part ∈ route, Named part) (hne : route ≠ []) :
    components (ofRoute route) = [] :: route := by
  obtain ⟨part, route, rfl⟩ := List.exists_cons_of_ne_nil hne
  have hsplit := @Text.split_pieces '/' [] (part :: route) List.not_mem_nil fun piece hp => (h piece hp).noSlash
  rw [components, ofRoute_toList, Text.intercalate_cons]
  exact hsplit

/-! ## Steps -/

theorem step_nil (rooted : Bool) (parts : List (List Char)) : step rooted parts [] = parts := rfl

theorem step_named (rooted : Bool) (parts : List (List Char)) {part : List Char} (h : Named part) :
    step rooted parts part = part :: parts := by
  unfold step
  rw [if_neg (by simp [h.nonempty, h.notHere]), if_neg h.notUpper]

theorem step_upper {parts : List (List Char)} (h : ∀ part ∈ parts, Named part) :
    step true parts ['.', '.'] = parts.tail := by
  unfold step
  rw [if_neg (by decide), if_pos rfl]
  cases parts with
  | nil => rfl
  | cons last rest => exact if_neg (h last (List.mem_cons_self ..)).notUpper

theorem foldl_step_named (rooted : Bool) {route : Route} (h : ∀ part ∈ route, Named part)
    (parts : List (List Char)) :
    route.foldl (step rooted) parts = route.reverse ++ parts := by
  induction route generalizing parts with
  | nil => rfl
  | cons part route ih =>
    obtain ⟨hpart, hroute⟩ := List.forall_mem_cons.1 h
    rw [List.foldl_cons, step_named _ _ hpart, ih hroute, List.reverse_cons, List.append_assoc]
    rfl

/-- A step from named components leads to named components. -/
theorem named_step {parts : List (List Char)} {component : List Char} (h : ∀ part ∈ parts, Named part)
    (hc : '/' ∉ component) : ∀ part ∈ step true parts component, Named part := by
  unfold step
  split
  · exact h
  · next hne =>
    rw [not_or] at hne
    split
    · split
      · exact List.forall_mem_nil _
      · next last rest =>
        rw [if_neg (h last (List.mem_cons_self ..)).notUpper]
        exact List.forall_mem_of_forall_mem_cons h
    · next hupper => exact List.forall_mem_cons.2 ⟨⟨hne.1, hne.2, hupper, hc⟩, h⟩

theorem named_foldl {parts components : List (List Char)} (h : ∀ part ∈ parts, Named part)
    (hc : ∀ component ∈ components, '/' ∉ component) :
    ∀ part ∈ components.foldl (step true) parts, Named part := by
  induction components generalizing parts with
  | nil => exact h
  | cons component components ih =>
    obtain ⟨hfirst, hrest⟩ := List.forall_mem_cons.1 hc
    exact ih (named_step h hfirst) hrest

theorem named_route (path : String) : ∀ part ∈ route path, Named part := by
  intro part hp
  exact named_foldl (List.forall_mem_nil _) (fun component hc => Text.not_mem_of_mem_split hc) part
    (List.mem_reverse.1 hp)

theorem route_ofRoute {parts : Route} (h : ∀ part ∈ parts, Named part) : route (ofRoute parts) = parts := by
  by_cases hne : parts = []
  · subst hne
    rw [route, components_ofRoute_nil]
    rfl
  · rw [route, components_ofRoute h hne, List.foldl_cons, step_nil, foldl_step_named true h, List.append_nil,
      List.reverse_reverse]

/-! ## Normal forms -/

theorem root_cases {path : String} {cs : List Char} (h : path.toList = '/' :: cs) :
    root path = "/" ∧ (cs.head? ≠ some '/' ∨ ∃ ds, cs = '/' :: '/' :: ds) ∨
      root path = "//" ∧ ∃ ds, cs = '/' :: ds ∧ ds.head? ≠ some '/' := by
  unfold root
  split
  · next hcs =>
    rw [h] at hcs
    exact .inl ⟨rfl, .inr ⟨_, (List.cons.inj hcs).2⟩⟩
  · next ds hnone hcs =>
    refine .inr ⟨rfl, ds, ?_, ?_⟩
    · rw [h] at hcs
      exact (List.cons.inj hcs).2
    · intro hhead
      obtain ⟨ds', rfl⟩ := List.head?_eq_some_iff.1 hhead
      exact hnone ds' rfl
  · next tail _ hnone hcs =>
    refine .inl ⟨rfl, .inl fun hhead => ?_⟩
    obtain ⟨ds, rfl⟩ := List.head?_eq_some_iff.1 hhead
    rw [h] at hcs
    exact hnone ds (List.cons.inj hcs).2.symm
  · next hnone => exact absurd h (hnone cs)

/-- One slash or more than two stand in front. -/
theorem rooted_iff {path : String} : Rooted path ↔ ∃ cs, path.toList = '/' :: cs ∧
    (cs.head? ≠ some '/' ∨ ∃ ds, cs = '/' :: '/' :: ds) := by
  constructor
  · rintro ⟨habsolute, hdouble⟩
    obtain ⟨cs, hcs⟩ := isAbsolute_iff.1 habsolute
    rcases root_cases hcs with ⟨-, hrest⟩ | ⟨hroot, -⟩
    · exact ⟨cs, hcs, hrest⟩
    · exact absurd hroot hdouble
  · rintro ⟨cs, hcs, hrest⟩
    refine ⟨isAbsolute_iff.2 ⟨cs, hcs⟩, ?_⟩
    rcases root_cases hcs with ⟨hroot, -⟩ | ⟨-, ds, rfl, hds⟩
    · rw [hroot]
      decide
    · rcases hrest with hrest | ⟨ds', hds'⟩
      · exact absurd rfl hrest
      · rw [(List.cons.inj hds').2] at hds
        exact absurd rfl hds

theorem Rooted.root_eq {path : String} (h : Rooted path) : Path.root path = "/" := by
  obtain ⟨cs, hcs⟩ := isAbsolute_iff.1 h.absolute
  rcases root_cases hcs with ⟨hroot, -⟩ | ⟨hroot, -⟩
  · exact hroot
  · exact absurd hroot h.notDouble

theorem Rooted.ne_empty {path : String} (h : Rooted path) : path ≠ "" := by
  rintro rfl
  exact absurd h.absolute (by decide)

/-- A path in front of a text that would not make two slashes of one. -/
theorem Rooted.append {path next : String} (h : Rooted path) (hn : path = "/" → next.toList.head? ≠ some '/') :
    Rooted (path ++ next) := by
  obtain ⟨cs, hcs, hrest⟩ := rooted_iff.1 h
  refine rooted_iff.2 ⟨cs ++ next.toList, by rw [String.toList_append, hcs, List.cons_append], ?_⟩
  rcases hrest with hrest | ⟨ds, rfl⟩
  · cases cs with
    | nil =>
      refine .inl ?_
      rw [List.nil_append]
      exact hn (String.toList_injective hcs)
    | cons c cs => exact .inl (by simpa using hrest)
  · exact .inr ⟨ds ++ next.toList, rfl⟩

theorem rooted_ofRoute {parts : Route} (h : ∀ part ∈ parts, Named part) : Rooted (ofRoute parts) := by
  refine rooted_iff.2 ⟨_, ofRoute_toList parts, .inl ?_⟩
  cases parts with
  | nil => simp
  | cons part parts =>
    have hpart := h part (List.mem_cons_self ..)
    obtain ⟨c, cs, rfl⟩ := List.exists_cons_of_ne_nil hpart.nonempty
    rw [Text.intercalate_cons, List.cons_append, List.head?_cons, ne_eq, Option.some.injEq]
    rintro rfl
    exact hpart.noSlash (List.mem_cons_self ..)

/-- The normal form of an absolute path is the path of its route. -/
theorem Rooted.normalize_eq {path : String} (h : Rooted path) : normalize path = ofRoute (route path) := by
  have hne := (rooted_ofRoute (named_route path)).ne_empty
  unfold normalize
  simp only [h.root_eq, h.absolute]
  exact if_neg hne

theorem Normal.rooted {path : String} (h : Normal path) : Rooted path := by
  obtain ⟨parts, hparts, rfl⟩ := h
  exact rooted_ofRoute hparts

theorem Rooted.normal {path : String} (h : Rooted path) : Normal (normalize path) :=
  ⟨route path, named_route path, h.normalize_eq⟩

theorem Rooted.route_normalize {path : String} (h : Rooted path) : route (normalize path) = route path := by
  rw [h.normalize_eq, route_ofRoute (named_route path)]

theorem Rooted.absolute_eq {path : String} (h : Rooted path) (directory : String) :
    Path.absolute directory path = ofRoute (route path) := by
  rw [Path.absolute, if_pos h.absolute, h.normalize_eq]

theorem Rooted.normal_absolute {path : String} (h : Rooted path) (directory : String) :
    Normal (Path.absolute directory path) :=
  ⟨route path, named_route path, h.absolute_eq directory⟩

/-! ## Joined paths -/

theorem exists_of_endsWith {path : String} (h : path.endsWith "/" = true) : ∃ cs, path.toList = cs ++ ['/'] := by
  have hsuffix : "/".toList <:+ path.toList := by
    simpa [← String.endsWith_toSlice] using h
  obtain ⟨cs, hcs⟩ := hsuffix
  exact ⟨cs, hcs.symm⟩

theorem head?_of_relative {next : String} (h : isAbsolute next = false) : next.toList.head? ≠ some '/' := by
  intro hhead
  obtain ⟨cs, hcs⟩ := List.head?_eq_some_iff.1 hhead
  rw [isAbsolute_iff.2 ⟨cs, hcs⟩] at h
  cases h

/-- Behind an absolute path a relative one is joined with one slash between them. -/
theorem join_cases {path next : String} (hp : path ≠ "") (hn : isAbsolute next = false) :
    path.endsWith "/" = true ∧ join path next = path ++ next ∨
      path.endsWith "/" = false ∧ join path next = path ++ ("/" ++ next) := by
  rw [join, if_neg (Bool.eq_false_iff.1 hn)]
  cases hend : path.endsWith "/" with
  | true => exact .inl ⟨rfl, if_pos (.inr rfl)⟩
  | false =>
    refine .inr ⟨rfl, ?_⟩
    rw [if_neg (by simp [hp]), String.append_assoc]

theorem Rooted.join {path next : String} (h : Rooted path) (hn : isAbsolute next = false) :
    Rooted (Path.join path next) := by
  rcases join_cases h.ne_empty hn with ⟨-, hjoin⟩ | ⟨hend, hjoin⟩
  · rw [hjoin]
    exact h.append fun _ => head?_of_relative hn
  · rw [hjoin]
    refine h.append fun hroot => ?_
    rw [hroot] at hend
    exact absurd hend (by decide +kernel)

/-- A path behind an absolute one, whether it replaces that or not. -/
theorem Rooted.join_any {path next : String} (h : Rooted path) (hn : Path.root next ≠ "//") :
    Rooted (Path.join path next) := by
  cases habsolute : isAbsolute next with
  | true =>
    rw [Path.join, if_pos habsolute]
    exact ⟨habsolute, hn⟩
  | false => exact h.join habsolute

/-- The route of a joined path goes on from that of the first one. -/
theorem route_join {path next : String} (hp : path ≠ "") (hn : isAbsolute next = false) :
    route (join path next) = ((components next).foldl (step true) (route path).reverse).reverse := by
  rcases join_cases hp hn with ⟨hend, hjoin⟩ | ⟨-, hjoin⟩
  · obtain ⟨cs, hcs⟩ := exists_of_endsWith hend
    have hpath : components path = Text.split ['/'] cs ++ [[]] := by
      rw [components, hcs, Text.split_append]
      rfl
    have hwhole : components (join path next) = Text.split ['/'] cs ++ components next := by
      rw [hjoin, components, String.toList_append, hcs, List.append_assoc, List.singleton_append, Text.split_append]
      rfl
    rw [route, route, hwhole, hpath, List.foldl_append, List.foldl_append, List.reverse_reverse]
    rfl
  · have hwhole : components (join path next) = components path ++ components next := by
      have hslash : "/".toList = ['/'] := rfl
      rw [hjoin, components, String.toList_append, String.toList_append, hslash, List.singleton_append,
        Text.split_append]
      rfl
    rw [route, route, hwhole, List.foldl_append, List.reverse_reverse]

/-- It makes no difference to the route whether the first path is in its normal form. -/
theorem Rooted.route_join_normalize {path next : String} (h : Rooted path) (hn : isAbsolute next = false) :
    route (Path.join (normalize path) next) = route (Path.join path next) := by
  rw [route_join h.normal.rooted.ne_empty hn, route_join h.ne_empty hn, h.route_normalize]

theorem parent_eq {path : String} {before : List (List Char)} {last : List Char}
    (h : components path = before ++ [last]) (hne : before ≠ []) : parent path =
      let head := Text.join "/" (before.map String.ofList)
      let trimmed := String.ofList (head.toList.reverse.dropWhile (· = '/')).reverse
      if trimmed = "" then head ++ "/" else trimmed := by
  obtain ⟨c, cs, hcs⟩ := List.exists_cons_of_ne_nil (fun hnil => hne (List.reverse_eq_nil_iff.1 hnil))
  rw [parent, h, List.reverse_append, List.reverse_singleton, List.singleton_append, hcs]
  simp only
  rw [← hcs, List.reverse_reverse]

/-- The path of a route that is not empty ends in its last name. -/
theorem ofRoute_concat (parts : Route) (last : List Char) :
    ∃ before, (ofRoute (parts ++ [last])).toList = before ++ last := by
  rw [ofRoute_toList]
  cases parts with
  | nil => exact ⟨['/'], by simp⟩
  | cons part parts =>
    rw [List.cons_append, Text.intercalate_cons, List.flatMap_append]
    exact ⟨'/' :: (part ++ (parts.flatMap ('/' :: ·) ++ ['/'])), by simp⟩

/-- No slash stands at the end of the path of a route that is not empty. -/
theorem trimmed_ofRoute (parts : Route) {last : List Char} (h : Named last) :
    (ofRoute (parts ++ [last])).toList.reverse.dropWhile (· = '/') = (ofRoute (parts ++ [last])).toList.reverse := by
  obtain ⟨before, hbefore⟩ := ofRoute_concat parts last
  obtain ⟨c, cs, hcs⟩ := List.exists_cons_of_ne_nil fun hnil => h.nonempty (List.reverse_eq_nil_iff.1 hnil)
  have hslash : ¬decide (c = '/') = true := by
    rw [decide_eq_true_iff]
    rintro rfl
    exact h.noSlash (List.mem_reverse.1 (hcs ▸ List.mem_cons_self ..))
  rw [hbefore, List.reverse_append, hcs, List.cons_append]
  exact List.dropWhile_cons_of_neg hslash

/-- The components of the path of a route give the path when they are put together. -/
theorem join_ofRoute {route : Route} (hne : route ≠ []) :
    Text.join "/" (([] :: route).map String.ofList) = ofRoute route := by
  refine String.toList_injective ?_
  obtain ⟨part, route, rfl⟩ := List.exists_cons_of_ne_nil hne
  rw [ofRoute_toList, Text.join, String.toList_intercalate, List.map_map, Text.intercalate_cons]
  simpa using Text.intercalate_cons [] (part :: route)

/-- The directory around a named place. -/
theorem parent_ofRoute {parts : Route} (h : ∀ part ∈ parts, Named part) :
    parent (ofRoute parts) = ofRoute parts.dropLast := by
  rcases List.eq_nil_or_concat' parts with rfl | ⟨before, last, rfl⟩
  · rw [parent, components_ofRoute_nil]
    rfl
  · have hcomponents := components_ofRoute h (by simp)
    rw [List.dropLast_concat, parent_eq hcomponents (List.cons_ne_nil _ _)]
    rcases List.eq_nil_or_concat' before with rfl | ⟨outer, upper, rfl⟩
    · rfl
    · have hparts : ∀ part ∈ outer ++ [upper], Named part := fun part hp => h part (List.mem_append_left _ hp)
      have hupper : Named upper := hparts upper (by simp)
      simp only [join_ofRoute (List.append_ne_nil_of_right_ne_nil outer (List.cons_ne_nil upper [])),
        trimmed_ofRoute outer hupper, List.reverse_reverse, String.ofList_toList]
      exact if_neg (rooted_ofRoute hparts).ne_empty

theorem Normal.parent {path : String} (h : Normal path) : Normal (Path.parent path) := by
  obtain ⟨parts, hparts, rfl⟩ := h
  rw [parent_ofRoute hparts]
  exact ⟨_, fun part hp => hparts part (List.dropLast_subset parts hp), rfl⟩

end Path

/-! ## Places on the disk -/

/-- Where components lead from a route; each has to start from a directory. -/
def Disk.walk (d : Disk) (route : Route) : List (List Char) → Option Route
  | [] => some route
  | component :: rest =>
    if !d.isDirectory route then none
    else if component = [] ∨ component = ['.'] then walk d route rest
    else if component = ['.', '.'] then walk d route.dropLast rest
    else walk d (route ++ [component]) rest

/-- What is found under components is what stands where they lead. -/
theorem Disk.follow_eq (d : Disk) (route : Route) (components : List (List Char)) :
    d.follow route components = (d.walk route components).bind d.find? := by
  induction components generalizing route with
  | nil => rfl
  | cons component components ih =>
    rw [follow, walk]
    split
    · rfl
    · split
      · exact ih route
      · split
        · exact ih route.dropLast
        · exact ih (route ++ [component])

/-- Without links on the disk, components lead where their text says. -/
theorem Disk.walk_eq {d : Disk} {route place : Route} {components : List (List Char)}
    (h : ∀ part ∈ route, Path.Named part) (hc : ∀ component ∈ components, '/' ∉ component)
    (hw : d.walk route components = some place) :
    place = (components.foldl (Path.step true) route.reverse).reverse := by
  induction components generalizing route with
  | nil =>
    rw [walk, Option.some.injEq] at hw
    rw [← hw, List.foldl_nil, List.reverse_reverse]
  | cons component components ih =>
    obtain ⟨hfirst, hrest⟩ := List.forall_mem_cons.1 hc
    rw [walk] at hw
    rw [List.foldl_cons]
    split at hw
    · cases hw
    split at hw
    · next hhere =>
      have hstep : Path.step true route.reverse component = route.reverse := if_pos hhere
      rw [hstep]
      exact ih h hrest hw
    · next hhere =>
      split at hw
      · next hupper =>
        have hreverse : ∀ part ∈ route.reverse, Path.Named part := fun part hp => h part (List.mem_reverse.1 hp)
        rw [hupper, Path.step_upper hreverse, List.tail_reverse]
        exact ih (fun part hp => h part (List.dropLast_subset route hp)) hrest hw
      · next hupper =>
        rw [not_or] at hhere
        have hnamed : Path.Named component := ⟨hhere.1, hhere.2, hupper, hfirst⟩
        rw [Path.step_named true _ hnamed, ← List.reverse_concat']
        exact ih (List.forall_mem_append.2 ⟨h, List.forall_mem_singleton.2 hnamed⟩) hrest hw

namespace World

/-- Where a path leads. -/
def place? (w : World) (path : String) : Option Route :=
  let path := if Path.isAbsolute path then path else Path.join w.workingDirectory path
  w.disk.walk [] (Path.components path)

/-- Two paths lead to one place. -/
def Same (w : World) (path other : String) : Prop := ∃ place, w.place? path = some place ∧ w.place? other = some place

theorem find?_eq (w : World) (path : String) : w.find? path = (w.place? path).bind w.disk.find? :=
  Disk.follow_eq ..

/-- A file stands somewhere. -/
theorem exists_place {w : World} {path : String} (h : w.isFile path = true) :
    ∃ place, w.place? path = some place := by
  cases hp : w.place? path with
  | some place => exact ⟨place, rfl⟩
  | none =>
    rw [isFile, find?_eq, hp] at h
    cases h

theorem route_of_place {w : World} {path : String} {place : Route} (h : Path.isAbsolute path = true)
    (hp : w.place? path = some place) : Path.route path = place := by
  rw [place?, if_pos h] at hp
  exact (Disk.walk_eq (List.forall_mem_nil _) (fun component hc => Text.not_mem_of_mem_split hc) hp).symm

end World

end PipelineTemplate
