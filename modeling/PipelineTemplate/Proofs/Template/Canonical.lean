import PipelineTemplate.Proofs.Expression.Arithmetic
import PipelineTemplate.Proofs.Path.Normal

/-!
# Where templates are found

A search for a template ends with the first of its candidates that is a file, with the path at which the
template is missing, or because the repository has no usable location. The path of a template that is found
is in its normal form, so that all references to one file give one text, whatever their spelling.
-/

namespace PipelineTemplate

/-! ## Failures of expressions -/

namespace Run

/-- A failure in arithmetic or at a value without JSON text. -/
def Computational (f : Failure) : Prop := (∃ cause, f = .arithmetic cause) ∨ f = .notSerializable

/-- A run with no other failures. -/
def Computes {α : Type} (r : Run α) : Prop := ∀ s f, (r.start s).1 = .error f → Computational f

variable {α β : Type} {s t : Session}

theorem computes_pure (a : α) : Computes (pure a) := fun _ _ h => nomatch h

theorem computes_bind {r : Run α} {next : α → Run β} (hr : Computes r) (hn : ∀ a, Computes (next a)) :
    Computes (r >>= next) := by
  intro s f hf
  rcases start_bind_cases r next s with ⟨g, t, hs, hb⟩ | ⟨a, t, hs, hb⟩
  · rw [hb] at hf
    cases hf
    exact hr s f (congrArg Prod.fst hs)
  · rw [hb] at hf
    exact hn a t f hf

theorem computes_throw {f : Failure} (h : Computational f) : Computes (throw f : Run α) := by
  intro s g hg
  cases hg
  exact h

theorem computes_get : Computes (get : Run Session) := fun _ _ h => nomatch h

theorem computes_modify (f : Session → Session) : Computes (modify f : Run PUnit) := fun _ _ h => nomatch h

theorem computes_report (level : Level) (speaker : Speaker) (event : String) (fields : List (String × Value)) :
    Computes (report level speaker event fields) := computes_modify _

theorem computes_remembered (text : String) : Computes (Expr.remembered text) := by
  refine computes_bind computes_get fun s => ?_
  split
  · exact computes_pure _
  · refine computes_bind ?_ fun _ => computes_bind (computes_modify _) fun _ => computes_pure _
    unfold Expr.reading
    split
    · exact computes_pure _
    · exact computes_bind (computes_report _ _ _ _) fun _ => computes_pure _

theorem computes_apply (op : BinaryOp) (a b : Value) : Computes (ExceptT.mk (pure (op.apply a b))) := by
  intro s f hf
  have hf : op.apply a b = .error f := hf
  obtain ⟨v, hv, -⟩ | ⟨cause, hfails, -⟩ := op.apply_outcome a b
  · rw [hv] at hf
    cases hf
  · rw [hfails] at hf
    cases hf
    exact .inl ⟨cause, rfl⟩

theorem computes_call (f : Builtin) (arguments : List Value) : Computes (f.call arguments) := by
  unfold Builtin.call
  split
  · split
    · exact computes_pure _
    · split
      · exact computes_pure _
      · exact computes_throw (.inr rfl)
  · refine computes_bind computes_get fun s => ?_
    split
    · exact computes_bind (computes_modify _) fun _ => computes_pure _
    · exact computes_throw (.inl ⟨_, rfl⟩)
  · exact computes_pure _

/-- Evaluations fail in arithmetic or at values without JSON text. -/
theorem computes_evaluation : EvaluationRules @Computes where
  pure := computes_pure
  bind := computes_bind
  report := computes_report
  remembered := computes_remembered
  apply := computes_apply
  call := computes_call
  notSerializable := computes_throw (.inr rfl)

theorem evaluation_fails (ctx : Context) {text : String} {f : Failure}
    (h : (ctx.substitute text).start s = (.error f, t)) : Computational f :=
  computes_evaluation.substitute ctx text s f (by rw [h])

end Run

namespace Template

open Run

variable {engine : Engine} {ctx : Context} {template : String} {s t : Session}

/-! ## What is looked for -/

/-- The names of a template path that are not empty; both kinds of slashes stand between them. -/
def parts (template : String) : List (List Char) :=
  (Path.components (String.ofList (Text.replace ['\\'] ['/'] template.toList))).filter (· ≠ [])

/-- The spellings of a template under the root of a repository and under a directory. A path without names
is looked for under neither. -/
def within (root : Option String) (directory template : String) : List String :=
  if parts template = [] then []
  else ((root.filter (· ≠ "")).toList ++ [directory]).map fun base => Path.join base (Path.ofComponents "" (parts template))

/-- A template that is looked for. -/
structure Search where
  /-- The reference as it is shown. -/
  reference : String
  /-- The root of its repository. -/
  repository : Option String
  /-- The paths that are tried before the last one, as they are spelled. -/
  spellings : List String
  /-- The path that is left if nothing is found. -/
  fallback : String

/-- The paths that are tried, in order. -/
def Search.candidates (search : Search) (w : World) : List String :=
  (search.spellings ++ [search.fallback]).map (Path.absolute w.workingDirectory)

/-- What is looked for in a context. -/
inductive Sought (engine : Engine) (ctx : Context) (template : String) (s : Session) : Search → Prop where
  | plain (h : RepositoryReference.ofText? template = none) : Sought engine ctx template s
      ⟨template, ctx.repository, within ctx.repository ctx.directory template, Path.join ctx.directory template⟩
  | aliased {r : RepositoryReference} {root : String} {t : Session} (h : RepositoryReference.ofText? template = some r)
      (hroot : (repositoryRoot engine ctx r template).start s = (.ok root, t)) : Sought engine ctx template s
      ⟨r.text, some root, within (some root) ctx.directory r.path,
        Path.join root (String.ofList (r.path.toList.dropWhile fun c => c = '/' || c = '\\'))⟩

/-- How a search ends. -/
inductive Outcome (engine : Engine) (ctx : Context) (template : String) (s : Session) : Except Failure Located → Prop where
  /-- The first candidate that is a file is found, and its path is in normal form. -/
  | found {search : Search} {path : String} (sought : Sought engine ctx template s search)
      (first : (search.candidates s.world).find? s.world.isFile = some path) (normal : Path.Normal path) :
      Outcome engine ctx template s (.ok ⟨search.reference, path, search.repository⟩)
  /-- No candidate is a file. -/
  | missing {search : Search} (sought : Sought engine ctx template s search)
      (none : (search.candidates s.world).find? s.world.isFile = none) :
      Outcome engine ctx template s
        (.error (.templateNotFound search.reference (Path.absolute s.world.workingDirectory search.fallback)))
  /-- Nothing is known of the repository. -/
  | unknown {r : RepositoryReference} (h : RepositoryReference.ofText? template = some r) (hself : r.repository ≠ "self")
      (none : repositoryOf ctx r.repository = none) :
      Outcome engine ctx template s (.error (.unknownRepository r.repository template))
  /-- The repository has no location. -/
  | unlocated {r : RepositoryReference} {repository : Repository} {location : Option String} {t : Session}
      (h : RepositoryReference.ofText? template = some r) (hself : r.repository ≠ "self")
      (known : repositoryOf ctx r.repository = some repository)
      (located : (locationOf engine ctx repository).start s = (.ok location, t)) (none : location.filter (· ≠ "") = none) :
      Outcome engine ctx template s (.error (.repositoryWithoutLocation r.repository template))
  /-- An expression in the location fails in arithmetic or comes to something without JSON text. -/
  | failed {r : RepositoryReference} {repository : Repository} {location : String} {f : Failure} {t : Session}
      (h : RepositoryReference.ofText? template = some r) (hself : r.repository ≠ "self")
      (known : repositoryOf ctx r.repository = some repository) (written : repository.location? = some location)
      (embedded : Text.hasInfix Embedded.opening location.toList = true)
      (fails : (ctx.substitute location).start s = (.error f, t))
      (cause : Computational f) :
      Outcome engine ctx template s (.error f)

/-- The directory of a context and the root of its repository, if it has one, are absolute. Neither starts with
exactly two slashes. -/
structure Based (ctx : Context) : Prop where
  directory : Path.Rooted ctx.directory
  repository : ∀ root, ctx.repository = some root → root ≠ "" → Path.Rooted root

/-- In such a context, neither a template path nor the location of a repository starts with exactly two slashes. -/
structure Anchored (engine : Engine) (ctx : Context) (template : String) (s : Session) : Prop where
  based : Based ctx
  plain : RepositoryReference.ofText? template = none → Path.root template ≠ "//"
  location : ∀ r repository location t, RepositoryReference.ofText? template = some r →
    repositoryOf ctx r.repository = some repository →
    (locationOf engine ctx repository).start s = (.ok (some location), t) → Path.root location ≠ "//"

/-! ## Runs of the search -/

theorem firstFile_start (paths : List String) (s : Session) : ∃ t, (firstFile paths).start s =
    (.ok ((paths.map (Path.absolute s.world.workingDirectory)).find? s.world.isFile), t) ∧ t.world = s.world := by
  induction paths generalizing s with
  | nil => exact ⟨s, rfl, rfl⟩
  | cons path rest ih =>
    rw [firstFile, start_bind_ok (show (absolute path).start s = _ from rfl), start_bind_ok (start_look ..)]
    rw [List.map_cons, List.find?_cons]
    cases hf : s.world.isFile (Path.absolute s.world.workingDirectory path) with
    | true => exact ⟨_, rfl, rfl⟩
    | false =>
      obtain ⟨t, ht, hw⟩ := ih { s with visited := Path.absolute s.world.workingDirectory path :: s.visited }
      exact ⟨t, ht, hw⟩

/-! ## Candidates -/

theorem relative_ofComponents {parts : List (List Char)} (h : ∀ part ∈ parts, part ≠ [] ∧ '/' ∉ part) :
    Path.isAbsolute (Path.ofComponents "" parts) = false := by
  refine Bool.eq_false_iff.2 fun habsolute => ?_
  obtain ⟨cs, hcs⟩ := Path.isAbsolute_iff.1 habsolute
  have htext : (Path.ofComponents "" parts).toList = ['/'].intercalate parts := by
    simp [Path.ofComponents, Text.join, String.toList_intercalate, List.map_map, Function.comp_def]
  rw [htext] at hcs
  cases parts with
  | nil => cases hcs
  | cons part parts =>
    obtain ⟨hne, hslash⟩ := h part (List.mem_cons_self ..)
    obtain ⟨c, part, rfl⟩ := List.exists_cons_of_ne_nil hne
    rw [Text.intercalate_cons, List.cons_append] at hcs
    exact hslash ((List.cons.inj hcs).1 ▸ List.mem_cons_self ..)

theorem relative_parts (template : String) : Path.isAbsolute (Path.ofComponents "" (parts template)) = false := by
  refine relative_ofComponents fun part hp => ?_
  obtain ⟨hmem, hne⟩ := List.mem_filter.1 hp
  exact ⟨of_decide_eq_true hne, Text.not_mem_of_mem_split hmem⟩

theorem relative_dropWhile (path : String) :
    Path.isAbsolute (String.ofList (path.toList.dropWhile fun c => c = '/' || c = '\\')) = false := by
  refine Bool.eq_false_iff.2 fun habsolute => ?_
  obtain ⟨cs, hcs⟩ := Path.isAbsolute_iff.1 habsolute
  rw [String.toList_ofList] at hcs
  have hhead := List.head?_dropWhile_not (fun c => decide (c = '/') || decide (c = '\\')) path.toList
  rw [hcs] at hhead
  cases hhead

/-- What is joined with a normal form has the same normal form as what is joined with the path itself. -/
theorem absolute_join_normalize {base next : String} (h : Path.Rooted base) (hn : Path.isAbsolute next = false)
    (directory : String) :
    Path.absolute directory (Path.join (Path.normalize base) next) = Path.absolute directory (Path.join base next) := by
  rw [(h.normal.rooted.join hn).absolute_eq, (h.join hn).absolute_eq, h.route_join_normalize hn]

/-- The directories that a template is looked for under, each once. -/
def bases (root : Option String) (directory : String) : List String :=
  let given (base : Option String) : Option String := (base.filter (· ≠ "")).map Path.normalize
  match given root, given (some directory) with
  | some r, some d => if r = d then [r] else [r, d]
  | r, d => r.toList ++ d.toList

theorem findWithin_eq (template directory : String) (root : Option String) :
    findWithin template (some directory) root =
      if parts template = [] then return none
      else firstFile ((bases root directory).map fun base => Path.join base (Path.ofComponents "" (parts template))) :=
  rfl

/-- A directory that is left out because it was tried before would not be found anyway. -/
theorem find?_bases {root : Option String} {directory : String} (hd : Path.Rooted directory)
    (hr : ∀ r, root = some r → r ≠ "" → Path.Rooted r) {candidate : String → String} {p : String → Bool}
    (hc : ∀ base, Path.Rooted base → candidate (Path.normalize base) = candidate base) :
    ((bases root directory).map candidate).find? p =
      (((root.filter (· ≠ "")).toList ++ [directory]).map candidate).find? p := by
  have hdirectory : (some directory).filter (· ≠ "") = some directory :=
    Option.filter_eq_some_iff.2 ⟨rfl, decide_eq_true hd.ne_empty⟩
  unfold bases
  simp only [hdirectory, Option.map_some]
  cases hroot : root.filter (· ≠ "") with
  | none => simp [hc directory hd]
  | some r =>
    obtain ⟨hsome, hne⟩ := Option.filter_eq_some_iff.1 hroot
    have hrooted := hr r hsome (of_decide_eq_true hne)
    simp only [Option.map_some, Option.toList_some, List.singleton_append]
    split
    · next heq =>
      have hsame : candidate r = candidate directory := by
        rw [← hc r hrooted, ← hc directory hd, heq]
      simp only [List.map_cons, List.map_nil, List.find?_cons, hc r hrooted, hsame]
      cases p (candidate directory) <;> rfl
    · simp only [List.map_cons, List.map_nil, hc r hrooted, hc directory hd]

/-- The first file among the spellings under the root of a repository and under a directory is found. -/
theorem findWithin_start {root : Option String} {directory : String} (hd : Path.Rooted directory)
    (hr : ∀ r, root = some r → r ≠ "" → Path.Rooted r) (template : String) (s : Session) : ∃ t,
    (findWithin template (some directory) root).start s =
      (.ok (((within root directory template).map (Path.absolute s.world.workingDirectory)).find? s.world.isFile), t) ∧
      t.world = s.world := by
  rw [findWithin_eq]
  unfold within
  by_cases hp : parts template = []
  · rw [if_pos hp, if_pos hp]
    exact ⟨s, rfl, rfl⟩
  · rw [if_neg hp, if_neg hp]
    obtain ⟨t, ht, hw⟩ := firstFile_start
      ((bases root directory).map fun base => Path.join base (Path.ofComponents "" (parts template))) s
    refine ⟨t, ?_, hw⟩
    rw [ht, List.map_map, List.map_map, find?_bases hd hr]
    intro base hbase
    rw [Function.comp_apply, Function.comp_apply]
    exact absolute_join_normalize hbase (relative_parts template) _

/-! ## The root of a repository -/

theorem quiet_world {α : Type} {r : Run α} (h : Quiet r) {a : Except Failure α} (hr : r.start s = (a, t)) :
    t.world = s.world := by
  rw [← h.world s, hr]

/-- The location of a repository fails only with the expressions in it. -/
theorem locationOf_fails {repository : Repository} {f : Failure}
    (h : (locationOf engine ctx repository).start s = (.error f, t)) : ∃ location,
      repository.location? = some location ∧ Text.hasInfix Embedded.opening location.toList = true ∧
        ∃ u, (ctx.substitute location).start s = (.error f, u) := by
  unfold locationOf at h
  split at h
  · cases h
  · next location hlocation =>
    refine ⟨location, hlocation, ?_⟩
    rw [start_bind_ok (start_get s)] at h
    split at h
    · cases h
    · obtain hfails | ⟨written, u, -, h⟩ := of_start_bind_error h
      · refine ⟨?_, t, hfails⟩
        rw [Context.substitute] at hfails
        split at hfails
        · assumption
        · cases hfails
      · simp only at h
        split at h <;> cases h

/-- The directory that a location stands for is absolute. -/
theorem directoryOf_rooted {location root : String} (hd : Path.Rooted ctx.directory) (hl : Path.root location ≠ "//")
    (h : (directoryOf ctx location).start s = (.ok root, t)) : Path.Rooted root := by
  have hnormal := (hd.join_any hl).normal
  rw [directoryOf, start_bind_ok (start_look ..)] at h
  split at h
  · rw [start_pure, Prod.mk.injEq, Except.ok.injEq] at h
    rw [← h.1]
    exact hnormal.parent.rooted
  · rw [start_pure, Prod.mk.injEq, Except.ok.injEq] at h
    rw [← h.1]
    exact hnormal.rooted

/-- The root of a repository is absolute. -/
theorem repositoryRoot_rooted (h : Anchored engine ctx template s) {r : RepositoryReference} {root : String}
    (hr : RepositoryReference.ofText? template = some r)
    (hroot : (repositoryRoot engine ctx r template).start s = (.ok root, t)) : Path.Rooted root := by
  unfold repositoryRoot at hroot
  split at hroot
  · cases hroot
    cases hown : ctx.repository.filter (· ≠ "") with
    | none => exact h.based.directory
    | some own =>
      obtain ⟨hsome, hne⟩ := Option.filter_eq_some_iff.1 hown
      exact h.based.repository own hsome (of_decide_eq_true hne)
  · split at hroot
    · cases hroot
    · next repository hknown =>
      obtain ⟨location, u, hlocation, hroot⟩ := of_start_bind_ok hroot
      split at hroot
      · cases hroot
      · next place hplace =>
        obtain ⟨hsome, -⟩ := Option.filter_eq_some_iff.1 hplace
        subst hsome
        obtain ⟨root', v, hdirectory, hroot⟩ := of_start_bind_ok hroot
        have hsame : root' = root := by
          cases hroot
          rfl
        subst hsame
        exact directoryOf_rooted h.based.directory (h.location r repository place u hr hknown hlocation) hdirectory

/-- A template that is looked for in a repository is looked for under an absolute root. -/
theorem some_root_rooted (h : Anchored engine ctx template s) {r : RepositoryReference} {root : String}
    (hr : RepositoryReference.ofText? template = some r)
    (hroot : (repositoryRoot engine ctx r template).start s = (.ok root, t)) :
    ∀ other, some root = some other → other ≠ "" → Path.Rooted other := by
  rintro other ⟨⟩ -
  exact repositoryRoot_rooted h hr hroot

/-- The root of a repository is not found if nothing is known of it, if it has no location, or if the expressions
in its location fail. -/
theorem repositoryRoot_fails {r : RepositoryReference} {f : Failure}
    (hr : RepositoryReference.ofText? template = some r)
    (h : (repositoryRoot engine ctx r template).start s = (.error f, t)) :
    Outcome engine ctx template s (.error f) := by
  unfold repositoryRoot at h
  split at h
  · cases h
  · next hself =>
    split at h
    · next hunknown =>
      cases h
      exact .unknown hr hself hunknown
    · next repository hknown =>
      obtain hfails | ⟨location, u, hlocation, h⟩ := of_start_bind_error h
      · obtain ⟨written, hwritten, hembedded, v, hfails⟩ := locationOf_fails hfails
        exact .failed hr hself hknown hwritten hembedded hfails (evaluation_fails ctx hfails)
      · split at h
        · next hnone =>
          cases h
          exact .unlocated hr hself hknown hlocation hnone
        · -- What follows does not fail.
          obtain hfails | ⟨root, v, -, h⟩ := of_start_bind_error h
          · rw [directoryOf, start_bind_ok (start_look ..)] at hfails
            split at hfails <;> cases hfails
          · cases h

/-! ## The whole search -/

theorem foundOr_start (fallback : String) (found : Option String) (s : Session) : ∃ t,
    (foundOr fallback found).start s = (.ok (found.getD (Path.absolute s.world.workingDirectory fallback)), t) ∧
      t.world = s.world := by
  cases found with
  | some path => exact ⟨s, rfl, rfl⟩
  | none => exact ⟨s, rfl, rfl⟩

theorem rooted_within {root : Option String} {directory : String} (hd : Path.Rooted directory)
    (hr : ∀ r, root = some r → r ≠ "" → Path.Rooted r) (template : String) :
    ∀ spelling ∈ within root directory template, Path.Rooted spelling := by
  intro spelling hs
  unfold within at hs
  split at hs
  · cases hs
  · obtain ⟨base, hbase, rfl⟩ := List.mem_map.1 hs
    refine Path.Rooted.join ?_ (relative_parts template)
    rcases List.mem_append.1 hbase with hbase | hbase
    · obtain ⟨hsome, hne⟩ := Option.filter_eq_some_iff.1 (Option.mem_toList.1 hbase)
      exact hr base hsome (of_decide_eq_true hne)
    · rw [List.mem_singleton.1 hbase]
      exact hd

/-- What a search settles on: its first spelling that names a file, or the path that is left. -/
def Search.choice (search : Search) (w : World) : String :=
  ((search.spellings.map (Path.absolute w.workingDirectory)).find? w.isFile).getD
    (Path.absolute w.workingDirectory search.fallback)

/-- The paths that are tried are absolute. -/
def Search.Rooted (search : Search) : Prop := ∀ spelling ∈ search.spellings ++ [search.fallback], Path.Rooted spelling

theorem Sought.rooted {search : Search} (h : Anchored engine ctx template s)
    (sought : Sought engine ctx template s search) : search.Rooted := by
  unfold Search.Rooted
  rw [List.forall_mem_append, List.forall_mem_singleton]
  cases sought with
  | plain hr =>
    dsimp only
    exact ⟨rooted_within h.based.directory h.based.repository template, h.based.directory.join_any (h.plain hr)⟩
  | @aliased r root t hr hroot =>
    dsimp only
    exact ⟨rooted_within h.based.directory (some_root_rooted h hr hroot) r.path,
      (repositoryRoot_rooted h hr hroot).join (relative_dropWhile r.path)⟩

/-- The search in a context settles on a path, or it fails at the repository. -/
theorem place_cases (h : Anchored engine ctx template s) :
    (∃ search t, Sought engine ctx template s search ∧ (place engine ctx template).start s =
        (.ok ⟨search.reference, search.choice s.world, search.repository⟩, t) ∧ t.world = s.world) ∨
      ∃ f t, (place engine ctx template).start s = (.error f, t) ∧ Outcome engine ctx template s (.error f) := by
  unfold place
  split
  · next hr =>
    obtain ⟨u, hfound, hu⟩ := findWithin_start h.based.directory h.based.repository template s
    obtain ⟨v, hpath, hv⟩ := foundOr_start (Path.join ctx.directory template)
      (((within ctx.repository ctx.directory template).map (Path.absolute s.world.workingDirectory)).find?
        s.world.isFile) u
    refine .inl ⟨_, v, .plain hr, ?_, hv.trans hu⟩
    rw [start_bind_ok hfound, start_bind_ok hpath, start_pure, hu, Search.choice]
  · next r hr =>
    rcases hroot : (repositoryRoot engine ctx r template).start s with ⟨f | root, t⟩
    · exact .inr ⟨f, t, start_bind_error hroot, repositoryRoot_fails hr hroot⟩
    · have ht : t.world = s.world := quiet_world ((quiet_search engine).repositoryRoot ..) hroot
      obtain ⟨u, hfound, hu⟩ := findWithin_start h.based.directory (some_root_rooted h hr hroot) r.path t
      rw [ht] at hfound
      obtain ⟨v, hpath, hv⟩ := foundOr_start
        (Path.join root (String.ofList (r.path.toList.dropWhile fun c => c = '/' || c = '\\')))
        (((within (some root) ctx.directory r.path).map (Path.absolute s.world.workingDirectory)).find?
          s.world.isFile) u
      refine .inl ⟨_, v, .aliased hr hroot, ?_, hv.trans (hu.trans ht)⟩
      rw [start_bind_ok hroot, start_bind_ok hfound, start_bind_ok hpath, start_pure, hu, ht, Search.choice]

theorem find?_candidates (search : Search) (w : World) : (search.candidates w).find? w.isFile =
    if w.isFile (search.choice w) then some (search.choice w) else none := by
  rw [Search.candidates, List.map_append, List.find?_append, Search.choice]
  cases hfound : (search.spellings.map (Path.absolute w.workingDirectory)).find? w.isFile with
  | some path =>
    rw [Option.some_or, Option.getD_some, if_pos (List.find?_some hfound)]
  | none =>
    rw [Option.none_or, Option.getD_none, List.map_singleton, List.find?_singleton]

/-- Only the path that is left is not a file. -/
theorem choice_eq_fallback {search : Search} {w : World} (h : w.isFile (search.choice w) = false) :
    search.choice w = Path.absolute w.workingDirectory search.fallback := by
  rw [Search.choice] at h ⊢
  cases hfound : (search.spellings.map (Path.absolute w.workingDirectory)).find? w.isFile with
  | some path =>
    rw [hfound, Option.getD_some, List.find?_some hfound] at h
    cases h
  | none => rfl

theorem normal_choice {search : Search} (h : search.Rooted) (w : World) : Path.Normal (search.choice w) := by
  obtain ⟨hspellings, hfallback⟩ := List.forall_mem_append.1 h
  rw [Search.choice]
  cases hfound : (search.spellings.map (Path.absolute w.workingDirectory)).find? w.isFile with
  | some path =>
    obtain ⟨spelling, hmem, rfl⟩ := List.mem_map.1 (List.mem_of_find?_eq_some hfound)
    exact (hspellings spelling hmem).normal_absolute _
  | none => exact (List.forall_mem_singleton.1 hfallback).normal_absolute _

/-- A search for a template has one of the outcomes. -/
theorem locate_outcome (h : Anchored engine ctx template s) :
    Outcome engine ctx template s ((locate engine ctx template).start s).1 := by
  obtain ⟨search, t, sought, hplace, ht⟩ | ⟨f, t, hplace, hf⟩ := place_cases h
  · have hfirst := find?_candidates search s.world
    rw [locate, start_bind_ok hplace, start_bind_ok (start_look ..), ht]
    cases hfile : s.world.isFile (search.choice s.world) with
    | true =>
      rw [hfile, if_pos rfl] at hfirst
      exact .found sought hfirst (normal_choice (sought.rooted h) s.world)
    | false =>
      rw [choice_eq_fallback hfile]
      rw [hfile, if_neg Bool.false_ne_true] at hfirst
      exact .missing sought hfirst
  · rw [locate, start_bind_error hplace]
    exact hf

/-! ## One outcome -/

/-- One thing is looked for in a context. -/
theorem Sought.unique {search other : Search} (h : Sought engine ctx template s search)
    (h' : Sought engine ctx template s other) : search = other := by
  cases h with
  | plain hr =>
    cases h' with
    | plain => rfl
    | aliased hr' => cases hr.symm.trans hr'
  | aliased hr hroot =>
    cases h' with
    | plain hr' => cases hr'.symm.trans hr
    | aliased hr' hroot' =>
      cases hr.symm.trans hr'
      cases hroot.symm.trans hroot'
      rfl

/-- What is looked for in a repository is looked for where its root is found. -/
theorem Sought.exists_root {search : Search} (h : Sought engine ctx template s search) {r : RepositoryReference}
    (hr : RepositoryReference.ofText? template = some r) :
    ∃ root t, (repositoryRoot engine ctx r template).start s = (.ok root, t) := by
  cases h with
  | plain hr' => cases hr'.symm.trans hr
  | aliased hr' hroot =>
    cases hr.symm.trans hr'
    exact ⟨_, _, hroot⟩

/-- A location fails with an expression in it. -/
theorem locationOf_error {repository : Repository} {location : String} {f : Failure}
    (written : repository.location? = some location)
    (embedded : Text.hasInfix Embedded.opening location.toList = true)
    (fails : (ctx.substitute location).start s = (.error f, t)) :
    (locationOf engine ctx repository).start s = (.error f, t) := by
  rw [locationOf, written]
  simp only [start_bind_ok (start_get s), embedded, Bool.not_true, Bool.false_eq_true, if_false]
  exact start_bind_error fails

/-- A search that finds something has no other outcome. -/
theorem Outcome.eq_found {result : Except Failure Located} (h : Outcome engine ctx template s result) {search : Search}
    (sought : Sought engine ctx template s search) {path : String}
    (first : (search.candidates s.world).find? s.world.isFile = some path) :
    result = .ok ⟨search.reference, path, search.repository⟩ := by
  cases h with
  | found sought' first' =>
    cases sought.unique sought'
    cases first.symm.trans first'
    rfl
  | missing sought' none =>
    cases sought.unique sought'
    cases first.symm.trans none
  | unknown hr hself none =>
    obtain ⟨root, t, hroot⟩ := sought.exists_root hr
    rw [repositoryRoot, if_neg hself, none] at hroot
    cases hroot
  | unlocated hr hself known located none =>
    obtain ⟨root, t, hroot⟩ := sought.exists_root hr
    rw [repositoryRoot, if_neg hself, known] at hroot
    simp only [start_bind_ok located, none] at hroot
    cases hroot
  | failed hr hself known written embedded fails =>
    obtain ⟨root, t, hroot⟩ := sought.exists_root hr
    rw [repositoryRoot, if_neg hself, known] at hroot
    simp only [start_bind_error (locationOf_error written embedded fails)] at hroot
    cases hroot

/-! ## One text for one file -/

/-- All spellings of a place have one normal form. -/
theorem absolute_of_same {w : World} {spelling path : String} (hs : Path.Rooted spelling) (hp : Path.Normal path)
    (h : w.Same spelling path) (directory : String) : Path.absolute directory spelling = path := by
  obtain ⟨place, hspelling, hpath⟩ := h
  obtain ⟨parts, hparts, rfl⟩ := hp
  have hroute := World.route_of_place (Path.rooted_ofRoute hparts).absolute hpath
  rw [Path.route_ofRoute hparts] at hroute
  rw [hs.absolute_eq, World.route_of_place hs.absolute hspelling, hroute]

theorem Sought.repository {search : Search} (h : Anchored engine ctx template s)
    (sought : Sought engine ctx template s search) :
    ∀ root, search.repository = some root → root ≠ "" → Path.Rooted root := by
  cases sought with
  | plain hr => exact h.based.repository
  | aliased hr hroot => exact some_root_rooted h hr hroot

theorem locate_found (h : Anchored engine ctx template s) {located : Located}
    (hl : (locate engine ctx template).start s = (.ok located, t)) : Path.Normal located.path ∧
      s.world.isFile located.path = true ∧
      ∀ root, located.repository = some root → root ≠ "" → Path.Rooted root := by
  have houtcome := locate_outcome h
  rw [hl] at houtcome
  cases houtcome with
  | found sought first normal => exact ⟨normal, List.find?_some first, sought.repository h⟩

/-- The context inside a template that was found is based as well. -/
theorem based_forTemplate (h : Anchored engine ctx template s) {located : Located}
    (hl : (locate engine ctx template).start s = (.ok located, t)) (parameters : Entries) :
    Based (ctx.forTemplate parameters located.path located.repository) := by
  obtain ⟨hnormal, -, hrepository⟩ := locate_found h hl
  refine ⟨?_, fun root hroot hne => ?_⟩
  · unfold Context.forTemplate
    simp only
    split
    · exact h.based.directory
    · exact hnormal.parent.rooted
  · obtain hroot | ⟨-, hroot⟩ := Option.or_eq_some_iff.1 hroot
    · exact hrepository root hroot hne
    · exact h.based.repository root hroot hne

/-- Normal paths that lead to one place are equal. -/
theorem eq_of_same {w : World} {path other : String} (hp : Path.Normal path) (ho : Path.Normal other)
    (h : w.Same path other) : path = other := by
  have hpath := absolute_of_same hp.rooted ho h "/"
  obtain ⟨parts, hparts, rfl⟩ := hp
  rwa [(Path.rooted_ofRoute hparts).absolute_eq, Path.route_ofRoute hparts] at hpath

theorem check_recursive {located : Located} (h : located.path ∈ ctx.templates) :
    check engine ctx located = .error (.recursiveTemplate located.reference ctx.templates) := by
  rw [check, demandNew, if_pos h]
  rfl

/-- A search for a template ends with the first of its candidates that is a file, with the path at which the
template is missing, or at its repository. The path that is found is the normal form of all absolute spellings of
its file: two references, from whatever contexts, that lead to one file give one text, which is how a template
is known that is already around. The context inside the template is based as its own context is. -/
theorem locate_canonical (h : Anchored engine ctx template s) :
    Outcome engine ctx template s ((locate engine ctx template).start s).1 ∧
      ∀ {located t}, (locate engine ctx template).start s = (.ok located, t) →
        (∀ spelling, Path.Rooted spelling → s.world.Same spelling located.path →
          Path.absolute s.world.workingDirectory spelling = located.path) ∧
        (∀ parameters, Based (ctx.forTemplate parameters located.path located.repository)) ∧
        ∀ {engine' ctx' template' s' located' t'}, Anchored engine' ctx' template' s' →
          (locate engine' ctx' template').start s' = (.ok located', t') →
          (s.world.Same located.path located'.path ↔ located.path = located'.path) ∧
          (s.world.Same located.path located'.path → located'.path ∈ ctx.templates →
            check engine ctx located = .error (.recursiveTemplate located.reference ctx.templates)) := by
  refine ⟨locate_outcome h, fun {located t} hl => ?_⟩
  obtain ⟨hnormal, hfile, -⟩ := locate_found h hl
  refine ⟨fun spelling hs hsame => absolute_of_same hs hnormal hsame _, based_forTemplate h hl, ?_⟩
  intro engine' ctx' template' s' located' t' h' hl'
  obtain ⟨hnormal', -, -⟩ := locate_found h' hl'
  have hequal := fun hsame => eq_of_same (w := s.world) hnormal hnormal' hsame
  refine ⟨⟨hequal, fun heq => ?_⟩, fun hsame hmem => check_recursive ?_⟩
  · obtain ⟨place, hplace⟩ := World.exists_place hfile
    exact ⟨place, hplace, heq ▸ hplace⟩
  · rw [hequal hsame]
    exact hmem

theorem exists_after {α : Type} {r : Run α} {result : Except Failure α} (h : (r.start s).1 = result) :
    ∃ t, r.start s = (result, t) := ⟨_, Prod.ext h rfl⟩

/-- Inside a template, another spelling of it that names the repository itself leads to the same text. -/
theorem locate_canonical_spellings :
    let s : Session := { world := { disk := ⟨[([['w'], ['t']], .file ⟨#[]⟩)]⟩ } }
    let ctx : Context := { directory := "/w", templates := ["/w/t"] }
    let located : Located := ⟨"x/..//t", "/w/t", none⟩
    let located' : Located := ⟨"\\.\\t@self", "/w/t", some "/w"⟩
    Anchored {} ctx "x/..//t" s ∧ ((locate {} ctx "x/..//t").start s).1 = .ok located ∧
      Anchored {} ctx "\\.\\t@self" s ∧ ((locate {} ctx "\\.\\t@self").start s).1 = .ok located' ∧
      s.world.Same located.path located'.path ∧
      check {} ctx located = .error (.recursiveTemplate "x/..//t" ["/w/t"]) := by
  intro s ctx located located'
  have hplain : RepositoryReference.ofText? "x/..//t" = none := by decide +kernel
  have hself : RepositoryReference.ofText? "\\.\\t@self" = some ⟨"\\.\\t", "self"⟩ := by decide +kernel
  have hbased : Based ctx := ⟨⟨by decide +kernel, by decide +kernel⟩, nofun⟩
  have hlocation : repositoryOf ctx "self" = none := rfl
  have h : Anchored {} ctx "x/..//t" s := by
    refine ⟨hbased, fun _ => by decide +kernel, fun r repository location t hr => ?_⟩
    rw [hplain] at hr
    cases hr
  have h' : Anchored {} ctx "\\.\\t@self" s := by
    refine ⟨hbased, fun hr => ?_, fun r repository location t hr hknown => ?_⟩
    · rw [hself] at hr
      cases hr
    · rw [hself, Option.some.injEq] at hr
      rw [← hr, hlocation] at hknown
      cases hknown
  have hfirst : ((locate {} ctx "x/..//t").start s).1 = .ok located :=
    (locate_canonical h).1.eq_found (.plain hplain) (by decide +kernel)
  have hroot : (repositoryRoot {} ctx ⟨"\\.\\t", "self"⟩ "\\.\\t@self").start s = (.ok "/w", s) := rfl
  have hsecond : ((locate {} ctx "\\.\\t@self").start s).1 = .ok located' :=
    (locate_canonical h').1.eq_found (.aliased hself hroot) (by decide +kernel)
  obtain ⟨t, hl⟩ := exists_after hfirst
  obtain ⟨t', hl'⟩ := exists_after hsecond
  obtain ⟨hsame, hcheck⟩ := ((locate_canonical h).2 hl).2.2 h' hl'
  exact ⟨h, hfirst, h', hsecond, hsame.2 rfl, hcheck (hsame.2 rfl) (List.mem_singleton_self _)⟩

end Template

end PipelineTemplate
