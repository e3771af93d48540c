import PipelineTemplate.Proofs.Run.Start
import PipelineTemplate.Proofs.Template.Search

/-!
# Runs that reuse what is remembered

A session remembers how texts are read as expressions and where repositories are. It is sound if all of
this is what would be found out again. Two sound sessions in the same world with the same counters match,
whatever they remember; a run that may be repeated gives the same in both, and they match again. Evaluations
and the search for templates may be repeated.
-/

namespace PipelineTemplate

namespace Template

/-- The location of a repository that is written without expressions; blanks are no location. -/
def constantLocation (surroundings : Surroundings) (workspace : Option String) (location : String) :
    Option String :=
  if Text.strip location = "" then none
  else some (Path.substituteVariables surroundings workspace (Text.strip location))

/-- A location does not depend on the working directory. -/
theorem constantLocation_congr {surroundings surroundings' : Surroundings} (workspace : Option String)
    (location : String) (he : surroundings.environment = surroundings'.environment)
    (hh : surroundings.home = surroundings'.home) :
    constantLocation surroundings workspace location = constantLocation surroundings' workspace location := by
  simp only [constantLocation, Path.substituteVariables, he, hh]

end Template

namespace Session

variable {engine : Engine} {s t : Session}

/-- What a session remembers is what would be found out again. -/
structure Sound (engine : Engine) (s : Session) : Prop where
  expressions : ∀ text reading, s.expressions.lookup text = some reading →
    reading = (Expr.parse text).toOption
  locations : ∀ location workspace path, s.locations.lookup (location, workspace) = some path →
    Text.hasInfix Embedded.opening location.toList = false ∧
      Template.constantLocation (s.world.surroundings engine.environment) workspace location = some path

/-- A session that remembers nothing is sound. -/
theorem sound_fresh (counters : Counters) (world : World) : Sound engine { counters, world } :=
  ⟨fun _ _ h => (nomatch h), fun _ _ _ h => nomatch h⟩

/-- Files may change, and the working directory. -/
theorem Sound.visit (h : s.Sound engine) {w : World} (hw : w.environment = s.world.environment) :
    Sound engine { s with world := w } := by
  refine ⟨h.expressions, fun location workspace path hl => ?_⟩
  obtain ⟨hconstant, hpath⟩ := h.locations location workspace path hl
  refine ⟨hconstant, ?_⟩
  rw [← hpath]
  apply Template.constantLocation_congr
  · simp only [World.surroundings, hw]
  · simp only [World.surroundings, World.homeDirectory, hw]

theorem Sound.withCounters (h : s.Sound engine) (counters : Counters) : Sound engine { s with counters } :=
  ⟨h.expressions, h.locations⟩

/-- Two sound sessions that differ at most in what they remember and record. -/
structure Matches (engine : Engine) (s t : Session) : Prop where
  world : s.world = t.world
  counters : s.counters = t.counters
  left : s.Sound engine
  right : t.Sound engine

/-- A sound session goes on as another sound one in the same world with the same counters. -/
structure Keeps (engine : Engine) (s t : Session) : Prop where
  world : t.world = s.world
  counters : t.counters = s.counters
  sound : t.Sound engine

theorem Matches.keeps {s' t' : Session} (h : s.Matches engine t) (hs : s.Keeps engine s') (ht : t.Keeps engine t') :
    s'.Matches engine t' :=
  ⟨hs.world.trans (h.world.trans ht.world.symm), hs.counters.trans (h.counters.trans ht.counters.symm), hs.sound,
    ht.sound⟩

end Session

namespace Run

/-- A run that gives the same in sessions that match, and leaves them so, in the world that they were in. -/
def Repeatable {α : Type} (engine : Engine) (r : Run α) : Prop :=
  ∀ s t : Session, s.Matches engine t →
    (r.start s).1 = (r.start t).1 ∧ (r.start s).2.Matches engine (r.start t).2 ∧ (r.start s).2.world = s.world

variable {engine : Engine} {α β : Type}

theorem repeatable_pure (a : α) : (pure a : Run α).Repeatable engine := fun _ _ h => ⟨rfl, h, rfl⟩

theorem repeatable_settled (e : Except Failure α) : Run.Repeatable engine (ExceptT.mk (pure e)) :=
  fun _ _ h => ⟨rfl, h, rfl⟩

theorem repeatable_throw (f : Failure) : (throw f : Run α).Repeatable engine := fun _ _ h => ⟨rfl, h, rfl⟩

theorem repeatable_bind {r : Run α} {next : α → Run β} (hr : r.Repeatable engine)
    (hn : ∀ a, (next a).Repeatable engine) : (r >>= next).Repeatable engine := by
  intro s t h
  obtain ⟨hsame, hmatch, hworld⟩ := hr s t h
  rcases start_bind_cases r next s with ⟨f, s', hs, hb⟩ | ⟨a, s', hs, hb⟩
  · rw [hs] at hsame hmatch hworld
    have ht : r.start t = (.error f, (r.start t).2) := Prod.ext hsame.symm rfl
    rw [hb, start_bind_error ht]
    exact ⟨rfl, hmatch, hworld⟩
  · rw [hs] at hsame hmatch hworld
    have ht : r.start t = (.ok a, (r.start t).2) := Prod.ext hsame.symm rfl
    rw [hb, start_bind_ok ht]
    obtain ⟨hsame, hmatch, hnext⟩ := hn a _ _ hmatch
    exact ⟨hsame, hmatch, hnext.trans hworld⟩

/-- What has been settled outside of the session. -/
theorem repeatable_lift (e : Except Failure α) : (liftM e : Run α).Repeatable engine := by
  cases e <;> exact fun _ _ h => ⟨rfl, h, rfl⟩

/-- A run that takes only the world and the counters from the session. -/
theorem repeatable_get {next : Session → Run α} (h : ∀ s, (next s).Repeatable engine)
    (hn : ∀ s t : Session, s.world = t.world → s.counters = t.counters → next s = next t) :
    (get >>= next : Run α).Repeatable engine := by
  intro s t hm
  rw [start_bind_ok (start_get s), start_bind_ok (start_get t), hn s t hm.world hm.counters]
  exact h t s t hm

/-- What a run gives is settled by the world and the counters, and it changes neither. -/
theorem repeatable_of_keeps {r : Run α} (give : World → Counters → Except Failure α)
    (h : ∀ s : Session, s.Sound engine →
      ∃ t, r.start s = (give s.world s.counters, t) ∧ s.Keeps engine t) : r.Repeatable engine := by
  intro s t hm
  obtain ⟨s', hs, hks⟩ := h s hm.left
  obtain ⟨t', ht, hkt⟩ := h t hm.right
  rw [hs, ht, hm.world, hm.counters]
  exact ⟨rfl, hm.keeps hks hkt, hks.world.trans hm.world⟩

theorem keeps_of_eq {s t : Session} (h : s.Sound engine) (hw : t.world = s.world) (hc : t.counters = s.counters)
    (he : t.expressions = s.expressions) (hl : t.locations = s.locations) : s.Keeps engine t :=
  ⟨hw, hc, by rw [he]; exact h.expressions, by rw [hw, hl]; exact h.locations⟩

theorem repeatable_report (level : Level) (speaker : Speaker) (event : String)
    (fields : List (String × Value)) : (report level speaker event fields).Repeatable engine :=
  repeatable_of_keeps (fun _ _ => .ok ()) fun _ h => ⟨_, rfl, keeps_of_eq h rfl rfl rfl rfl⟩

theorem repeatable_pass (point : Waypoint) : (pass point).Repeatable engine :=
  repeatable_of_keeps (fun _ _ => .ok ()) fun _ h => ⟨_, rfl, keeps_of_eq h rfl rfl rfl rfl⟩

theorem repeatable_look (path : String) (see : World → String → α) : (look path see).Repeatable engine :=
  repeatable_of_keeps (fun w _ => .ok (see w path)) fun _ h => ⟨_, rfl, keeps_of_eq h rfl rfl rfl rfl⟩

/-! ## Evaluations -/

theorem start_reading (text : String) (s : Session) :
    ∃ journal, (Expr.reading text).start s = (.ok (Expr.parse text).toOption, { s with journal }) := by
  unfold Expr.reading
  cases Expr.parse text with
  | ok e => exact ⟨s.journal, rfl⟩
  | error f => exact ⟨_, start_bind_ok (start_report ..)⟩

/-- A text is read in the same way whether or not its reading is remembered. -/
theorem start_remembered (text : String) {s : Session} (h : s.Sound engine) :
    ∃ t, (Expr.remembered text).start s = (.ok (Expr.parse text).toOption, t) ∧ s.Keeps engine t := by
  unfold Expr.remembered
  rw [start_bind_ok (start_get s)]
  cases hl : s.expressions.lookup text with
  | some reading =>
    rw [← h.expressions text reading hl]
    exact ⟨s, rfl, rfl, rfl, h⟩
  | none =>
    obtain ⟨journal, hr⟩ := start_reading text s
    refine ⟨_, (start_bind_ok hr).trans (start_bind_ok (start_modify ..)), rfl, rfl, fun other reading ho => ?_,
      h.locations⟩
    rw [List.lookup_cons] at ho
    split at ho
    · next heq =>
      obtain rfl : other = text := by simpa using heq
      exact (Option.some.inj ho).symm
    · exact h.expressions other reading ho

theorem repeatable_remembered (text : String) : (Expr.remembered text).Repeatable engine :=
  repeatable_of_keeps (fun _ _ => .ok (Expr.parse text).toOption) fun _ h => start_remembered text h

/-- Counters go on from where they are. -/
theorem repeatable_call (f : Builtin) (arguments : List Value) : (f.call arguments).Repeatable engine := by
  unfold Builtin.call
  split
  · split
    · exact repeatable_pure _
    · split
      · exact repeatable_pure _
      · exact repeatable_throw _
  · intro s t h
    rw [start_bind_ok (start_get s), start_bind_ok (start_get t), h.counters]
    split
    · rw [start_bind_ok (start_modify s _), start_bind_ok (start_modify t _)]
      exact ⟨rfl, ⟨h.world, rfl, h.left.withCounters _, h.right.withCounters _⟩, rfl⟩
    · exact ⟨rfl, h, rfl⟩
  · exact repeatable_pure _

/-- Evaluations may be repeated. -/
theorem repeatable_evaluation (engine : Engine) : EvaluationRules fun _ r => r.Repeatable engine where
  pure := repeatable_pure
  bind := repeatable_bind
  report := repeatable_report
  remembered := repeatable_remembered
  apply _ _ _ := repeatable_settled _
  call := repeatable_call
  notSerializable := repeatable_throw _

/-! ## The search for templates -/

theorem repeatable_absolute (path : String) : (Template.absolute path).Repeatable engine :=
  repeatable_of_keeps (fun w _ => .ok (Path.absolute w.workingDirectory path)) fun s h =>
    ⟨s, start_bind_ok (start_get s), rfl, rfl, h⟩

/-- The location of a repository that is written without expressions is the same whether or not it is
remembered. -/
theorem start_locationOf {ctx : Context} {r : Repository} {location : String} (hr : r.location? = some location)
    (hc : Text.hasInfix Embedded.opening location.toList = false) {s : Session} (h : s.Sound engine) :
    ∃ t, (Template.locationOf engine ctx r).start s =
        (.ok (Template.constantLocation (s.world.surroundings engine.environment) ctx.workspace location), t) ∧
      s.Keeps engine t := by
  have hsubstitute : ctx.substitute location = pure location := by
    unfold Context.substitute
    rw [hc]
    rfl
  unfold Template.locationOf
  simp only [hr, hc, Bool.not_false, if_true, hsubstitute, pure_bind]
  rw [start_bind_ok (start_get s)]
  cases hl : s.locations.lookup (location, ctx.workspace) with
  | some path =>
    rw [(h.locations location ctx.workspace path hl).2]
    exact ⟨s, rfl, rfl, rfl, h⟩
  | none =>
    unfold Template.constantLocation
    by_cases hb : Text.strip location = ""
    · simp only [if_pos hb]
      exact ⟨s, rfl, rfl, rfl, h⟩
    · simp only [if_neg hb]
      refine ⟨_, (start_bind_ok (start_get s)).trans (start_bind_ok (start_modify ..)), rfl, rfl, h.expressions,
        fun other workspace path ho => ?_⟩
      rw [List.lookup_cons] at ho
      split at ho
      · next heq =>
        obtain ⟨rfl, rfl⟩ : other = location ∧ workspace = ctx.workspace := by simpa using heq
        refine ⟨hc, ?_⟩
        rw [Template.constantLocation, if_neg hb, ← ho]
      · exact h.locations other workspace path ho

theorem repeatable_locationOf (ctx : Context) (r : Repository) :
    (Template.locationOf engine ctx r).Repeatable engine := by
  cases hr : r.location? with
  | none =>
    unfold Template.locationOf
    simp only [hr]
    exact repeatable_pure _
  | some location =>
    cases hc : Text.hasInfix Embedded.opening location.toList with
    | false =>
      exact repeatable_of_keeps
        (fun w _ => .ok (Template.constantLocation (w.surroundings engine.environment) ctx.workspace location))
        fun s h => start_locationOf hr hc h
    | true =>
      -- a location with expressions is neither looked up nor remembered
      unfold Template.locationOf
      simp only [hr, hc, Bool.not_true, Bool.false_eq_true, if_false]
      intro s t h
      rw [start_bind_ok (start_get s), start_bind_ok (start_get t)]
      refine repeatable_bind ((repeatable_evaluation engine).substitute ctx location) (fun written => ?_) s t h
      split
      · exact repeatable_pure _
      · exact repeatable_of_keeps
          (fun w _ => .ok (some (Path.substituteVariables (w.surroundings engine.environment) ctx.workspace
            (Text.strip written))))
          fun s h => ⟨s, (start_bind_ok (start_get s)).trans (start_bind_ok (start_modify s _)), rfl, rfl, h⟩

/-- The search for templates may be repeated. -/
theorem repeatable_search (engine : Engine) : SearchRules engine fun _ r => r.Repeatable engine where
  toEvaluationRules := repeatable_evaluation engine
  absolute := repeatable_absolute
  look := repeatable_look
  location := repeatable_locationOf
  unknown _ _ := repeatable_throw _
  unlocated _ _ := repeatable_throw _
  missing _ _ := repeatable_throw _

end Run

end PipelineTemplate
