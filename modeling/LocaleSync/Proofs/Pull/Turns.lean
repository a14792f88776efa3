/-
What a pull does, turn by turn. Each function of a pull is opened here once and for all outcomes.
Settling on a file asks the user what is needed and nothing else (`ends_settle`). The turn of a
target settles on a file, or on none, and then downloads it and writes it; a turn that fails adds
nothing but directories (`ends_executeTarget`). A pull is a sequence of turns, one for each target
in order, up to the end or to the one that fails (`ends_executeTargets`).
-/
import LocaleSync.Proofs.Session
import LocaleSync.Pull
import Mathlib.Data.List.Basic

namespace LocaleSync

namespace Pull

open Session (Ends ends_bind)

/-! ## Settling on a file -/

/-- Whether a file is there and may not simply be replaced. -/
def isConflict (o : Options) (w : World) (f : LocaleFile) : Bool :=
  w.storage.isPresent f.fullPath && !o.force

/-- What is done about a conflict: what the options say, else the next answer of the user, which
is used up. -/
def Chooses (o : Options) (w w' : World) (a : ConflictAction) : Prop :=
  o.action? = some a ∨ (o.action? = none ∧ w.answers.actions = .ok a :: w'.answers.actions)

/-- The files that another name is asked for if the user gives these names: the file itself, and it
under each name but the last. -/
def renamed (f : LocaleFile) : List Text → List LocaleFile
  | [] => []
  | name :: names => f :: renamed (f.withName name) names

/-- The questions asked about a file: what to do if there is a conflict, unless the options say it,
and other names. -/
def questions (o : Options) (w : World) (f : LocaleFile) (names : List Text) : List Call :=
  (if isConflict o w f && o.action?.isNone then [.conflictAction f] else []) ++
    (renamed f names).map .fileName

theorem Chooses.unique {o : Options} {w w' : World} {a b : ConflictAction}
    (h : Chooses o w w' a) (h' : Chooses o w w' b) : a = b := by
  rcases h with h | ⟨h, ha⟩ <;> rcases h' with h' | ⟨h', hb⟩
  · simpa [h] using h'
  · simp [h] at h'
  · simp [h] at h'
  · simpa [ha] using hb

/-- The user's names are tried until one is free. -/
structure Renames (w : World) (f : LocaleFile) (names : List Text) (g : LocaleFile) (w' : World) :
    Prop where
  storage : w'.storage = w.storage
  calls : w'.calls = w.calls ++ (renamed f names).map .fileName
  given : w.answers.names = names.map .ok ++ w'.answers.names
  tags : w'.answers.tags = w.answers.tags
  actions : w'.answers.actions = w.answers.actions
  taken : ∀ h ∈ renamed f names, w.storage.isPresent h.fullPath = true
  last : g = names.foldl LocaleFile.withName f
  free : w.storage.isPresent g.fullPath = false

theorem Renames.refl {w : World} {f : LocaleFile} (h : w.storage.isPresent f.fullPath = false) :
    Renames w f [] f w where
  storage := rfl
  calls := by simp [renamed]
  given := rfl
  tags := rfl
  actions := rfl
  taken g hg := by cases hg
  last := rfl
  free := h

theorem Renames.cons {w w' : World} {f g : LocaleFile} {name : Text} {names : List Text}
    {rest : List (Except Error Text)} (hgiven : w.answers.names = .ok name :: rest)
    (htaken : w.storage.isPresent f.fullPath = true)
    (h : Renames { w with
      answers := { w.answers with names := rest }
      calls := w.calls ++ [.fileName f] } (f.withName name) names g w') :
    Renames w f (name :: names) g w' where
  storage := h.storage
  calls := by simp [h.calls, renamed]
  given := by
    have hrest : rest = names.map .ok ++ w'.answers.names := h.given
    simp [hgiven, hrest]
  tags := h.tags
  actions := h.actions
  taken := List.forall_mem_cons.2 ⟨htaken, h.taken⟩
  last := h.last
  free := h.free

/-- **Names are asked for until one is free.** -/
theorem ends_chooseName (answers : List (Except Error Text)) (f : LocaleFile) (w : World)
    (h : w.answers.names = answers) :
    Ends (chooseName answers f) w fun r w' =>
      match r with
      | .ok g => ∃ names, Renames w f names g w'
      | .error _ => w'.storage = w.storage := by
  induction answers generalizing f w with
  | nil =>
    simp only [chooseName, ends_bind, Session.ends_isPresent]
    split
    · simp only [Session.ends_call]
    next hfree => exact ⟨[], .refl (by simpa using hfree)⟩
  | cons answer rest ih =>
    simp only [chooseName, ends_bind, Session.ends_isPresent]
    split
    next htaken =>
      simp only [ends_bind, Session.ends_modify, Session.ends_call]
      cases answer with
      | error e => trivial
      | ok name =>
        refine (ih (f.withName name) _ rfl).mono ?_
        intro r w' hr
        cases r with
        | error e => exact hr
        | ok g =>
          obtain ⟨names, hnames⟩ := hr
          exact ⟨name :: names, hnames.cons h htaken⟩
    next hfree => exact ⟨[], .refl (by simpa using hfree)⟩

/-- How it is settled what to write for a file: the file itself, another one that is free, or
nothing. -/
structure Settles (o : Options) (f : LocaleFile) (w : World) (names : List Text)
    (g? : Option LocaleFile) (w' : World) : Prop where
  storage : w'.storage = w.storage
  calls : w'.calls = w.calls ++ questions o w f names
  given : w.answers.names = names.map .ok ++ w'.answers.names
  tags : w'.answers.tags = w.answers.tags
  unasked : (isConflict o w f && o.action?.isNone) = false →
    w'.answers.actions = w.answers.actions
  chooses : isConflict o w f = true → ∃ a, Chooses o w w' a
  skips : g? = none ↔ isConflict o w f = true ∧ Chooses o w w' .skip
  renames : names ≠ [] → isConflict o w f = true ∧ Chooses o w w' .newName
  taken : ∀ h ∈ renamed f names, w.storage.isPresent h.fullPath = true
  last : ∀ g, g? = some g → g = names.foldl LocaleFile.withName f
  free : ∀ g, g? = some g → isConflict o w f = true → Chooses o w w' .newName →
    w.storage.isPresent g.fullPath = false

theorem Settles.of_note {o : Options} {f : LocaleFile} {w w' : World} {notes : List Note}
    {names : List Text} {g? : Option LocaleFile}
    (h : Settles o f { w with notes } names g? w') : Settles o f w names g? w' :=
  ⟨h.storage, h.calls, h.given, h.tags, h.unasked, h.chooses, h.skips, h.renames, h.taken, h.last,
    h.free⟩

/-- The action to take about a file that is there. -/
def chooseAction (o : Options) (f : LocaleFile) : Session ConflictAction :=
  match o.action? with
  | some action => pure action
  | none => askAction f

/-- The file to write under an action. -/
def follow (f : LocaleFile) : ConflictAction → Session (Option LocaleFile)
  | .skip => do
    Session.note (.info ("Download translation file `".toList ++ f.posix ++
      "` was skipped.".toList))
    return none
  | .replace => return some f
  | .newName => do return some (← chooseName (← get).answers.names f)

theorem settle_eq (o : Options) (f : LocaleFile) :
    settle o f = (do
      if !(← Session.isPresent f) || o.force then return some f
      Session.note (.warn ("Translation file already exists. `".toList ++ f.posix ++ "`".toList))
      let action ← chooseAction o f
      follow f action) := by
  unfold settle chooseAction
  cases o.action? <;> rfl

/-- An action was chosen about a file that is there; the user was asked if the options did not say
it. -/
structure Decides (o : Options) (f : LocaleFile) (w : World) (a : ConflictAction) (w' : World) :
    Prop where
  storage : w'.storage = w.storage
  calls : w'.calls = w.calls ++ if o.action?.isNone then [.conflictAction f] else []
  names : w'.answers.names = w.answers.names
  tags : w'.answers.tags = w.answers.tags
  unasked : o.action?.isNone = false → w'.answers.actions = w.answers.actions
  chooses : Chooses o w w' a

theorem ends_chooseAction (o : Options) (f : LocaleFile) (w : World) :
    Ends (chooseAction o f) w fun r w' =>
      match r with
      | .ok a => Decides o f w a w'
      | .error _ => w'.storage = w.storage ∧ o.action? = none := by
  unfold chooseAction
  cases ho : o.action? with
  | some action => exact Session.ends_pure.2 ⟨rfl, by simp [ho], rfl, rfl, fun _ => rfl, .inl ho⟩
  | none =>
    simp only [askAction, ends_bind, Session.ends_get]
    split
    · simp only [Session.ends_call, and_self]
    next answer rest hanswers =>
      simp only [ends_bind, Session.ends_modify, Session.ends_call]
      cases answer with
      | error e => exact ⟨trivial, trivial⟩
      | ok a => exact ⟨rfl, by simp [ho], rfl, rfl, by simp [ho], .inr ⟨ho, hanswers⟩⟩

section

variable {o : Options} {f : LocaleFile} {w w' : World}

theorem Settles.of_not_isConflict (h : isConflict o w f = false) :
    Settles o f w [] (some f) w where
  storage := rfl
  calls := by simp [questions, renamed, h]
  given := rfl
  tags := rfl
  unasked _ := rfl
  chooses := by simp [h]
  skips := by simp [h]
  renames := by simp
  taken g hg := by cases hg
  last g hg := by simpa using hg.symm
  free := by simp [h]

theorem Decides.skip (h : Decides o f w .skip w') (hconflict : isConflict o w f = true)
    (notes : List Note) : Settles o f w [] none { w' with notes } where
  storage := h.storage
  calls := by simp [questions, renamed, hconflict, h.calls]
  given := h.names.symm
  tags := h.tags
  unasked hunasked := h.unasked (by simpa [hconflict] using hunasked)
  chooses _ := ⟨_, h.chooses⟩
  skips := ⟨fun _ => ⟨hconflict, h.chooses⟩, fun _ => rfl⟩
  renames := by simp
  taken g hg := by cases hg
  last g hg := by cases hg
  free g hg := by cases hg

theorem Decides.replace (h : Decides o f w .replace w') (hconflict : isConflict o w f = true) :
    Settles o f w [] (some f) w' where
  storage := h.storage
  calls := by simp [questions, renamed, hconflict, h.calls]
  given := h.names.symm
  tags := h.tags
  unasked hunasked := h.unasked (by simpa [hconflict] using hunasked)
  chooses _ := ⟨_, h.chooses⟩
  skips := by
    simp only [reduceCtorEq, false_iff, not_and]
    intro _ hskip
    cases h.chooses.unique hskip
  renames := by simp
  taken g hg := by cases hg
  last g hg := by simpa using hg.symm
  free g _ _ hnew := by cases h.chooses.unique hnew

theorem Decides.newName {w₁ : World} {names : List Text} {g : LocaleFile}
    (h : Decides o f w .newName w₁) (hconflict : isConflict o w f = true)
    (hnames : Renames w₁ f names g w') : Settles o f w names (some g) w' := by
  have hchooses : Chooses o w w' .newName := by
    have hnew := h.chooses
    rwa [Chooses, ← hnames.actions] at hnew
  exact {
    storage := hnames.storage.trans h.storage
    calls := by simp [questions, hconflict, hnames.calls, h.calls]
    given := h.names ▸ hnames.given
    tags := hnames.tags.trans h.tags
    unasked := fun hunasked =>
      hnames.actions.trans (h.unasked (by simpa [hconflict] using hunasked))
    chooses := fun _ => ⟨_, hchooses⟩
    skips := by
      simp only [reduceCtorEq, false_iff, not_and]
      intro _ hskip
      cases hchooses.unique hskip
    renames := fun _ => ⟨hconflict, hchooses⟩
    taken := h.storage ▸ hnames.taken
    last := by
      intro g' hg'
      cases hg'
      exact hnames.last
    free := by
      intro g' hg' _ _
      cases hg'
      exact h.storage ▸ hnames.free }

theorem Decides.ends_follow {a : ConflictAction} (h : Decides o f w a w')
    (hconflict : isConflict o w f = true) :
    Ends (follow f a) w' fun r w'' =>
      match r with
      | .ok g? => ∃ names, Settles o f w names g? w''
      | .error _ => w''.storage = w.storage ∧ a = .newName := by
  cases a with
  | skip => exact ⟨[], h.skip hconflict _⟩
  | replace => exact ⟨[], h.replace hconflict⟩
  | newName =>
    simp only [follow, ends_bind, Session.ends_get]
    refine (ends_chooseName _ f w' rfl).mono ?_
    intro r w'' hr
    cases r with
    | error e => exact ⟨hr.trans h.storage, trivial⟩
    | ok g =>
      obtain ⟨names, hnames⟩ := hr
      exact ⟨names, h.newName hconflict hnames⟩

end

/-- **Settling on a file asks what is needed and nothing else**, and changes no file. It fails only
where the user is asked. -/
theorem ends_settle (o : Options) (f : LocaleFile) (w : World) :
    Ends (settle o f) w fun r w' =>
      match r with
      | .ok g? => ∃ names, Settles o f w names g? w'
      | .error _ => w'.storage = w.storage ∧ o.action? ≠ some .skip := by
  simp only [settle_eq, ends_bind, Session.ends_isPresent]
  split
  next hno =>
    have hconflict : isConflict o w f = false := by
      simpa [isConflict, imp_iff_not_or] using hno
    exact ⟨[], .of_not_isConflict hconflict⟩
  next hyes =>
    have hconflict : isConflict o w f = true := by
      simpa [isConflict] using hyes
    simp only [ends_bind, Session.ends_note]
    refine (ends_chooseAction o f _).mono ?_
    intro r w₁ hr
    cases r with
    | error e => exact ⟨hr.1, by simp [hr.2]⟩
    | ok a =>
      have hdecides : Decides o f w a w₁ :=
        ⟨hr.storage, hr.calls, hr.names, hr.tags, hr.unasked, hr.chooses⟩
      refine (hdecides.ends_follow hconflict).mono ?_
      intro r w' hr'
      cases r with
      | ok g? => exact hr'
      | error e =>
        obtain ⟨hstorage, rfl⟩ := hr'
        refine ⟨hstorage, fun hskip => ?_⟩
        cases hdecides.chooses.unique (.inl hskip)

namespace Settles

variable {o : Options} {f g : LocaleFile} {w w' : World} {names : List Text}
  {g? : Option LocaleFile}

/-- Where there is no conflict, the file itself is written. -/
theorem eq_some (h : Settles o f w names g? w') (hconflict : isConflict o w f = false) :
    g? = some f := by
  have hnames : names = [] := by
    by_contra hne
    rw [(h.renames hne).1] at hconflict
    cases hconflict
  cases g? with
  | none =>
    rw [(h.skips.1 rfl).1] at hconflict
    cases hconflict
  | some g => rw [h.last g rfl, hnames, List.foldl_nil]

/-- The file to write is not there, unless it is replaced. -/
theorem isPresent_eq_false (h : Settles o f w names (some g) w') (hforce : o.force = false)
    (hreplace : ¬ Chooses o w w' .replace) : w.storage.isPresent g.fullPath = false := by
  cases hconflict : isConflict o w f with
  | false =>
    obtain rfl : g = f := Option.some.inj (h.eq_some hconflict)
    simpa [isConflict, hforce] using hconflict
  | true =>
    obtain ⟨a, ha⟩ := h.chooses hconflict
    cases a with
    | skip => cases h.skips.2 ⟨hconflict, ha⟩
    | replace => exact absurd ha hreplace
    | newName => exact h.free g rfl hconflict ha

/-- A file that is there is skipped if the options say so, and nobody is asked. -/
theorem skip (h : Settles o f w names g? w') (hconflict : isConflict o w f = true)
    (hskip : o.action? = some .skip) :
    g? = none ∧ names = [] ∧ w'.answers = w.answers := by
  have hnames : names = [] := by
    by_contra hne
    cases (h.renames hne).2.unique (.inl hskip)
  have hactions := h.unasked (by simp [hskip])
  have hgiven := h.given
  rw [hnames, List.map_nil, List.nil_append] at hgiven
  refine ⟨h.skips.2 ⟨hconflict, .inl hskip⟩, hnames, ?_⟩
  calc
    w'.answers = ⟨w'.answers.tags, w'.answers.actions, w'.answers.names⟩ := rfl
    _ = w.answers := by rw [h.tags, hactions, ← hgiven]

end Settles

/-! ## Turns -/

/-- The turn of a target. -/
structure Turn where
  target : Target
  before : World
  /-- The world when it is settled what to write. -/
  settled : World
  after : World
  /-- The names the user gave. -/
  names : List Text
  /-- The file that was written, with its content; none if the target was skipped. -/
  written? : Option (LocaleFile × Bytes)

namespace Turn

/-- The file that was written. -/
def file? (x : Turn) : Option LocaleFile :=
  x.written?.map (·.1)

/-- The calls of a turn: the questions asked, and a download if something is written. -/
def calls (o : Options) (x : Turn) : List Call :=
  questions o x.before x.target.destination x.names ++
    if x.written?.isSome then [.download x.target.page x.target.language.id] else []

end Turn

/-- A turn as it goes: it is settled what to write, and that is downloaded once and written. -/
structure IsTurn (service : Service) (o : Options) (x : Turn) : Prop where
  settles : Settles o x.target.destination x.before x.names x.file? x.settled
  answers : x.after.answers = x.settled.answers
  calls : x.after.calls = x.before.calls ++ x.calls o
  skips : x.written? = none → x.after.storage = x.before.storage
  downloads : ∀ f content, x.written? = some (f, content) →
    service.download x.settled.calls x.target.page x.target.language.id = .ok content
  writes : ∀ f content, x.written? = some (f, content) →
    ∃ l, x.before.storage.StoresFile x.after.storage f.fullPath l content

theorem Settles.isTurn_skip {service : Service} {o : Options} {t : Target} {w w' : World}
    {names : List Text} (h : Settles o t.destination w names none w') :
    IsTurn service o ⟨t, w, w', w', names, none⟩ where
  settles := h
  answers := rfl
  calls := by simpa [Turn.calls] using h.calls
  skips _ := h.storage
  downloads f content hwritten := by cases hwritten
  writes f content hwritten := by cases hwritten

theorem Settles.isTurn_write {service : Service} {o : Options} {t : Target} {w w₁ : World}
    {names : List Text} {f : LocaleFile} {content : Bytes} {s : Storage} {l : Location}
    (h : Settles o t.destination w names (some f) w₁)
    (hcontent : service.download w₁.calls t.page t.language.id = .ok content)
    (hwrites : w₁.storage.StoresFile s f.fullPath l content) (notes : List Note) :
    IsTurn service o ⟨t, w, w₁,
      ⟨s, w₁.answers, w₁.calls ++ [.download t.page t.language.id], notes⟩, names,
      some (f, content)⟩ where
  settles := h
  answers := rfl
  calls := by simp [Turn.calls, h.calls]
  skips hwritten := by cases hwritten
  downloads f' content' hwritten := by
    cases hwritten
    exact hcontent
  writes f' content' hwritten := by
    cases hwritten
    exact ⟨l, h.storage ▸ hwrites⟩

/-- A turn that fails adds nothing but directories, and it does not fail for a file that is simply
to be skipped. -/
structure FailsTurn (o : Options) (t : Target) (w w' : World) : Prop where
  keeps : w.storage.Extends w'.storage
  adds : w.storage.IsTree → w.storage.AddsDirectories w'.storage
  unskipped : isConflict o w t.destination = true → o.action? ≠ some .skip

theorem FailsTurn.of_storage_eq {o : Options} {t : Target} {w w' : World}
    (hstorage : w'.storage = w.storage)
    (hskip : isConflict o w t.destination = true → o.action? ≠ some .skip) :
    FailsTurn o t w w' := by
  refine ⟨?_, fun htree => ?_, hskip⟩
  · rw [hstorage]
    exact .refl _
  · rw [hstorage]
    exact .refl htree

/-- **A target that is executed takes a turn**, or fails. -/
theorem ends_executeTarget (service : Service) (o : Options) (t : Target) (w : World) :
    Ends (executeTarget service o t) w fun r w' =>
      match r with
      | .ok f? => ∃ x : Turn, IsTurn service o x ∧ x.target = t ∧ x.before = w ∧ x.after = w' ∧
          x.file? = f?
      | .error _ => FailsTurn o t w w' := by
  simp only [executeTarget, ends_bind, Session.ends_note]
  refine (ends_settle o t.destination _).mono ?_
  intro r w₁ hr
  rcases r with e | _ | f
  · exact .of_storage_eq hr.1 fun _ => hr.2
  · obtain ⟨names, hsettles⟩ := hr
    exact ⟨_, hsettles.of_note.isTurn_skip, rfl, rfl, rfl, rfl⟩
  obtain ⟨names, hsettles⟩ := hr
  have hsettles := hsettles.of_note
  have hunskipped : isConflict o w t.destination = true → o.action? ≠ some .skip := by
    intro hconflict hskip
    cases (hsettles.skip hconflict hskip).1
  simp only [ends_bind, Session.ends_call]
  cases hcontent : service.download w₁.calls t.page t.language.id with
  | error e => exact .of_storage_eq hsettles.storage hunskipped
  | ok content =>
    refine Ends.mono (Session.ends_write f content _) ?_
    intro r w₂ hr
    obtain ⟨hw₂, hr⟩ := hr
    cases r with
    | error e =>
      dsimp only at hr
      rw [hsettles.storage] at hr
      exact ⟨hr.1, hr.2, hunskipped⟩
    | ok _ =>
      obtain ⟨l, hwrites⟩ := hr
      rw [hw₂]
      exact ⟨_, hsettles.isTurn_write hcontent hwrites _, rfl, rfl, rfl, rfl⟩

namespace IsTurn

variable {service : Service} {o : Options} {x : Turn}

theorem persists (h : IsTurn service o x) : x.before.storage.Persists x.after.storage := by
  cases hwritten : x.written? with
  | none =>
    rw [h.skips hwritten]
    exact .refl _
  | some y =>
    obtain ⟨l, hwrites⟩ := h.writes y.1 y.2 hwritten
    exact hwrites.persists

/-- A turn changes no place but that of the file it writes. -/
theorem unchanged (h : IsTurn service o x) {l : Location}
    (hl : ∀ f, x.file? = some f → x.after.storage.place? f.fullPath ≠ some l) :
    x.before.storage.Unchanged x.after.storage l := by
  cases hwritten : x.written? with
  | none =>
    rw [h.skips hwritten]
    exact .refl _ l
  | some y =>
    obtain ⟨l', hwrites⟩ := h.writes y.1 y.2 hwritten
    refine hwrites.others l ?_
    intro hll'
    exact hl y.1 (by simp [Turn.file?, hwritten]) (hll' ▸ hwrites.place?)

end IsTurn

/-! ## All turns -/

/-- Turns of targets one after another, each executed in the world that the one before left. -/
inductive Turns (service : Service) (o : Options) : World → List Turn → World → Prop
  | done (w : World) : Turns service o w [] w
  | next {x : Turn} {xs : List Turn} {w' : World}
      (hrun : (executeTarget service o x.target).run.run x.before = (.ok x.file?, x.after))
      (hx : IsTurn service o x) (hrest : Turns service o x.after xs w') :
      Turns service o x.before (x :: xs) w'

/-- The files that turns wrote. -/
def downloaded (xs : List Turn) : List LocaleFile :=
  xs.filterMap (·.file?)

/-- The destinations of turns that wrote nothing. -/
def skipped (xs : List Turn) : List LocaleFile :=
  (xs.filter (·.file?.isNone)).map (·.target.destination)

theorem mem_downloaded_cons {f : LocaleFile} {x : Turn} {xs : List Turn} :
    f ∈ downloaded (x :: xs) ↔ x.file? = some f ∨ f ∈ downloaded xs := by
  cases hx : x.file? <;> simp [downloaded, hx, eq_comm]

theorem Turns.persists {service : Service} {o : Options} {w w' : World} {xs : List Turn}
    (h : Turns service o w xs w') : w.storage.Persists w'.storage := by
  induction h with
  | done w => exact .refl _
  | next _ hx _ ih => exact hx.persists.trans ih

/-- How a pull of targets ends: with a turn for each target, or with the target that fails after the
turns of those before it. -/
def RunEnds (service : Service) (o : Options) (w : World) (ts : List Target) :
    Except Error Report → World → Prop
  | .ok report, w' => ∃ xs, Turns service o w xs w' ∧ xs.map (·.target) = ts ∧
      report = ⟨downloaded xs, skipped xs⟩
  | .error e, w' => ∃ xs w₁ t rest, Turns service o w xs w₁ ∧
      ts = xs.map (·.target) ++ t :: rest ∧
      (executeTarget service o t).run.run w₁ = (.error e, w')

/-- **A pull is a turn for each target**, in order, until one fails, and reports what the turns
did. -/
theorem ends_executeTargets (service : Service) (o : Options) (ts : List Target) (w : World) :
    Ends (executeTargets service o ts) w (RunEnds service o w ts) := by
  induction ts generalizing w with
  | nil => exact ⟨[], .done w, rfl, rfl⟩
  | cons t ts ih =>
    simp only [executeTargets, ends_bind]
    refine (ends_executeTarget service o t w).and_run.mono ?_
    intro r w₁ hr
    obtain ⟨hrun, hturn⟩ := hr
    cases r with
    | error e => exact ⟨[], w, t, ts, .done w, rfl, hrun⟩
    | ok f? =>
      obtain ⟨x, hx, rfl, rfl, rfl, rfl⟩ := hturn
      refine (ih x.after).mono ?_
      intro r w₂ hrest
      cases r with
      | error e =>
        obtain ⟨xs, w₃, t, rest, hxs, rfl, hfail⟩ := hrest
        exact ⟨x :: xs, w₃, t, rest, .next hrun hx hxs, rfl, hfail⟩
      | ok report =>
        obtain ⟨xs, hxs, rfl, rfl⟩ := hrest
        have hall := Turns.next hrun hx hxs
        cases hf : x.file? with
        | some f => exact ⟨x :: xs, hall, rfl, by simp [downloaded, skipped, hf]⟩
        | none => exact ⟨x :: xs, hall, rfl, by simp [downloaded, skipped, hf]⟩

end Pull

end LocaleSync
