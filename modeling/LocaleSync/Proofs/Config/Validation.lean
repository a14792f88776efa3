/-
What validation says about the settings as they are used later. The accessors check again what
validation has checked, each on its own, and in addition that a setting is there at all. So
validation comes to the first fault of the accessors, those of absent settings left out
(`validate_eq`), except that without a list of languages the source language is not looked up.

`validate_foretells` draws the conclusions: which accessors can still fail once the settings are
valid and how, and whose error it is when they are not.
-/
import LocaleSync.Config
import LocaleSync.Proofs.PushPattern.Compiled

namespace LocaleSync

/-- Whether an error is about a setting that is absent or has no meaning. -/
def Error.isConfigInvalid : Error → Bool
  | .configInvalid _ => true
  | _ => false

/-! ## Patterns -/

namespace PullPattern

/-- The patterns of texts, each of them given. -/
def compileAll (raws : List Text) : Except Error (List (Option PullPattern)) :=
  raws.mapM fun raw => (compile raw).map some

theorem compileAll_cons (raw : Text) (raws : List Text) :
    compileAll (raw :: raws) = do
      let p ← compile raw
      let ps ← compileAll raws
      return some p :: ps := by
  unfold compileAll
  rw [List.mapM_cons]
  cases compile raw <;> rfl

/-- **Patterns are the given texts in order, or fail with the first that is none**, as they do when
they are only checked. -/
theorem compileAll_cases (raws : List Text) :
    (∃ ps : List PullPattern, compileAll raws = .ok (ps.map some) ∧ ps.map (·.raw) = raws ∧
      (raws.forM fun raw => discard (compile raw)) = .ok ()) ∨
    ∃ raw ∈ raws, ∃ expected, compileAll raws = .error (.patternInvalid raw expected) ∧
      (raws.forM fun raw => discard (compile raw)) = .error (.patternInvalid raw expected) := by
  induction raws with
  | nil => exact .inl ⟨[], rfl, rfl, rfl⟩
  | cons raw raws ih =>
    simp only [compileAll_cons, List.forM]
    have hcases : (∃ p, compile raw = .ok p) ∨
        ∃ expected, compile raw = .error (.patternInvalid raw expected) :=
      Template.having_bind_cases fun _ => ⟨_, rfl⟩
    rcases hcases with ⟨p, hp⟩ | ⟨expected, hp⟩
    · rcases ih with ⟨ps, hps, hraws, hcheck⟩ | ⟨bad, hbad, expected, hps, hcheck⟩
      · refine .inl ⟨p :: ps, ?_, by rw [List.map_cons, compile_eq_ok_iff.1 hp, hraws], ?_⟩
        · rw [hp, hps]; rfl
        · rw [hp, hcheck]; rfl
      · refine .inr ⟨bad, List.mem_cons_of_mem _ hbad, expected, ?_, ?_⟩
        · rw [hp, hps]; rfl
        · rw [hp, hcheck]; rfl
    · refine .inr ⟨raw, by simp, expected, ?_, ?_⟩
      · rw [hp]; rfl
      · rw [hp]; rfl

end PullPattern

namespace Config

/-! ## Faults -/

/-- The error of an outcome. -/
def error? {α : Type} : Except Error α → Option Error
  | .ok _ => none
  | .error e => some e

/-- The error of an outcome, unless it is about an absent setting. -/
def fault? {α : Type} (x : Except Error α) : Option Error :=
  (error? x).filter (!·.isConfigInvalid)

/-- What a check with this fault, or without one, comes to. -/
def outcome : Option Error → Except Error Unit
  | none => .ok ()
  | some e => .error e

@[simp] theorem outcome_eq_ok_iff {e? : Option Error} : outcome e? = .ok () ↔ e? = none := by
  cases e? <;> simp [outcome]

@[simp] theorem outcome_eq_error_iff {e? : Option Error} {e : Error} :
    outcome e? = .error e ↔ e? = some e := by
  cases e? <;> simp [outcome]

/-- One check after another comes to the first fault. -/
theorem outcome_bind (first second : Option Error) :
    (do outcome first; outcome second) = outcome (first.or second) := by
  cases first <;> rfl

section

variable (c : Config)

theorem pushPattern_cases :
    (c.pushPattern? = none ∧ c.pushPattern = .error (.configInvalid .noPushPattern)) ∨
    ∃ raw, c.pushPattern? = some raw ∧ ((∃ p, c.pushPattern = .ok p) ∨
      ∃ expected, c.pushPattern = .error (.patternInvalid raw expected)) := by
  unfold pushPattern
  cases c.pushPattern? with
  | none => exact .inl ⟨rfl, rfl⟩
  | some raw => exact .inr ⟨raw, rfl, PushPattern.compile_cases raw⟩

theorem compiledPullPatterns_cases :
    (c.pullPatterns = [] ∧ c.compiledPullPatterns = .ok [none]) ∨
    (c.pullPatterns ≠ [] ∧ c.compiledPullPatterns = PullPattern.compileAll c.pullPatterns) := by
  unfold compiledPullPatterns
  cases c.pullPatterns with
  | nil => exact .inl ⟨rfl, rfl⟩
  | cons raw raws => exact .inr ⟨by simp, rfl⟩

theorem sourceLanguage_cases :
    (c.sourceLanguage? = none ∧
      c.sourceLanguage c.registry = .error (.configInvalid .noSourceLanguage)) ∨
    ∃ identifier, c.sourceLanguage? = some identifier ∧
      ((∃ l, c.registry.find? identifier = some l ∧ c.sourceLanguage c.registry = .ok l) ∨
        (c.registry.find? identifier = none ∧
          c.sourceLanguage c.registry = .error (.languageNotFound identifier))) := by
  unfold sourceLanguage Registry.get
  cases c.sourceLanguage? with
  | none => exact .inl ⟨rfl, rfl⟩
  | some identifier =>
    refine .inr ⟨identifier, rfl, ?_⟩
    cases hl : c.registry.find? identifier with
    | some l => exact .inl ⟨l, rfl, by simp [hl]⟩
    | none => exact .inr ⟨rfl, by simp [hl]⟩

/-! ## Validation as the accessors in turn -/

theorem forM_pushPattern :
    (c.pushPattern?.forM fun raw => discard (PushPattern.compile raw)) =
      outcome (fault? c.pushPattern) := by
  unfold pushPattern
  cases c.pushPattern? with
  | none => rfl
  | some raw =>
    simp only [Option.forM]
    rcases PushPattern.compile_cases raw with ⟨p, hp⟩ | ⟨expected, hp⟩
    · rw [hp]; rfl
    · rw [hp]; rfl

theorem forM_pullPatterns :
    (c.pullPatterns.forM fun raw => discard (PullPattern.compile raw)) =
      outcome (fault? c.compiledPullPatterns) := by
  rcases c.compiledPullPatterns_cases with ⟨hnone, hps⟩ | ⟨-, hps⟩
  · rw [hnone, hps]; rfl
  · rw [hps]
    rcases PullPattern.compileAll_cases c.pullPatterns with
      ⟨ps, hall, -, hcheck⟩ | ⟨raw, -, expected, hall, hcheck⟩
    · rw [hall, hcheck]; rfl
    · rw [hall, hcheck]; rfl

theorem forM_sourceLanguage :
    (c.sourceLanguage?.forM fun identifier =>
        if c.languages.isEmpty then pure () else discard (c.registry.get identifier)) =
      outcome (if c.languages.isEmpty then none else fault? (c.sourceLanguage c.registry)) := by
  unfold sourceLanguage Registry.get
  cases c.sourceLanguage? with
  | none => split <;> rfl
  | some identifier =>
    simp only [Option.forM]
    split
    · rfl
    · cases c.registry.find? identifier <;> rfl

/-- The first fault of the patterns. -/
def patternFault? : Option Error :=
  (fault? c.pushPattern).or (fault? c.compiledPullPatterns)

/-- **Validation comes to the first fault of the accessors.** -/
theorem validate_eq :
    c.validate = outcome (c.patternFault?.or
      (if c.languages.isEmpty then none else fault? (c.sourceLanguage c.registry))) := by
  rw [validate, forM_pushPattern, forM_pullPatterns, forM_sourceLanguage, outcome_bind,
    outcome_bind, patternFault?, Option.or_assoc]

/-- The errors of the accessors for the push pattern, the pull patterns and the source language, of
those that fail, in this order. -/
def failures : List Error :=
  (error? c.pushPattern).toList ++ (error? c.compiledPullPatterns).toList ++
    (error? (c.sourceLanguage c.registry)).toList

theorem find?_failures :
    (c.failures.find? fun e => !e.isConfigInvalid) =
      c.patternFault?.or (fault? (c.sourceLanguage c.registry)) := by
  have hone {α : Type} (x : Except Error α) :
      ((error? x).toList.find? fun e => !e.isConfigInvalid) = fault? x := by
    cases x with
    | ok a => rfl
    | error e => cases he : e.isConfigInvalid <;> simp [fault?, error?, Option.filter_some, he]
  rw [failures, List.find?_append, List.find?_append, hone, hone, hone, patternFault?]

/-- A source language that is configured is a fault only where no language has that identifier. -/
theorem fault?_sourceLanguage {e : Error} (h : fault? (c.sourceLanguage c.registry) = some e) :
    ∃ identifier, e = .languageNotFound identifier := by
  rcases c.sourceLanguage_cases with ⟨-, hl⟩ | ⟨identifier, -, ⟨l, -, hl⟩ | ⟨-, hl⟩⟩
  · rw [hl] at h; cases h
  · rw [hl] at h; cases h
  · rw [hl] at h; cases h
    exact ⟨identifier, rfl⟩

/-- The faults of patterns are about patterns. -/
theorem patternFault?_eq_some {e : Error} (h : c.patternFault? = some e) :
    ∃ raw expected, e = .patternInvalid raw expected := by
  rcases Option.or_eq_some_iff.1 h with h | ⟨-, h⟩
  · rcases c.pushPattern_cases with ⟨-, hp⟩ | ⟨raw, -, ⟨p, hp⟩ | ⟨expected, hp⟩⟩
    · rw [hp] at h; cases h
    · rw [hp] at h; cases h
    · rw [hp] at h; cases h
      exact ⟨raw, expected, rfl⟩
  · rcases c.compiledPullPatterns_cases with ⟨-, hps⟩ | ⟨-, hps⟩
    · rw [hps] at h; cases h
    rcases PullPattern.compileAll_cases c.pullPatterns with
      ⟨ps, hall, -⟩ | ⟨raw, -, expected, hall, -⟩
    · rw [hps, hall] at h; cases h
    · rw [hps, hall] at h; cases h
      exact ⟨raw, expected, rfl⟩

end

/-! ## What follows from validation -/

/-- Why the source language of valid settings may still not be known: it is not configured, or there
are no languages to look for it in. -/
def LacksSource (c : Config) (e : Error) : Prop :=
  (c.sourceLanguage? = none ∧ e = .configInvalid .noSourceLanguage) ∨
    (c.languages = [] ∧ ∃ identifier, c.sourceLanguage? = some identifier ∧
      e = .languageNotFound identifier)

theorem sourceLanguage_eq_error_iff {c : Config} (h : c.validate = .ok ()) {e : Error} :
    c.sourceLanguage c.registry = .error e ↔ c.LacksSource e := by
  unfold LacksSource
  rcases c.sourceLanguage_cases with
    ⟨hnone, hl⟩ | ⟨identifier, hsome, ⟨l, hfind, hl⟩ | ⟨hfind, hl⟩⟩
  · simp [hl, hnone, eq_comm]
  · have hne : c.languages ≠ [] := by
      intro hempty
      simp [registry, hempty, Registry.find?, Registry.ofList] at hfind
    simp [hl, hsome, hne]
  · have hempty : c.languages = [] := by
      rw [validate_eq, outcome_eq_ok_iff, Option.or_eq_none_iff, hl] at h
      by_contra hne
      simp [hne, fault?, error?, Error.isConfigInvalid] at h
    simp [hl, hsome, hempty, eq_comm]

theorem destinationLanguages_eq_error_iff (c : Config) (r : Registry) {e : Error} :
    c.destinationLanguages r = .error e ↔ c.sourceLanguage r = .error e := by
  unfold destinationLanguages
  cases c.sourceLanguage r with
  | ok l => simp [bind, Except.bind, pure, Except.pure]
  | error e' => simp [bind, Except.bind]

theorem patternFaults_of_validate {c : Config} (h : c.validate = .ok ()) :
    fault? c.pushPattern = none ∧ fault? c.compiledPullPatterns = none := by
  rw [validate_eq, outcome_eq_ok_iff, Option.or_eq_none_iff] at h
  exact Option.or_eq_none_iff.1 h.1

theorem pushPattern_eq_error_iff {c : Config} (h : c.validate = .ok ()) {e : Error} :
    c.pushPattern = .error e ↔
      c.pushPattern? = none ∧ e = .configInvalid .noPushPattern := by
  have hfault := (patternFaults_of_validate h).1
  rcases c.pushPattern_cases with ⟨hnone, hp⟩ | ⟨raw, hsome, ⟨p, hp⟩ | ⟨expected, hp⟩⟩
  · simp [hp, hnone, eq_comm]
  · simp [hp, hsome]
  · rw [hp] at hfault; cases hfault

theorem exists_compiledPullPatterns {c : Config} (h : c.validate = .ok ())
    (hne : c.pullPatterns ≠ []) :
    ∃ ps : List PullPattern, c.compiledPullPatterns = .ok (ps.map some) ∧
      ps.map (·.raw) = c.pullPatterns := by
  have hfault := (patternFaults_of_validate h).2
  rcases c.compiledPullPatterns_cases with ⟨hnone, -⟩ | ⟨-, hps⟩
  · exact absurd hnone hne
  rcases PullPattern.compileAll_cases c.pullPatterns with
    ⟨ps, hall, hraws, -⟩ | ⟨raw, -, expected, hall, -⟩
  · exact ⟨ps, hps.trans hall, hraws⟩
  · rw [hps, hall] at hfault; cases hfault

/-- **Validation foretells what the accessors will say.** Of valid settings the pull patterns can
all be used, and are the standard one or the configured texts in order; the push pattern fails only
where none is configured, and the source language and the destination languages fail only where no
source language is configured or no languages are listed. Settings that are not valid have the error
of the first accessor that fails for another reason than an absent setting, unless all that fails is
a source language for which no languages are listed. -/
theorem validate_foretells (c : Config) :
    (c.validate = .ok () →
      (c.pullPatterns = [] → c.compiledPullPatterns = .ok [none]) ∧
      (c.pullPatterns ≠ [] → ∃ ps : List PullPattern, c.compiledPullPatterns = .ok (ps.map some) ∧
        ps.map (·.raw) = c.pullPatterns) ∧
      (∀ e, c.pushPattern = .error e ↔
        c.pushPattern? = none ∧ e = .configInvalid .noPushPattern) ∧
      (∀ e, c.sourceLanguage c.registry = .error e ↔ c.LacksSource e) ∧
      ∀ e, c.destinationLanguages c.registry = .error e ↔ c.LacksSource e) ∧
    ∀ e, c.validate = .error e ↔
      (c.failures.find? fun e => !e.isConfigInvalid) = some e ∧
        ¬ (c.languages = [] ∧ ∃ identifier, e = .languageNotFound identifier) := by
  constructor
  · intro h
    refine ⟨fun hnone => ?_, exists_compiledPullPatterns h, fun e => pushPattern_eq_error_iff h,
      fun e => sourceLanguage_eq_error_iff h, fun e => ?_⟩
    · rw [compiledPullPatterns, hnone]; rfl
    · rw [destinationLanguages_eq_error_iff, sourceLanguage_eq_error_iff h]
  · intro e
    rw [validate_eq, outcome_eq_error_iff, find?_failures, Option.or_eq_some_iff,
      Option.or_eq_some_iff]
    constructor
    · rintro (h | ⟨hnone, h⟩)
      · obtain ⟨raw, expected, rfl⟩ := c.patternFault?_eq_some h
        exact ⟨.inl h, by simp⟩
      · by_cases hempty : c.languages = []
        · simp [hempty] at h
        · exact ⟨.inr ⟨hnone, by simpa [hempty] using h⟩, fun hboth => hempty hboth.1⟩
    · rintro ⟨h | ⟨hnone, h⟩, hlisted⟩
      · exact .inl h
      · have hne : c.languages ≠ [] :=
          fun hempty => hlisted ⟨hempty, c.fault?_sourceLanguage h⟩
        exact .inr ⟨hnone, by simpa [hne] using h⟩

/-- Settings with a source language, two pull patterns and no languages. -/
def unlisted : Config where
  organizationId := 1
  projectId := 2
  sourceLanguage? := some "en-us".toList
  pullPatterns := ["<language_code>.json".toList, "i18n/<language_name><extension>".toList]

/-- Settings with two faults: a pull pattern without a language, and a source language that is not
among the languages. -/
def misnamed : Config :=
  { unlisted with
    pullPatterns := ["<language_code>.json".toList, "i18n/strings.json".toList]
    languages := [⟨3, "fr-fr".toList, "French".toList, .ltr⟩] }

theorem validate_foretells_unlisted :
    (∃ ps : List PullPattern, unlisted.compiledPullPatterns = .ok (ps.map some) ∧
      ps.map (·.raw) = unlisted.pullPatterns) ∧
    unlisted.destinationLanguages unlisted.registry = .error (.languageNotFound "en-us".toList) ∧
    misnamed.validate = .error (.patternInvalid "i18n/strings.json".toList
      (Placeholder.describe Placeholder.ofLanguage)) ∧
    misnamed.sourceLanguage misnamed.registry = .error (.languageNotFound "en-us".toList) := by
  have hvalid : unlisted.validate = .ok () := by decide +kernel
  obtain ⟨-, hpull, -, -, hdestination⟩ := (validate_foretells unlisted).1 hvalid
  refine ⟨hpull (by decide), (hdestination _).2 (.inr ⟨rfl, _, rfl, rfl⟩),
    ((validate_foretells misnamed).2 _).2 ⟨by decide +kernel, by simp⟩, by decide +kernel⟩

end Config

end LocaleSync
