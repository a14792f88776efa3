/-
What becomes of files without a format. Sorting goes through the candidates once, and each has a
format or an error of its own, so what a plan holds can be said file by file (`sorted`). With leave to
skip, sorting always ends with that plan (`run_sort_lenient`); without, it ends with the first error
that the plan has recorded, or with the plan if there is none (`run_sort_strict`). Everything before
sorting is the same in both modes, and so are its failures (`plan_strict_iff_lenient`).
-/
import LocaleSync.Proofs.Discovery
import LocaleSync.Proofs.Format.Table
import LocaleSync.Push

namespace LocaleSync

namespace Reporting

/-- What an activity comes to, apart from what it says. -/
def outcome {α : Type} (x : Reporting α) (notes : List Note) : Except Error α :=
  (x.run.run notes).1

theorem run_lift {α : Type} (x : Except Error α) (notes : List Note) :
    (liftM x : Reporting α).run.run notes = (x, notes) := by
  cases x <;> rfl

theorem run_note (ns notes : List Note) : (note ns).run.run notes = (.ok (), notes ++ ns) := rfl

end Reporting

namespace Push

/-! ## The plan of candidates -/

/-- The item for a file with a format. -/
def item? (t : FormatTable) (f : LocaleFile) : Option Item :=
  (t.resolve f).toOption.map fun format => ⟨f, format, f.uniqueName⟩

/-- A file without a format, with its error. -/
def fault? (t : FormatTable) (f : LocaleFile) : Option (LocaleFile × Error) :=
  match t.resolve f with
  | .ok _ => none
  | .error e => some (f, e)

/-- The files with formats as items, the others with their errors. -/
def sorted (t : FormatTable) (files : List LocaleFile) : Plan where
  items := files.filterMap (item? t)
  skipped := files.filterMap (fault? t)

/-- What a plan comes to where nothing may be skipped. -/
def strictly (p : Plan) : Except Error Plan :=
  match p.skipped with
  | [] => .ok ⟨p.items, []⟩
  | (_, e) :: _ => .error e

/-- What is said about a file that is skipped. -/
def warning (entry : LocaleFile × Error) : Note :=
  .warn ("Skipping ".toList ++ entry.1.posix ++ ": ".toList ++ entry.2.message)

section

variable {t : FormatTable} {file : LocaleFile} {files : List LocaleFile}

theorem sorted_cons_ok {format : Text} (h : t.resolve file = .ok format) :
    sorted t (file :: files) =
      { sorted t files with items := ⟨file, format, file.uniqueName⟩ :: (sorted t files).items } := by
  simp [sorted, item?, fault?, h, Except.toOption]

theorem sorted_cons_error {e : Error} (h : t.resolve file = .error e) :
    sorted t (file :: files) =
      { sorted t files with skipped := (file, e) :: (sorted t files).skipped } := by
  simp [sorted, item?, fault?, h, Except.toOption]

/-- **With leave to skip, sorting ends with the plan.** -/
theorem run_sort_lenient (t : FormatTable) (files : List LocaleFile) (notes : List Note) :
    (sort t true files).run.run notes =
      (.ok (sorted t files), notes ++ (sorted t files).skipped.map warning) := by
  induction files generalizing notes with
  | nil => exact congrArg (Prod.mk _) (List.append_nil notes).symm
  | cons file files ih =>
    cases hformat : t.resolve file with
    | ok format =>
      simp only [sort, hformat, Reporting.run_bind, ih, sorted_cons_ok hformat]
      rfl
    | error e =>
      simp only [sort, hformat, if_true, Reporting.run_bind, Reporting.run_note, ih,
        sorted_cons_error hformat, List.map_cons]
      exact congrArg (Prod.mk _) (List.append_assoc notes [warning (file, e)] _)

/-- **Without leave to skip, it ends with the first error of the plan**, if there is one. -/
theorem run_sort_strict (t : FormatTable) (files : List LocaleFile) (notes : List Note) :
    (sort t false files).run.run notes = (strictly (sorted t files), notes) := by
  induction files with
  | nil => rfl
  | cons file files ih =>
    cases hformat : t.resolve file with
    | ok format =>
      simp only [sort, hformat, Reporting.run_bind, ih, sorted_cons_ok hformat, strictly]
      cases (sorted t files).skipped <;> rfl
    | error e =>
      simp only [sort, hformat, sorted_cons_error hformat, strictly]
      rfl

/-- In both modes a plan that is made is the plan of the candidates. -/
theorem eq_sorted_of_run_sort {skip : Bool} {p : Plan} {notes notes' : List Note}
    (h : (sort t skip files).run.run notes = (.ok p, notes')) : p = sorted t files := by
  cases skip with
  | true =>
    rw [run_sort_lenient] at h
    obtain ⟨h, -⟩ := Prod.mk.inj h
    exact (Except.ok.inj h).symm
  | false =>
    rw [run_sort_strict, strictly] at h
    obtain ⟨h, -⟩ := Prod.mk.inj h
    split at h
    next hskipped =>
      rw [← Except.ok.inj h, ← hskipped]
    next => cases h

end

/-! ## What a plan is made of -/

section

variable {t : FormatTable} {f : LocaleFile}

/-- The table knows the extension of the file. A name without a dot has the empty one. -/
def HasFormat (t : FormatTable) (f : LocaleFile) : Prop :=
  ∃ ext code, FormatTable.IsEnding f.name ext ∧ t.codeFor? ext = some code

theorem hasFormat_iff : HasFormat t f ↔ ∃ code, t.resolve f = .ok code := by
  constructor
  · intro h
    obtain ⟨ext, code, hext, hcode⟩ := h
    exact ⟨code, (FormatTable.resolve_eq_ok_iff hext).2 hcode⟩
  · intro h
    obtain ⟨code, hcode⟩ := h
    obtain ⟨ext, hext⟩ := FormatTable.exists_isEnding f.name
    exact ⟨ext, code, hext, (FormatTable.resolve_eq_ok_iff hext).1 hcode⟩

instance (t : FormatTable) : DecidablePred (HasFormat t) := fun f =>
  decidable_of_iff ((t.resolve f).isOk = true) (by
    rw [hasFormat_iff]
    cases t.resolve f <;> simp [Except.isOk, Except.toBool])

/-- The candidates are divided between the items and the files left out, both in their order: a
candidate is an item exactly if the table knows its extension. An item has the code that the table
gives to the extension, and its own unique name; a file that is left out has the error that names its
extension. -/
structure IsDivision (t : FormatTable) (files : List LocaleFile) (p : Plan) : Prop where
  files : files.partition (fun f => HasFormat t f) = (p.items.map (·.file), p.skipped.map (·.1))
  items : ∀ item ∈ p.items, item.uniqueName = item.file.uniqueName ∧
    ∃ ext, FormatTable.IsEnding item.file.name ext ∧ t.codeFor? ext = some item.format
  skipped : ∀ entry ∈ p.skipped, ∃ ext, FormatTable.IsEnding entry.1.name ext ∧
    entry.2 = .unsupportedExtension ext t.allowed

theorem isDivision_nil (t : FormatTable) : IsDivision t [] {} :=
  ⟨rfl, by simp, by simp⟩

variable {files : List LocaleFile} {p : Plan}

theorem partition_hasFormat_iff {kept left : List LocaleFile} :
    files.partition (fun f => HasFormat t f) = (kept, left) ↔
      files.filter (fun f => HasFormat t f) = kept ∧
        files.filter (fun f => ¬ HasFormat t f) = left := by
  rw [List.partition_eq_filter_filter, Prod.mk.injEq]
  simp only [Function.comp_def, decide_not]

theorem IsDivision.cons_item (h : IsDivision t files p) {format : Text}
    (hformat : t.resolve f = .ok format) :
    IsDivision t (f :: files) { p with items := ⟨f, format, f.uniqueName⟩ :: p.items } := by
  have hknown : HasFormat t f := hasFormat_iff.2 ⟨format, hformat⟩
  obtain ⟨hkept, hleft⟩ := partition_hasFormat_iff.1 h.files
  obtain ⟨ext, hext⟩ := FormatTable.exists_isEnding f.name
  have hcode := (FormatTable.resolve_eq_ok_iff hext).1 hformat
  refine ⟨partition_hasFormat_iff.2 ⟨?_, ?_⟩,
    List.forall_mem_cons.2 ⟨⟨rfl, ext, hext, hcode⟩, h.items⟩, h.skipped⟩
  · rw [List.filter_cons_of_pos (by simpa using hknown), hkept, List.map_cons]
  · rw [List.filter_cons_of_neg (by simpa using hknown), hleft]

theorem IsDivision.cons_skipped (h : IsDivision t files p) {e : Error}
    (hformat : t.resolve f = .error e) :
    IsDivision t (f :: files) { p with skipped := (f, e) :: p.skipped } := by
  have hunknown : ¬ HasFormat t f := by
    rw [hasFormat_iff, hformat]
    simp
  obtain ⟨hkept, hleft⟩ := partition_hasFormat_iff.1 h.files
  obtain ⟨ext, hext⟩ := FormatTable.exists_isEnding f.name
  have herror : e = .unsupportedExtension ext t.allowed := by
    rw [FormatTable.resolve_of_isEnding t hext] at hformat
    split at hformat
    next => cases hformat
    next => exact (Except.error.inj hformat).symm
  refine ⟨partition_hasFormat_iff.2 ⟨?_, ?_⟩, h.items,
    List.forall_mem_cons.2 ⟨⟨ext, hext, herror⟩, h.skipped⟩⟩
  · rw [List.filter_cons_of_neg (by simpa using hunknown), hkept]
  · rw [List.filter_cons_of_pos (by simpa using hunknown), hleft, List.map_cons]

theorem IsDivision.file_mem (h : IsDivision t files p) {item : Item} (hm : item ∈ p.items) :
    item.file ∈ files := by
  have hfile : item.file ∈ p.items.map (·.file) := List.mem_map_of_mem hm
  rw [← (partition_hasFormat_iff.1 h.files).1] at hfile
  exact (List.mem_filter.1 hfile).1

/-- **The plan of candidates divides them.** -/
theorem isDivision_sorted (t : FormatTable) (files : List LocaleFile) :
    IsDivision t files (sorted t files) := by
  induction files with
  | nil => exact isDivision_nil t
  | cons file files ih =>
    cases hformat : t.resolve file with
    | ok format =>
      rw [sorted_cons_ok hformat]
      exact ih.cons_item hformat
    | error e =>
      rw [sorted_cons_error hformat]
      exact ih.cons_skipped hformat

end

/-! ## The two modes of a plan -/

section

variable {s : Storage} {curdir : Path} {c : Config} {r : Registry} {t : FormatTable}
  {paths : List Path} {files : List LocaleFile} {notes between : List Note}

/-- The files that a plan is made for: those given, in the source language; if none are given, the
files of the project that the push pattern recognizes, of which there must be one. -/
def AreCandidates (s : Storage) (curdir : Path) (c : Config) (r : Registry) (paths : List Path)
    (files : List LocaleFile) : Prop :=
  (paths ≠ [] ∧ ∃ source, c.sourceLanguage r = .ok source ∧ files = ofPaths curdir source paths) ∨
  (paths = [] ∧ files ≠ [] ∧ ∃ p fs, c.pushPattern = .ok p ∧ ProjectFiles.find s curdir = .ok fs ∧
    files = fs.relative.filterMap fun path => (p.recognize fs.root.path path r).file?)

theorem areCandidates_of_run
    (h : (candidates s curdir c r paths).run.run notes = (.ok files, between)) :
    AreCandidates s curdir c r paths files := by
  unfold candidates at h
  split at h
  next hnil =>
    obtain ⟨p, before, hp, h⟩ := Reporting.run_bind_eq_ok.1 h
    obtain ⟨found, after, hfound, h⟩ := Reporting.run_bind_eq_ok.1 h
    rw [Reporting.run_lift, Prod.mk.injEq] at hp
    split at h
    next => cases h
    next hfiles =>
      obtain ⟨h, -⟩ := Prod.mk.inj h
      obtain rfl := Except.ok.inj h
      obtain ⟨fs, hfind, hfs⟩ := PushPattern.find_of_run_discover hfound
      exact .inr ⟨by simpa using hnil, by simpa using hfiles, p, fs, hp.1, hfind, hfs⟩
  next hne =>
    obtain ⟨source, _, hsource, h⟩ := Reporting.run_bind_eq_ok.1 h
    rw [Reporting.run_lift, Prod.mk.injEq] at hsource
    obtain ⟨h, -⟩ := Prod.mk.inj h
    exact .inl ⟨by simpa using hne, source, hsource.1, (Except.ok.inj h).symm⟩

theorem outcome_plan_of_error {e : Error}
    (h : (candidates s curdir c r paths).run.run notes = (.error e, between)) (skip : Bool) :
    (plan s curdir c r t paths skip).outcome notes = .error e := by
  rw [Reporting.outcome, plan, Reporting.run_bind, h]

theorem outcome_plan_lenient
    (h : (candidates s curdir c r paths).run.run notes = (.ok files, between)) :
    (plan s curdir c r t paths true).outcome notes = .ok (sorted t files) := by
  simp only [Reporting.outcome, plan, Reporting.run_bind, h, run_sort_lenient]

theorem outcome_plan_strict
    (h : (candidates s curdir c r paths).run.run notes = (.ok files, between)) :
    (plan s curdir c r t paths false).outcome notes = strictly (sorted t files) := by
  simp only [Reporting.outcome, plan, Reporting.run_bind, h, run_sort_strict]

end

/-- **Skipping files without a format only puts off their errors.** If a plan that may skip fails, the
plan that may not fails with the same error. Otherwise the first one divides the candidates, and the
second one succeeds exactly if nothing was skipped, with the same items; if something was, it fails
with the error recorded for the first file skipped. -/
theorem plan_strict_iff_lenient (s : Storage) (curdir : Path) (c : Config) (r : Registry)
    (t : FormatTable) (paths : List Path) (notes : List Note) :
    let lenient := (plan s curdir c r t paths true).outcome notes
    let strict := (plan s curdir c r t paths false).outcome notes
    (∀ e, lenient = .error e → strict = .error e) ∧
    ∀ p, lenient = .ok p →
      (∃ files, AreCandidates s curdir c r paths files ∧ IsDivision t files p) ∧
      ((∃ q, strict = .ok q) ↔ p.skipped = []) ∧
      (∀ q, strict = .ok q → q.items = p.items ∧ q.skipped = []) ∧
      ∀ first rest, p.skipped = first :: rest → strict = .error first.2 := by
  intro lenient strict
  rcases hrun : (candidates s curdir c r paths).run.run notes with ⟨e | files, between⟩
  · have hlenient : lenient = .error e := outcome_plan_of_error hrun true
    have hstrict : strict = .error e := outcome_plan_of_error hrun false
    simp [hlenient, hstrict]
  · have hlenient : lenient = .ok (sorted t files) := outcome_plan_lenient hrun
    have hstrict : strict = strictly (sorted t files) := outcome_plan_strict hrun
    refine ⟨fun e he => ?_, fun p hp => ?_⟩
    · rw [hlenient] at he
      cases he
    · obtain rfl : sorted t files = p := Except.ok.inj (hlenient.symm.trans hp)
      refine ⟨⟨files, areCandidates_of_run hrun, isDivision_sorted t files⟩, ?_⟩
      rw [hstrict, strictly]
      cases hskipped : (sorted t files).skipped with
      | nil => simp
      | cons first rest => simp

open LocaleSync.Language (english)

def given : Config where
  organizationId := 1
  projectId := 2
  sourceLanguage? := some "en".toList
  languages := [english]

/-- Files of which only the second has a format. -/
theorem plan_strict_iff_lenient_given :
    let paths : List Path :=
      [.ofString "res/Strings.resx", .ofString "/p/res/strings.po", .ofString "README"]
    (∃ p, (plan ⟨[], []⟩ (.ofString "/p") given given.registry .builtin paths true).outcome [] =
        .ok p ∧
      p.items = [⟨englishFile "res/strings.po", "PO".toList, "res-strings.po".toList⟩] ∧
      p.skipped.map (·.1) = [englishFile "res/Strings.resx", englishFile "README"]) ∧
    (plan ⟨[], []⟩ (.ofString "/p") given given.registry .builtin paths false).outcome [] =
      .error (.unsupportedExtension "resx".toList FormatTable.builtin.allowed) := by
  intro paths
  have hlenient : (plan ⟨[], []⟩ (.ofString "/p") given given.registry .builtin paths
      true).outcome [] =
      .ok ⟨[⟨englishFile "res/strings.po", "PO".toList, "res-strings.po".toList⟩],
        [(englishFile "res/Strings.resx",
          .unsupportedExtension "resx".toList FormatTable.builtin.allowed),
        (englishFile "README", .unsupportedExtension [] FormatTable.builtin.allowed)]⟩ := by
    decide +kernel
  have hplan := plan_strict_iff_lenient ⟨[], []⟩ (.ofString "/p") given given.registry .builtin
    paths []
  exact ⟨⟨_, hlenient, rfl, rfl⟩, (hplan.2 _ hlenient).2.2.2 _ _ rfl⟩

end Push

end LocaleSync
