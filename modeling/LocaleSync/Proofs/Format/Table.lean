/-
What the table of formats says after any changes. A format that is put in takes the place of the
one with its code, so no code is there twice (`hasDistinctCodes_afterAll`), and the index is made
anew, so it is in step with the formats (`isIndexed_afterAll`). An index in step has an extension
under the last format that lists it (`codeFor?_eq`), hence the extensions of the table are those
that its formats list, in byte order, and a file has a format exactly if its extension is one of
them (`afterAll_exact`).
-/
import LocaleSync.Proofs.Registry
import LocaleSync.Proofs.Session
import LocaleSync.Proofs.Text.Index

namespace LocaleSync

namespace FormatTable

/-! ## Changes -/

/-- A change of a table: formats are put over it, given ones or those of a remote project. -/
inductive Change where
  | merge (formats : List Format)
  | ask (service : Service) (w : World)

/-- The table after a change. A remote project that fails leaves it as it is. -/
def after (t : FormatTable) : Change → FormatTable
  | .merge formats => t.merge formats
  | .ask service w =>
    match (Session.mergeFormats service t).run.run w with
    | (.ok t', _) => t'
    | (.error _, _) => t

/-- The table after changes, one after another. -/
def afterAll (t : FormatTable) (changes : List Change) : FormatTable :=
  changes.foldl after t

/-- A change leaves the table as it is, or puts formats over it. -/
theorem after_cases (t : FormatTable) (c : Change) :
    t.after c = t ∨ ∃ formats, t.after c = t.merge formats := by
  cases c with
  | merge formats => exact .inr ⟨formats, rfl⟩
  | ask service w =>
    have hrun : Session.Ends (Session.mergeFormats service t) w fun r _ =>
        ∀ t', r = .ok t' → t' = t ∨ ∃ formats, t' = t.merge formats := by
      simp only [Session.mergeFormats, Session.ends_bind, Session.ends_call]
      cases service.formats w.calls with
      | error e => intro t' h; cases h
      | ok formats =>
        intro t' h
        obtain rfl := Except.ok.inj h
        split
        · exact .inl rfl
        · exact .inr ⟨formats, rfl⟩
    simp only [after]
    split
    next t' w' h => exact hrun.of_run h t' rfl
    next => exact .inl rfl

/-- **What merging keeps, every sequence of changes keeps.** -/
theorem afterAll_induction {P : FormatTable → Prop}
    (merge : ∀ t : FormatTable, P t → ∀ formats, P (t.merge formats)) {t : FormatTable} (h : P t)
    (changes : List Change) : P (t.afterAll changes) := by
  induction changes generalizing t with
  | nil => exact h
  | cons c changes ih =>
    apply ih
    rcases t.after_cases c with hc | ⟨formats, hc⟩
    · rw [hc]
      exact h
    · rw [hc]
      exact merge t h formats

/-! ## Codes -/

/-- No two formats have one code. -/
def HasDistinctCodes (t : FormatTable) : Prop :=
  (t.formats.map (·.code)).Nodup

theorem nodup_codes_put {formats : List Format} (h : (formats.map (·.code)).Nodup) (f : Format) :
    ((put formats f).map (·.code)).Nodup := by
  have hkept : ((formats.filter (·.code != f.code)).map (·.code)).Nodup :=
    h.sublist (List.filter_sublist.map _)
  simp only [put, List.map_append, List.map_cons, List.map_nil]
  refine List.nodup_append.2 ⟨hkept, by simp, ?_⟩
  intro code hcode other hother
  obtain ⟨g, hg, rfl⟩ := List.mem_map.1 hcode
  obtain rfl := List.mem_singleton.1 hother
  simpa using (List.mem_filter.1 hg).2

theorem HasDistinctCodes.merge {t : FormatTable} (h : t.HasDistinctCodes)
    (formats : List Format) : (t.merge formats).HasDistinctCodes := by
  unfold HasDistinctCodes FormatTable.merge at *
  generalize t.formats = known at h
  induction formats generalizing known with
  | nil => exact h
  | cons f formats ih => exact ih _ (nodup_codes_put h f)

/-- **No code is there twice**, whatever changes are made to the builtin table. -/
theorem hasDistinctCodes_afterAll (changes : List Change) :
    (builtin.afterAll changes).HasDistinctCodes :=
  afterAll_induction (fun _ h formats => h.merge formats)
    (show builtin.HasDistinctCodes by unfold HasDistinctCodes; decide) changes

/-! ## The index -/

/-- The index is that of the formats. -/
def IsIndexed (t : FormatTable) : Prop :=
  t.index = t.formats.foldl enter []

theorem isIndexed_reindex (t : FormatTable) : t.reindex.IsIndexed :=
  rfl

theorem isIndexed_merge (t : FormatTable) (formats : List Format) : (t.merge formats).IsIndexed :=
  isIndexed_reindex _

theorem isIndexed_builtin : builtin.IsIndexed :=
  isIndexed_reindex _

/-- **The index is in step with the formats**, whatever changes are made to the builtin table. -/
theorem isIndexed_afterAll (changes : List Change) : (builtin.afterAll changes).IsIndexed :=
  afterAll_induction (fun t _ formats => isIndexed_merge t formats) isIndexed_builtin changes

/-- Tables in step are the same if their formats are. -/
theorem IsIndexed.ext {t u : FormatTable} (ht : t.IsIndexed) (hu : u.IsIndexed)
    (h : t.formats = u.formats) : t = u := by
  obtain ⟨formats, index⟩ := t
  obtain rfl : index = formats.foldl enter [] := ht
  obtain ⟨formats', index'⟩ := u
  obtain rfl : index' = formats'.foldl enter [] := hu
  obtain rfl : formats = formats' := h
  rfl

theorem IsIndexed.reindex_eq {t : FormatTable} (ht : t.IsIndexed) : t.reindex = t :=
  t.isIndexed_reindex.ext ht rfl

/-! ## Extensions -/

open Text (Index)

theorem get?_enter (ix : Index Text) (f : Format) (ext : Text) :
    (enter ix f).get? ext = if ext ∈ f.extensions then some f.code else ix.get? ext := by
  unfold enter
  generalize f.extensions = extensions
  induction extensions generalizing ix with
  | nil => simp
  | cons x extensions ih =>
    rw [List.foldl_cons, ih, Index.get?_insert]
    by_cases hx : x = ext
    · simp [hx]
    · simp [hx, Ne.symm hx]

theorem isOrdered_enter {ix : Index Text} (h : ix.IsOrdered) (f : Format) :
    (enter ix f).IsOrdered := by
  unfold enter
  generalize f.extensions = extensions
  induction extensions generalizing ix with
  | nil => exact h
  | cons x extensions ih => exact ih (h.insert x f.code)

theorem get?_foldl_enter (formats : List Format) (ix : Index Text) (ext : Text) :
    (formats.foldl enter ix).get? ext =
      ((formats.reverse.find? (ext ∈ ·.extensions)).map (·.code)).or (ix.get? ext) := by
  induction formats generalizing ix with
  | nil => simp
  | cons f formats ih =>
    rw [List.foldl_cons, ih, get?_enter, List.reverse_cons, List.find?_append]
    cases formats.reverse.find? (ext ∈ ·.extensions) with
    | some g => simp
    | none => by_cases hf : ext ∈ f.extensions <;> simp [hf]

section

variable {t : FormatTable} (ht : t.IsIndexed)

include ht

/-- **An extension belongs to the last format that lists it.** -/
theorem codeFor?_eq (ext : Text) :
    t.codeFor? ext = (t.formats.reverse.find? (ext ∈ ·.extensions)).map (·.code) := by
  rw [codeFor?, ht, get?_foldl_enter]
  simp

theorem codeFor?_eq_some_iff {ext code : Text} :
    t.codeFor? ext = some code ↔
      ∃ before f after, t.formats = before ++ f :: after ∧ f.code = code ∧
        ext ∈ f.extensions ∧ ∀ g ∈ after, ext ∉ g.extensions := by
  rw [codeFor?_eq ht, Option.map_eq_some_iff]
  constructor
  · rintro ⟨f, hf, hcode⟩
    obtain ⟨hmem, later, earlier, hsplit, hlater⟩ := List.find?_eq_some_iff_append.1 hf
    refine ⟨earlier.reverse, f, later.reverse, ?_, hcode, by simpa using hmem, ?_⟩
    · rw [← List.reverse_reverse t.formats, hsplit]
      simp
    · intro g hg
      simpa using hlater g (List.mem_reverse.1 hg)
  · rintro ⟨before, f, after, hsplit, hcode, hmem, hafter⟩
    refine ⟨f, List.find?_eq_some_iff_append.2 ⟨by simpa using hmem, after.reverse,
      before.reverse, by simp [hsplit], ?_⟩, hcode⟩
    intro g hg
    simpa using hafter g (List.mem_reverse.1 hg)

theorem codeFor?_eq_none_iff {ext : Text} :
    t.codeFor? ext = none ↔ ∀ f ∈ t.formats, ext ∉ f.extensions := by
  rw [codeFor?_eq ht]
  simp

theorem mem_allowed_iff {ext : Text} :
    ext ∈ t.allowed ↔ ∃ f ∈ t.formats, ext ∈ f.extensions := by
  have hnone : ext ∉ t.allowed ↔ t.codeFor? ext = none := Index.get?_eq_none_iff.symm
  rw [← Classical.not_not (a := ext ∈ t.allowed), hnone, codeFor?_eq_none_iff ht]
  simp

theorem sorted_allowed : t.allowed.Pairwise (· < ·) := by
  have h : ∀ formats : List Format, ∀ ix : Index Text, ix.IsOrdered →
      (formats.foldl enter ix).IsOrdered := by
    intro formats
    induction formats with
    | nil => intro ix h; exact h
    | cons f formats ih => intro ix h; exact ih _ (isOrdered_enter h f)
  have hordered : t.index.IsOrdered := by
    rw [ht]
    exact h t.formats [] .nil
  exact hordered

end

/-! ## The format of a file -/

/-- What decides the format of a name: the text behind its first dot, or nothing without one. -/
def IsEnding (name ext : Text) : Prop :=
  (∃ stem, '.' ∉ stem ∧ name = stem ++ '.' :: ext) ∨ ('.' ∉ name ∧ ext = [])

theorem afterFirst?_append {sep : Char} {stem : Text} (h : sep ∉ stem) (rest : Text) :
    Text.afterFirst? sep (stem ++ sep :: rest) = some rest := by
  induction stem with
  | nil => simp [Text.afterFirst?]
  | cons c stem ih =>
    simp only [List.mem_cons, not_or] at h
    simp [Text.afterFirst?, Ne.symm h.1, ih h.2]

theorem afterFirst?_of_not_mem {sep : Char} {t : Text} (h : sep ∉ t) :
    Text.afterFirst? sep t = none := by
  induction t with
  | nil => rfl
  | cons c t ih =>
    simp only [List.mem_cons, not_or] at h
    simp [Text.afterFirst?, Ne.symm h.1, ih h.2]

theorem exists_isEnding (name : Text) : ∃ ext, IsEnding name ext := by
  by_cases hdot : '.' ∈ name
  · obtain ⟨stem, ext, hname, hstem⟩ := List.eq_append_cons_of_mem hdot
    exact ⟨ext, .inl ⟨stem, hstem, hname⟩⟩
  · exact ⟨[], .inr ⟨hdot, rfl⟩⟩

theorem IsEnding.eq_getD {f : LocaleFile} {ext : Text} (h : IsEnding f.name ext) :
    f.extension?.getD [] = ext := by
  unfold LocaleFile.extension?
  rcases h with ⟨stem, hstem, hname⟩ | ⟨hname, rfl⟩
  · rw [hname, afterFirst?_append hstem]
    rfl
  · rw [afterFirst?_of_not_mem hname]
    rfl

theorem resolve_of_isEnding (t : FormatTable) {f : LocaleFile} {ext : Text}
    (h : IsEnding f.name ext) :
    t.resolve f = match t.codeFor? ext with
      | some code => .ok code
      | none => .error (.unsupportedExtension ext t.allowed) := by
  rw [← h.eq_getD]
  rfl

theorem resolve_eq_ok_iff {t : FormatTable} {f : LocaleFile} {ext code : Text}
    (h : IsEnding f.name ext) : t.resolve f = .ok code ↔ t.codeFor? ext = some code := by
  rw [resolve_of_isEnding t h]
  cases t.codeFor? ext <;> simp

/-- **What a table says after any changes.** Its index is that of its formats, which have different
codes; an extension belongs to the last format that lists it; the extensions of the table are those
that are listed, each once and in byte order; and a file has a format exactly if its extension is
one of them. -/
theorem afterAll_exact (changes : List Change) :
    let t := builtin.afterAll changes
    t.reindex = t ∧
    (t.formats.map (·.code)).Nodup ∧
    (∀ ext code, t.codeFor? ext = some code ↔
      ∃ before f after, t.formats = before ++ f :: after ∧ f.code = code ∧
        ext ∈ f.extensions ∧ ∀ g ∈ after, ext ∉ g.extensions) ∧
    (∀ ext, t.codeFor? ext = none ↔ ∀ f ∈ t.formats, ext ∉ f.extensions) ∧
    (t.allowed.map Bytes.ofText).Pairwise (· < ·) ∧
    (∀ ext, ext ∈ t.allowed ↔ ∃ f ∈ t.formats, ext ∈ f.extensions) ∧
    ∀ f, (∃ ext, IsEnding f.name ext) ∧ ∀ ext, IsEnding f.name ext →
      (∀ code, t.resolve f = .ok code ↔ t.codeFor? ext = some code) ∧
      ((∃ code, t.resolve f = .ok code) ↔ ext ∈ t.allowed) ∧
      (ext ∉ t.allowed → t.resolve f = .error (.unsupportedExtension ext t.allowed)) := by
  intro t
  have ht : t.IsIndexed := isIndexed_afterAll changes
  refine ⟨ht.reindex_eq, hasDistinctCodes_afterAll changes, fun ext code => codeFor?_eq_some_iff ht,
    fun ext => codeFor?_eq_none_iff ht, ?_, fun ext => mem_allowed_iff ht, ?_⟩
  · exact List.pairwise_map.2 ((sorted_allowed ht).imp Bytes.ofText_lt_ofText)
  · intro f
    refine ⟨exists_isEnding f.name, fun ext hext => ⟨fun code => resolve_eq_ok_iff hext, ?_, ?_⟩⟩
    · simp only [resolve_eq_ok_iff hext]
      exact Index.mem_keys_iff.symm
    · intro hnot
      rw [resolve_of_isEnding t hext, show t.codeFor? ext = none from Index.get?_eq_none_iff.2 hnot]

/-- A remote project that only answers what its formats are. -/
def answering (formats : Except Error (List Format)) : Service where
  findPage _ _ _ := .ok none
  pages _ _ _ := .ok []
  upload _ _ _ _ := .ok ⟨[], []⟩
  append _ _ _ _ := .ok ()
  update _ _ _ _ := .ok ()
  download _ _ _ := .ok []
  formats _ := formats

/-- A code given twice, the second time without extensions; a failure; a code of the table. -/
def contested : List Change :=
  [.merge [.ofStrings "resx" ["resx", "yml"], .ofStrings "resx" []],
    .ask (answering (.error (.service []))) ⟨⟨[], []⟩, {}, [], []⟩,
    .ask (answering (.ok [.ofStrings "YAML" ["yml", "yml"]])) ⟨⟨[], []⟩, {}, [], []⟩]

theorem afterAll_exact_contested :
    let t := builtin.afterAll contested
    t.resolve (englishFile "a/b.yml") = .ok "YAML".toList ∧
    t.resolve (englishFile "a.d/b.resx") =
      .error (.unsupportedExtension "resx".toList t.allowed) := by
  intro t
  have hexact := (afterAll_exact contested).2.2.2.2.2.2
  have hyml : IsEnding (englishFile "a/b.yml").name "yml".toList :=
    .inl ⟨"b".toList, by decide, by decide⟩
  have hresx : IsEnding (englishFile "a.d/b.resx").name "resx".toList :=
    .inl ⟨"b".toList, by decide, by decide⟩
  exact ⟨(((hexact _).2 _ hyml).1 _).2 (by decide), ((hexact _).2 _ hresx).2.2 (by decide)⟩

end FormatTable

end LocaleSync
