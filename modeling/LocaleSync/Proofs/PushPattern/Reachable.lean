/-
Which push patterns recognize anything. What a pattern matches has the shape of the pattern itself
(`IsCut.sameShape`): a placeholder and its piece are both parts of names, and a literal differs from
its piece in the case of letters only. The paths that are matched are spelled from their names, so a
pattern with an empty component, a `.` or a `..` matches none of them (`isName_of_recognize`). Any
other pattern matches itself, with a word in the place of each placeholder it can read back
(`exists_recognize`).

`exists_recognize_iff` joins the two and says what follows for validation and discovery.
-/
import LocaleSync.Config
import LocaleSync.Proofs.Discovery
import LocaleSync.Proofs.Path.Shape
import LocaleSync.Proofs.RoundTrip
import LocaleSync.Proofs.Text.Letters

namespace LocaleSync

namespace PushPattern

open LocaleSync.Path (IsName SameShape)

/-! ## The shape of what is matched -/

theorem IsWords.isName {x : Text} (h : IsWords x) : IsName x :=
  Path.isName_of_not_mem h.1 (fun hm => absurd (h.2 _ hm) (by decide))
    fun hm => absurd (h.2 _ hm) (by decide)

theorem IsCode.isName {x : Text} (h : IsCode x) : IsName x := by
  obtain ⟨a, b, c, d, rfl, ha, hb, hc, hd⟩ := h
  have hne {e : Char} (he : isWord e = false) (hdash : e ≠ '-') : e ∉ [a, b, '-', c, d] := by
    intro hm
    simp only [List.mem_cons, List.not_mem_nil, or_false] at hm
    rcases hm with rfl | rfl | rfl | rfl | rfl <;> simp_all
  exact Path.isName_of_not_mem (by simp) (hne (by decide) (by decide))
    (hne (by decide) (by decide))

theorem isName_token (v : Placeholder) : IsName v.token := by
  cases v <;> decide

/-- Letters are no separators and no dots, so their case does not matter to the shape. -/
theorem sameShape_letters_append {a b t u : Text} (hab : SameLetters a b) (h : SameShape t u) :
    SameShape (a ++ t) (b ++ u) := by
  induction a generalizing b with
  | nil =>
    have hb : b = [] := List.map_eq_nil_iff.1 hab.symm
    rw [hb]
    exact h
  | cons c a ih =>
    obtain ⟨d, b, rfl, hd, hrest⟩ := List.map_eq_cons_iff.1 hab.symm
    have hnext : SameShape (a ++ t) (b ++ u) := ih hrest.symm
    by_cases hcd : c = d
    · rw [hcd]
      exact hnext.cons d
    · have hother {e : Char} (he : e.isAlpha = false) : e ∉ [c] ∧ e ∉ [d] := by
        have hiff : c = e ↔ d = e := by
          rw [← Text.toLower_eq_iff he, ← hd, Text.toLower_eq_iff he]
        simp only [List.mem_singleton]
        exact ⟨fun h => hcd (h.symm.trans (hiff.1 h.symm).symm),
          fun h => hcd ((hiff.2 h.symm).trans h)⟩
      obtain ⟨hcslash, hdslash⟩ := hother (e := '/') rfl
      obtain ⟨hcdot, hddot⟩ := hother (e := '.') rfl
      exact hnext.name_append (Path.isName_of_not_mem (by simp) hcslash hcdot)
        (Path.isName_of_not_mem (by simp) hdslash hddot)

theorem Fits.sameShape {s : Segment} {x t u : Text} (hx : Fits s x) (h : SameShape t u) :
    SameShape (s.text ++ t) (x ++ u) := by
  cases s with
  | literal w => exact sameShape_letters_append hx h
  | placeholder v =>
    cases v with
    | code => exact h.name_append (isName_token .code) (IsCode.isName hx)
    | lang => exact h.name_append (isName_token .lang) (IsWords.isName hx)
    | name | nameCapitalized | nameUppercased | extension => exact sameShape_letters_append hx h

/-- **What is cut for segments has the shape of their text.** -/
theorem IsCut.sameShape {segs : List Segment} {t : Text} {pieces : List Text}
    (h : IsCut segs t pieces) : SameShape (Template.text segs) t := by
  induction segs generalizing t pieces with
  | nil =>
    rw [(isCut_nil_iff.1 h).1]
    exact Path.sameShape_nil
  | cons s segs ih =>
    obtain ⟨x, rest, u, -, rfl, hx, hrest⟩ := isCut_cons_iff.1 h
    rw [Template.text_cons]
    exact hx.sameShape (ih hrest)

/-! ## Values that are read back -/

theorem exists_cut? {segs : List Segment} {t : Text} {pieces : List Text}
    (h : IsCut segs t pieces) : ∃ found, cut? segs t = some found ∧ IsCut segs t found := by
  have hbest := isBest_cut? segs t
  cases hc : cut? segs t with
  | none =>
    rw [hc] at hbest
    exact absurd h (hbest pieces)
  | some found =>
    rw [hc] at hbest
    exact ⟨found, rfl, hbest.cut⟩

/-- The value of a placeholder that can be read back is not empty. -/
theorem exists_captured? {segs : List Segment} {pieces : List Text}
    (h : List.Forall₂ Fits segs pieces) {v : Placeholder} (hv : v ∈ Placeholder.recoverable)
    (hm : .placeholder v ∈ segs) :
    ∃ x ∈ pieces, captured? segs pieces v = some x ∧ x ≠ [] := by
  obtain ⟨x, hx⟩ := Option.isSome_iff_exists.1 ((captured?_isSome_iff h v).2 hm)
  obtain ⟨before, after, xs, ys, rfl, rfl, hlen, -⟩ := isFirstPiece_of_captured? hx
  refine ⟨x, by simp, hx, ?_⟩
  have hfits : Fits (.placeholder v) x := by
    have hdrop := List.forall₂_drop before.length h
    rw [List.drop_left, ← hlen, List.drop_left] at hdrop
    exact (List.forall₂_cons.1 hdrop).1
  simp only [Placeholder.recoverable, List.mem_cons, List.not_mem_nil, or_false] at hv
  rcases hv with rfl | rfl
  · exact (IsCode.isName hfits).isSolid.ne_nil
  · exact (IsWords.isName hfits).isSolid.ne_nil

theorem exists_recoverable_mem_segments (p : PushPattern) :
    ∃ v ∈ Placeholder.recoverable, .placeholder v ∈ p.segments := by
  obtain ⟨v, hv, hinfix⟩ := Template.mentions_iff.1 p.valid
  exact ⟨v, hv, placeholder_mem_segments_slashed_iff.2 hinfix⟩

/-- A pattern that recognizes a path without backslashes is made of names. -/
theorem isName_of_recognize {p : PushPattern} {root path : Path} {r : Registry} {f : LocaleFile}
    (h : p.recognize root path r = .file f) (hpath : '\\' ∉ path.text) :
    ∀ piece ∈ Text.splitOn '/' (slashed p.raw), IsName piece := by
  obtain ⟨pieces, hcut⟩ := exists_isCut_of_recognize h
  have hplain : slashed path.posix = path.posix :=
    slashed_of_not_mem fun hm => hpath (Path.mem_text_of_mem_posix hm (by decide))
  rw [hplain] at hcut
  have hshape : SameShape (slashed p.raw) path.posix := by
    have hs := hcut.sameShape
    rwa [segments, Template.text_segments] at hs
  have hne : path.posix ≠ [] := by
    obtain ⟨v, hv, hm⟩ := p.exists_recoverable_mem_segments
    obtain ⟨x, hx, -, hxne⟩ := exists_captured? hcut.fits hv hm
    rw [← hcut.flatten]
    exact fun he => hxne (List.flatten_eq_nil_iff.1 he x hx)
  exact hshape.forall_isName (Path.isName_of_mem_splitOn_posix hne)

/-! ## A path for every pattern of names -/

/-- A piece for a segment: a code or a word where one is read back, else the segment itself. -/
def sample : Segment → Text
  | .placeholder .code => "aa-aa".toList
  | .placeholder .lang => ['a']
  | s => s.text

theorem fits_sample (s : Segment) : Fits s (sample s) := by
  cases s with
  | literal t => exact rfl
  | placeholder v =>
    cases v with
    | code => exact ⟨'a', 'a', 'a', 'a', rfl, by decide⟩
    | lang => exact ⟨List.cons_ne_nil _ _, List.forall_mem_singleton.2 (by decide)⟩
    | name | nameCapitalized | nameUppercased | extension => exact rfl

theorem isCut_sample (segs : List Segment) : IsCut segs (segs.flatMap sample) (segs.map sample) :=
  ⟨List.forall₂_map_right_iff.2 (List.forall₂_same.2 fun s _ => fits_sample s),
    List.flatMap_def.symm⟩

theorem backslash_not_mem_slashed (t : Text) : '\\' ∉ slashed t := by
  induction t with
  | nil => simp
  | cons c t ih =>
    rw [slashed_cons, List.mem_cons, not_or]
    refine ⟨?_, ih⟩
    split
    · decide
    · exact Ne.symm ‹_›

theorem backslash_not_mem_sample (p : PushPattern) : '\\' ∉ p.segments.flatMap sample := by
  intro hm
  obtain ⟨s, hs, hm⟩ := List.mem_flatMap.1 hm
  have htext : '\\' ∉ s.text := by
    intro hmem
    have hraw : '\\' ∈ Template.text p.segments := List.mem_flatMap.2 ⟨s, hs, hmem⟩
    rw [segments, Template.text_segments] at hraw
    exact backslash_not_mem_slashed p.raw hraw
  cases s with
  | literal t => exact htext hm
  | placeholder v => revert hm; cases v <;> decide

/-- A pattern of names recognizes a path, in a registry with the language that is read back. -/
theorem exists_recognize {p : PushPattern}
    (h : ∀ piece ∈ Text.splitOn '/' (slashed p.raw), IsName piece) (root : Path) :
    ∃ languages path, path.isAbsolute = false ∧ '\\' ∉ path.text ∧
      (p.recognize root path (.ofList languages)).file?.isSome := by
  have hcut := isCut_sample p.segments
  have hback := p.backslash_not_mem_sample
  generalize p.segments.flatMap sample = t at hcut hback
  have hnames : ∀ piece ∈ Text.splitOn '/' t, IsName piece := by
    have hshape := hcut.sameShape
    rw [segments, Template.text_segments] at hshape
    exact hshape.symm.forall_isName h
  -- Which cut is preferred is left open: the language is chosen to fit the value.
  obtain ⟨pieces, hfound, hpieces⟩ := exists_cut? hcut
  obtain ⟨v, hv, hm⟩ := p.exists_recoverable_mem_segments
  obtain ⟨x, -, hx, hne⟩ := exists_captured? hpieces.fits hv hm
  have htoken : x ∈ languageTokens (Placeholder.recoverable.filterMap fun v =>
      (captured? p.segments pieces v).map (v, ·)) := by
    rw [languageTokens_values, List.mem_filter]
    refine ⟨?_, by simpa using hne⟩
    simp only [Placeholder.recoverable, List.mem_cons, List.not_mem_nil, or_false] at hv
    rcases hv with rfl | rfl <;> simp [hx]
  let l : Language := ⟨1, x, [], .ltr⟩
  refine ⟨[l], ⟨t⟩, Path.isAbsolute_of_names hnames, hback, ?_⟩
  rw [file?_recognize, Option.isSome_map, Path.posix_of_names hnames, captures?_eq,
    slashed_of_not_mem hback, hfound, Option.map_some, Option.bind_some, List.findSome?_isSome_iff]
  exact ⟨x, htoken, Registry.find?_code_isSome (l := l) (by simp)⟩

end PushPattern

/-! ## Validation and discovery -/

/-- Of a push pattern only the placeholders are checked. -/
theorem Config.validate_pushPattern (c : Config) {raw : Text} {p : PushPattern}
    (h : PushPattern.compile raw = .ok p) :
    validate { c with pushPattern? := some raw } = validate { c with pushPattern? := none } := by
  simp only [validate, Option.forM, h]
  rfl

namespace PushPattern

/-- **A push pattern recognizes paths without backslashes exactly if all its components are
names.** Validation does not ask for this, and a pattern with other components discovers nothing
but files with backslashes in their paths. -/
theorem exists_recognize_iff {raw : Text} {p : PushPattern} (hp : compile raw = .ok p) :
    ((∃ languages root path, path.isAbsolute = false ∧ '\\' ∉ path.text ∧
        (p.recognize root path (.ofList languages)).file?.isSome) ↔
      ∀ piece ∈ Text.splitOn '/' (slashed raw), piece ≠ [] ∧ piece ≠ ['.'] ∧ piece ≠ ['.', '.']) ∧
    (∀ c : Config, ({ c with pushPattern? := some raw } : Config).validate =
      ({ c with pushPattern? := none } : Config).validate) ∧
    ((∃ piece ∈ Text.splitOn '/' (slashed raw), piece = [] ∨ piece = ['.'] ∨ piece = ['.', '.']) →
      ∀ s path r notes files notes', (p.discover s path r).run.run notes = (.ok files, notes') →
        ∀ f ∈ files, '\\' ∈ f.relative.text) := by
  obtain rfl := compile_eq_ok_iff.1 hp
  have hnames : (∀ piece ∈ Text.splitOn '/' (slashed p.raw), Path.IsName piece) ↔
      ∀ piece ∈ Text.splitOn '/' (slashed p.raw),
        piece ≠ [] ∧ piece ≠ ['.'] ∧ piece ≠ ['.', '.'] := by
    refine forall₂_congr fun piece hm => ?_
    rw [Path.isName_iff_ne, and_iff_right (Text.not_mem_of_mem_splitOn hm)]
  refine ⟨?_, fun c => c.validate_pushPattern hp, ?_⟩
  · rw [← hnames]
    constructor
    · intro h
      obtain ⟨languages, root, path, -, hpath, hfile⟩ := h
      obtain ⟨f, hf⟩ := Option.isSome_iff_exists.1 hfile
      exact isName_of_recognize (Recognition.eq_of_file?_eq_some hf) hpath
    · intro h
      obtain ⟨languages, path, hpath⟩ := exists_recognize h (.ofString "/")
      exact ⟨languages, _, path, hpath⟩
  · intro hbad s path r notes files notes' hrun f hf
    obtain ⟨piece, hm, hpiece⟩ := hbad
    obtain ⟨fs, -, hfiles⟩ := exists_of_run_discover hrun
    obtain ⟨q, -, hq⟩ := hfiles f hf
    rw [relative_of_recognize hq]
    by_contra hback
    obtain ⟨hnil, hdot, hdots⟩ := hnames.1 (isName_of_recognize hq hback) piece hm
    rcases hpiece with h | h | h
    · exact hnil h
    · exact hdot h
    · exact hdots h

/-- The settings of a project that only pushes. -/
def pushing (raw : Text) : Config :=
  { organizationId := 1, projectId := 1, pushPattern? := some raw }

/-- Patterns with a `.`, an empty component in front and an empty one at the end: they pass for
valid and recognize nothing. -/
theorem exists_recognize_iff_idle :
    (∃ p, compile "./i18n/<language_code>.json".toList = .ok p ∧
      (pushing "./i18n/<language_code>.json".toList).validate = .ok () ∧
      ¬ ∃ languages root path, path.isAbsolute = false ∧ '\\' ∉ path.text ∧
        (p.recognize root path (.ofList languages)).file?.isSome) ∧
    (∃ p, compile "/x/<language_code>".toList = .ok p ∧
      (pushing "/x/<language_code>".toList).validate = .ok () ∧
      ¬ ∃ languages root path, path.isAbsolute = false ∧ '\\' ∉ path.text ∧
        (p.recognize root path (.ofList languages)).file?.isSome) ∧
    ∃ p, compile "<language_code>/".toList = .ok p ∧
      (pushing "<language_code>/".toList).validate = .ok () ∧
      ¬ ∃ languages root path, path.isAbsolute = false ∧ '\\' ∉ path.text ∧
        (p.recognize root path (.ofList languages)).file?.isSome := by
  have hidle {raw : Text} (hmentions : Template.mentions raw Placeholder.recoverable = true)
      (hbad : [] ∈ Text.splitOn '/' (slashed raw) ∨ ['.'] ∈ Text.splitOn '/' (slashed raw)) :
      ∃ p, compile raw = .ok p ∧ (pushing raw).validate = .ok () ∧
        ¬ ∃ languages root path, path.isAbsolute = false ∧ '\\' ∉ path.text ∧
          (p.recognize root path (.ofList languages)).file?.isSome := by
    have hp : compile raw = .ok (ofText raw hmentions) := compile_ofText _
    obtain ⟨hiff, hvalid, -⟩ := exists_recognize_iff hp
    refine ⟨_, hp, hvalid (pushing raw), fun h => ?_⟩
    rcases hbad with hm | hm
    · exact (hiff.1 h _ hm).1 rfl
    · exact (hiff.1 h _ hm).2.1 rfl
  exact ⟨hidle (by decide) (by decide), hidle (by decide) (by decide),
    hidle (by decide) (by decide)⟩

end PushPattern

end LocaleSync
