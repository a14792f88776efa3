/-
Different languages go to different places. The paths that a pattern has for two languages have the
same shape, because where they differ a code stands in both (`sameShape_flatMap`), so with the same
steps they have the same text. From the same text follows the same code: codes of different lengths
make texts of different lengths, and codes of one length stand at the same places
(`code_eq_of_flatMap_eq`).

A destination has the steps that its pattern spells, as long as no `..` is among them
(`steps_destination`).
-/
import LocaleSync.Proofs.Path.Position
import LocaleSync.Proofs.Path.Shape
import LocaleSync.Proofs.Template
import Mathlib.Data.List.Forall2

namespace LocaleSync

namespace Path

/-! ## Paths without `..` -/

theorem foldl_collapseStep_normal (names collected : List Text) :
    (names.map Component.normal).foldl collapseStep collected = names.reverse ++ collected := by
  induction names generalizing collected with
  | nil => rfl
  | cons name names ih =>
    rw [List.map_cons, List.foldl_cons, ih]
    simp [collapseStep]

theorem exists_names_of_up_not_mem {pieces : List Text} (hslash : ∀ piece ∈ pieces, '/' ∉ piece)
    (h : .up ∉ pieces.filterMap component?) :
    ∃ names : List Text, (∀ name ∈ names, IsName name) ∧
      pieces.filterMap component? = names.map .normal := by
  induction pieces with
  | nil => exact ⟨[], by simp, rfl⟩
  | cons piece pieces ih =>
    have hrest : ∀ piece ∈ pieces, '/' ∉ piece := fun q hq => hslash q (by simp [hq])
    cases hc : component? piece with
    | none =>
      rw [List.filterMap_cons_none hc] at h ⊢
      exact ih hrest h
    | some c =>
      rw [List.filterMap_cons_some hc, List.mem_cons, not_or] at h
      obtain ⟨names, hnames, he⟩ := ih hrest h.2
      rcases component?_eq_some hc with rfl | rfl
      · exact absurd rfl h.1
      · have hpiece : IsName piece := isName_iff.2 ⟨hslash piece (by simp), hc⟩
        refine ⟨piece :: names, by simpa using ⟨hpiece, hnames⟩, ?_⟩
        rw [List.filterMap_cons_some hc, he, List.map_cons]

/-- **Collapsing keeps the steps of a path without `..`.** -/
theorem steps_collapse {p : Path} (h : .up ∉ p.steps) : p.collapse.steps = p.steps := by
  have hup : .up ∉ (Text.splitOn '/' p.text).filterMap component? :=
    fun hm => h (List.mem_append_right _ hm)
  obtain ⟨names, hnames, he⟩ :=
    exists_names_of_up_not_mem (fun piece => Text.not_mem_of_mem_splitOn) hup
  have hsteps : p.steps = (if p.isAbsolute then [.root] else []) ++ names.map .normal := by
    rw [steps, he]
  have hfold : p.components.foldl collapseStep [] = names.reverse := by
    rw [foldl_components (fun _ => rfl), hsteps, List.foldl_append]
    cases p.isAbsolute <;> exact (foldl_collapseStep_normal names []).trans (List.append_nil _)
  have hcollapse : p.collapse = ofPieces p.isAbsolute names := by
    rw [collapse, hfold, List.reverse_reverse]
    cases p.isAbsolute <;> rfl
  rw [hcollapse, steps_ofPieces fun name hm => (hnames name hm).isSolid,
    filterMap_component?_names hnames, hsteps]

theorem up_not_mem_seenFrom {p : Path} (base : Path) (h : .up ∉ p.steps) :
    .up ∉ (p.seenFrom base).steps := by
  unfold seenFrom
  by_cases hp : p.isAbsolute = true
  · rw [if_pos hp]
    cases hr : p.strip? base with
    | none => exact h
    | some r =>
      rcases steps_strip? hp hr with ⟨-, hs⟩ | ⟨-, hs⟩
      · exact hs ▸ h
      · rw [hs, List.mem_append, not_or] at h
        exact h.2
  · rwa [if_neg hp]

theorem steps_join_collapse (base : Path) {p : Path} (h : .up ∉ p.steps) :
    (base.join p.collapse).steps = (base.join p).steps := by
  by_cases ha : p.isAbsolute = true
  · rw [steps_join_absolute base (p.isAbsolute_collapse.trans ha), steps_join_absolute base ha,
      steps_collapse h]
  · have hrel := Bool.eq_false_iff.2 ha
    rw [steps_join base (p.isAbsolute_collapse.trans hrel), steps_join base hrel, steps_collapse h]

theorem SameShape.eq_of_steps_join {t u : Text} (h : SameShape t u) {base : Path}
    (hsteps : (base.join ⟨t⟩).steps = (base.join ⟨u⟩).steps) : t = u := by
  by_cases ha : isAbsolute ⟨t⟩ = true
  · rw [steps_join_absolute base ha, steps_join_absolute base (h.isAbsolute_eq ▸ ha)] at hsteps
    exact h.eq_of_steps hsteps
  · have hrel := Bool.eq_false_iff.2 ha
    rw [steps_join base hrel, steps_join base (h.isAbsolute_eq ▸ hrel),
      List.append_cancel_left_eq] at hsteps
    exact h.eq_of_steps hsteps

end Path

/-- A language with a code that is not empty and has neither a separator nor a dot. -/
structure Language.HasPlainCode (l : Language) : Prop where
  ne_nil : l.code ≠ []
  slash_not_mem : '/' ∉ l.code
  dot_not_mem : '.' ∉ l.code

theorem Language.HasPlainCode.isName {l : Language} (h : l.HasPlainCode) : Path.IsName l.code :=
  Path.isName_of_not_mem h.ne_nil h.slash_not_mem h.dot_not_mem

namespace PullPattern

open LocaleSync.Path (SameShape)

/-! ## Rendering for two languages -/

/-- `<language_code>` is the only placeholder of a language. -/
def HasOnlyCode (segs : List Segment) : Prop :=
  ∀ v ∈ Placeholder.ofLanguage, .placeholder v ∈ segs → v = .code

theorem HasOnlyCode.tail {s : Segment} {segs : List Segment} (h : HasOnlyCode (s :: segs)) :
    HasOnlyCode segs :=
  fun v hv hm => h v hv (by simp [hm])

/-- Any other segment is the same for all languages. -/
theorem HasOnlyCode.renderSegment_eq {s : Segment} {segs : List Segment}
    (h : HasOnlyCode (s :: segs)) (hs : s ≠ .placeholder .code) (l m : Language) (ext : Text) :
    renderSegment l ext s = renderSegment m ext s := by
  cases s with
  | literal t => rfl
  | placeholder v =>
    have hv : v ∉ Placeholder.ofLanguage := fun hm => hs (congrArg _ (h v hm (by simp)))
    cases v with
    | extension => rfl
    | code | name | nameCapitalized | nameUppercased | lang => exact absurd (by decide) hv

section

variable {segs : List Segment} {l m : Language} {ext : Text}

theorem sameShape_flatMap (h : HasOnlyCode segs) (hl : l.HasPlainCode) (hm : m.HasPlainCode) :
    SameShape (segs.flatMap (renderSegment l ext)) (segs.flatMap (renderSegment m ext)) := by
  induction segs with
  | nil => exact Path.sameShape_nil
  | cons s segs ih =>
    rw [List.flatMap_cons, List.flatMap_cons]
    by_cases hs : s = .placeholder .code
    · subst hs
      exact (ih h.tail).name_append hl.isName hm.isName
    · rw [h.renderSegment_eq hs l m ext]
      exact (ih h.tail).append_left _

/-- Each occurrence of a code adds its length. -/
theorem length_flatMap_add (h : HasOnlyCode segs) (l m : Language) (ext : Text) :
    (segs.flatMap (renderSegment l ext)).length +
        segs.count (.placeholder .code) * m.code.length =
      (segs.flatMap (renderSegment m ext)).length +
        segs.count (.placeholder .code) * l.code.length := by
  induction segs with
  | nil => simp
  | cons s segs ih =>
    have ih := ih h.tail
    rw [List.flatMap_cons, List.flatMap_cons, List.length_append, List.length_append]
    by_cases hs : s = .placeholder .code
    · subst hs
      rw [List.count_cons_self, Nat.succ_mul, Nat.succ_mul]
      change l.code.length + _ + _ = m.code.length + _ + _
      omega
    · rw [List.count_cons_of_ne hs, h.renderSegment_eq hs l m ext]
      omega

/-- **From the same path for two languages follows the same code.** -/
theorem code_eq_of_flatMap_eq (h : HasOnlyCode segs) (hcode : .placeholder .code ∈ segs)
    (he : segs.flatMap (renderSegment l ext) = segs.flatMap (renderSegment m ext)) :
    l.code = m.code := by
  have hlength : l.code.length = m.code.length := by
    have hadd := length_flatMap_add h l m ext
    rw [he, Nat.add_left_cancel_iff] at hadd
    exact (Nat.eq_of_mul_eq_mul_left (List.count_pos_iff.2 hcode) hadd).symm
  -- Up to the first occurrence of the code the texts are the same, and so they are behind it.
  induction segs with
  | nil => cases hcode
  | cons s segs ih =>
    rw [List.flatMap_cons, List.flatMap_cons] at he
    by_cases hs : s = .placeholder .code
    · subst hs
      exact List.append_inj_left he hlength
    · rw [h.renderSegment_eq hs l m ext] at he
      refine ih h.tail ?_ (List.append_cancel_left he)
      simpa [Ne.symm hs] using hcode

end

/-! ## Destinations of two languages -/

/-- **A destination has the steps that its pattern spells**, if there is no `..` among them. -/
theorem steps_destination {p : PullPattern} {l : Language} {name? : Option Text}
    (h : .up ∉ Path.components ⟨p.render l name?⟩) (base : Path) :
    (p.destination base l name?).fullPath.steps = (base.join ⟨p.render l name?⟩).steps := by
  have hup : .up ∉ Path.steps ⟨p.render l name?⟩ := by
    rw [Path.steps_eq_filter]
    exact fun hm => h (List.mem_of_mem_filter hm)
  rw [← Path.steps_join_seenFrom]
  exact Path.steps_join_collapse base (Path.up_not_mem_seenFrom base hup)

/-- **Languages with different codes have different destinations**, whatever the directory and the
name of the file that is pulled, in every pattern that has `<language_code>` and no other
placeholder of a language. -/
theorem destination_components_ne {p : PullPattern}
    (hcodes : ∀ v ∈ Placeholder.ofLanguage, v.token <:+: p.raw → v = .code) {l m : Language}
    (hne : l.code ≠ m.code) (hl : l.HasPlainCode) (hm : m.HasPlainCode) (name? : Option Text)
    (hlup : .up ∉ Path.components ⟨p.render l name?⟩)
    (hmup : .up ∉ Path.components ⟨p.render m name?⟩) (base : Path) :
    (p.destination base l name?).fullPath.components ≠
      (p.destination base m name?).fullPath.components := by
  have honly : HasOnlyCode (Template.segments p.raw) :=
    fun v hv hmem => hcodes v hv (Template.placeholder_mem_segments_iff.1 hmem)
  have hcode : .placeholder .code ∈ Template.segments p.raw := by
    obtain ⟨v, hv, hinfix⟩ := Template.mentions_iff.1 p.valid
    exact hcodes v hv hinfix ▸ Template.placeholder_mem_segments_iff.2 hinfix
  intro hcomponents
  have hsteps : (base.join ⟨p.render l name?⟩).steps = (base.join ⟨p.render m name?⟩).steps := by
    rw [← steps_destination hlup base, ← steps_destination hmup base, Path.steps_eq_filter,
      hcomponents, ← Path.steps_eq_filter]
  have hshape : SameShape (p.render l name?) (p.render m name?) := sameShape_flatMap honly hl hm
  exact hne (code_eq_of_flatMap_eq honly hcode (hshape.eq_of_steps_join hsteps))

/-- A pattern for files outside of the project. -/
def besideProject : PullPattern where
  raw := "/w/<language_code>/./x.<language_code><extension>".toList
  valid := by decide

/-- Only one of these two destinations lies in the project's directory. -/
theorem destination_components_ne_beside :
    (besideProject.destination (.ofString "/w/en") ⟨1, "en".toList, "English".toList, .ltr⟩
        (some "a.json".toList)).fullPath.components ≠
      (besideProject.destination (.ofString "/w/en") ⟨2, "de".toList, "German".toList, .ltr⟩
        (some "a.json".toList)).fullPath.components :=
  destination_components_ne (by decide) (by decide) ⟨by decide, by decide, by decide⟩
    ⟨by decide, by decide, by decide⟩ _ (by decide) (by decide) _

end PullPattern

end LocaleSync
