/-
What the name of a page decides about the file it is pulled to. In a pattern that ends with its only
`<extension>` the name comes in through its extension alone, and an extension is a piece of a file
name (`not_mem_of_extension?`). So the path text is a front that the language decides, and behind it
a dot and the extension or nothing (`IsExtended.render_eq`). As long as the last piece of that front
is a name by itself, whatever stands behind it only makes the name longer: the directory is the same
for all pages (`destination_of_page_name`).
-/
import LocaleSync.Proofs.Path.Parent
import LocaleSync.Proofs.Path.Position
import LocaleSync.Proofs.Template.Normal

namespace LocaleSync

/-! ## Extensions -/

namespace Text

theorem afterLast?_eq_none_iff {sep : Char} {t : Text} : afterLast? sep t = none ↔ sep ∉ t := by
  induction t with
  | nil => simp [afterLast?]
  | cons c t ih =>
    rw [afterLast?, List.mem_cons, not_or, ← ih]
    cases afterLast? sep t with
    | some rest => simp
    | none => by_cases hc : c = sep <;> simp [hc, Ne.symm]

theorem eq_append_of_afterLast? {sep : Char} {t rest : Text} (h : afterLast? sep t = some rest) :
    (∃ before, t = before ++ sep :: rest) ∧ sep ∉ rest := by
  induction t generalizing rest with
  | nil => cases h
  | cons c t ih =>
    rw [afterLast?] at h
    cases ht : afterLast? sep t with
    | some other =>
      rw [ht] at h
      cases h
      obtain ⟨⟨before, rfl⟩, hsep⟩ := ih ht
      exact ⟨⟨c :: before, rfl⟩, hsep⟩
    | none =>
      rw [ht] at h
      have hc : c = sep := by
        by_contra hne
        simp [hne] at h
      subst hc
      have hrest : t = rest := by simpa using h
      exact ⟨⟨[], by rw [hrest]; rfl⟩, hrest ▸ afterLast?_eq_none_iff.1 ht⟩

end Text

namespace Path

/-- An extension is a piece of a file name behind its last dot. -/
theorem not_mem_of_extension? {p : Path} {ext : Text} (h : p.extension? = some ext) :
    '/' ∉ ext ∧ '.' ∉ ext := by
  simp only [extension?, Option.bind_eq_bind, Option.bind_eq_some_iff] at h
  obtain ⟨name, hname, rest, hrest, he⟩ := h
  obtain rfl : rest = ext := by
    by_contra hne
    split at he <;> simp_all
  obtain ⟨⟨before, rfl⟩, hdot⟩ := Text.eq_append_of_afterLast? hrest
  refine ⟨fun hm => (isName_of_fileName? hname).slash_not_mem ?_, hdot⟩
  simp [hm]

end Path

namespace PullPattern

theorem slash_not_mem_dottedExtension (name? : Option Text) : '/' ∉ dottedExtension name? := by
  unfold dottedExtension
  split
  next ext h =>
    obtain ⟨name, -, hext⟩ := Option.bind_eq_some_iff.1 h
    simpa using (Path.not_mem_of_extension? hext).1
  next => simp

/-! ## The rendered path -/

/-- A pattern that ends with its only `<extension>`, and the text before it. -/
structure IsExtended (p : PullPattern) (front : Text) : Prop where
  raw : p.raw = front ++ Placeholder.extension.token
  once : ¬ Placeholder.extension.token <:+: front

/-- The path text for a language of a template without `<extension>`. -/
def renderFront (front : Text) (l : Language) : Text :=
  (Template.segments front).flatMap (renderSegment l [])

/-- **A path is a front that the language decides and an extension that the page decides.** -/
theorem IsExtended.render_eq {p : PullPattern} {front : Text} (h : p.IsExtended front)
    (l : Language) (name? : Option Text) :
    p.render l name? = renderFront front l ++ dottedExtension name? := by
  have hsegs : Template.segments p.raw =
      Template.segments front ++ [.placeholder .extension] := by
    rw [h.raw, ← List.append_nil Placeholder.extension.token, Template.segments_append_token]
    rfl
  have hends : p.endsWithExtension = true := by simp [endsWithExtension, hsegs]
  have hfront (ext : Text) :
      (Template.segments front).flatMap (renderSegment l ext) = renderFront front l := by
    refine List.flatMap_congr fun s hs => ?_
    have hne : s ≠ .placeholder .extension := by
      rintro rfl
      exact h.once (Template.placeholder_mem_segments_iff.1 hs)
    rcases s with t | v
    · rfl
    · cases v with
      | extension => exact absurd rfl hne
      | code | name | nameCapitalized | nameUppercased | lang => rfl
  rw [render, hends, hsegs, if_pos rfl, List.flatMap_append, hfront]
  simp [renderSegment, Placeholder.value?]

end PullPattern

/-! ## Paths that differ in the last name -/

namespace Path

theorem isAbsolute_eq_of_concat {p q : Path} {before : List Text} {x y : Text}
    (hp : Text.splitOn '/' p.text = before ++ [x]) (hq : Text.splitOn '/' q.text = before ++ [y]) :
    p.isAbsolute = q.isAbsolute := by
  -- Either there is one piece and no separator, or both begin with the same piece.
  cases before <;> rw [isAbsolute_eq_of_splitOn hp, isAbsolute_eq_of_splitOn hq] <;> simp

/-- Collapsing a relative path that ends in a name leaves the name at the end, and what stands
before it follows from the steps before it. -/
theorem exists_collapse_concat (before : List Component) :
    ∃ pieces : List Text, ∀ (p : Path) (name : Text), p.isAbsolute = false →
      p.steps = before ++ [.normal name] →
        (∀ piece ∈ pieces, IsSolid piece) ∧ p.collapse = ofPieces false (pieces ++ [name]) := by
  let s := before.foldl Position.step .origin
  refine ⟨dots (decide (s.ups % 2 = 1)) ++ s.names.reverse, fun p name hrel hsteps => ?_⟩
  have hposition : p.position = s.step (.normal name) := by
    rw [position_eq_foldl_steps, hsteps, List.foldl_append, List.foldl_cons, List.foldl_nil]
  have hups : p.position.ups = s.ups := by
    rw [hposition]
    rfl
  have hnames : p.position.names = name :: s.names := by
    rw [hposition]
    rfl
  constructor
  · apply isSolid_dots_append
    intro other hm
    apply isName_of_mem_names (p := p)
    rw [hnames]
    exact List.mem_cons_of_mem _ (List.mem_reverse.1 hm)
  · obtain ⟨odd, hodd, hcollapse⟩ := p.collapse_eq_ofPieces
    rw [hcollapse, hrel, hodd hrel, hups, hnames, List.reverse_cons, List.append_assoc]

/-- Where a path of pieces is joined to another path, the last piece stays the last one. -/
theorem exists_splitOn_join (base : Path) {pieces : List Text}
    (h : ∀ piece ∈ pieces, IsSolid piece) :
    ∃ front, ∀ name, IsName name →
      Text.splitOn '/' (base.join (ofPieces false (pieces ++ [name]))).text = front ++ [name] := by
  have hsolid (name : Text) (hname : IsName name) : ∀ piece ∈ pieces ++ [name], IsSolid piece := by
    simpa [or_imp, forall_and] using ⟨h, hname.isSolid⟩
  have hsplit (name : Text) (hname : IsName name) :
      Text.splitOn '/' (ofPieces false (pieces ++ [name])).text = pieces ++ [name] :=
    splitOn_ofPieces_concat h hname.isSolid
  by_cases hbase : base.text = []
  · refine ⟨pieces, fun name hname => ?_⟩
    rw [join, isAbsolute_ofPieces (hsolid name hname), hbase]
    exact hsplit name hname
  · obtain ⟨front, -, -, -, -, hjoin⟩ := splitOn_join hbase
    refine ⟨front ++ pieces, fun name hname => ?_⟩
    rw [(hjoin _ (isAbsolute_ofPieces (hsolid name hname))).2, hsplit name hname,
      List.append_assoc]

end Path

namespace PullPattern

/-! ## Destinations of pages -/

/-- All files of a language that differ in the page go to one directory, each under the stem with an
extension. -/
theorem exists_relative_destination {p : PullPattern} {front : Text} (h : p.IsExtended front)
    {l : Language} {stem : Text}
    (hstem : (Text.splitOn '/' (renderFront front l)).getLast? = some stem)
    (hname : Path.IsName stem) {name? : Option Text}
    (hrel : Path.isAbsolute ⟨p.render l name?⟩ = false) :
    ∃ pieces : List Text, (∀ piece ∈ pieces, Path.IsSolid piece) ∧
      ∀ (base : Path) (other? : Option Text), (p.destination base l other?).relative =
        Path.ofPieces false (pieces ++ [stem ++ dottedExtension other?]) := by
  obtain ⟨before, hsplit⟩ := List.getLast?_eq_some_iff.1 hstem
  have hpieces (other? : Option Text) : Text.splitOn '/' (p.render l other?) =
      before ++ [stem ++ dottedExtension other?] := by
    rw [h.render_eq]
    exact Text.splitOn_append_last hsplit (slash_not_mem_dottedExtension other?)
  have hrelative (other? : Option Text) : Path.isAbsolute ⟨p.render l other?⟩ = false := by
    rw [← hrel]
    exact Path.isAbsolute_eq_of_concat (hpieces other?) (hpieces name?)
  have hsteps (other? : Option Text) : Path.steps ⟨p.render l other?⟩ =
      before.filterMap Path.component? ++ [.normal (stem ++ dottedExtension other?)] := by
    have hlong := (hname.append (slash_not_mem_dottedExtension other?)).component?
    rw [Path.steps_relative (hrelative other?), hpieces, List.filterMap_append,
      List.filterMap_cons_some hlong, List.filterMap_nil]
  obtain ⟨pieces, hcollapse⟩ := Path.exists_collapse_concat (before.filterMap Path.component?)
  refine ⟨pieces, (hcollapse _ _ (hrelative name?) (hsteps name?)).1, fun base other? => ?_⟩
  have hself : (p.destination base l other?).relative = Path.collapse ⟨p.render l other?⟩ := by
    change Path.relativeTo ⟨p.render l other?⟩ base = _
    rw [Path.relativeTo, hrelative other?]
    rfl
  rw [hself, (hcollapse _ _ (hrelative other?) (hsteps other?)).2]

/-- **The name of a page decides the extension of a file and nothing else.** Whatever it holds, the
file lies in the same directory, and its name is the last piece that the pattern spells, alone or
with a dot and the extension of the page's name. -/
theorem destination_of_page_name {p : PullPattern} {front : Text} (h : p.IsExtended front)
    {l : Language} {stem : Text}
    (hstem : (Text.splitOn '/' (renderFront front l)).getLast? = some stem)
    (hname : stem ≠ [] ∧ stem ≠ ['.'] ∧ stem ≠ ['.', '.']) {name? : Option Text}
    (hrel : Path.isAbsolute ⟨p.render l name?⟩ = false) (base : Path) :
    (∃ directory : Path, ∀ page : Text, ∃ name : Text,
      name = stem ++ (Path.extension? ⟨page⟩).elim [] ('.' :: ·) ∧
      (p.destination base l (some page)).name = name ∧
      (p.destination base l (some page)).fullPath.parent? = some directory ∧
      (p.destination base l (some page)).fullPath.components =
        directory.components ++ [.normal name]) ∧
    ∀ page₁ page₂ : Text, Path.extension? ⟨page₁⟩ = Path.extension? ⟨page₂⟩ →
      p.destination base l (some page₁) = p.destination base l (some page₂) := by
  have hslash : '/' ∉ stem := Text.not_mem_of_mem_splitOn (List.mem_of_getLast? hstem)
  have hstemName : Path.IsName stem := Path.isName_iff_ne.2 ⟨hslash, hname⟩
  have hext (page : Text) :
      dottedExtension (some page) = (Path.extension? ⟨page⟩).elim [] ('.' :: ·) := by
    rw [dottedExtension, Option.bind_some]
    cases Path.extension? ⟨page⟩ <;> rfl
  have hlong (page : Text) :
      Path.IsName (stem ++ (Path.extension? ⟨page⟩).elim [] ('.' :: ·)) := by
    rw [← hext]
    exact hstemName.append (slash_not_mem_dottedExtension (some page))
  obtain ⟨pieces, hsolid, hpieces⟩ := exists_relative_destination h hstem hstemName hrel
  have hrelative (page : Text) : (p.destination base l (some page)).relative =
      Path.ofPieces false (pieces ++ [stem ++ (Path.extension? ⟨page⟩).elim [] ('.' :: ·)]) := by
    rw [hpieces, hext]
  obtain ⟨front, hfront⟩ := Path.exists_splitOn_join base hsolid
  obtain ⟨directory, hdirectory⟩ := Path.exists_parent front
  refine ⟨⟨directory, fun page => ⟨_, rfl, ?_, ?_⟩⟩, fun page₁ page₂ he => ?_⟩
  · rw [LocaleFile.name_eq, hrelative, Path.fileName?_ofPieces hsolid (hlong page), Option.getD_some]
  · apply hdirectory _ _ _ (hlong page)
    rw [LocaleFile.fullPath, hrelative]
    exact hfront _ (hlong page)
  · have hrender : p.render l (some page₁) = p.render l (some page₂) := by
      rw [h.render_eq, h.render_eq, hext, hext, he]
    exact LocaleFile.ext (congrArg (fun t => Path.relativeTo ⟨t⟩ base) hrender) rfl rfl

/-- A pattern that leaves the project's directory, with a file name of its own. -/
def aboveProject : PullPattern where
  raw := "../<language_name>/x.<language_code><extension>".toList
  valid := by decide

/-- A page that is named for a file elsewhere. -/
theorem destination_of_page_name_elsewhere :
    (aboveProject.destination (.ofString "/w/p") ⟨1, "en".toList, "A/../B".toList, .ltr⟩
        (some "../../etc/job.sh".toList)).name = "x.en.sh".toList ∧
    (aboveProject.destination (.ofString "/w/p") ⟨1, "en".toList, "A/../B".toList, .ltr⟩
        (some "../../etc/job.sh".toList)).fullPath.parent? =
      (aboveProject.destination (.ofString "/w/p") ⟨1, "en".toList, "A/../B".toList, .ltr⟩
        (some "..".toList)).fullPath.parent? := by
  have hextended : aboveProject.IsExtended "../<language_name>/x.<language_code>".toList :=
    ⟨by decide, by decide⟩
  have hstem : (Text.splitOn '/' (renderFront "../<language_name>/x.<language_code>".toList
      ⟨1, "en".toList, "A/../B".toList, .ltr⟩)).getLast? = some "x.en".toList := by decide
  have hrel : Path.isAbsolute
      ⟨aboveProject.render ⟨1, "en".toList, "A/../B".toList, .ltr⟩ none⟩ = false := by decide
  obtain ⟨⟨directory, hpage⟩, -⟩ :=
    destination_of_page_name hextended hstem (by decide) hrel (.ofString "/w/p")
  obtain ⟨_, rfl, hname, hparent, -⟩ := hpage "../../etc/job.sh".toList
  obtain ⟨_, -, -, hother, -⟩ := hpage "..".toList
  exact ⟨hname.trans (by decide), hparent.trans hother.symm⟩

end PullPattern

end LocaleSync
