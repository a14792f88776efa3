/-
Parents and names in them. The parent of a path that spells pieces spells them without the last one
(`parent?_ofPieces`), and joining a name to it spells the name in its place (`join_ofPieces`). What is
joined to a path can be taken off again (`strip?_ofPieces`). A file that gets another name stays at a
path of names behind one `..` or none (`isCollapsed_withName`). Of any path that ends in a name,
however it is spelled, the parent has the components before that name (`exists_parent_of_voids`).
-/
import LocaleSync.LocaleFile
import LocaleSync.Proofs.Path.Steps
import Mathlib.Data.List.TakeWhile

namespace LocaleSync

namespace Path

/-! ## The spelling of a parent -/

theorem trimEnd_concat (pieces : List Text) {piece : Text} (h : isVoid piece = false) :
    trimEnd (pieces ++ [piece]) = pieces ++ [piece] := by
  simp [trimEnd, h]

theorem eq_trimEnd_append (pieces : List Text) :
    ∃ voids, pieces = trimEnd pieces ++ voids ∧ ∀ piece ∈ voids, isVoid piece = true := by
  refine ⟨(pieces.reverse.takeWhile isVoid).reverse, ?_, fun piece hm => ?_⟩
  · rw [trimEnd, ← List.reverse_append, List.takeWhile_append_dropWhile, List.reverse_reverse]
  · exact List.mem_takeWhile_imp (List.mem_reverse.1 hm)

section voids

variable {p : Path} {first name : Text} {pieces voids : List Text}

theorem trimEnd_append_voids (hname : isVoid name = false)
    (hvoids : ∀ piece ∈ voids, isVoid piece = true) :
    trimEnd (pieces ++ name :: voids) = pieces ++ [name] := by
  have hdrop : ((pieces ++ name :: voids).reverse).dropWhile isVoid = name :: pieces.reverse := by
    rw [List.reverse_append, List.reverse_cons, List.append_assoc,
      List.dropWhile_append_of_pos (by simpa using hvoids), List.singleton_append,
      List.dropWhile_cons_of_neg (by simp [hname])]
  rw [trimEnd, hdrop, List.reverse_cons, List.reverse_reverse]

/-- The parent of a path whose last piece that names something has others before it. -/
theorem parent?_eq_spell_of_voids (h : Text.splitOn '/' p.text = first :: (pieces ++ name :: voids))
    (hname : isVoid name = false) (hvoids : ∀ piece ∈ voids, isVoid piece = true) :
    p.parent? = some (spell first (trimEnd pieces)) := by
  unfold parent?
  rw [h]
  simp only [trimEnd_append_voids hname hvoids]
  split
  next he => simp at he
  next => rw [List.dropLast_concat]

theorem parent?_eq_empty_of_voids (h : Text.splitOn '/' p.text = name :: voids)
    (hname : isVoid name = false) (hvoids : ∀ piece ∈ voids, isVoid piece = true) :
    p.parent? = some ⟨[]⟩ := by
  have hne : name ≠ [] := by
    rintro rfl
    cases hname
  have htrim : trimEnd voids = [] := by
    rw [trimEnd, List.reverse_eq_nil_iff, List.dropWhile_eq_nil_iff]
    simpa using hvoids
  unfold parent?
  rw [h]
  simp [htrim, hne]

theorem parent?_eq_spell (h : Text.splitOn '/' p.text = first :: (pieces ++ [name]))
    (hname : isVoid name = false) : p.parent? = some (spell first (trimEnd pieces)) :=
  parent?_eq_spell_of_voids h hname (by simp)

theorem parent?_eq_empty (h : Text.splitOn '/' p.text = [name]) (hname : isVoid name = false) :
    p.parent? = some ⟨[]⟩ :=
  parent?_eq_empty_of_voids h hname (by simp)

end voids

theorem isAbsolute_of_splitOn {p : Path} {first : Text} {rest : List Text}
    (h : Text.splitOn '/' p.text = first :: rest) (hrest : rest ≠ []) :
    p.isAbsolute = decide (first = []) := by
  rcases p with ⟨_ | ⟨c, t⟩⟩
  · simp [Text.splitOn, Ne.symm hrest] at h
  · by_cases hc : c = '/'
    · subst hc
      rw [show Text.splitOn '/' ('/' :: t) = [] :: Text.splitOn '/' t from
        Text.splitOn_cons_self '/' t, List.cons.injEq] at h
      simp [isAbsolute, ← h.1]
    · obtain ⟨piece, pieces, ht⟩ := List.exists_cons_of_ne_nil (Text.splitOn_ne_nil '/' t)
      rw [show Text.splitOn '/' (c :: t) = (c :: piece) :: pieces from
        Text.splitOn_cons_of_ne hc ht, List.cons.injEq] at h
      simp [isAbsolute, hc, ← h.1]

theorem isAbsolute_eq_of_splitOn {p : Path} {first : Text} {rest : List Text}
    (h : Text.splitOn '/' p.text = first :: rest) :
    p.isAbsolute = (decide (first = []) && decide (rest ≠ [])) := by
  by_cases hr : rest = []
  · subst hr
    have htext : p.text = first := by
      rw [← Text.joinWith_splitOn '/' p.text, h]
      rfl
    have hslash : '/' ∉ p.text := htext ▸ Text.not_mem_of_mem_splitOn (t := p.text) (by simp [h])
    rw [show (decide (first = []) && decide ([] ≠ ([] : List Text))) = false by simp,
      Bool.eq_false_iff, ne_eq, isAbsolute_iff]
    rintro ⟨t, ht⟩
    exact hslash (by simp [ht])
  · rw [isAbsolute_of_splitOn h hr]
    simp [hr]

theorem splitOn_spell_of_ne {first : Text} {rest : List Text} (hfirst : '/' ∉ first)
    (hrest : ∀ piece ∈ rest, '/' ∉ piece) (hne : ¬ (first = [] ∧ rest = [])) :
    Text.splitOn '/' (spell first rest).text = first :: rest := by
  have hspell : spell first rest = ⟨Text.joinWith ['/'] (first :: rest)⟩ := by
    simp [spell, hne]
  rw [hspell]
  exact Text.splitOn_joinWith (by simp) (by simpa using ⟨hfirst, hrest⟩)

/-- What a path spelled from pieces is split into: the pieces, and one more for the root. -/
theorem splitOn_spell {first : Text} {rest : List Text} (hfirst : '/' ∉ first)
    (hrest : ∀ piece ∈ rest, '/' ∉ piece) :
    ∃ voids, Text.splitOn '/' (spell first rest).text = first :: rest ++ voids ∧
      (∀ piece ∈ voids, isVoid piece = true) ∧
      (spell first rest).isAbsolute = decide (first = []) := by
  by_cases hroot : first = [] ∧ rest = []
  · obtain ⟨rfl, rfl⟩ := hroot
    exact ⟨[[]], rfl, by simp [isVoid], rfl⟩
  · have hsplit := splitOn_spell_of_ne hfirst hrest hroot
    refine ⟨[], by rw [hsplit, List.append_nil], by simp, ?_⟩
    rw [isAbsolute_eq_of_splitOn hsplit]
    by_cases hf : first = []
    · have hr : rest ≠ [] := fun he => hroot ⟨hf, he⟩
      simp [hr]
    · simp [hf]

theorem spell_text_ne_nil {first : Text} {rest : List Text} : (spell first rest).text ≠ [] := by
  unfold spell
  split
  · simp
  next hne =>
    cases rest with
    | nil => simpa [Text.joinWith] using hne
    | cons next rest => simp [Text.joinWith]

/-! ## The last component -/

theorem components_of_splitOn {p : Path} {first : Text} {rest : List Text}
    (h : Text.splitOn '/' p.text = first :: rest) :
    p.components =
      if p.isAbsolute then .root :: rest.filterMap component?
      else if first = ['.'] then .here :: rest.filterMap component?
      else (first :: rest).filterMap component? := by
  simp only [components, h]

theorem filterMap_name_voids {name : Text} {voids : List Text} (hname : IsName name)
    (hvoids : ∀ piece ∈ voids, isVoid piece = true) :
    (name :: voids).filterMap component? = [.normal name] := by
  rw [List.filterMap_cons_some hname.component?, List.filterMap_eq_nil_iff.2]
  exact fun piece hm => component?_eq_none_iff.2 (hvoids piece hm)

/-- **A path that ends in a name is the path before it and the name.** The path before it follows
from the other pieces; behind the name there may be some that name nothing. -/
theorem exists_parent_of_voids (pieces : List Text) :
    ∃ d : Path, ∀ (p : Path) (name : Text) (voids : List Text),
      Text.splitOn '/' p.text = pieces ++ name :: voids → IsName name →
      (∀ piece ∈ voids, isVoid piece = true) →
        p.parent? = some d ∧ p.components = d.components ++ [.normal name] := by
  cases pieces with
  | nil =>
    refine ⟨⟨[]⟩, fun p name voids h hname hvoids =>
      ⟨parent?_eq_empty_of_voids h hname.isVoid hvoids, ?_⟩⟩
    have hsolid := hname.isSolid
    have hdot : name ≠ ['.'] := by
      rintro rfl
      cases hname.isVoid
    rw [List.nil_append] at h
    rw [components_of_splitOn h, isAbsolute_eq_of_splitOn h]
    simp only [hsolid.ne_nil, decide_false, Bool.false_and, Bool.false_eq_true, if_false, hdot]
    exact filterMap_name_voids hname hvoids
  | cons first rest =>
    refine ⟨spell first (trimEnd rest), fun p name behind h hname hbehind =>
      ⟨parent?_eq_spell_of_voids h hname.isVoid hbehind, ?_⟩⟩
    have hslash : ∀ piece ∈ first :: rest, '/' ∉ piece := by
      intro piece hm
      refine Text.not_mem_of_mem_splitOn (t := p.text) ?_
      rw [h]
      exact List.mem_append_left (name :: behind) hm
    have hrest : ∀ piece ∈ trimEnd rest, '/' ∉ piece := by
      intro piece hm
      exact hslash piece (List.mem_cons_of_mem _ (mem_of_mem_trimEnd hm))
    obtain ⟨voids, hsplit, hvoids, habs⟩ := splitOn_spell (hslash first (by simp)) hrest
    have hnone : voids.filterMap component? = [] :=
      List.filterMap_eq_nil_iff.2 fun piece hm => component?_eq_none_iff.2 (hvoids piece hm)
    have hbefore : (trimEnd rest ++ voids).filterMap component? = rest.filterMap component? := by
      rw [List.filterMap_append, filterMap_trimEnd, hnone, List.append_nil]
    have hlast : (rest ++ name :: behind).filterMap component? =
        rest.filterMap component? ++ [.normal name] := by
      rw [List.filterMap_append, filterMap_name_voids hname hbehind]
    rw [List.cons_append] at h hsplit
    rw [components_of_splitOn h, components_of_splitOn hsplit, habs,
      isAbsolute_of_splitOn h (by simp)]
    by_cases hroot : first = []
    · simp [hroot, hbefore, hlast]
    · by_cases hhere : first = ['.']
      · simp [hhere, hbefore, hlast]
      · simp only [hroot, hhere, decide_false, Bool.false_eq_true, if_false, List.filterMap_cons,
          hbefore, hlast]
        cases component? first <;> simp

theorem exists_parent (pieces : List Text) :
    ∃ d : Path, ∀ (p : Path) (name : Text), Text.splitOn '/' p.text = pieces ++ [name] →
      IsName name → p.parent? = some d ∧ p.components = d.components ++ [.normal name] := by
  obtain ⟨d, hd⟩ := exists_parent_of_voids pieces
  exact ⟨d, fun p name h hname => hd p name [] h hname (by simp)⟩

theorem fileName?_eq_some_iff {p : Path} {name : Text} :
    p.fileName? = some name ↔ p.components.getLast? = some (.normal name) := by
  unfold fileName?
  split <;> simp_all

theorem isName_of_fileName? {p : Path} {name : Text} (h : p.fileName? = some name) :
    IsName name := by
  have hmem := List.mem_of_getLast? (fileName?_eq_some_iff.1 h)
  refine isName_iff.2 (normal_mem_steps (p := p) ?_)
  rw [steps_eq_filter]
  exact List.mem_filter.2 ⟨hmem, by simp⟩

theorem fileName?_of_splitOn {p : Path} {pieces : List Text} {name : Text}
    (h : Text.splitOn '/' p.text = pieces ++ [name]) (hname : IsName name) :
    p.fileName? = some name := by
  obtain ⟨d, hd⟩ := exists_parent pieces
  rw [fileName?_eq_some_iff, (hd p name h hname).2]
  exact List.getLast?_concat ..

/-! ## Paths that spell pieces -/

theorem trimEnd_eq_self {pieces : List Text} (h : ∀ piece ∈ pieces, IsSolid piece) :
    trimEnd pieces = pieces := by
  rcases List.eq_nil_or_concat pieces with rfl | ⟨front, last, rfl⟩
  · rfl
  · rw [List.concat_eq_append] at h ⊢
    exact trimEnd_concat front (h last (by simp)).solid

theorem splitOn_ofPieces (rooted : Bool) (pieces : List Text) :
    Text.splitOn '/' (ofPieces rooted pieces).text =
      (if rooted then [[]] else []) ++ Text.splitOn '/' (Text.joinWith ['/'] pieces) := by
  cases rooted with
  | true => exact Text.splitOn_cons_self '/' _
  | false => rfl

section ofPieces

variable {rooted : Bool} {pieces : List Text} {name : Text}

theorem splitOn_ofPieces_of_ne_nil (h : ∀ piece ∈ pieces, IsSolid piece) (hne : pieces ≠ []) :
    Text.splitOn '/' (ofPieces rooted pieces).text = (if rooted then [[]] else []) ++ pieces := by
  rw [splitOn_ofPieces, Text.splitOn_joinWith hne fun piece hm => (h piece hm).slash_not_mem]

theorem splitOn_ofPieces_concat (h : ∀ piece ∈ pieces, IsSolid piece) (hname : IsSolid name) :
    Text.splitOn '/' (ofPieces rooted (pieces ++ [name])).text =
      (if rooted then [[]] else []) ++ (pieces ++ [name]) := by
  refine splitOn_ofPieces_of_ne_nil (fun piece hm => ?_) (by simp)
  rcases List.mem_append.1 hm with hm | hm
  · exact h piece hm
  · exact List.mem_singleton.1 hm ▸ hname

theorem parent?_ofPieces (h : ∀ piece ∈ pieces, IsSolid piece) (hname : IsSolid name) :
    (ofPieces rooted (pieces ++ [name])).parent? = some (ofPieces rooted pieces) := by
  have hsplit : Text.splitOn '/' (ofPieces rooted (pieces ++ [name])).text = _ :=
    splitOn_ofPieces_concat h hname
  cases rooted with
  | true => rw [parent?_eq_spell hsplit hname.solid, trimEnd_eq_self h, spell_root]
  | false =>
    cases pieces with
    | nil => exact parent?_eq_empty hsplit hname.solid
    | cons first rest =>
      have hfirst := (h first (by simp)).ne_nil
      rw [parent?_eq_spell hsplit hname.solid,
        trimEnd_eq_self fun piece hm => h piece (by simp [hm])]
      simp [spell, ofPieces, hfirst]

theorem joinWith_ne_nil (h : ∀ piece ∈ pieces, IsSolid piece) (hp : pieces ≠ []) :
    Text.joinWith ['/'] pieces ≠ [] := by
  obtain ⟨first, rest, rfl⟩ := List.exists_cons_of_ne_nil hp
  have hfirst := (h first (by simp)).ne_nil
  cases rest <;> simp [Text.joinWith, hfirst]

theorem getLast?_joinWith (h : ∀ piece ∈ pieces, IsSolid piece) :
    (Text.joinWith ['/'] pieces).getLast? ≠ some '/' := by
  rcases List.eq_nil_or_concat pieces with rfl | ⟨front, last, rfl⟩
  · simp [Text.joinWith]
  · rw [List.concat_eq_append] at h ⊢
    have hsolid := h last (by simp)
    have hend : last.getLast? ≠ some '/' :=
      fun he => hsolid.slash_not_mem (List.mem_of_getLast? he)
    by_cases hf : front = []
    · simpa [hf, Text.joinWith] using hend
    · rw [Text.joinWith_append hf (by simp), show Text.joinWith ['/'] [last] = last from rfl,
        List.getLast?_append_of_ne_nil _ hsolid.ne_nil]
      exact hend

/-- Joining paths that spell pieces joins the pieces. -/
theorem join_ofPieces_ofPieces (h : ∀ piece ∈ pieces, IsSolid piece) {more : List Text}
    (hmore : ∀ piece ∈ more, IsSolid piece) (hne : more ≠ []) :
    (ofPieces rooted pieces).join (ofPieces false more) = ofPieces rooted (pieces ++ more) := by
  rw [join, if_neg (by rw [isAbsolute_ofPieces hmore]; simp)]
  by_cases hp : pieces = []
  · subst hp
    cases rooted <;> simp [ofPieces, Text.joinWith]
  · have hnil := joinWith_ne_nil h hp
    have htext : (ofPieces rooted pieces).text ≠ [] := by simp [ofPieces, hnil]
    have hlast : (ofPieces rooted pieces).text.getLast? ≠ some '/' := by
      rw [ofPieces, List.getLast?_append_of_ne_nil _ hnil]
      exact getLast?_joinWith h
    rw [if_neg (by simp [htext, hlast])]
    simp [ofPieces, Text.joinWith_append hp hne]

theorem join_ofPieces (h : ∀ piece ∈ pieces, IsSolid piece) (hname : IsSolid name) :
    (ofPieces rooted pieces).join ⟨name⟩ = ofPieces rooted (pieces ++ [name]) := by
  have hmore : ∀ piece ∈ [name], IsSolid piece := by simpa using hname
  exact join_ofPieces_ofPieces h hmore (by simp)

theorem dropComponents_append (h : ∀ piece ∈ pieces, IsSolid piece) (more : List Text) :
    dropComponents pieces.length (pieces ++ more) = more := by
  induction pieces with
  | nil => rfl
  | cons piece pieces ih =>
    have hfirst := (h piece (by simp)).solid
    rw [List.length_cons, List.cons_append, dropComponents,
      List.dropWhile_cons_of_neg (by simp [hfirst]), List.drop_one, List.tail_cons]
    exact ih fun piece hm => h piece (by simp [hm])

/-- Names are what is left of a path when the names before them are taken off. -/
theorem strip?_ofPieces (h : ∀ piece ∈ pieces, IsName piece) {more : List Text}
    (hmore : ∀ piece ∈ more, IsSolid piece) (hne : more ≠ []) :
    (ofPieces true (pieces ++ more)).strip? (ofPieces true pieces) =
      some (ofPieces false more) := by
  have hsolid : ∀ piece ∈ pieces, IsSolid piece := fun piece hm => (h piece hm).isSolid
  have hall : ∀ piece ∈ pieces ++ more, IsSolid piece := fun piece hm =>
    (List.mem_append.1 hm).elim (hsolid piece) (hmore piece)
  have hbase : (ofPieces true pieces).components = .root :: pieces.map .normal := by
    rw [steps_absolute rfl, steps_ofPieces hsolid, filterMap_component?_names h]
    rfl
  have hwhole : (ofPieces true (pieces ++ more)).components =
      (.root :: pieces.map .normal) ++ more.filterMap component? := by
    rw [steps_absolute rfl, steps_ofPieces hall, List.filterMap_append,
      filterMap_component?_names h]
    rfl
  have hfirst : more.dropWhile isVoid = more := by
    obtain ⟨first, rest, rfl⟩ := List.exists_cons_of_ne_nil hne
    exact List.dropWhile_cons_of_neg (by simp [(hmore first (by simp)).solid])
  rw [strip?, hbase, hwhole, if_pos (List.isPrefixOf_iff_prefix.2 (List.prefix_append _ _)),
    splitOn_ofPieces_of_ne_nil hall (by simp [hne])]
  simp only [if_true, List.cons_append, List.nil_append, List.length_map,
    dropComponents_append hsolid, hfirst, trimEnd_eq_self hmore]
  rfl

/-- The last of the pieces that a path spells is its file name, if it is a name. -/
theorem fileName?_ofPieces (h : ∀ piece ∈ pieces, IsSolid piece) (hname : IsName name) :
    (ofPieces rooted (pieces ++ [name])).fileName? = some name := by
  have hsplit : Text.splitOn '/' (ofPieces rooted (pieces ++ [name])).text = _ :=
    splitOn_ofPieces_concat h hname.isSolid
  rw [← List.append_assoc] at hsplit
  exact fileName?_of_splitOn hsplit hname

end ofPieces

end Path

namespace LocaleFile

theorem relative_withName {f : LocaleFile} {rooted : Bool} {pieces : List Text} {last name : Text}
    (hf : f.relative = Path.ofPieces rooted (pieces ++ [last]))
    (h : ∀ piece ∈ pieces, Path.IsSolid piece) (hlast : Path.IsSolid last)
    (hname : Path.IsSolid name) :
    (f.withName name).relative = Path.ofPieces rooted (pieces ++ [name]) := by
  simp only [withName, hf, Path.parent?_ofPieces h hlast]
  exact Path.join_ofPieces h hname

/-- **A file that gets another name keeps a collapsed path.** -/
theorem isCollapsed_withName {f : LocaleFile} (hf : f.relative.IsCollapsed) {name : Text}
    (hname : Path.IsName name) : (f.withName name).relative.IsCollapsed := by
  obtain ⟨rooted, odd, names, hnames, hrel⟩ := hf
  rcases List.eq_nil_or_concat names with rfl | ⟨names, last, rfl⟩
  · cases odd with
    | false =>
      have hnone : f.relative.parent? = none := by
        rw [hrel]
        cases rooted <;> rfl
      refine ⟨false, false, [name], by simpa using hname, ?_⟩
      simp only [withName, hnone]
      rfl
    | true =>
      have hdots : f.relative = Path.ofPieces rooted ([] ++ [['.', '.']]) := hrel
      refine ⟨rooted, false, [name], by simpa using hname, ?_⟩
      have hsolid : Path.IsSolid ['.', '.'] := ⟨by decide, by decide⟩
      have := relative_withName hdots (by simp) hsolid hname.isSolid
      exact this
  · rw [List.concat_eq_append] at hnames hrel
    have hfront : ∀ name ∈ names, Path.IsName name := fun name hm => hnames name (by simp [hm])
    refine ⟨rooted, odd, names ++ [name], by simpa [or_imp, forall_and] using ⟨hfront, hname⟩, ?_⟩
    rw [← List.append_assoc] at hrel ⊢
    exact relative_withName hrel (Path.isSolid_dots_append hfront)
      (hnames last (by simp)).isSolid hname.isSolid

end LocaleFile

end LocaleSync
