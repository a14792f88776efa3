/-
Files under other names. A file that gets another name lies in the directory it lay in, however its
path is spelled: the new path is the name in that directory, and the directory is its parent
(`parent?_directory_join`). So only the last of several names counts (`withName_withName`). A path
that ends in a name is that name in its directory (`components_of_fileName?`), so such a file keeps
all components but the last.

A user who is asked for names until one is free ends up in the directory of the file that was
planned (`withName_laws`).
-/
import LocaleSync.Proofs.Path.Parent
import LocaleSync.Proofs.Pull.Turns
import LocaleSync.Proofs.Registry
import Mathlib.Data.List.DropRight

namespace LocaleSync

namespace Path

/-! ## The directory of a path -/

/-- The directory that a path lies in, without a spelling where there is none. -/
def directory (p : Path) : Path :=
  p.parent?.getD ⟨[]⟩

/-- How a directory is spelled: not at all, or by pieces that end in one that names something. -/
theorem directory_cases (p : Path) :
    p.directory = ⟨[]⟩ ∨ ∃ first rest, p.directory = spell first (trimEnd rest) ∧ '/' ∉ first ∧
      ∀ piece ∈ trimEnd rest, '/' ∉ piece := by
  obtain ⟨first, rest, h⟩ := List.exists_cons_of_ne_nil (Text.splitOn_ne_nil '/' p.text)
  have hslash : ∀ piece ∈ first :: rest, '/' ∉ piece := by
    rw [← h]
    exact fun piece => Text.not_mem_of_mem_splitOn
  simp only [directory, parent?, h]
  split
  · left
    split <;> rfl
  · refine .inr ⟨first, _, rfl, hslash first (by simp), fun piece hm => ?_⟩
    have hbody := List.dropLast_subset _ (mem_of_mem_trimEnd hm)
    exact hslash piece (List.mem_cons_of_mem _ (mem_of_mem_trimEnd hbody))

theorem trimEnd_trimEnd (pieces : List Text) : trimEnd (trimEnd pieces) = trimEnd pieces :=
  List.rdropWhile_idempotent isVoid pieces

/-- No void piece is left at the end. -/
theorem eq_nil_of_trimEnd_eq_append {pieces front voids : List Text}
    (h : trimEnd pieces = front ++ voids) (hvoids : ∀ piece ∈ voids, isVoid piece = true) :
    voids = [] := by
  rcases List.eq_nil_or_concat voids with rfl | ⟨before, last, rfl⟩
  · rfl
  · exfalso
    have hlast : isVoid last = true := hvoids last (by simp)
    have hrev : (pieces.reverse.dropWhile isVoid).head? = some last := by
      rw [← List.getLast?_reverse]
      show (trimEnd pieces).getLast? = some last
      simp [h]
    simpa [hrev, hlast] using List.head?_dropWhile_not isVoid pieces.reverse

section

variable {first name : Text} {rest : List Text}

/-- A name joined to a directory is one more piece. -/
theorem splitOn_spell_join (hfirst : '/' ∉ first) (hrest : ∀ piece ∈ trimEnd rest, '/' ∉ piece)
    (hname : '/' ∉ name) :
    Text.splitOn '/' ((spell first (trimEnd rest)).join ⟨name⟩).text =
      first :: (trimEnd rest ++ [name]) := by
  have hrel : isAbsolute ⟨name⟩ = false := by
    rw [Bool.eq_false_iff, ne_eq, isAbsolute_iff]
    rintro ⟨t, rfl⟩
    exact hname (by simp)
  have hlast : Text.splitOn '/' name = [name] := Text.splitOn_of_not_mem hname
  by_cases hroot : first = [] ∧ trimEnd rest = []
  · obtain ⟨rfl, hnil⟩ := hroot
    have hjoin : (spell [] (trimEnd rest)).join ⟨name⟩ = ⟨'/' :: name⟩ := by
      simp [hnil, spell, join, hrel]
    rw [hjoin, hnil, Text.splitOn_cons_self, hlast]
    rfl
  · have hsplit := splitOn_spell_of_ne hfirst hrest hroot
    have htext : (spell first (trimEnd rest)).text ≠ [] := spell_text_ne_nil
    obtain ⟨front, voids, hfront, hne, hvoids, hjoin⟩ := splitOn_join htext
    rw [hsplit] at hfront
    obtain ⟨_, front, rfl⟩ := List.exists_cons_of_ne_nil hne
    rw [List.cons_append, List.cons.injEq] at hfront
    obtain ⟨rfl, hfront⟩ := hfront
    obtain rfl := eq_nil_of_trimEnd_eq_append hfront hvoids
    rw [(hjoin ⟨name⟩ hrel).2, hlast, hfront, List.append_nil, List.cons_append]

end

/-- **A name in the directory of a path lies in this directory**, behind its components. -/
theorem parent?_directory_join (p : Path) {name : Text} (hname : IsName name) :
    (p.directory.join ⟨name⟩).parent? = some p.directory ∧
      (p.directory.join ⟨name⟩).components = p.directory.components ++ [.normal name] := by
  obtain ⟨pieces, hsplit, hparent⟩ : ∃ pieces,
      Text.splitOn '/' (p.directory.join ⟨name⟩).text = pieces ++ [name] ∧
        (p.directory.join ⟨name⟩).parent? = some p.directory := by
    rcases p.directory_cases with hd | ⟨first, rest, hd, hfirst, hrest⟩
    · have hjoin : (⟨[]⟩ : Path).join ⟨name⟩ = ⟨name⟩ := by simp [join]
      have hsplit : Text.splitOn '/' name = [name] := Text.splitOn_of_not_mem hname.slash_not_mem
      rw [hd, hjoin]
      exact ⟨[], hsplit, parent?_eq_empty hsplit hname.isVoid⟩
    · have hsplit := splitOn_spell_join hfirst hrest hname.slash_not_mem
      rw [hd]
      refine ⟨first :: trimEnd rest, hsplit, ?_⟩
      rw [parent?_eq_spell hsplit hname.isVoid, trimEnd_trimEnd]
  obtain ⟨d, hd⟩ := exists_parent pieces
  obtain ⟨hself, hcomponents⟩ := hd _ name hsplit hname
  obtain rfl : d = p.directory := Option.some.inj (hself.symm.trans hparent)
  exact ⟨hparent, hcomponents⟩

theorem fileName?_directory_join (p : Path) {name : Text} (hname : IsName name) :
    (p.directory.join ⟨name⟩).fileName? = some name := by
  rw [fileName?_eq_some_iff, (p.parent?_directory_join hname).2]
  exact List.getLast?_concat ..

/-! ## Paths that end in a name -/

theorem getLast?_steps_of_fileName? {p : Path} {name : Text} (h : p.fileName? = some name) :
    p.steps.getLast? = some (.normal name) := by
  rw [fileName?_eq_some_iff] at h
  by_cases habs : p.isAbsolute = true
  · rw [← steps_absolute habs, h]
  · rcases components_relative (Bool.eq_false_iff.2 habs) with hc | hc
    · rw [← hc, h]
    · rw [hc, List.getLast?_cons] at h
      cases hlast : p.steps.getLast? with
      | none => simp [hlast] at h
      | some c => simpa [hlast] using h

/-- The component that a path ends in is its last piece that names something. -/
theorem exists_splitOn_of_fileName? {p : Path} {name : Text} (h : p.fileName? = some name) :
    ∃ pieces voids, Text.splitOn '/' p.text = pieces ++ name :: voids ∧
      ∀ piece ∈ voids, isVoid piece = true := by
  obtain ⟨voids, hsplit, hvoids⟩ := eq_trimEnd_append (Text.splitOn '/' p.text)
  have hlast := getLast?_steps_of_fileName? h
  rw [steps, ← filterMap_trimEnd] at hlast
  rcases List.eq_nil_or_concat (trimEnd (Text.splitOn '/' p.text)) with hnil | ⟨pieces, last, hconcat⟩
  · rw [hnil] at hlast
    split at hlast <;> simp at hlast
  · rw [List.concat_eq_append] at hconcat
    have hsolid : isVoid last = false := by
      rw [Bool.eq_false_iff]
      intro hvoid
      cases eq_nil_of_trimEnd_eq_append hconcat (by simpa using hvoid)
    obtain ⟨c, hc⟩ : ∃ c, component? last = some c := by
      rw [← Option.isSome_iff_exists, Option.isSome_iff_ne_none, ne_eq, component?_eq_none_iff, hsolid]
      simp
    rw [hconcat, List.filterMap_append, List.filterMap_cons_some hc, List.filterMap_nil,
      ← List.append_assoc, List.getLast?_concat, Option.some.injEq] at hlast
    obtain rfl := eq_of_component?_eq_normal (hlast ▸ hc)
    refine ⟨pieces, voids, ?_, hvoids⟩
    rw [hsplit, hconcat, List.append_assoc, List.singleton_append]

/-- **A path that ends in a name is that name in its directory**, however it is spelled. -/
theorem components_of_fileName? {p : Path} {name : Text} (h : p.fileName? = some name) :
    p.parent? = some p.directory ∧ p.components = p.directory.components ++ [.normal name] := by
  obtain ⟨pieces, voids, hsplit, hvoids⟩ := exists_splitOn_of_fileName? h
  obtain ⟨d, hd⟩ := exists_parent_of_voids pieces
  obtain ⟨hparent, hcomponents⟩ := hd p name voids hsplit (isName_of_fileName? h) hvoids
  have hdirectory : p.directory = d := by rw [directory, hparent, Option.getD_some]
  rw [hdirectory]
  exact ⟨hparent, hcomponents⟩

/-- A relative path adds its steps to the components of one that is not empty. -/
theorem components_join {p q : Path} (hp : p.text ≠ []) (hq : q.isAbsolute = false) :
    (p.join q).components = p.components ++ q.steps := by
  obtain ⟨front, voids, hsplit, hne, hvoids, hjoin⟩ := splitOn_join hp
  obtain ⟨habs, hjoin⟩ := hjoin q hq
  obtain ⟨first, front, rfl⟩ := List.exists_cons_of_ne_nil hne
  have hnone : voids.filterMap component? = [] :=
    List.filterMap_eq_nil_iff.2 fun piece hm => component?_eq_none_iff.2 (hvoids piece hm)
  rw [List.cons_append] at hsplit hjoin
  rw [components_of_splitOn hsplit, components_of_splitOn hjoin, habs, steps_relative hq,
    List.filterMap_append, List.filterMap_append, hnone, List.append_nil, List.filterMap_cons,
    List.filterMap_cons, List.filterMap_append, List.filterMap_append, hnone, List.append_nil]
  split
  · rfl
  · split
    · rfl
    · cases component? first <;> rfl

theorem isAbsolute_iff_root_mem {p : Path} : p.isAbsolute = true ↔ .root ∈ p.components := by
  refine ⟨fun h => ?_, isAbsolute_of_root_mem⟩
  rw [steps_absolute h, steps, if_pos h]
  simp

/-- Paths that differ in the name they end in do so from wherever they start. -/
theorem exists_components_join {p q : Path} {before : List Component} {a b : Text}
    (hp : p.components = before ++ [.normal a]) (hq : q.components = before ++ [.normal b])
    (base : Path) :
    ∃ front, (base.join p).components = front ++ [.normal a] ∧
      (base.join q).components = front ++ [.normal b] := by
  have habs : p.isAbsolute = q.isAbsolute := by
    rw [Bool.eq_iff_iff, isAbsolute_iff_root_mem, isAbsolute_iff_root_mem, hp, hq]
    simp
  by_cases hstay : q.isAbsolute = true ∨ base.text = []
  · have hself : base.join p = p ∧ base.join q = q := by
      rcases hstay with hstay | hstay
      · simp [join, habs, hstay]
      · simp [join, hstay]
    rw [hself.1, hself.2]
    exact ⟨before, hp, hq⟩
  · rw [not_or, Bool.not_eq_true] at hstay
    have hfilter (c : Text) : (before ++ [Component.normal c]).filter (· ≠ .here) =
        before.filter (· ≠ .here) ++ [.normal c] := by
      rw [List.filter_append, List.filter_cons_of_pos (by simp), List.filter_nil]
    refine ⟨base.components ++ before.filter (· ≠ .here), ?_, ?_⟩
    · rw [components_join hstay.2 (habs.trans hstay.1), steps_eq_filter, hp, hfilter,
        List.append_assoc]
    · rw [components_join hstay.2 hstay.1, steps_eq_filter, hq, hfilter, List.append_assoc]

/-- Two paths that lie in one directory, however it is spelled. -/
def SameParent (p q : Path) : Prop :=
  ∃ d e, p.parent? = some d ∧ q.parent? = some e ∧ d.components = e.components

theorem sameParent_join {p q : Path} {before : List Component} {a b : Text}
    (hp : p.components = before ++ [.normal a]) (hq : q.components = before ++ [.normal b])
    (base : Path) : SameParent (base.join p) (base.join q) := by
  obtain ⟨front, hp, hq⟩ := exists_components_join hp hq base
  have hfront {r : Path} {name : Text} (hr : r.components = front ++ [.normal name]) :
      r.parent? = some r.directory ∧ r.directory.components = front := by
    have hname : r.fileName? = some name := by
      rw [fileName?_eq_some_iff, hr]
      exact List.getLast?_concat ..
    obtain ⟨hparent, hcomponents⟩ := components_of_fileName? hname
    exact ⟨hparent, List.append_cancel_right (hcomponents.symm.trans hr)⟩
  exact ⟨_, _, (hfront hp).1, (hfront hq).1, (hfront hp).2.trans (hfront hq).2.symm⟩

theorem parts_of_components {p d : Path} {name : Text}
    (h : p.components = d.components ++ [.normal name]) : p.parts = d.parts ++ [name] := by
  rw [parts, h, List.filterMap_append]
  rfl

end Path

/-! ## Other names -/

namespace LocaleFile

/-- Whether two files are the same: paths are compared by their components, not by how they are
spelled. -/
def IsSame (f g : LocaleFile) : Prop :=
  f.relative.components = g.relative.components ∧ f.name = g.name ∧ f.language = g.language ∧
    f.root.components = g.root.components

theorem relative_withName_eq (f : LocaleFile) (name : Text) :
    (f.withName name).relative = f.relative.directory.join ⟨name⟩ := by
  cases h : f.relative.parent? with
  | some d => simp only [withName, h, Path.directory, Option.getD_some]
  | none => simp [withName, h, Path.directory, Path.join]

section

variable (f : LocaleFile) {a b : Text} (ha : Path.IsName a)

include ha

/-- The path of a file under another name: the directory stays, and the name comes behind it. -/
theorem components_withName :
    (f.withName a).relative.parent? = some f.relative.directory ∧
      (f.withName a).relative.components =
        f.relative.directory.components ++ [.normal a] := by
  rw [relative_withName_eq]
  exact f.relative.parent?_directory_join ha

theorem name_withName : (f.withName a).name = a := by
  rw [name_eq, relative_withName_eq, Path.fileName?_directory_join _ ha, Option.getD_some]

theorem directory_withName : (f.withName a).relative.directory = f.relative.directory := by
  rw [Path.directory, (f.components_withName ha).1, Option.getD_some]

/-- **Of two names only the last one counts.** -/
theorem withName_withName : (f.withName a).withName b = f.withName b := by
  have hrelative : ((f.withName a).withName b).relative = (f.withName b).relative := by
    rw [relative_withName_eq (f.withName a), directory_withName f ha, ← relative_withName_eq]
  exact LocaleFile.ext hrelative rfl rfl

end

/-- Of any number of names only the last one counts. -/
theorem foldl_withName {names : List Text} {last : Text} (hlast : names.getLast? = some last)
    (h : ∀ name ∈ names, Path.IsName name) (f : LocaleFile) :
    names.foldl withName f = f.withName last := by
  induction names generalizing f with
  | nil => cases hlast
  | cons name names ih =>
    cases names with
    | nil =>
      obtain rfl : name = last := by simpa using hlast
      rfl
    | cons next names =>
      rw [List.getLast?_cons_cons] at hlast
      rw [List.foldl_cons, ih hlast fun other hm => h other (List.mem_cons_of_mem _ hm),
        withName_withName f (h name (by simp))]

/-! ## Files whose path ends in a name -/

section

variable {f : LocaleFile} {last : Text} (h : f.relative.fileName? = some last)

include h

theorem parts_withName {a : Text} (ha : Path.IsName a) :
    (f.withName a).parts = f.parts.dropLast ++ [a] := by
  rw [parts, parts, Path.parts_of_components (f.components_withName ha).2,
    Path.parts_of_components (Path.components_of_fileName? h).2, List.dropLast_concat]

/-- A file under its own name is the same file. -/
theorem isSame_withName : (f.withName f.name).IsSame f := by
  have hname : f.name = last := by rw [name_eq, h, Option.getD_some]
  have hlast := Path.isName_of_fileName? h
  rw [hname]
  refine ⟨?_, (f.name_withName hlast).trans hname.symm, rfl, rfl⟩
  rw [(f.components_withName hlast).2, (Path.components_of_fileName? h).2]

theorem sameParent_withName {a : Text} (ha : Path.IsName a) :
    Path.SameParent f.fullPath (f.withName a).fullPath :=
  Path.sameParent_join (Path.components_of_fileName? h).2 (f.components_withName ha).2 f.root

theorem sameParent_self : Path.SameParent f.fullPath f.fullPath :=
  have hcomponents := (Path.components_of_fileName? h).2
  Path.sameParent_join hcomponents hcomponents f.root

end

/-- **The laws of other names.** A file has the name that it is given, and of two names the last one
counts; its language and its root stay. If its path ends in a name, only the last part is another
one, its own name leaves it the same, and it stays in the directory of its full path. So whatever
names a user gives for a file that is there, of which all but the last are taken, the file that is
settled on lies in the directory that was planned. -/
theorem withName_laws (f : LocaleFile) {a : Text} (ha : Path.IsName a) (b : Text) :
    (f.withName a).name = a ∧
    (f.withName a).withName b = f.withName b ∧
    (f.withName a).language = f.language ∧ (f.withName a).root = f.root ∧
    (∀ last, f.relative.components.getLast? = some (.normal last) →
      (f.withName a).parts = f.parts.dropLast ++ [a] ∧ (f.withName f.name).IsSame f ∧
        Path.SameParent f.fullPath (f.withName a).fullPath) ∧
    ∀ o w g w', (Pull.settle o f).run.run w = (.ok (some g), w') →
      ∃ names, w.answers.names = names.map .ok ++ w'.answers.names ∧
        (∀ taken ∈ Pull.renamed f names, w.storage.isPresent taken.fullPath = true) ∧
        ((∀ name ∈ names, Path.IsName name) →
          g.language = f.language ∧ g.root = f.root ∧
          g.relative.directory = f.relative.directory ∧
          ∀ last, f.relative.components.getLast? = some (.normal last) →
            Path.SameParent f.fullPath g.fullPath) := by
  refine ⟨f.name_withName ha, f.withName_withName ha, rfl, rfl, fun last hlast => ?_,
    fun o w g w' hrun => ?_⟩
  · have hname := Path.fileName?_eq_some_iff.2 hlast
    exact ⟨parts_withName hname ha, isSame_withName hname, sameParent_withName hname ha⟩
  · obtain ⟨names, hsettles⟩ := (Pull.ends_settle o f w).of_run hrun
    refine ⟨names, hsettles.given, hsettles.taken, fun hnames => ?_⟩
    obtain rfl := hsettles.last g rfl
    -- Either no name was asked for, or the last one given counts.
    cases hend : names.getLast? with
    | none =>
      obtain rfl := List.getLast?_eq_none_iff.1 hend
      exact ⟨rfl, rfl, rfl, fun last hlast => sameParent_self (Path.fileName?_eq_some_iff.2 hlast)⟩
    | some name =>
      have hname := hnames name (List.mem_of_getLast? hend)
      rw [foldl_withName hend hnames]
      exact ⟨rfl, rfl, f.directory_withName hname,
        fun last hlast => sameParent_withName (Path.fileName?_eq_some_iff.2 hlast) hname⟩

/-- A file whose path is spelled with a `.` and two slashes. -/
def looselySpelled : LocaleFile where
  relative := .ofString "./a//b"
  language := .english
  root := .ofString "/r"

/-- A project with this file and one beside it, whose name the user gives first. -/
def besideTaken : World where
  storage := ⟨[(["r".toList], .directory), (["r".toList, "a".toList], .directory),
    (["r".toList, "a".toList, "b".toList], .file []),
    (["r".toList, "a".toList, "x".toList], .file [])], []⟩
  answers := { names := [.ok "x".toList, .ok "y".toList] }

theorem withName_laws_loosely_spelled :
    Path.IsName "x".toList ∧ (looselySpelled.withName "x".toList).name = "x".toList ∧
    (looselySpelled.withName looselySpelled.name).IsSame looselySpelled ∧
    ∃ g w', (Pull.settle { action? := some .newName } looselySpelled).run.run besideTaken =
        (.ok (some g), w') ∧ g.relative = .ofString "./a/y" ∧
      Path.SameParent looselySpelled.fullPath g.fullPath := by
  have hx : Path.IsName "x".toList := by decide
  have hlast : looselySpelled.relative.components.getLast? = some (.normal "b".toList) := by decide
  obtain ⟨hname, -, -, -, hends, hloop⟩ := withName_laws looselySpelled hx "y".toList
  refine ⟨hx, hname, (hends _ hlast).2.1, ?_⟩
  have hsettled : ((Pull.settle { action? := some .newName } looselySpelled).run.run besideTaken).1 =
      .ok (some (looselySpelled.withName "y".toList)) := by decide +kernel
  rcases hrun : (Pull.settle { action? := some .newName } looselySpelled).run.run besideTaken with
    ⟨outcome, w'⟩
  rw [hrun] at hsettled
  obtain rfl : outcome = _ := hsettled
  obtain ⟨names, hgiven, -, hplanned⟩ := hloop _ _ _ _ hrun
  have hnames : ∀ name ∈ names, Path.IsName name := by
    intro name hm
    have hanswer : Except.ok name ∈ besideTaken.answers.names := by
      rw [hgiven]
      exact List.mem_append_left _ (List.mem_map_of_mem hm)
    rcases List.mem_pair.1 hanswer with h | h
    · exact Except.ok.inj h ▸ hx
    · exact Except.ok.inj h ▸ (by decide : Path.IsName "y".toList)
  exact ⟨_, w', rfl, by decide, (hplanned hnames).2.2.2 _ hlast⟩

end LocaleFile

end LocaleSync
