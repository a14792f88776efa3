/-
Which files a push pattern discovers. A pattern sees each file under the one path that the walk of
the project meets it under. So a file that the pattern accepts at its own place is discovered there
if no other way to its directory comes first, and, where the limits on paths do not show, only then
(`PushPattern.mem_discover_iff_isFirst`). A link to a directory that comes before it hides its files
from a pattern that names the directory (`PushPattern.discover_misses_behind_alias`).
-/
import LocaleSync.Proofs.ProjectFiles
import LocaleSync.Proofs.PushPattern.Cut
import LocaleSync.Proofs.Registry

namespace LocaleSync

/-! ## Files at their own place -/

namespace Storage

section

variable {s : Storage} {root : Location} {names : List Text} {name : Text} {content : Bytes}

theorem mem_walk_of_isFirst (hs : s.IsFileTree)
    (hfile : s.entryAt? (root ++ names ++ [name]) = some (.file content))
    (hspell : isSpellable (root ++ names) = true)
    (hfirst : IsFirst s root names (root ++ names)) : names ++ [name] ∈ s.walk root := by
  have hdir := hs.parent _ _ _ hfile
  have hp := isLookedAt_of_isFirst hs hdir hspell hfirst (mem_names_iff.2 ⟨_, hfile⟩)
  have hsight : Pending.sight s root ⟨root ++ names, names, name, linkLimit⟩ = .file := by
    simp only [Pending.sight, hfile]
  exact mem_walk_iff.2 ⟨_, hp, hsight, rfl⟩

theorem isFirst_of_mem_walk (hs : s.IsFileTree) (hroot : s.entryAt? root = some .directory)
    (hlimits : s.IsWithinLimits root)
    (hfile : s.entryAt? (root ++ names ++ [name]) = some (.file content))
    (h : names ++ [name] ∈ s.walk root) : IsFirst s root names (root ++ names) := by
  obtain ⟨d, _, _, hfirst, -, -⟩ := (mem_walk_iff_isFirst hs hroot hlimits).1 h
  obtain ⟨_, hway⟩ := hfirst.way
  obtain rfl := hway.eq_location hs (hs.parent _ _ _ hfile)
  exact hfirst

/-- What a walk meets is spelled in one way only. -/
theorem mem_walk_iff_mem_relative (hs : s.IsFileTree)
    (hroot : s.entryAt? root = some .directory) {t : List Text} (hne : t ≠ [])
    (ht : ∀ piece ∈ t, '/' ∉ piece) :
    Path.ofPieces false t ∈ ProjectFiles.relative ⟨root, s.walk root⟩ ↔ t ∈ s.walk root := by
  refine ⟨fun h => ?_, fun h => List.mem_map.2 ⟨t, h, rfl⟩⟩
  obtain ⟨u, hu, he⟩ := List.mem_map.1 h
  obtain ⟨p, hp, -, rfl⟩ := mem_walk_iff.1 hu
  have hslash : ∀ piece ∈ p.trail, '/' ∉ piece := fun piece hm =>
    (hp.isEntryName hs hroot piece (List.mem_append_right _ hm)).isName.slash_not_mem
  have hsplit := congrArg (fun q => Text.splitOn '/' q.text) he
  simp only [Path.ofPieces, Bool.false_eq_true, if_false, List.nil_append] at hsplit
  rw [Text.splitOn_joinWith (by simp [Pending.trail]) hslash, Text.splitOn_joinWith hne ht] at hsplit
  exact hsplit ▸ hu

end

end Storage

/-! ## What a pattern discovers -/

namespace Reporting

variable {α β : Type} {x : Reporting α} {f : α → Reporting β} {notes notes' : List Note}

/-- A report that goes on with the answer of another one. -/
theorem run_bind : (x >>= f).run.run notes =
    match x.run.run notes with
    | (.ok a, between) => (f a).run.run between
    | (.error e, between) => (.error e, between) := by
  simp only [ExceptT.run_bind, StateT.run_bind]
  generalize x.run.run notes = r
  obtain ⟨_ | _, _⟩ := r <;> rfl

theorem run_bind_eq_ok {b : β} :
    (x >>= f).run.run notes = (.ok b, notes') ↔
      ∃ a between, x.run.run notes = (.ok a, between) ∧
        (f a).run.run between = (.ok b, notes') := by
  rw [run_bind]
  generalize x.run.run notes = r
  obtain ⟨e | a, between⟩ := r
  · constructor
    · intro h
      cases h
    · rintro ⟨_, _, h, -⟩
      cases h
  · constructor
    · exact fun h => ⟨a, between, rfl, h⟩
    · rintro ⟨_, _, h, hf⟩
      cases h
      exact hf

end Reporting

theorem Recognition.eq_of_file?_eq_some {found : Recognition} {f : LocaleFile}
    (h : found.file? = some f) : found = .file f := by
  cases found with
  | file g => exact congrArg _ (Option.some.inj h)
  | unrelated | unknownLanguage => cases h

namespace PushPattern

theorem relative_of_recognize {p : PushPattern} {root path : Path} {r : Registry} {f : LocaleFile}
    (h : p.recognize root path r = .file f) : f.relative = path := by
  simp only [recognize] at h
  split at h
  · cases h
  · split at h
    · obtain rfl := Recognition.file.inj h
      rfl
    · cases h

/-- The file that is recognized is the path with the language its values identify. -/
theorem file?_recognize (p : PushPattern) (root path : Path) (r : Registry) :
    (p.recognize root path r).file? =
      ((p.captures? path.posix).bind fun values => (languageTokens values).findSome? r.find?).map
        fun language => { relative := path, language, root } := by
  unfold recognize
  cases p.captures? path.posix with
  | none => rfl
  | some values =>
    simp only [Option.bind_some]
    cases (languageTokens values).findSome? r.find? <;> rfl

theorem exists_isCut_of_recognize {p : PushPattern} {root path : Path} {r : Registry}
    {f : LocaleFile} (h : p.recognize root path r = .file f) :
    ∃ pieces, IsCut p.segments (slashed path.posix) pieces := by
  cases hcut : cut? p.segments (slashed path.posix) with
  | none => simp [recognize, captures?_eq, hcut] at h
  | some pieces =>
    have hbest := isBest_cut? p.segments (slashed path.posix)
    rw [hcut] at hbest
    exact ⟨pieces, hbest.cut⟩

theorem run_discover {p : PushPattern} {s : Storage} {path : Path} {r : Registry}
    {fs : ProjectFiles} (h : ProjectFiles.find s path = .ok fs) (notes : List Note) :
    (p.discover s path r).run.run notes =
      (.ok (fs.relative.filterMap fun q => (p.recognize fs.root.path q r).file?),
        notes ++ fs.relative.flatMap fun q => (p.recognize fs.root.path q r).notes q) := by
  have hrun : (p.discover s path r).run.run notes =
      (.ok ((fs.relative.map fun q => (q, p.recognize fs.root.path q r)).filterMap (·.2.file?)),
        notes ++ (fs.relative.map fun q => (q, p.recognize fs.root.path q r)).flatMap
          fun x => x.2.notes x.1) := by
    rw [discover, h]
    rfl
  rw [hrun, List.filterMap_map, List.flatMap_map]
  rfl

/-- **What is discovered are the files of the project that the pattern recognizes**, in order. -/
theorem find_of_run_discover {p : PushPattern} {s : Storage} {path : Path} {r : Registry}
    {notes notes' : List Note} {files : List LocaleFile}
    (h : (p.discover s path r).run.run notes = (.ok files, notes')) :
    ∃ fs, ProjectFiles.find s path = .ok fs ∧
      files = fs.relative.filterMap fun q => (p.recognize fs.root.path q r).file? := by
  cases hfind : ProjectFiles.find s path with
  | error e =>
    have hfail : (p.discover s path r).run.run notes = (.error e, notes) := by
      rw [discover, hfind]
      rfl
    rw [hfail] at h
    cases h
  | ok fs =>
    rw [run_discover hfind] at h
    obtain ⟨h, -⟩ := Prod.mk.inj h
    exact ⟨fs, rfl, (Except.ok.inj h).symm⟩

theorem exists_of_run_discover {p : PushPattern} {s : Storage} {path : Path} {r : Registry}
    {notes notes' : List Note} {files : List LocaleFile}
    (h : (p.discover s path r).run.run notes = (.ok files, notes')) :
    ∃ fs, ProjectFiles.find s path = .ok fs ∧ ∀ f ∈ files, ∃ q ∈ fs.relative,
      p.recognize fs.root.path q r = .file f := by
  obtain ⟨fs, hfind, rfl⟩ := find_of_run_discover h
  refine ⟨fs, hfind, fun f hf => ?_⟩
  obtain ⟨q, hq, hqf⟩ := List.mem_filterMap.1 hf
  exact ⟨q, hq, Recognition.eq_of_file?_eq_some hqf⟩

open Storage

/-- **A file that the pattern accepts at its own place is discovered there if this is the first way
to its directory**, and only then. -/
theorem mem_discover_iff_isFirst {s : Storage} {path : Path} {root : Location} (hs : s.IsFileTree)
    (hroot : s.canonical? path = some (root, .directory)) {names : List Text} {name : Text}
    {content : Bytes} (hfile : s.entryAt? (root ++ names ++ [name]) = some (.file content))
    (hspell : isSpellable (root ++ names) = true) {p : PushPattern} {r : Registry} {f : LocaleFile}
    (hf : p.recognize root.path (Path.ofPieces false (names ++ [name])) r = .file f)
    (notes : List Note) :
    ∃ files notes', (p.discover s path r).run.run notes = (.ok files, notes') ∧
      f.relative = Path.ofPieces false (names ++ [name]) ∧
      (IsFirst s root names (root ++ names) → f ∈ files) ∧
      (s.IsWithinLimits root → f ∈ files → IsFirst s root names (root ++ names)) := by
  have hdir : s.entryAt? root = some .directory := entryAt?_of_canonical? hs.toIsTree hroot
  have hfind : ProjectFiles.find s path = .ok ⟨root, s.walk root⟩ := by
    simp [ProjectFiles.find, hroot]
  have hslash : ∀ piece ∈ names ++ [name], '/' ∉ piece := fun piece hm =>
    (hs.names hfile piece (by simp_all)).isName.slash_not_mem
  have hmem := mem_walk_iff_mem_relative hs hdir (t := names ++ [name]) (by simp) hslash
  refine ⟨_, _, run_discover hfind notes, relative_of_recognize hf, fun hfirst => ?_,
    fun hlimits hfiles => ?_⟩
  · refine List.mem_filterMap.2 ⟨_, hmem.2 (mem_walk_of_isFirst hs hfile hspell hfirst), ?_⟩
    rw [hf]
    rfl
  · obtain ⟨q, hq, hqf⟩ := List.mem_filterMap.1 hfiles
    have hq' : p.recognize root.path q r = .file f := Recognition.eq_of_file?_eq_some hqf
    rw [← relative_of_recognize hq', relative_of_recognize hf] at hq
    exact isFirst_of_mem_walk hs hdir hlimits hfile (hmem.1 hq)

/-- A file in a directory that has another name. -/
def named (other : Text) : Storage where
  entries := [
    (["p".toList], .directory),
    (["p".toList, "real".toList], .directory),
    (["p".toList, "real".toList, "fr-fr.json".toList], .file []),
    (["p".toList, other], .link "real".toList)]

open LocaleSync.Language (french)

def frenchFile : LocaleFile where
  relative := .ofString "real/fr-fr.json"
  language := french
  root := .ofString "/p"

def underReal : PushPattern :=
  .ofText "real/<language_code>.json".toList (by decide)

theorem mem_discover_before_alias :
    compile "real/<language_code>.json".toList = .ok underReal ∧
    ∃ files notes, (underReal.discover (named "zebra".toList) (.ofString "/p")
        (.ofList [french])).run.run [] = (.ok files, notes) ∧ frenchFile ∈ files := by
  have hs : (named "zebra".toList).IsFileTree := isFileTree_of_entries (by decide +kernel) rfl
  have hroot : (named "zebra".toList).canonical? (.ofString "/p") =
      some (["p".toList], .directory) := by decide +kernel
  have hlimits : (named "zebra".toList).IsWithinLimits ["p".toList] := by
    refine isWithinLimits_of_forall (by decide) (forall_isLookedAt (n := 3) ?_ ?_)
    · cbv
    · cbv
  have hlooked : (named "zebra".toList).IsLookedAt ["p".toList]
      ⟨["p".toList, "real".toList], ["real".toList], "fr-fr.json".toList, 40⟩ :=
    ⟨1, [⟨["p".toList], [], "zebra".toList, 40⟩], by cbv⟩
  have hfile : (named "zebra".toList).entryAt?
      (["p".toList] ++ ["real".toList] ++ ["fr-fr.json".toList]) = some (.file []) := rfl
  have hf : underReal.recognize (Location.path ["p".toList])
      (Path.ofPieces false (["real".toList] ++ ["fr-fr.json".toList])) (.ofList [french]) =
        .file frenchFile := by decide +kernel
  obtain ⟨files, notes, hrun, -, hmem, -⟩ :=
    mem_discover_iff_isFirst hs hroot hfile (by decide) hf []
  exact ⟨compile_ofText _, files, notes, hrun, hmem (hlooked.isFirst hs rfl hlimits)⟩

theorem discover_misses_behind_alias :
    (named "alias".toList).IsFileTree ∧
    (named "alias".toList).canonical? (.ofString "/p") = some (["p".toList], .directory) ∧
    (named "alias".toList).entryAt? ["p".toList, "real".toList, "fr-fr.json".toList] =
      some (.file []) ∧
    underReal.recognize (.ofString "/p") (.ofString "real/fr-fr.json") (.ofList [french]) =
      .file frenchFile ∧
    (underReal.discover (named "alias".toList) (.ofString "/p") (.ofList [french])).run.run [] =
      (.ok [], []) := by
  have hs : (named "alias".toList).IsFileTree := isFileTree_of_entries (by decide +kernel) rfl
  refine ⟨hs, by decide +kernel, by decide +kernel, by decide +kernel, ?_⟩
  have hfind : ProjectFiles.find (named "alias".toList) (.ofString "/p") =
      .ok ⟨["p".toList], [["alias".toList, "fr-fr.json".toList]]⟩ := by cbv
  have halias : underReal.recognize (Location.path ["p".toList])
      ⟨Text.joinWith ['/'] ["alias".toList, "fr-fr.json".toList]⟩ (.ofList [french]) =
        .unrelated := by decide +kernel
  rw [run_discover hfind]
  simp only [ProjectFiles.relative, List.map_singleton, List.filterMap_cons, List.filterMap_nil,
    List.flatMap_singleton, halias]
  rfl

end PushPattern

end LocaleSync
