/-
The paths of a project's files. From its directory on they are made of names alone and come in the
order of the bytes of these names, name by name: `a/z` comes before `a.`, though not as a text
(`ProjectFiles.find_in_order`). Joined to the directory they are the paths from the root directory on,
and those with the directory taken off are the former again.

The names of each path lead to a file. The path itself does where it is short enough: a name is known
to be a file from the directory that lists it, so a file is found even under a path that is too long
to be used (`ProjectFiles.find_lists_unusable_path`).
-/
import LocaleSync.Proofs.ProjectFiles
import LocaleSync.Proofs.Storage.Change
import LocaleSync.Proofs.Text.Index

namespace LocaleSync

namespace Storage

section

variable {s : Storage} {root d l : Location} {p : Pending}

/-- A path that spells a location is followed where its names lead, if it is short enough. -/
theorem find?_path (hl : ∀ name ∈ l, IsEntryName name) {e : Entry} {left : Nat}
    (h : Leads s .follow linkLimit [] l (.found d e left)) :
    s.find? (Location.path l) = if isSpellable l then some (d, e) else none := by
  have htext : (Location.path l).text ≠ [] := List.cons_ne_nil _ _
  by_cases hshort : isSpellable l = true
  · have husable : IsUsable (Location.path l) :=
      ⟨htext, by simpa using nul_not_mem_path hl, of_decide_eq_true hshort⟩
    rw [if_pos hshort]
    exact find?_eq_some_iff.2 ⟨left, locate_of_leads husable (leads_path hl h)⟩
  · have hlong : ¬ IsUsable (Location.path l) := fun hu => hshort (decide_eq_true hu.short)
    rw [if_neg hshort, find?, locate_of_not_isUsable hlong, if_neg htext]

/-- The names of the path to a file lead to it, links followed on the way. -/
theorem IsLookedAt.leads_file (hs : s.IsFileTree) (hroot : s.entryAt? root = some .directory)
    (h : s.IsLookedAt root p) (hsight : p.sight s root = .file) : ∃ l content left,
      Leads s .follow linkLimit [] (root ++ p.trail) (.found l (.file content) left) := by
  have hname : IsEntryName p.name := h.isEntryName hs hroot _ (by simp [Pending.trail])
  obtain ⟨l, content, left, hl⟩ := Pending.leads_of_sight_file hname hsight
  obtain ⟨n, rest, hn⟩ := h
  have hdir := leads_of_mem_pending hs hroot (m := .follow) rfl (fun h => by cases h) n p
    (by simp [hn])
  exact ⟨l, content, left, by simpa [Pending.trail] using hdir.goOn rfl rfl hl⟩

end

end Storage

namespace ProjectFiles

open Storage

/-- The order of trails is the order of the bytes of their names. -/
theorem map_ofText_lt {t u : List Text} (h : t < u) :
    t.map Bytes.ofText < u.map Bytes.ofText :=
  List.map_lt (fun _ _ => Bytes.ofText_lt_ofText) h

/-- Paths that spell trails of names come in the order of the trails. -/
theorem sorted_relative (fs : ProjectFiles) (hsorted : fs.trails.Pairwise (· < ·))
    (hnames : ∀ trail ∈ fs.trails, ∀ name ∈ trail, Path.IsName name) :
    (fs.relative.map fun q => q.parts.map Bytes.ofText).Pairwise (· < ·) := by
  rw [relative, List.map_map, List.pairwise_map]
  refine hsorted.imp_of_mem fun {t u} ht hu hlt => ?_
  have hparts : ∀ trail ∈ fs.trails, Path.parts ⟨Text.joinWith ['/'] trail⟩ = trail :=
    fun trail hm => Path.parts_ofPieces (hnames trail hm)
  simp only [Function.comp_apply, hparts t ht, hparts u hu]
  exact map_ofText_lt hlt

/-- Taking off the directory gives the paths from it on. -/
theorem strip?_absolute (fs : ProjectFiles) (hroot : ∀ name ∈ fs.root, Path.IsName name)
    (h : ∀ trail ∈ fs.trails, trail ≠ [] ∧ ∀ name ∈ trail, Path.IsName name) :
    (fs.absolute.map fun q => q.strip? fs.root.path) = fs.relative.map some := by
  rw [absolute, relative, List.map_map, List.map_map]
  refine List.map_congr_left fun trail ht => ?_
  obtain ⟨hne, hnames⟩ := h trail ht
  exact Path.strip?_ofPieces hroot (fun name hm => (hnames name hm).isSolid) hne

/-- **The files are found in the order of the bytes of their names**, under paths of names that lead
to them. -/
theorem find_in_order {s : Storage} {path : Path} {root : Location} (hs : s.IsFileTree)
    (hroot : s.canonical? path = some (root, .directory)) :
    ∃ fs, find s path = .ok fs ∧ fs.root = root ∧
      (fs.relative.map fun q => q.parts.map Bytes.ofText).Pairwise (· < ·) ∧ fs.relative.Nodup ∧
      (∀ q ∈ fs.relative, q.parts ≠ [] ∧ q.components = q.parts.map .normal ∧
        ∃ l content left,
          Leads s .follow linkLimit [] (root ++ q.parts) (.found l (.file content) left) ∧
          s.find? (root.path.join q) =
            if Text.utf8Size (root.path.join q).text < pathLimit then some (l, .file content)
            else none) ∧
      fs.absolute = fs.relative.map (fun q => root.path.join q) ∧
      (fs.absolute.map fun q => q.strip? root.path) = fs.relative.map some := by
  have hdir : s.entryAt? root = some .directory := entryAt?_of_canonical? hs.toIsTree hroot
  have hfind : find s path = .ok ⟨root, s.walk root⟩ := by simp [find, hroot]
  have hrootNames : ∀ name ∈ root, Path.IsName name := fun name hm => (hs.names hdir name hm).isName
  have htrails : ∀ trail ∈ s.walk root, trail ≠ [] ∧ ∀ name ∈ trail, Path.IsName name := by
    intro trail ht
    obtain ⟨p, -, -, rfl⟩ := mem_walk_iff.1 ht
    exact ⟨by simp [Pending.trail], isName_of_mem_trails hs hfind _ ht⟩
  have hsorted := sorted_relative ⟨root, s.walk root⟩ (s.sorted_walk root)
    fun trail ht => (htrails trail ht).2
  refine ⟨⟨root, s.walk root⟩, hfind, rfl, hsorted, ?_, fun q hq => ?_,
    absolute_eq_map_join hrootNames htrails,
    strip?_absolute ⟨root, s.walk root⟩ hrootNames htrails⟩
  · refine (List.pairwise_map.1 hsorted).imp ?_
    rintro q _ hlt rfl
    exact List.lt_irrefl _ hlt
  · obtain ⟨trail, ht, rfl⟩ := List.mem_map.1 hq
    obtain ⟨hne, hnames⟩ := htrails trail ht
    obtain ⟨p, hp, hsight, rfl⟩ := mem_walk_iff.1 ht
    have hparts : Path.parts ⟨Text.joinWith ['/'] p.trail⟩ = p.trail := Path.parts_ofPieces hnames
    obtain ⟨l, content, left, hl⟩ := hp.leads_file hs hdir hsight
    rw [hparts, join_trail hrootNames hnames hne]
    refine ⟨hne, Path.components_ofPieces hnames, l, content, left, hl, ?_⟩
    rw [find?_path (hp.isEntryName hs hdir) hl]
    simp only [isSpellable, decide_eq_true_eq]

/-- A directory `a` next to a file `a.`, and a link to this file. -/
def crossed : Storage where
  entries := [
    ([['p']], .directory),
    ([['p'], ['a']], .directory),
    ([['p'], ['a'], ['z']], .file []),
    ([['p'], ['a', '.']], .file [7]),
    ([['p'], ['l']], .link ['a', '.'])]

theorem find_in_order_crossed :
    crossed.IsFileTree ∧ crossed.canonical? (.ofString "/p") = some ([['p']], .directory) ∧
    ∃ fs, find crossed (.ofString "/p") = .ok fs ∧
      fs.relative = [.ofString "a/z", .ofString "a.", .ofString "l"] ∧
      "a.".toList < "a/z".toList ∧
      (fs.relative.map fun q => q.parts.map Bytes.ofText).Pairwise (· < ·) ∧
      ∃ l content, crossed.find? (.ofString "/p/l") = some (l, .file content) := by
  have hs : crossed.IsFileTree := isFileTree_of_entries (by decide) rfl
  have hroot : crossed.canonical? (.ofString "/p") = some ([['p']], .directory) := by decide
  obtain ⟨fs, hfind, -, hsorted, -, hfiles, -, -⟩ := find_in_order hs hroot
  have hfs : find crossed (.ofString "/p") =
      .ok ⟨[['p']], [[['a'], ['z']], [['a', '.']], [['l']]]⟩ := by
    cbv
  obtain rfl := Except.ok.inj (hfind.symm.trans hfs)
  refine ⟨hs, hroot, _, hfind, by decide, by decide, hsorted, ?_⟩
  obtain ⟨-, -, l, content, _, -, hfound⟩ := hfiles (.ofString "l") (by decide)
  exact ⟨l, content, hfound.trans (if_pos (by decide))⟩

/-- A file with a long name in directories with long names, one in another. -/
def deepFile : Storage where
  entries :=
    (List.range 16).map (fun n => (nested ['p'] n, .directory)) ++ [(nested ['p'] 16, .file [])]

/-- The name of this file, when it is looked at. -/
def deepFileName : Pending where
  directory := nested ['p'] 15
  names := List.replicate 15 (List.replicate 255 'x')
  name := List.replicate 255 'x'
  links := linkLimit

/-- It is found in a directory that can be read, though the path to it cannot be used. -/
theorem find_lists_unusable_path :
    deepFile.IsFileTree ∧ deepFile.canonical? (.ofString "/p") = some ([['p']], .directory) ∧
    ∃ fs, find deepFile (.ofString "/p") = .ok fs ∧
      ∃ q ∈ fs.relative, deepFile.find? (fs.root.path.join q) = none ∧
        deepFile.canonical? (fs.root.path.join q) = none := by
  have hs : deepFile.IsFileTree := isFileTree_of_entries (by decide +kernel) rfl
  have hroot : deepFile.canonical? (.ofString "/p") = some ([['p']], .directory) := by
    decide +kernel
  have hlook : (deepFile.moment [['p']] 15).pending = [deepFileName] ∧
      deepFileName.sight deepFile [['p']] = .file := by
    decide +kernel
  have hmem : deepFileName.trail ∈ deepFile.walk [['p']] :=
    mem_walk_iff.2 ⟨deepFileName, ⟨15, [], hlook.1⟩, hlook.2, rfl⟩
  refine ⟨hs, hroot, ⟨[['p']], deepFile.walk [['p']]⟩, by simp [find, hroot],
    ⟨Text.joinWith ['/'] deepFileName.trail⟩, List.mem_map_of_mem hmem, ?_, ?_⟩
  · decide +kernel
  · decide +kernel

end ProjectFiles

end LocaleSync
