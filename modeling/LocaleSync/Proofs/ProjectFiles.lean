/-
The files of a project. They are exactly the files that can be reached from its directory, links
followed: each is found once for every directory that it is named in, under a path that leads to
this directory (`ProjectFiles.find_exact`). This holds where the limits on paths do not show. A
directory that is first met under a path that is too long is not read, so its files are not found
(`ProjectFiles.find_misses_long_path`).
-/
import LocaleSync.Discovery
import LocaleSync.Proofs.Path.Parent
import LocaleSync.Proofs.Storage.Coverage
import Mathlib

namespace LocaleSync

/-! ## The paths of a walk -/

theorem Location.path_eq (l : Location) : Location.path l = Path.ofPieces true l :=
  rfl

namespace Storage

/-- Whether a path spells a name in the directory at `d`: this is its last component, and what it
lies in has this location. -/
def isNameIn (s : Storage) (d : Location) (name : Text) (q : Path) : Bool :=
  q.fileName? = some name && q.parent?.bind s.canonical? = some (d, .directory)

section

variable {s : Storage} {root d l : Location} {p : Pending} {name : Text}

theorem entryAt?_of_canonical? (hs : s.IsTree) {q : Path} {e : Entry}
    (h : s.canonical? q = some (l, e)) : s.entryAt? l = some e := by
  unfold canonical? at h
  split at h
  · cases h
  · split at h
    next hr =>
      obtain ⟨rfl, rfl⟩ := Prod.mk.inj (Option.some.inj h)
      exact (leads_iff.2 hr).sound hs (hs.start q)
    next => cases h

theorem nul_not_mem_path (hl : ∀ name ∈ l, IsEntryName name) :
    '\x00' ∉ (Location.path l).text := by
  intro hm
  rcases List.mem_cons.1 hm with hm | hm
  · cases hm
  · rcases Text.mem_of_mem_joinWith hm with hm | ⟨name, hname, hm⟩
    · cases hm
    · exact (hl name hname).no_nul hm

/-- A path that spells a location leads where its names lead. -/
theorem leads_path (hl : ∀ name ∈ l, IsEntryName name) {m : Manner} {r : Target}
    (h : Leads s m linkLimit [] l r) :
    Leads s m linkLimit [] (Text.splitOn '/' (Location.path l).text) r := by
  rw [Location.path_eq, Path.splitOn_ofPieces]
  refine .void rfl ?_
  by_cases hne : l = []
  · subst hne
    exact .void rfl h
  · rw [Text.splitOn_joinWith hne fun name hname => (hl name hname).isName.slash_not_mem]
    exact h

theorem canonical?_path (hl : ∀ name ∈ l, IsEntryName name) {e : Entry} {left : Nat}
    (h : Leads s .canonical linkLimit [] l (.found d e left)) :
    s.canonical? (Location.path l) = some (d, e) := by
  have hstart : s.start (Location.path l) = [] := rfl
  have htext : (Location.path l).text ≠ [] := List.cons_ne_nil _ _
  simp [canonical?, htext, nul_not_mem_path hl, hstart, (leads_path hl h).resolve_eq]

theorem IsLookedAt.isEntryName (hs : s.IsFileTree) (hroot : s.entryAt? root = some .directory)
    (h : s.IsLookedAt root p) : ∀ name ∈ root ++ p.trail, IsEntryName name := by
  intro name hname
  obtain ⟨_, hon⟩ := h.isOnWay
  obtain ⟨_, hway, -⟩ := hon.way
  rcases List.mem_append.1 hname with hname | hname
  · exact hs.names hroot name hname
  · rcases List.mem_append.1 hname with hname | hname
    · exact hway.isEntryName hs name hname
    · exact List.mem_singleton.1 hname ▸ hs.isEntryName hon.listed

/-- **The path to a name that is looked at spells this name in its directory**, and no other. -/
theorem IsLookedAt.isNameIn_iff (hs : s.IsFileTree) (hroot : s.entryAt? root = some .directory)
    (hspell : isSpellable root = true) (h : s.IsLookedAt root p) :
    s.isNameIn d name (Location.path (root ++ p.trail)) = true ↔ p.directory = d ∧ p.name = name := by
  have hnames := h.isEntryName hs hroot
  rw [Pending.trail, ← List.append_assoc] at hnames ⊢
  have hsolid : ∀ piece ∈ root ++ p.names, Path.IsSolid piece :=
    fun piece hm => (hnames piece (List.mem_append_left _ hm)).isName.isSolid
  have hname := (hnames p.name (by simp)).isName
  obtain ⟨n, rest, hn⟩ := h
  have hleads := leads_of_mem_pending hs hroot (m := .canonical) rfl (fun _ => hspell) n p
    (by simp [hn])
  have hcanonical := canonical?_path (fun name hm => hnames name (List.mem_append_left _ hm)) hleads
  rw [isNameIn, Location.path_eq, Path.fileName?_ofPieces hsolid hname,
    Path.parent?_ofPieces hsolid hname.isSolid, ← Location.path_eq, Option.bind_some, hcanonical]
  simp [and_comm]

/-- A file is found once for each directory that it is named in. -/
theorem countP_isNameIn_walk (hs : s.IsFileTree) (hroot : s.entryAt? root = some .directory)
    (hlimits : s.IsWithinLimits root) (hd : s.Reached root d) (hname : name ∈ s.names d)
    {content : Bytes} (hl : s.LeadsTo d name l (.file content)) :
    (s.walk root).countP (fun t => s.isNameIn d name (Location.path (root ++ t))) = 1 := by
  obtain ⟨p, hp, rfl, rfl⟩ := exists_isLookedAt hs hroot hlimits hd hname
  have hsight := Pending.sight_of_leadsTo_file (hs.isEntryName hname) (hlimits.links p hp)
    (hlimits.short p hp) hl
  have hmem : p.trail ∈ s.walk root := mem_walk_iff.2 ⟨p, hp, hsight, rfl⟩
  have hsame : ∀ t ∈ s.walk root,
      s.isNameIn p.directory p.name (Location.path (root ++ t)) = true ↔ (t == p.trail) = true := by
    intro t ht
    obtain ⟨q, hq, -, rfl⟩ := mem_walk_iff.1 ht
    rw [beq_iff_eq]
    constructor
    · intro h
      obtain ⟨hd, hn⟩ := (hq.isNameIn_iff hs hroot hlimits.spellable).1 h
      -- Both are reached by the first way to their directory.
      have hnames := (hd ▸ hq.isFirst hs hroot hlimits).unique (hp.isFirst hs hroot hlimits)
      rw [Pending.trail, Pending.trail, hnames, hn]
    · intro h
      rw [h]
      exact (hp.isNameIn_iff hs hroot hlimits.spellable).2 ⟨rfl, rfl⟩
  exact (List.countP_congr hsame).trans (List.count_eq_one_of_mem (nodup_walk s root) hmem)

/-- What is found is a file that can be reached. -/
theorem exists_isNameIn_of_mem_walk (hs : s.IsFileTree)
    (hroot : s.entryAt? root = some .directory) (hspell : isSpellable root = true) {t : List Text}
    (ht : t ∈ s.walk root) : ∃ d name l content, s.Reached root d ∧ name ∈ s.names d ∧
      s.LeadsTo d name l (.file content) ∧ s.isNameIn d name (Location.path (root ++ t)) = true := by
  obtain ⟨p, hp, hsight, rfl⟩ := mem_walk_iff.1 ht
  obtain ⟨_, hon⟩ := hp.isOnWay
  obtain ⟨_, hway, -⟩ := hon.way
  obtain ⟨l, content, hl⟩ := Pending.leadsTo_of_sight_file (hs.isEntryName hon.listed) hsight
  exact ⟨p.directory, p.name, l, content, hway.reached _ (by simp), hon.listed, hl,
    (hp.isNameIn_iff hs hroot hspell).2 ⟨rfl, rfl⟩⟩

end

end Storage

/-! ## What is found -/

namespace ProjectFiles

open Storage

/-- A path of names joined to a directory is the path that has the names of both. -/
theorem join_trail {root : Location} (hroot : ∀ name ∈ root, Path.IsName name) {trail : List Text}
    (hnames : ∀ name ∈ trail, Path.IsName name) (hne : trail ≠ []) :
    root.path.join ⟨Text.joinWith ['/'] trail⟩ = Location.path (root ++ trail) := by
  rw [Location.path_eq, Location.path_eq,
    ← Path.join_ofPieces_ofPieces (fun name hm => (hroot name hm).isSolid)
      (fun name hm => (hnames name hm).isSolid) hne]
  rfl

/-- Both styles of paths tell of the same files. -/
theorem absolute_eq_map_join {fs : ProjectFiles} (hroot : ∀ name ∈ fs.root, Path.IsName name)
    (h : ∀ trail ∈ fs.trails, trail ≠ [] ∧ ∀ name ∈ trail, Path.IsName name) :
    fs.absolute = fs.relative.map fun q => fs.root.path.join q := by
  rw [absolute, relative, List.map_map]
  refine List.map_congr_left fun trail ht => ?_
  obtain ⟨hne, hnames⟩ := h trail ht
  exact (join_trail hroot hnames hne).symm

/-- The trails of a project are made of names. -/
theorem isName_of_mem_trails {s : Storage} (hs : s.IsFileTree) {path : Path} {fs : ProjectFiles}
    (h : find s path = .ok fs) : ∀ trail ∈ fs.trails, ∀ name ∈ trail, Path.IsName name := by
  unfold find at h
  split at h
  next l hl =>
    obtain rfl := Except.ok.inj h
    intro trail ht name hm
    obtain ⟨p, hp, -, rfl⟩ := mem_walk_iff.1 ht
    have hdir := entryAt?_of_canonical? hs.toIsTree hl
    exact (hp.isEntryName hs hdir name (List.mem_append_right _ hm)).isName
  next =>
    obtain rfl := Except.ok.inj h
    simp
  next =>
    obtain rfl := Except.ok.inj h
    simp
  next => cases h

/-- **Every file that can be reached is found once, and nothing else.** -/
theorem find_exact {s : Storage} {path : Path} {root : Location} (hs : s.IsFileTree)
    (hroot : s.canonical? path = some (root, .directory)) (hlimits : s.IsWithinLimits root) :
    (∃ n, (s.moment root n).pending = []) ∧
    ∃ fs, find s path = .ok fs ∧ fs.root = root ∧
      fs.absolute = fs.relative.map (fun q => root.path.join q) ∧
      (∀ d name l content, s.Reached root d → name ∈ s.names d →
        s.LeadsTo d name l (.file content) → fs.absolute.countP (s.isNameIn d name) = 1) ∧
      ∀ q ∈ fs.absolute, ∃ d name l content, s.Reached root d ∧ name ∈ s.names d ∧
        s.LeadsTo d name l (.file content) ∧ s.isNameIn d name q = true := by
  have hdir : s.entryAt? root = some .directory := entryAt?_of_canonical? hs.toIsTree hroot
  have hfind : find s path = .ok ⟨root, s.walk root⟩ := by simp [find, hroot]
  refine ⟨exists_moment_pending_eq_nil s root, ⟨root, s.walk root⟩, hfind, rfl, ?_, ?_, ?_⟩
  · refine absolute_eq_map_join (fun name hm => (hs.names hdir name hm).isName) fun trail ht => ?_
    obtain ⟨p, -, -, rfl⟩ := mem_walk_iff.1 ht
    exact ⟨by simp [Pending.trail], isName_of_mem_trails hs hfind _ ht⟩
  · intro d name l content hd hname hl
    rw [absolute, List.countP_map]
    exact countP_isNameIn_walk hs hdir hlimits hd hname hl
  · intro q hq
    obtain ⟨t, ht, rfl⟩ := List.mem_map.1 hq
    exact exists_isNameIn_of_mem_walk hs hdir hlimits.spellable ht

/-- A directory `a` with a link back to where it lies, a second name `b` for it, a link `c` to
nothing, and a link `d` to a link `e` that leads out of the directory. -/
def tangle : Storage where
  entries := [
    ([['p']], .directory),
    ([['p'], ['a']], .directory),
    ([['p'], ['a'], ['f']], .file []),
    ([['p'], ['a'], ['g']], .link ['.', '.']),
    ([['p'], ['b']], .link ['a']),
    ([['p'], ['c']], .link ['x']),
    ([['p'], ['d']], .link ['e']),
    ([['p'], ['e']], .link ['/', 'q']),
    ([['q']], .directory),
    ([['q'], ['h']], .file [])]

theorem find_exact_tangle :
    tangle.IsFileTree ∧ tangle.IsWithinLimits [['p']] ∧
    ∃ fs, find tangle (.ofString "/p") = .ok fs ∧
      fs.absolute = [.ofString "/p/a/f", .ofString "/p/d/h"] ∧
      fs.absolute.countP (tangle.isNameIn [['p'], ['a']] ['f']) = 1 ∧
      fs.absolute.countP (tangle.isNameIn [['q']] ['h']) = 1 := by
  have hs : tangle.IsFileTree := isFileTree_of_entries (by decide) rfl
  have hlimits : tangle.IsWithinLimits [['p']] := by
    refine isWithinLimits_of_forall (by decide) (forall_isLookedAt (n := 8) ?_ ?_)
    · cbv
    · cbv
  have hroot : tangle.canonical? (.ofString "/p") = some ([['p']], .directory) := by decide
  obtain ⟨-, fs, hfind, -, -, honce, -⟩ := find_exact hs hroot hlimits
  have hq : tangle.LeadsTo [['p']] ['d'] [['q']] .directory := ⟨40, 38, by decide⟩
  have ha : tangle.LeadsTo [['p']] ['a'] [['p'], ['a']] .directory := ⟨40, 40, by decide⟩
  refine ⟨hs, hlimits, fs, hfind, ?_, ?_, ?_⟩
  · have hfs : find tangle (.ofString "/p") = .ok ⟨[['p']], [[['a'], ['f']], [['d'], ['h']]]⟩ := by
      cbv
    obtain rfl := Except.ok.inj (hfind.symm.trans hfs)
    decide
  · exact honce _ _ _ _ (.step .root (mem_names_iff.2 ⟨_, rfl⟩) ha) (mem_names_iff.2 ⟨_, rfl⟩)
      (leadsTo_entry (by decide) rfl (by simp))
  · exact honce _ _ _ _ (.step .root (mem_names_iff.2 ⟨_, rfl⟩) hq) (mem_names_iff.2 ⟨_, rfl⟩)
      (leadsTo_entry (by decide) rfl (by simp))

/-! ## What a long path hides -/

/-- Directories with a long name, `n` of them one in another. -/
def nested (first : Text) (n : Nat) : Location :=
  first :: List.replicate n (List.replicate 255 'x')

/-- A file as deep as the link that leads to its place. -/
def farFile : Storage where
  entries :=
    (List.range 9).map (fun n => (nested ['p'] n, .directory)) ++
    (List.range 9).map (fun n => (nested ['b'] n, .directory)) ++
    [(nested ['p'] 8 ++ [['l']], .link ['/', 'b']), (nested ['b'] 8 ++ [['f']], .file [])]

/-- Its directory is met under a path that cannot be read, though the file can be reached. -/
theorem find_misses_long_path :
    farFile.IsFileTree ∧ farFile.canonical? (.ofString "/p") = some ([['p']], .directory) ∧
    (∀ p, farFile.IsLookedAt [['p']] p → p.HasLinks farFile) ∧
    farFile.Reached [['p']] (nested ['b'] 8) ∧ ['f'] ∈ farFile.names (nested ['b'] 8) ∧
    farFile.LeadsTo (nested ['b'] 8) ['f'] (nested ['b'] 8 ++ [['f']]) (.file []) ∧
    ∃ fs, find farFile (.ofString "/p") = .ok fs ∧
      fs.absolute.countP (farFile.isNameIn (nested ['b'] 8) ['f']) = 0 := by
  have hs : farFile.IsFileTree := isFileTree_of_entries (by decide +kernel) rfl
  have hroot : farFile.canonical? (.ofString "/p") = some ([['p']], .directory) := by
    decide +kernel
  have hentry : farFile.entryAt? (nested ['b'] 8 ++ [['f']]) = some (.file []) := by decide +kernel
  -- The walk, look by look: where it ends, what it has entered, and what it has seen.
  have hwalk : (farFile.moment [['p']] 17).pending = [] ∧
      nested ['b'] 8 ∈ (farFile.moment [['p']] 17).entered ∧
      (List.range 17).all (fun k => (farFile.moment [['p']] k).pending.head?.all fun p =>
        farFile.resolve .follow p.links p.directory [p.name] ≠ .blocked &&
          p.sight farFile [['p']] ≠ .file) = true := by
    decide +kernel
  obtain ⟨hend, hentered, hlooks⟩ := hwalk
  have hseen := forall_isLookedAt hend hlooks
  simp only [Bool.and_eq_true, decide_eq_true_eq] at hseen
  have hnone : farFile.walk [['p']] = [] := by
    rw [List.eq_nil_iff_forall_not_mem]
    intro t ht
    obtain ⟨p, hp, hsight, -⟩ := mem_walk_iff.1 ht
    exact (hseen p hp).2 hsight
  obtain ⟨_, _, hway, -⟩ := (isOrderly_moment farFile [['p']] 17).entered _ hentered
  refine ⟨hs, hroot, fun p hp => Pending.hasLinks_of_ne_blocked (hseen p hp).1,
    hway.reached _ (by simp), mem_names_iff.2 ⟨_, hentry⟩,
    leadsTo_entry (by decide) hentry (by simp), ⟨[['p']], farFile.walk [['p']]⟩, ?_, ?_⟩
  · simp [find, hroot]
  · simp [absolute, hnone]

end ProjectFiles

end LocaleSync
