/-
When two pushed files have the same name in the remote project. A unique name joins the names of a
path by dashes and puts them in lower case. Which of its dashes were separators cannot be told from
the name alone, but a pattern fixes the separators and dashes of all paths that it accepts
(`PushPattern.filter_isMark_of_isCut`). So the files of a plan share a unique name exactly if their
paths differ in letter case only (`Push.plan_uniqueName_eq_iff`), and there are such files
(`Push.plan_shares_uniqueName`).
-/
import LocaleSync.Proofs.Discovery
import LocaleSync.Proofs.Push.Sorting
import LocaleSync.Proofs.PushPattern.Cut
import LocaleSync.Proofs.Text.Casing
import LocaleSync.Push

namespace LocaleSync

/-! ## Telling separators apart -/

namespace Text

theorem filter_isMark_replaceChar {a b : Char} (ha : isMark a = true) (hb : isMark b = true)
    (t : Text) : (replaceChar a b t).filter isMark = replaceChar a b (t.filter isMark) := by
  rw [replaceChar, replaceChar, List.filter_map]
  congr 1
  refine List.filter_congr fun c _ => ?_
  by_cases hc : c = a
  · simp [hc, ha, hb]
  · simp [hc]

/-- A text can be told from its separators and from what is left when some are written for
others. -/
theorem eq_of_replaceChar_of_filter {a b : Char} (ha : isMark a = true) (hb : isMark b = true)
    {t u : Text} (h : replaceChar a b t = replaceChar a b u)
    (hmarks : t.filter isMark = u.filter isMark) : t = u := by
  induction t generalizing u with
  | nil => exact (List.map_eq_nil_iff.1 h.symm).symm
  | cons c t ih =>
    cases u with
    | nil => cases h
    | cons d u =>
      rw [replaceChar_cons, replaceChar_cons] at h
      obtain ⟨hhead, htail⟩ := List.cons.inj h
      have hkeep : ∀ x, isMark (if x = a then b else x) = isMark x := by
        intro x
        by_cases hx : x = a
        · simp [hx, ha, hb]
        · simp [hx]
      have hsame : isMark c = isMark d := by rw [← hkeep c, hhead, hkeep]
      by_cases hc : isMark c = true
      · rw [List.filter_cons_of_pos hc, List.filter_cons_of_pos (hsame ▸ hc)] at hmarks
        obtain ⟨rfl, hrest⟩ := List.cons.inj hmarks
        rw [ih htail hrest]
      · have hne : ∀ x, ¬ isMark x = true → x ≠ a := by
          rintro x hx rfl
          exact hx ha
        rw [if_neg (hne c hc), if_neg (hne d (hsame ▸ hc))] at hhead
        rw [List.filter_cons_of_neg hc, List.filter_cons_of_neg (hsame ▸ hc)] at hmarks
        rw [hhead, ih htail hmarks]

/-- Of three separators, writing the slash for the backslash keeps apart the two that writing the
dash for the slash does not. -/
theorem eq_of_dashed_of_slashed {t u : Text} (ht : ∀ c ∈ t, isMark c = true)
    (hu : ∀ c ∈ u, isMark c = true) (hdash : replaceChar '/' '-' t = replaceChar '/' '-' u)
    (hslash : replaceChar '\\' '/' t = replaceChar '\\' '/' u) : t = u := by
  induction t generalizing u with
  | nil => exact (List.map_eq_nil_iff.1 hdash.symm).symm
  | cons c t ih =>
    cases u with
    | nil => cases hdash
    | cons d u =>
      rw [replaceChar_cons, replaceChar_cons] at hdash hslash
      obtain ⟨hd, hdash⟩ := List.cons.inj hdash
      obtain ⟨hs, hslash⟩ := List.cons.inj hslash
      have htail := ih (fun x hx => ht x (by simp [hx])) (fun x hx => hu x (by simp [hx])) hdash hslash
      have hhead : c = d := by
        rcases isMark_iff.1 (ht c (by simp)) with rfl | rfl | rfl <;>
          rcases isMark_iff.1 (hu d (by simp)) with rfl | rfl | rfl <;>
          first | rfl | exact absurd hd (by decide) | exact absurd hs (by decide)
      rw [hhead, htail]

end Text

/-! ## The separators of the paths that a pattern accepts -/

namespace PushPattern

open Text

theorem isMark_of_isWord {c : Char} (h : isWord c = true) : isMark c = false := by
  rw [Bool.eq_false_iff]
  intro hc
  rcases isMark_iff.1 hc with rfl | rfl | rfl <;> cases h

/-- The pieces that a segment takes have the same separators. -/
theorem filter_isMark_of_fits {seg : Segment} {x y : Text} (hx : Fits seg x) (hy : Fits seg y) :
    x.filter isMark = y.filter isMark := by
  have hcode : ∀ z, IsCode z → z.filter isMark = ['-'] := by
    rintro _ ⟨a, b, c, d, rfl, ha, hb, hc, hd⟩
    have hdash : isMark '-' = true := by decide
    simp [isMark_of_isWord ha, isMark_of_isWord hb, isMark_of_isWord hc, isMark_of_isWord hd, hdash]
  have hlang : ∀ z, IsWords z → z.filter isMark = [] := fun z hz =>
    List.filter_eq_nil_iff.2 fun c hc => by simp [isMark_of_isWord (hz.2 c hc)]
  have hsame : ∀ z, SameLetters seg.text z → z.filter isMark = seg.text.filter isMark := by
    intro z hz
    rw [← filter_isMark_map_toLower, ← hz, filter_isMark_map_toLower]
  rcases seg with _ | v
  · exact (hsame x hx).trans (hsame y hy).symm
  · cases v with
    | code => exact (hcode x hx).trans (hcode y hy).symm
    | lang => exact (hlang x hx).trans (hlang y hy).symm
    | _ => exact (hsame x hx).trans (hsame y hy).symm

/-- **Texts that are cut for the same segments have the same separators.** -/
theorem filter_isMark_of_isCut {segs : List Segment} {x y : Text} {xs ys : List Text}
    (hx : IsCut segs x xs) (hy : IsCut segs y ys) : x.filter isMark = y.filter isMark := by
  induction segs generalizing x y xs ys with
  | nil => rw [(isCut_nil_iff.1 hx).1, (isCut_nil_iff.1 hy).1]
  | cons seg segs ih =>
    obtain ⟨a, _, u, -, rfl, ha, hu⟩ := isCut_cons_iff.1 hx
    obtain ⟨b, _, v, -, rfl, hb, hv⟩ := isCut_cons_iff.1 hy
    rw [List.filter_append, List.filter_append, filter_isMark_of_fits ha hb, ih hu hv]

end PushPattern

/-! ## Unique names -/

namespace LocaleFile

theorem replaceChar_joinWith {names : List Text} (h : ∀ name ∈ names, '/' ∉ name) :
    Text.replaceChar '/' '-' (Text.joinWith ['/'] names) = Text.joinWith ['-'] names := by
  induction names with
  | nil => rfl
  | cons name names ih =>
    have hname := Text.replaceChar_of_not_mem (b := '-') (h name (by simp))
    by_cases hn : names = []
    · subst hn
      exact hname
    · rw [Text.joinWith_cons name hn, Text.joinWith_cons name hn, Text.replaceChar_append,
        Text.replaceChar_append, hname, ih fun name hm => h name (by simp [hm])]
      rfl

variable {f g : LocaleFile} {names others : List Text}

theorem posix_eq_text (hf : f.relative = Path.ofPieces false names)
    (hnames : ∀ name ∈ names, Path.IsName name) : f.relative.posix = f.relative.text := by
  rw [Path.posix, hf, Path.parts_ofPieces hnames]
  rfl

/-- The unique name is the path with dashes for slashes, in lower case. -/
theorem uniqueName_eq (hf : f.relative = Path.ofPieces false names)
    (hnames : ∀ name ∈ names, Path.IsName name) :
    f.uniqueName = Text.replaceChar '/' '-' (Text.lower f.relative.text) := by
  rw [uniqueName, parts, hf, Path.parts_ofPieces hnames,
    ← replaceChar_joinWith fun name hm => (hnames name hm).slash_not_mem,
    Text.lower_replaceChar (Text.isNeutral_of_mem (by decide)) (Text.isNeutral_of_mem (by decide))]
  rfl

/-- **Files that a pattern accepts share a unique name exactly if their paths have the same lower
case.** -/
theorem uniqueName_eq_iff {p : PushPattern} {root : Path} {r : Registry}
    (hf : p.recognize root (Path.ofPieces false names) r = .file f)
    (hg : p.recognize root (Path.ofPieces false others) r = .file g)
    (hnames : ∀ name ∈ names, Path.IsName name) (hothers : ∀ name ∈ others, Path.IsName name) :
    f.uniqueName = g.uniqueName ↔ Text.lower f.relative.text = Text.lower g.relative.text := by
  have hfrel := PushPattern.relative_of_recognize hf
  have hgrel := PushPattern.relative_of_recognize hg
  rw [uniqueName_eq hfrel hnames, uniqueName_eq hgrel hothers]
  refine ⟨fun h => ?_, fun h => by rw [h]⟩
  obtain ⟨_, hfcut⟩ := PushPattern.exists_isCut_of_recognize hf
  obtain ⟨_, hgcut⟩ := PushPattern.exists_isCut_of_recognize hg
  rw [← hfrel, posix_eq_text hfrel hnames] at hfcut
  rw [← hgrel, posix_eq_text hgrel hothers] at hgcut
  -- The unique names tell slashes from backslashes, the pattern tells slashes from dashes.
  have hdash := congrArg (List.filter Text.isMark) h
  rw [Text.filter_isMark_replaceChar (by decide) (by decide),
    Text.filter_isMark_replaceChar (by decide) (by decide), Text.filter_isMark_lower,
    Text.filter_isMark_lower] at hdash
  have hslash := PushPattern.filter_isMark_of_isCut hfcut hgcut
  rw [PushPattern.slashed, PushPattern.slashed, Text.filter_isMark_replaceChar (by decide) (by decide),
    Text.filter_isMark_replaceChar (by decide) (by decide)] at hslash
  have hmarks := Text.eq_of_dashed_of_slashed (fun c hc => (List.mem_filter.1 hc).2)
    (fun c hc => (List.mem_filter.1 hc).2) hdash hslash
  refine Text.eq_of_replaceChar_of_filter (by decide) (by decide) h ?_
  rw [Text.filter_isMark_lower, Text.filter_isMark_lower, hmarks]

end LocaleFile

/-! ## Plans -/

namespace Push

variable {s : Storage} {curdir : Path} {c : Config} {r : Registry} {t : FormatTable} {skip : Bool}
  {notes notes' : List Note}

/-- The items of a plan are candidates under their unique names. -/
theorem mem_items_of_sort {files : List LocaleFile} {p : Plan}
    (h : (sort t skip files).run.run notes = (.ok p, notes')) :
    ∀ item ∈ p.items, item.file ∈ files ∧ item.uniqueName = item.file.uniqueName := by
  intro item hm
  obtain rfl := eq_sorted_of_run_sort h
  have hdivision := isDivision_sorted t files
  exact ⟨hdivision.file_mem hm, (hdivision.items item hm).1⟩

/-- Where no files are given, the candidates are those that a pattern discovers. -/
theorem exists_discover_of_candidates {files : List LocaleFile}
    (h : (candidates s curdir c r []).run.run notes = (.ok files, notes')) :
    ∃ (p : PushPattern) (before between : List Note),
      (p.discover s curdir r).run.run before = (.ok files, between) := by
  simp only [candidates, List.isEmpty_nil, if_true] at h
  obtain ⟨p, before, -, h⟩ := Reporting.run_bind_eq_ok.1 h
  obtain ⟨found, between, hfound, h⟩ := Reporting.run_bind_eq_ok.1 h
  split at h
  · cases h
  · obtain ⟨h, -⟩ := Prod.mk.inj h
    obtain rfl := Except.ok.inj h
    exact ⟨p, before, between, hfound⟩

/-- Files that all have a format are all planned. -/
theorem run_sort {files : List LocaleFile} {format : Text}
    (h : ∀ f ∈ files, t.resolve f = .ok format) :
    (sort t skip files).run.run notes =
      (.ok ⟨files.map fun f => ⟨f, format, f.uniqueName⟩, []⟩, notes) := by
  induction files with
  | nil => rfl
  | cons file files ih =>
    simp only [sort, h file (by simp)]
    rw [Reporting.run_bind, ih fun f hf => h f (by simp [hf])]
    rfl

/-- Files of the project that are all recognized are the candidates. -/
theorem run_plan {p : PushPattern} (hp : c.pushPattern = .ok p) {fs : ProjectFiles}
    (hfind : ProjectFiles.find s curdir = .ok fs) (files : List LocaleFile)
    (hfiles : fs.relative.map (fun q => p.recognize fs.root.path q r) = files.map .file)
    (hne : files ≠ []) :
    (plan s curdir c r t [] skip).run.run notes = (sort t skip files).run.run notes := by
  have hfound : fs.relative.filterMap (fun q => (p.recognize fs.root.path q r).file?) = files := by
    have hmap := congrArg (List.filterMap Recognition.file?) hfiles
    rw [List.filterMap_map, List.filterMap_map] at hmap
    exact hmap.trans List.filterMap_some
  have hsaid : fs.relative.flatMap (fun q => (p.recognize fs.root.path q r).notes q) = [] := by
    refine List.flatMap_eq_nil_iff.2 fun q hq => ?_
    have hmem : p.recognize fs.root.path q r ∈ files.map .file :=
      hfiles ▸ List.mem_map_of_mem hq
    obtain ⟨f, -, hf⟩ := List.mem_map.1 hmem
    rw [← hf]
    rfl
  have hcandidates : (candidates s curdir c r []).run.run notes = (.ok files, notes) := by
    simp only [candidates, List.isEmpty_nil, if_true]
    rw [Reporting.run_bind, Reporting.run_lift, hp]
    simp only [Reporting.run_bind, PushPattern.run_discover hfind, hfound, hsaid, List.append_nil,
      List.isEmpty_iff, hne, if_false]
    rfl
  rw [plan, Reporting.run_bind, hcandidates]

/-- **The items of a plan share a unique name exactly if their paths differ in letter case only**,
unless the files were given. -/
theorem plan_uniqueName_eq_iff (hs : s.IsFileTree) {p : Plan}
    (hrun : (plan s curdir c r t [] skip).run.run notes = (.ok p, notes')) {a b : Item}
    (ha : a ∈ p.items) (hb : b ∈ p.items) :
    a.uniqueName = b.uniqueName ↔
      Text.lower a.file.relative.text = Text.lower b.file.relative.text := by
  obtain ⟨files, _, hfiles, hsort⟩ := Reporting.run_bind_eq_ok.1 hrun
  obtain ⟨p, _, _, hdiscover⟩ := exists_discover_of_candidates hfiles
  obtain ⟨fs, hfind, hmem⟩ := PushPattern.exists_of_run_discover hdiscover
  obtain ⟨ha, haname⟩ := mem_items_of_sort hsort a ha
  obtain ⟨hb, hbname⟩ := mem_items_of_sort hsort b hb
  obtain ⟨_, hq, hfa⟩ := hmem _ ha
  obtain ⟨_, hq', hfb⟩ := hmem _ hb
  obtain ⟨trail, htrail, rfl⟩ := List.mem_map.1 hq
  obtain ⟨trail', htrail', rfl⟩ := List.mem_map.1 hq'
  rw [haname, hbname]
  exact LocaleFile.uniqueName_eq_iff hfa hfb (ProjectFiles.isName_of_mem_trails hs hfind _ htrail)
    (ProjectFiles.isName_of_mem_trails hs hfind _ htrail')

/-- Three files, of which two have names that differ in letter case only. -/
def twoCases : Storage where
  entries := [
    (["p".toList], .directory),
    (["p".toList, "i18n".toList], .directory),
    (["p".toList, "i18n".toList, "de-de.json".toList], .file []),
    (["p".toList, "i18n".toList, "fr-fr.json".toList], .file []),
    (["p".toList, "i18n".toList, "FR-FR.json".toList], .file [])]

open LocaleSync.Language (french german)

def inI18n : Config where
  organizationId := 1
  projectId := 2
  pushPattern? := some "i18n/<language_code>.json".toList
  languages := [german, french]

def fileNamed (l : Language) (name : Text) : LocaleFile where
  relative := ⟨Text.joinWith ['/'] ["i18n".toList, name]⟩
  language := l
  root := .ofString "/p"

def planned : List LocaleFile :=
  [fileNamed french "FR-FR.json".toList, fileNamed german "de-de.json".toList,
    fileNamed french "fr-fr.json".toList]

theorem plan_twoCases :
    (plan twoCases (.ofString "/p") inI18n inI18n.registry inI18n.formatTable [] false).run.run [] =
      (.ok ⟨planned.map fun f => ⟨f, "JSON".toList, f.uniqueName⟩, []⟩, []) := by
  have hfind : ProjectFiles.find twoCases (.ofString "/p") = .ok ⟨["p".toList],
      [["i18n".toList, "FR-FR.json".toList], ["i18n".toList, "de-de.json".toList],
        ["i18n".toList, "fr-fr.json".toList]]⟩ := by cbv
  have hp : inI18n.pushPattern = .ok (.ofText "i18n/<language_code>.json".toList (by decide)) :=
    PushPattern.compile_ofText _
  have hformat : ∀ f ∈ planned, inI18n.formatTable.resolve f = .ok "JSON".toList := by
    decide +kernel
  rw [run_plan hp hfind planned (by decide +kernel) (by simp [planned]), run_sort hformat]

theorem plan_uniqueName_twoCases :
    twoCases.IsFileTree ∧
    (fileNamed french "FR-FR.json".toList).uniqueName =
      (fileNamed french "fr-fr.json".toList).uniqueName ∧
    (fileNamed german "de-de.json".toList).uniqueName ≠
      (fileNamed french "fr-fr.json".toList).uniqueName := by
  have hs : twoCases.IsFileTree := Storage.isFileTree_of_entries (by decide +kernel) rfl
  have hitem : ∀ f ∈ planned, (⟨f, "JSON".toList, f.uniqueName⟩ : Item) ∈
      planned.map fun f => ⟨f, "JSON".toList, f.uniqueName⟩ := fun f hf => List.mem_map_of_mem hf
  have hfr := hitem (fileNamed french "fr-fr.json".toList) (by simp [planned])
  have hFR := hitem (fileNamed french "FR-FR.json".toList) (by simp [planned])
  have hde := hitem (fileNamed german "de-de.json".toList) (by simp [planned])
  refine ⟨hs, (plan_uniqueName_eq_iff hs plan_twoCases hFR hfr).2 (by decide +kernel), fun he => ?_⟩
  exact absurd ((plan_uniqueName_eq_iff hs plan_twoCases hde hfr).1 he) (by decide +kernel)

/-- Files at different paths that get the same name in the remote project. -/
theorem plan_shares_uniqueName :
    ∃ p notes, (plan twoCases (.ofString "/p") inI18n inI18n.registry inI18n.formatTable []
        false).run.run [] = (.ok p, notes) ∧
      ∃ a ∈ p.items, ∃ b ∈ p.items,
        a.file.relative ≠ b.file.relative ∧ a.uniqueName = b.uniqueName := by
  refine ⟨_, _, plan_twoCases,
    _, List.mem_map_of_mem (a := fileNamed french "FR-FR.json".toList) (by simp [planned]),
    _, List.mem_map_of_mem (a := fileNamed french "fr-fr.json".toList) (by simp [planned]),
    by decide, by decide +kernel⟩

end Push

end LocaleSync
