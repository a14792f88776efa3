/-
A pull keeps what is there. Unless it is told to replace files, a turn writes only where nothing is:
the file that is settled on is free (`Settles.isPresent_eq_false`), and the way to it is safe, since
the destinations of a plan are below the project's directory, at paths that go up once at most and
then down by names. So a turn adds the file it downloads (`IsTurn.addsOwnFile`), no later turn
changes it, and a pull adds one new file for each target that is not skipped
(`Turns.keepsFiles`).
-/
import LocaleSync.Proofs.Path.Position
import LocaleSync.Proofs.Pull.Selection
import LocaleSync.Proofs.Pull.Turns
import LocaleSync.Proofs.Registry

namespace LocaleSync

/-- A user who never wants a file replaced and names files by their names alone. -/
structure Answers.IsCareful (a : Answers) : Prop where
  actions : .ok .replace ∉ a.actions
  names : ∀ name, .ok name ∈ a.names → Path.IsName name

/-- A destination below a directory, at a collapsed path. -/
structure LocaleFile.IsBelow (f : LocaleFile) (root : Path) : Prop where
  root_eq : f.root = root
  isCollapsed : f.relative.IsCollapsed

theorem PullPattern.isBelow_destination (p : PullPattern) (root : Path) (l : Language)
    (name? : Option Text) : (p.destination root l name?).IsBelow root :=
  ⟨rfl, Path.isCollapsed_collapse _⟩

theorem LocaleFile.IsBelow.foldl_withName {f : LocaleFile} {root : Path} (h : f.IsBelow root)
    {names : List Text} (hnames : ∀ name ∈ names, Path.IsName name) :
    (names.foldl LocaleFile.withName f).IsBelow root := by
  induction names generalizing f with
  | nil => exact h
  | cons name names ih =>
    obtain ⟨hname, hnames⟩ := List.forall_mem_cons.1 hnames
    exact ih ⟨h.root_eq, isCollapsed_withName h.isCollapsed hname⟩ hnames

namespace Pull

/-- Options that do not allow files to be replaced. -/
structure Options.IsCareful (o : Options) : Prop where
  force : o.force = false
  action : o.action? ≠ some .replace

/-- What a turn needs: a tree with the project's directory in it, and a careful user. -/
structure IsReady (root : Path) (w : World) : Prop where
  tree : w.storage.IsTree
  isDirectory : w.storage.isDirectory root = true
  careful : w.answers.IsCareful

/-! ## Settling on a file -/

section

variable {o : Options} {w w' : World}

theorem Options.IsCareful.not_chooses (ho : o.IsCareful) (hw : w.answers.IsCareful) :
    ¬ Chooses o w w' .replace := by
  rintro (haction | ⟨-, hactions⟩)
  · exact ho.action haction
  · exact hw.actions (by simp [hactions])

variable {f : LocaleFile} {names : List Text} {g? : Option LocaleFile}

/-- A careful user is careful later on. -/
theorem Settles.isCareful (h : Settles o f w names g? w') (hw : w.answers.IsCareful) :
    w'.answers.IsCareful := by
  refine ⟨fun hreplace => hw.actions ?_, fun name hname => hw.names name ?_⟩
  · cases hasked : isConflict o w f && o.action?.isNone with
    | false => rwa [← h.unasked hasked]
    | true =>
      obtain ⟨hconflict, hnone⟩ := Bool.and_eq_true_iff.1 hasked
      obtain ⟨a, haction | ⟨-, hactions⟩⟩ := h.chooses hconflict
      · simp [haction] at hnone
      · rw [hactions]
        exact List.mem_cons_of_mem _ hreplace
  · rw [h.given]
    exact List.mem_append_right _ hname

theorem Settles.isName_of_mem (h : Settles o f w names g? w') (hw : w.answers.IsCareful) :
    ∀ name ∈ names, Path.IsName name := by
  intro name hm
  apply hw.names
  rw [h.given]
  exact List.mem_append_left _ (List.mem_map_of_mem hm)

end

/-! ## One turn -/

/-- What a turn did to files, and what is left of it in a later storage: it did nothing, or it added
one file at a place that was free, whose content was the answer to the last call of the turn, and
the file is there with that content. -/
structure AddsOwnFile (service : Service) (x : Turn) (later : Storage) : Prop where
  skips : x.written? = none → x.after.storage = x.before.storage
  calls : x.written?.isSome → x.after.calls =
    x.settled.calls ++ [.download x.target.page x.target.language.id]
  answer : ∀ f content, x.written? = some (f, content) →
    service.download x.settled.calls x.target.page x.target.language.id = .ok content
  adds : ∀ f content, x.written? = some (f, content) →
    ∃ l, x.before.storage.AddsFile x.after.storage l content ∧
      later.find? f.fullPath = some (l, .file content)

theorem AddsOwnFile.mono {service : Service} {x : Turn} {s s' : Storage}
    (h : AddsOwnFile service x s) (hext : s.Extends s') : AddsOwnFile service x s' := by
  refine ⟨h.skips, h.calls, h.answer, fun f content hwritten => ?_⟩
  obtain ⟨l, hadds, hfound⟩ := h.adds f content hwritten
  exact ⟨l, hadds, hext.find?_eq_some hfound⟩

theorem AddsOwnFile.cases {service : Service} {x : Turn} {s : Storage}
    (h : AddsOwnFile service x s) : x.after.storage = x.before.storage ∨
      ∃ l content, x.before.storage.AddsFile x.after.storage l content := by
  cases hwritten : x.written? with
  | none => exact .inl (h.skips hwritten)
  | some y =>
    obtain ⟨l, hadds, -⟩ := h.adds y.1 y.2 hwritten
    exact .inr ⟨l, y.2, hadds⟩

namespace IsTurn

variable {service : Service} {o : Options} {x : Turn} {root : Path} (hx : IsTurn service o x)
  (ho : o.IsCareful) (ht : x.target.destination.IsBelow root) (hready : IsReady root x.before)

include hx ho ht hready

/-- **A turn adds the file it downloads**, and nothing but directories with it. -/
theorem addsOwnFile : AddsOwnFile service x x.after.storage := by
  refine ⟨hx.skips, fun hwritten => ?_, hx.downloads, fun f content hwritten => ?_⟩
  · rw [hx.calls, hx.settles.calls, Turn.calls, if_pos hwritten, List.append_assoc]
  · obtain ⟨l, hstores⟩ := hx.writes f content hwritten
    have hsettles := hx.settles
    rw [Turn.file?, hwritten, Option.map_some] at hsettles
    have habsent := hsettles.isPresent_eq_false ho.force (ho.not_chooses hready.careful)
    have hbelow : f.IsBelow root := by
      rw [hsettles.last f rfl]
      exact ht.foldl_withName (hsettles.isName_of_mem hready.careful)
    have hsafe : x.before.storage.IsSafe f.fullPath := by
      rw [LocaleFile.fullPath, hbelow.root_eq] at habsent ⊢
      exact Storage.isSafe_join hready.isDirectory hbelow.isCollapsed habsent
    exact ⟨l, hstores.adds hready.tree hsafe habsent, hstores.found⟩

theorem extends_after : x.before.storage.Extends x.after.storage := by
  rcases (hx.addsOwnFile ho ht hready).cases with hsame | ⟨l, content, hadds⟩
  · rw [hsame]
    exact .refl _
  · exact hadds.keeps

theorem isReady_after : IsReady root x.after := by
  have hkeeps := hx.extends_after ho ht hready
  refine ⟨?_, hkeeps.isDirectory hready.isDirectory, ?_⟩
  · rcases (hx.addsOwnFile ho ht hready).cases with hsame | ⟨l, content, hadds⟩
    · rw [hsame]
      exact hready.tree
    · exact hadds.tree
  · rw [hx.answers]
    exact hx.settles.isCareful hready.careful

end IsTurn

/-! ## All turns -/

/-- What turns did to files, seen in a later storage: everything that was there before is there, and
the turns have added different files, each its own. -/
structure KeepsFiles (service : Service) (s : Storage) (xs : List Turn) (later : Storage) :
    Prop where
  keeps : s.Extends later
  turns : ∀ x ∈ xs, s.Extends x.before.storage
  adds : ∀ x ∈ xs, AddsOwnFile service x later
  distinct : ((downloaded xs).map fun f => later.place? f.fullPath).Nodup

theorem exists_written_of_mem_downloaded {xs : List Turn} {f : LocaleFile}
    (h : f ∈ downloaded xs) : ∃ x ∈ xs, ∃ content, x.written? = some (f, content) := by
  obtain ⟨x, hx, hf⟩ := List.mem_filterMap.1 h
  obtain ⟨y, hy, rfl⟩ := Option.map_eq_some_iff.1 hf
  exact ⟨x, hx, y.2, hy⟩

namespace KeepsFiles

variable {service : Service} {s s' s'' : Storage} {xs : List Turn}

/-- A file that was added is found at its place. -/
theorem exists_found (h : KeepsFiles service s xs s') {f : LocaleFile} (hf : f ∈ downloaded xs) :
    ∃ x ∈ xs, ∃ l content, x.before.storage.entryAt? l = none ∧
      s'.find? f.fullPath = some (l, .file content) := by
  obtain ⟨x, hx, content, hwritten⟩ := exists_written_of_mem_downloaded hf
  obtain ⟨l, hadds, hfound⟩ := (h.adds x hx).adds f content hwritten
  exact ⟨x, hx, l, content, hadds.free, hfound⟩

theorem mono (h : KeepsFiles service s xs s') (hext : s'.Extends s'') :
    KeepsFiles service s xs s'' := by
  refine ⟨h.keeps.trans hext, h.turns, fun x hx => (h.adds x hx).mono hext, ?_⟩
  have hplaces : ∀ f ∈ downloaded xs, s''.place? f.fullPath = s'.place? f.fullPath := by
    intro f hf
    obtain ⟨-, -, l, content, -, hfound⟩ := h.exists_found hf
    simp [Storage.place?, hfound, hext.find?_eq_some hfound]
  rw [List.map_congr_left hplaces]
  exact h.distinct

/-- A turn before turns that keep files: the places of later files were free when its own file was
there. -/
theorem cons {x : Turn} (hx : AddsOwnFile service x x.after.storage)
    (hext : x.before.storage.Extends x.after.storage)
    (h : KeepsFiles service x.after.storage xs s') :
    KeepsFiles service x.before.storage (x :: xs) s' := by
  refine ⟨hext.trans h.keeps, ?_, List.forall_mem_cons.2 ⟨hx.mono h.keeps, h.adds⟩, ?_⟩
  · exact List.forall_mem_cons.2 ⟨.refl _, fun y hy => hext.trans (h.turns y hy)⟩
  cases hwritten : x.written? with
  | none => simpa [downloaded, Turn.file?, hwritten] using h.distinct
  | some y =>
    obtain ⟨f, content⟩ := y
    obtain ⟨l, hadds, hfound⟩ := hx.adds f content hwritten
    have hnew : s'.place? f.fullPath ∉ (downloaded xs).map fun g => s'.place? g.fullPath := by
      intro hmem
      obtain ⟨g, hg, hplace⟩ := List.mem_map.1 hmem
      obtain ⟨z, hz, l', content', hfree, hfound'⟩ := h.exists_found hg
      obtain rfl : l' = l := by
        simpa [Storage.place?, hfound', h.keeps.find?_eq_some hfound] using hplace
      have htaken := (h.turns z hz).entry hadds.file
      rw [hfree] at htaken
      cases htaken
    simpa [downloaded, Turn.file?, hwritten] using And.intro hnew h.distinct

end KeepsFiles

/-- **Turns add different new files**, each with the content of its own target, and keep everything
that was there. -/
theorem Turns.keepsFiles {service : Service} {o : Options} {w w' : World} {xs : List Turn}
    (h : Turns service o w xs w') (ho : o.IsCareful) {root : Path}
    (hbelow : ∀ x ∈ xs, x.target.destination.IsBelow root) (hready : IsReady root w) :
    IsReady root w' ∧ KeepsFiles service w.storage xs w'.storage := by
  induction h with
  | done w => exact ⟨hready, .refl _, by simp, by simp, by simp [downloaded]⟩
  | next _ hx _ ih =>
    obtain ⟨ht, hbelow⟩ := List.forall_mem_cons.1 hbelow
    obtain ⟨hready', hrest⟩ := ih hbelow (hx.isReady_after ho ht hready)
    exact ⟨hready', .cons (hx.addsOwnFile ho ht hready) (hx.extends_after ho ht hready) hrest⟩

/-- **A pull writes over nothing that it was not told to replace.** Whether it succeeds or fails,
everything that was there is there as it was. It takes turns, and each turn adds at most one file,
at a place that was free, with the content that it downloaded itself, which the file still has in
the end; the files of all turns are different ones. A pull that succeeds has had a turn for each
target and reports the files of the turns; one that fails has done so at the target after the turns,
where it has added nothing but directories. -/
theorem execute_keeps_files {planned service : Service} {curdir : Path}
    {languages : List Language} {patterns : List (Option PullPattern)} {wanted o : Options}
    {w₀ w₀' : World} {p : Plan}
    (hplan : (plan planned curdir languages patterns wanted).run.run w₀ = (.ok p, w₀'))
    {w : World} (htree : w.storage.IsTree) (hcurdir : w.storage.isDirectory curdir = true)
    (hanswers : w.answers.IsCareful) (ho : o.IsCareful)
    {outcome : Except Error Report} {w' : World}
    (hrun : (execute service p o).run.run w = (outcome, w')) :
    w.storage.Extends w'.storage ∧
    (∀ q content, w.storage.read? q = some content → w'.storage.read? q = some content) ∧
    ∃ turns w₁, Turns service o w turns w₁ ∧
      (∀ x ∈ turns, AddsOwnFile service x w'.storage) ∧
      ((downloaded turns).map fun f => w'.storage.place? f.fullPath).Nodup ∧
      match outcome with
      | .ok report => w₁ = w' ∧ turns.map (·.target) = p.targets ∧
          report.downloaded = downloaded turns
      | .error e => w₁.storage.AddsDirectories w'.storage ∧
          ∃ t rest, p.targets = turns.map (·.target) ++ t :: rest ∧
            (executeTarget service o t).run.run w₁ = (.error e, w') := by
  have hbelow : ∀ t ∈ p.targets, t.destination.IsBelow curdir := by
    intro t ht
    obtain ⟨pattern?, -, -, hd⟩ := destination_of_mem_plan hplan ht
    exact hd ▸ PullPattern.isBelow_destination ..
  have hready : IsReady curdir w := ⟨htree, hcurdir, hanswers⟩
  have hends := (ends_executeTargets service o p.targets w).of_run hrun
  cases outcome with
  | ok report =>
    obtain ⟨turns, hturns, htargets, rfl⟩ := hends
    have hbelow' : ∀ x ∈ turns, x.target.destination.IsBelow curdir :=
      fun x hx => hbelow _ (htargets ▸ List.mem_map_of_mem hx)
    obtain ⟨-, hkeeps⟩ := hturns.keepsFiles ho hbelow' hready
    exact ⟨hkeeps.keeps, fun q content => hkeeps.keeps.read?_eq_some, turns, w', hturns,
      hkeeps.adds, hkeeps.distinct, rfl, htargets, rfl⟩
  | error e =>
    obtain ⟨turns, w₁, t, rest, hturns, htargets, hfail⟩ := hends
    have hbelow' : ∀ x ∈ turns, x.target.destination.IsBelow curdir :=
      fun x hx => hbelow _ (htargets ▸ List.mem_append_left _ (List.mem_map_of_mem hx))
    obtain ⟨hready₁, hkeeps⟩ := hturns.keepsFiles ho hbelow' hready
    have hfails := (ends_executeTarget service o t w₁).of_run hfail
    have hkeeps := hkeeps.mono hfails.keeps
    exact ⟨hkeeps.keeps, fun q content => hkeeps.keeps.read?_eq_some, turns, w₁, hturns,
      hkeeps.adds, hkeeps.distinct, hfails.adds hready₁.tree, t, rest, htargets, hfail⟩

/-- A project of two pages, with the page's number for its content. -/
def twoPages : Service where
  findPage _ _ _ := .ok none
  pages _ _ _ := .ok
    [⟨1, "a.json".toList, "a".toList, none, "json".toList⟩,
      ⟨2, "b.json".toList, "b".toList, none, "json".toList⟩]
  upload _ _ _ _ := .ok ⟨[], []⟩
  append _ _ _ _ := .ok ()
  update _ _ _ _ := .ok ()
  download _ page _ := .ok [page.id.toUInt8]
  formats _ := .ok []

/-- A plan for the two pages in which both go to the same file. -/
def sharedFile : Plan where
  targets :=
    [⟨⟨1, "a.json".toList, "a".toList, none, "json".toList⟩, .english, englishFile "en-us.json"⟩,
      ⟨⟨2, "b.json".toList, "b".toList, none, "json".toList⟩, .english, englishFile "en-us.json"⟩]

/-- A directory with that file in it, and a user who gives a name that is taken by then. -/
def takenNames : World where
  storage := ((⟨[], []⟩ : Storage).put ([] ++ ["p".toList]) .directory).put
    (["p".toList] ++ ["en-us.json".toList]) (.file [0])
  answers :=
    { actions := [.ok .newName, .ok .newName]
      names := [.ok "x".toList, .ok "x".toList, .ok "y".toList] }

theorem execute_keeps_files_taken_names :
    ∃ w', (execute twoPages sharedFile {}).run.run takenNames =
        (.ok ⟨[englishFile "x", englishFile "y"], []⟩, w') ∧
      w'.storage.read? (.ofString "/p/en-us.json") = some [0] ∧
      ([englishFile "x", englishFile "y"].map fun f => w'.storage.place? f.fullPath).Nodup ∧
      ∃ turns, Turns twoPages {} takenNames turns w' ∧
        turns.map (·.target) = sharedFile.targets ∧
        ∀ x ∈ turns, AddsOwnFile twoPages x w'.storage := by
  have hplan : (plan twoPages (.ofString "/p") [.english] [none] {}).run.run takenNames =
      (.ok sharedFile, { takenNames with calls := [.pages 1 [.completed]] }) := rfl
  have htree : takenNames.storage.IsTree := (Storage.isTree_empty.put rfl rfl _).put rfl rfl _
  have hnames : ∀ name, .ok name ∈ takenNames.answers.names → Path.IsName name := by
    have hxy : Path.IsName "x".toList ∧ Path.IsName "y".toList := by decide
    simpa [takenNames] using hxy
  have hanswers : takenNames.answers.IsCareful := ⟨by simp [takenNames], hnames⟩
  have hdone : ((execute twoPages sharedFile {}).run.run takenNames).1 =
      .ok ⟨[englishFile "x", englishFile "y"], []⟩ := by decide +kernel
  have hfile : takenNames.storage.read? (.ofString "/p/en-us.json") = some [0] := by decide +kernel
  rcases hrun : (execute twoPages sharedFile {}).run.run takenNames with ⟨outcome, w'⟩
  rw [hrun] at hdone
  obtain rfl : outcome = _ := hdone
  obtain ⟨-, hkept, turns, _, hturns, hadds, hnodup, rfl, htargets, hreport⟩ :=
    execute_keeps_files hplan htree (by decide +kernel) hanswers ⟨rfl, by simp⟩ hrun
  rw [← hreport] at hnodup
  exact ⟨_, rfl, hkept _ _ hfile, hnodup, turns, hturns, htargets, hadds⟩

end Pull

end LocaleSync
