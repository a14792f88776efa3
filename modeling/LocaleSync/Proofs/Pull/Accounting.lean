/-
Every target of a pull is accounted for: a pull that succeeds is a sequence of turns, one for each
target in order, and what it reports and calls is what the turns did.

A file that was written is where its path leads for good, so of the files that turns write to one
place the last one stays (`Turns.entryAt?_last`), and a place that no turn writes to does not change
(`Turns.unchanged`).
-/
import LocaleSync.Proofs.Pull.Keeping

namespace LocaleSync

namespace Pull

/-- The content that turns wrote last to a place. -/
def lastWritten? (s : Storage) (l : Location) : List Turn → Option Bytes
  | [] => none
  | x :: xs =>
    (lastWritten? s l xs).or <|
      match x.written? with
      | some (f, content) => if s.place? f.fullPath = some l then some content else none
      | none => none

/-- A place has a last content exactly if a file was written that leads to it. -/
theorem lastWritten?_eq_none_iff {s : Storage} {l : Location} {xs : List Turn} :
    lastWritten? s l xs = none ↔ ∀ f ∈ downloaded xs, s.place? f.fullPath ≠ some l := by
  induction xs with
  | nil => simp [lastWritten?, downloaded]
  | cons x xs ih =>
    simp only [lastWritten?, Option.or_eq_none_iff, ih, mem_downloaded_cons, Turn.file?]
    cases hx : x.written? with
    | none => simp
    | some y => simp [or_imp, forall_and, and_comm]

namespace Turns

variable {service : Service} {o : Options} {w w' : World} {xs : List Turn}

theorem calls (h : Turns service o w xs w') : w'.calls = w.calls ++ xs.flatMap (·.calls o) := by
  induction h with
  | done w => simp
  | next _ hx _ ih => simp [ih, hx.calls]

/-- A place that no turn writes to does not change. -/
theorem unchanged (h : Turns service o w xs w') {l : Location}
    (hl : ∀ f ∈ downloaded xs, w'.storage.place? f.fullPath ≠ some l) :
    w.storage.Unchanged w'.storage l := by
  induction h with
  | done w => exact .refl _ l
  | @next x xs w' _ hx hrest ih =>
    refine (hx.unchanged ?_).trans (ih ?_)
    · intro f hf hplace
      exact hl f (mem_downloaded_cons.2 (.inl hf)) (hrest.persists.place?_eq_some hplace)
    · intro f hf
      exact hl f (mem_downloaded_cons.2 (.inr hf))

/-- A place holds what turns wrote to it last. -/
theorem entryAt?_last (h : Turns service o w xs w') {l : Location} {content : Bytes}
    (hlast : lastWritten? w'.storage l xs = some content) :
    w'.storage.entryAt? l = some (.file content) := by
  induction h with
  | done w => cases hlast
  | @next x xs w' _ hx hrest ih =>
    cases hlater : lastWritten? w'.storage l xs with
    | some later =>
      obtain rfl : later = content := by simpa [lastWritten?, hlater] using hlast
      exact ih hlater
    | none =>
      -- The place was written in this turn and has been left alone since.
      cases hwritten : x.written? with
      | none => simp [lastWritten?, hlater, hwritten] at hlast
      | some y =>
        obtain ⟨hplace, rfl⟩ : w'.storage.place? y.1.fullPath = some l ∧ y.2 = content := by
          simpa [lastWritten?, hlater, hwritten] using hlast
        obtain ⟨l', hwrites⟩ := hx.writes y.1 y.2 hwritten
        have hl' := hrest.persists.place?_eq_some hwrites.place?
        obtain rfl : l' = l := by simpa [hplace] using hl'.symm
        exact (hrest.unchanged (lastWritten?_eq_none_iff.1 hlater)).entry
          (Storage.entryAt?_of_find? hwrites.found)

/-- A file that was written still leads to a place. -/
theorem exists_place? (h : Turns service o w xs w') {f : LocaleFile} (hf : f ∈ downloaded xs) :
    ∃ l, w'.storage.place? f.fullPath = some l := by
  induction h with
  | done w => cases hf
  | next _ hx hrest ih =>
    rcases mem_downloaded_cons.1 hf with hfirst | hlater
    · obtain ⟨y, hy, rfl⟩ := Option.map_eq_some_iff.1 hfirst
      obtain ⟨l, hwrites⟩ := hx.writes y.1 y.2 hy
      exact ⟨l, hrest.persists.place?_eq_some hwrites.place?⟩
    · exact ih hlater

/-- A file that was written leads to a place that has a last content. -/
theorem exists_lastWritten? (h : Turns service o w xs w') {f : LocaleFile}
    (hf : f ∈ downloaded xs) :
    ∃ l content, w'.storage.place? f.fullPath = some l ∧
      lastWritten? w'.storage l xs = some content := by
  obtain ⟨l, hl⟩ := h.exists_place? hf
  have hsome : lastWritten? w'.storage l xs ≠ none := by
    intro hnone
    exact lastWritten?_eq_none_iff.1 hnone f hf hl
  obtain ⟨content, hcontent⟩ := Option.ne_none_iff_exists'.1 hsome
  exact ⟨l, content, hl, hcontent⟩

end Turns

/-- **Accounting of a pull.** A pull that succeeds is one turn for each target of the plan, in
order; each turn settles what to write as `Settles` says and writes it as `IsTurn` says. The report
lists the files that the turns wrote and the destinations that they skipped, and the calls are those
of the turns. A place that no file of the report leads to is as it was, and one that such files
lead to holds what was written there last. -/
theorem execute_accounts {service : Service} {p : Plan} {o : Options} {w w' : World}
    {report : Report} (hrun : (execute service p o).run.run w = (.ok report, w')) :
    ∃ turns, Turns service o w turns w' ∧ turns.map (·.target) = p.targets ∧
      report.downloaded = downloaded turns ∧ report.skipped = skipped turns ∧
      w'.calls = w.calls ++ turns.flatMap (·.calls o) ∧
      (∀ l, (∀ f ∈ report.downloaded, w'.storage.place? f.fullPath ≠ some l) →
        w.storage.Unchanged w'.storage l) ∧
      (∀ f ∈ report.downloaded, ∃ l content, w'.storage.place? f.fullPath = some l ∧
        lastWritten? w'.storage l turns = some content) ∧
      ∀ l content, lastWritten? w'.storage l turns = some content →
        w'.storage.entryAt? l = some (.file content) := by
  obtain ⟨turns, hturns, htargets, rfl⟩ :=
    (ends_executeTargets service o p.targets w).of_run hrun
  exact ⟨turns, hturns, htargets, rfl, rfl, hturns.calls, fun l hl => hturns.unchanged hl,
    fun f hf => hturns.exists_lastWritten? hf, fun l content hlast => hturns.entryAt?_last hlast⟩

/-- A user who first has the shared file replaced, then gives a name that is taken and one that is
free, and skips it in the end. -/
def waveringUser : World where
  storage := ((⟨[], []⟩ : Storage).put ["p".toList] .directory).put
    ["p".toList, "en-us.json".toList] (.file [0])
  answers :=
    { actions := [.ok .replace, .ok .newName, .ok .skip]
      names := [.ok "en-us.json".toList, .ok "x".toList] }

/-- The shared file three times. -/
def sharedThrice : Plan where
  targets := sharedFile.targets ++ sharedFile.targets.take 1

/-- What the project and that user are asked. -/
def waveringCalls : List Call :=
  [.conflictAction (englishFile "en-us.json"),
    .download ⟨1, "a.json".toList, "a".toList, none, "json".toList⟩ 1,
    .conflictAction (englishFile "en-us.json"), .fileName (englishFile "en-us.json"),
    .fileName (englishFile "en-us.json"),
    .download ⟨2, "b.json".toList, "b".toList, none, "json".toList⟩ 1,
    .conflictAction (englishFile "en-us.json")]

theorem execute_accounts_wavering_user :
    ∃ w' turns,
      (execute twoPages sharedThrice {}).run.run waveringUser =
        (.ok ⟨[englishFile "en-us.json", englishFile "x"], [englishFile "en-us.json"]⟩, w') ∧
      Turns twoPages {} waveringUser turns w' ∧
      turns.map (·.target) = sharedThrice.targets ∧
      turns.flatMap (·.calls {}) = waveringCalls ∧
      lastWritten? w'.storage ["p".toList, "en-us.json".toList] turns = some [1] ∧
      w'.storage.entryAt? ["p".toList] = some .directory := by
  have hdone : ((execute twoPages sharedThrice {}).run.run waveringUser).1 =
      .ok ⟨[englishFile "en-us.json", englishFile "x"], [englishFile "en-us.json"]⟩ := by
    decide +kernel
  have hcalls : ((execute twoPages sharedThrice {}).run.run waveringUser).2.calls =
      waveringCalls := by decide +kernel
  have hplaces : [englishFile "en-us.json", englishFile "x"].map (fun f =>
      ((execute twoPages sharedThrice {}).run.run waveringUser).2.storage.place? f.fullPath) =
        [some ["p".toList, "en-us.json".toList], some ["p".toList, "x".toList]] := by decide +kernel
  have hfile : ((execute twoPages sharedThrice {}).run.run waveringUser).2.storage.entryAt?
      ["p".toList, "en-us.json".toList] = some (.file [1]) := by decide +kernel
  rcases hrun : (execute twoPages sharedThrice {}).run.run waveringUser with ⟨outcome, w'⟩
  rw [hrun] at hdone hcalls hplaces hfile
  obtain rfl : outcome = _ := hdone
  obtain ⟨turns, hturns, htargets, -, -, hcalled, hframe, hwritten, hlast⟩ := execute_accounts hrun
  obtain ⟨hen, hx⟩ : w'.storage.place? (englishFile "en-us.json").fullPath =
      some ["p".toList, "en-us.json".toList] ∧
      w'.storage.place? (englishFile "x").fullPath = some ["p".toList, "x".toList] := by
    simpa using hplaces
  refine ⟨w', turns, rfl, hturns, htargets, hcalled.symm.trans hcalls, ?_, ?_⟩
  · obtain ⟨l, content, hl, hcontent⟩ := hwritten (englishFile "en-us.json") (by simp)
    obtain rfl : ["p".toList, "en-us.json".toList] = l := Option.some.inj (hen.symm.trans hl)
    have hsame := hfile.symm.trans (hlast _ content hcontent)
    cases hsame
    exact hcontent
  · refine (hframe ["p".toList] ?_).entry (by decide +kernel)
    intro f hf
    rcases List.mem_pair.1 hf with rfl | rfl
    · simp [hen]
    · simp [hx]

end Pull

end LocaleSync
