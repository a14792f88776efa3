/-
A pull that is repeated finds everything there. When the turn of a target is over its destination
exists: it was there and something else was written or nothing, or it has been written
(`IsTurn.isPresent`). Nothing that is there goes away again, hence after a pull that succeeds every
destination of its plan exists (`Turns.isPresent`). A pull that skips files that exist then has
nothing to do (`ends_executeTargets_skip`).
-/
import LocaleSync.Proofs.Pull.Keeping

namespace LocaleSync

namespace Pull

open Session (Ends)

/-! ## What is there after a pull -/

section

variable {service : Service} {o : Options}

/-- **After its turn, the destination of a target is there.** -/
theorem IsTurn.isPresent {x : Turn} (hx : IsTurn service o x) :
    x.after.storage.isPresent x.target.destination.fullPath = true := by
  cases hpresent : x.before.storage.isPresent x.target.destination.fullPath with
  | true => exact hx.persists.isPresent hpresent
  | false =>
    -- Nothing stands in the way of the destination, so it has been written itself.
    have hfile := hx.settles.eq_some (by simp [isConflict, hpresent])
    obtain ⟨y, hwritten, hy⟩ := Option.map_eq_some_iff.1 hfile
    obtain ⟨l, hstores⟩ := hx.writes y.1 y.2 hwritten
    rw [← hy]
    exact hstores.isPresent

/-- **After a pull every destination is there.** -/
theorem Turns.isPresent {w w' : World} {xs : List Turn} (h : Turns service o w xs w') :
    ∀ x ∈ xs, w'.storage.isPresent x.target.destination.fullPath = true := by
  induction h with
  | done w => simp
  | next _ hx hrest ih =>
    exact List.forall_mem_cons.2 ⟨hrest.persists.isPresent hx.isPresent, ih⟩

end

/-! ## Skipping what is there -/

/-- Options that leave files that exist alone, without asking. -/
structure Options.IsSkipping (o : Options) : Prop where
  force : o.force = false
  action : o.action? = some .skip

theorem Options.IsSkipping.isConflict {o : Options} (ho : o.IsSkipping) {w : World} {f : LocaleFile}
    (h : w.storage.isPresent f.fullPath = true) : isConflict o w f = true := by
  simp [Pull.isConflict, h, ho.force]

theorem IsTurn.skip {service : Service} {o : Options} {x : Turn} (hx : IsTurn service o x)
    (ho : o.IsSkipping)
    (h : x.before.storage.isPresent x.target.destination.fullPath = true) :
    x.file? = none ∧ ∃ notes, x.after = { x.before with notes } := by
  obtain ⟨hnone, hnames, hanswers⟩ := hx.settles.skip (ho.isConflict h) ho.action
  have hwritten : x.written? = none := Option.map_eq_none_iff.1 hnone
  have hcalls : x.after.calls = x.before.calls := by
    simp [hx.calls, Turn.calls, questions, renamed, hnames, hwritten, ho.action]
  refine ⟨hnone, x.after.notes, ?_⟩
  dsimp only
  rw [← hx.skips hwritten, ← hcalls, ← hanswers, ← hx.answers]

/-- **Turns of targets that are all there skip them** and do nothing but say so. -/
theorem Turns.skip {service : Service} {o : Options} {w w' : World} {xs : List Turn}
    (h : Turns service o w xs w') (ho : o.IsSkipping)
    (hpresent : ∀ x ∈ xs, w.storage.isPresent x.target.destination.fullPath = true) :
    downloaded xs = [] ∧ skipped xs = xs.map (·.target.destination) ∧
      ∃ notes, w' = { w with notes } := by
  induction h with
  | done w => exact ⟨rfl, rfl, w.notes, rfl⟩
  | next _ hx _ ih =>
    obtain ⟨hfirst, hpresent⟩ := List.forall_mem_cons.1 hpresent
    obtain ⟨hnone, notes, hafter⟩ := hx.skip ho hfirst
    rw [hafter] at ih
    obtain ⟨hdownloaded, hskipped, hend⟩ := ih hpresent
    refine ⟨?_, ?_, hend⟩
    · rw [downloaded, List.filterMap_cons_none hnone, ← downloaded, hdownloaded]
    · rw [skipped, List.filter_cons_of_pos (by simp [hnone]), List.map_cons, ← skipped, hskipped,
        List.map_cons]

/-- Targets that are all there are skipped, which cannot fail. -/
theorem ends_executeTargets_skip (service : Service) {o : Options} (ho : o.IsSkipping)
    {ts : List Target} {w : World}
    (h : ∀ t ∈ ts, w.storage.isPresent t.destination.fullPath = true) :
    Ends (executeTargets service o ts) w fun r w' =>
      r = .ok { downloaded := [], skipped := ts.map (·.destination) } ∧
        ∃ notes, w' = { w with notes } := by
  refine (ends_executeTargets service o ts w).mono ?_
  intro r w' hr
  cases r with
  | ok report =>
    obtain ⟨xs, hxs, rfl, rfl⟩ := hr
    obtain ⟨hdownloaded, hskipped, hend⟩ := hxs.skip ho (List.forall_mem_map.1 h)
    rw [hdownloaded, hskipped, List.map_map]
    exact ⟨rfl, hend⟩
  | error e =>
    obtain ⟨xs, w₁, t, rest, hxs, rfl, hfail⟩ := hr
    obtain ⟨hbefore, hrest⟩ := List.forall_mem_append.1 h
    obtain ⟨-, -, notes, rfl⟩ := hxs.skip ho (List.forall_mem_map.1 hbefore)
    have hfails := (ends_executeTarget service o t _).of_run hfail
    exact absurd ho.action (hfails.unskipped (ho.isConflict (hrest t (by simp))))

/-- **Pulling converges.** After a pull that succeeded, pulling the same plan again and skipping
what exists succeeds, whatever the remote project and the user would answer: it downloads nothing,
reports every destination of the plan as skipped, in order, and makes no call, asks nothing and
changes no file. -/
theorem execute_again {service service' : Service} {p : Plan} {o o' : Options} {w w' w₂ : World}
    {report : Report} (hrun : (execute service p o).run.run w = (.ok report, w'))
    (hstorage : w₂.storage = w'.storage) (hforce : o'.force = false)
    (haction : o'.action? = some .skip) :
    ∃ notes, (execute service' p o').run.run w₂ =
      (.ok { downloaded := [], skipped := p.targets.map (·.destination) },
        { w₂ with notes }) := by
  obtain ⟨turns, hturns, htargets, -⟩ := (ends_executeTargets service o p.targets w).of_run hrun
  have hpresent : ∀ t ∈ p.targets, w₂.storage.isPresent t.destination.fullPath = true := by
    rw [hstorage, ← htargets]
    exact List.forall_mem_map.2 hturns.isPresent
  have hskip := ends_executeTargets_skip service' ⟨hforce, haction⟩ hpresent
  rcases hagain : (execute service' p o').run.run w₂ with ⟨r, w₃⟩
  obtain ⟨rfl, notes, rfl⟩ := hskip.of_run hagain
  exact ⟨notes, rfl⟩

/-- A directory in which the shared file is a link to a free place, and a user who gives a new
name. -/
def freeLink : World where
  storage := ((⟨[], []⟩ : Storage).put ["p".toList] .directory).put
    ["p".toList, "en-us.json".toList] (.link "x.json".toList)
  answers := { actions := [.ok .newName], names := [.ok "y".toList] }

theorem execute_again_free_link :
    ∃ w' notes,
      (execute twoPages sharedFile {}).run.run freeLink =
        (.ok ⟨[englishFile "en-us.json", englishFile "y"], []⟩, w') ∧
      (execute twoPages sharedFile { action? := some .skip }).run.run w' =
        (.ok ⟨[], [englishFile "en-us.json", englishFile "en-us.json"]⟩, { w' with notes }) := by
  have hdone : ((execute twoPages sharedFile {}).run.run freeLink).1 =
      .ok ⟨[englishFile "en-us.json", englishFile "y"], []⟩ := by decide +kernel
  rcases hrun : (execute twoPages sharedFile {}).run.run freeLink with ⟨outcome, w'⟩
  rw [hrun] at hdone
  obtain rfl : outcome = _ := hdone
  refine ⟨w', ?_⟩
  obtain ⟨notes, hagain⟩ : ∃ notes,
      (execute twoPages sharedFile { action? := some .skip }).run.run w' =
        (.ok ⟨[], sharedFile.targets.map (·.destination)⟩, { w' with notes }) :=
    execute_again hrun rfl rfl rfl
  exact ⟨notes, rfl, hagain⟩

end Pull

end LocaleSync
