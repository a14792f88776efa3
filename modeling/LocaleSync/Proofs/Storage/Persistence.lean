/-
What stays when files are written over. Where `Extends` keeps every entry as it is, `Persists` lets
a file have other content: a path that leads to something goes on leading to the same place
(`Leads.persist`), so what is there stays there (`Persists.isPresent`). Making directories and
writing files never does more than that, whether they succeed or fail (`extends_makeUpwards`,
`persists_write?`). Nothing of this needs the storage to be a tree.
-/
import LocaleSync.Proofs.Storage.Change

namespace LocaleSync

/-- Entries that differ at most in the content of a file. -/
inductive Entry.Alike : Entry → Entry → Prop where
  | same (e : Entry) : Alike e e
  | files (content content' : Bytes) : Alike (.file content) (.file content')

namespace Entry.Alike

variable {e e' e'' : Entry}

theorem trans (h : Alike e e') (h' : Alike e' e'') : Alike e e'' := by
  cases h with
  | same => exact h'
  | files c c' =>
    cases h' with
    | same => exact .files c c'
    | files _ c'' => exact .files c c''

theorem eq_directory (h : Alike .directory e) : e = .directory := by
  cases h; rfl

theorem eq_link {target : Text} (h : Alike (.link target) e) : e = .link target := by
  cases h; rfl

/-- What ends the way of a path still does. -/
theorem isLeaf (h : Alike e e') (hd : e ≠ .directory) (hl : ∀ target, e ≠ .link target) :
    e' ≠ .directory ∧ ∀ target, e' ≠ .link target := by
  cases h with
  | same => exact ⟨hd, hl⟩
  | files => simp

end Entry.Alike

namespace Storage

/-- Everything that is in `s` is in `s'`, files perhaps with other content. -/
structure Persists (s s' : Storage) : Prop where
  current : s'.current = s.current
  entry : ∀ {l e}, s.entryAt? l = some e → ∃ e', s'.entryAt? l = some e' ∧ e.Alike e'

namespace Persists

variable {s s' s'' : Storage}

theorem refl (s : Storage) : s.Persists s :=
  ⟨rfl, fun h => ⟨_, h, .same _⟩⟩

theorem trans (h : s.Persists s') (h' : s'.Persists s'') : s.Persists s'' := by
  refine ⟨h'.current.trans h.current, ?_⟩
  intro l e he
  obtain ⟨e₁, he₁, hlike⟩ := h.entry he
  obtain ⟨e₂, he₂, hlike'⟩ := h'.entry he₁
  exact ⟨e₂, he₂, hlike.trans hlike'⟩

theorem of_extends (h : s.Extends s') : s.Persists s' :=
  ⟨h.current, fun he => ⟨_, h.entry he, .same _⟩⟩

/-- A file written over is still a file. -/
theorem put {l : Location} {content : Bytes} (h : s.entryAt? l = some (.file content))
    (content' : Bytes) : s.Persists (s.put l (.file content')) := by
  have hne : l ≠ [] := by
    intro hl
    simp [hl, entryAt?] at h
  refine ⟨rfl, ?_⟩
  intro l' e he
  by_cases hl : l' = l
  · subst hl
    rw [h] at he
    cases he
    exact ⟨_, entryAt?_put_self s hne _, .files content content'⟩
  · rw [entryAt?_put_of_ne _ hl]
    exact ⟨e, he, .same e⟩

theorem directory (h : s.Persists s') {l : Location} (hl : s.entryAt? l = some .directory) :
    s'.entryAt? l = some .directory := by
  obtain ⟨e, he, hlike⟩ := h.entry hl
  rw [he, hlike.eq_directory]

theorem link (h : s.Persists s') {l : Location} {target : Text}
    (hl : s.entryAt? l = some (.link target)) : s'.entryAt? l = some (.link target) := by
  obtain ⟨e, he, hlike⟩ := h.entry hl
  rw [he, hlike.eq_link]

end Persists

/-! ## Paths that lead somewhere -/

/-- A path to an entry still leads to the place of that entry. -/
theorem Leads.persist {s s' : Storage} (hkeep : s.Persists s') {m : Manner} {links n : Nat}
    {here l : Location} {ps : List Text} {r : Target} {e : Entry} (h : Leads s m links here ps r)
    (hr : r = .found l e n) : ∃ e', Leads s' m links here ps (.found l e' n) ∧ e.Alike e' := by
  induction h with
  | done =>
    cases hr
    exact ⟨_, .done, .same _⟩
  | void hv _ ih =>
    obtain ⟨e', h, hlike⟩ := ih hr
    exact ⟨e', .void hv h, hlike⟩
  | up _ ih =>
    obtain ⟨e', h, hlike⟩ := ih hr
    exact ⟨e', .up h, hlike⟩
  | directory hu he _ ih =>
    obtain ⟨e', h, hlike⟩ := ih hr
    exact ⟨e', .directory hu (hkeep.directory he) h, hlike⟩
  | keptLink hu hf he =>
    cases hr
    exact ⟨_, .keptLink hu hf (hkeep.link he), .same _⟩
  | link hu hf he ht _ ih =>
    obtain ⟨e', h, hlike⟩ := ih hr
    exact ⟨e', .link hu hf (hkeep.link he) ht h, hlike⟩
  | leaf hu he hd hl =>
    cases hr
    obtain ⟨e', he', hlike⟩ := hkeep.entry he
    obtain ⟨hd', hl'⟩ := hlike.isLeaf hd hl
    exact ⟨e', .leaf hu he' hd' hl', hlike⟩
  | refused | vacant | missing | emptyLink | tooManyLinks | obstacle => cases hr

theorem isPresent_iff {s : Storage} {p : Path} :
    s.isPresent p = true ↔ ∃ l e n, s.locate .follow p = .found l e n := by
  unfold isPresent
  rw [Option.isSome_iff_exists]
  constructor
  · intro h
    obtain ⟨⟨l, e⟩, h⟩ := h
    obtain ⟨n, h⟩ := find?_eq_some_iff.1 h
    exact ⟨l, e, n, h⟩
  · intro h
    obtain ⟨l, e, n, h⟩ := h
    exact ⟨(l, e), find?_eq_some_iff.2 ⟨n, h⟩⟩

/-- **What is there stays there.** -/
theorem Persists.isPresent {s s' : Storage} (hkeep : s.Persists s') {p : Path}
    (h : s.isPresent p = true) : s'.isPresent p = true := by
  obtain ⟨l, e, n, h⟩ := isPresent_iff.1 h
  obtain ⟨hu, hl⟩ := leads_of_locate h (by simp) (by simp)
  obtain ⟨e', hl', -⟩ := hl.persist hkeep rfl
  have hstart : s'.start p = s.start p := by
    unfold Storage.start
    rw [hkeep.current]
  rw [← hstart] at hl'
  exact isPresent_iff.2 ⟨l, e', n, locate_of_leads hu hl'⟩

/-! ## Changes -/

theorem Leads.file_entry {s : Storage} {m : Manner} {links n : Nat} {here l : Location}
    {ps : List Text} {r : Target} {content : Bytes} (h : Leads s m links here ps r)
    (hr : r = .found l (.file content) n) : s.entryAt? l = some (.file content) := by
  induction h with
  | void _ _ ih | up _ ih | directory _ _ _ ih | link _ _ _ _ _ ih => exact ih hr
  | leaf _ he => cases hr; exact he
  | done | keptLink | refused | vacant | missing | emptyLink | tooManyLinks | obstacle => cases hr

theorem Leads.vacant_entry {s : Storage} {m : Manner} {links : Nat} {here d : Location}
    {ps : List Text} {r : Target} {name : Text} (h : Leads s m links here ps r)
    (hr : r = .vacant d name) : s.entryAt? (d ++ [name]) = none := by
  induction h with
  | void _ _ ih | up _ ih | directory _ _ _ ih | link _ _ _ _ _ ih => exact ih hr
  | vacant _ he => cases hr; exact he
  | done | keptLink | leaf | refused | missing | emptyLink | tooManyLinks | obstacle => cases hr

theorem extends_put_of_vacant {s : Storage} {m : Manner} {p : Path} {d : Location} {name : Text}
    (h : s.locate m p = .vacant d name) (e : Entry) : s.Extends (s.put (d ++ [name]) e) := by
  obtain ⟨-, hl⟩ := leads_of_locate h (by simp) (by simp)
  exact .put (hl.vacant_entry rfl) e

/-- Making directories keeps everything as it is, whether they all could be made or not. -/
theorem extends_makeUpwards (s : Storage) (ps : List Path) : s.Extends (s.makeUpwards ps).1 := by
  induction ps with
  | nil => exact .refl s
  | cons p outer ih =>
    unfold makeUpwards
    split
    · exact .refl s
    split
    next h => exact extends_put_of_vacant h _
    · split
      next s₁ h =>
        rw [h] at ih
        exact ih
      next s₁ h =>
        rw [h] at ih
        split
        next h' => exact ih.trans (extends_put_of_vacant h' _)
        · exact ih
    · exact .refl s

/-- What writing a file does: it writes over a file that is there, or adds one where its path
leads. -/
theorem write?_cases {s s' : Storage} {p : Path} {content : Bytes}
    (h : s.write? p content = some s') :
    (∃ l old n, s.locate .follow p = .found l (.file old) n ∧ s' = s.put l (.file content)) ∨
      ∃ d name, s.locate .follow p = .vacant d name ∧
        s' = s.put (d ++ [name]) (.file content) := by
  unfold write? at h
  split at h
  next l old n hl => exact .inl ⟨l, old, n, hl, (Option.some.inj h).symm⟩
  next d name hl => exact .inr ⟨d, name, hl, (Option.some.inj h).symm⟩
  next => cases h

theorem persists_write? {s s' : Storage} {p : Path} {content : Bytes}
    (h : s.write? p content = some s') : s.Persists s' := by
  rcases write?_cases h with ⟨l, old, n, hl, rfl⟩ | ⟨d, name, hl, rfl⟩
  · obtain ⟨-, hleads⟩ := leads_of_locate hl (by simp) (by simp)
    exact .put (hleads.file_entry rfl) content
  · exact .of_extends (extends_put_of_vacant hl _)

end Storage

end LocaleSync
