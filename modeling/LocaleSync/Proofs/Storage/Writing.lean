/-
What writing one file changes. Making directories changes nothing but that directories are new
(`unchanged_makeUpwards`). A file is written at the place its path leads to, where a file is or
nothing; it is found there afterwards, and no other place changes (`writesFile_write?`). The path
goes on leading to that place whatever is written later (`Persists.find?_eq_some`).
-/
import LocaleSync.Proofs.Storage.Persistence

namespace LocaleSync

namespace Storage

/-! ## Places that do not change -/

/-- What is at a location is as it was, except that a directory may be new there. -/
def Unchanged (s s' : Storage) (l : Location) : Prop :=
  s'.entryAt? l = s.entryAt? l ∨ (s.entryAt? l = none ∧ s'.entryAt? l = some .directory)

namespace Unchanged

variable {s s' s'' : Storage} {l : Location}

theorem refl (s : Storage) (l : Location) : s.Unchanged s l :=
  .inl rfl

theorem trans (h : s.Unchanged s' l) (h' : s'.Unchanged s'' l) : s.Unchanged s'' l := by
  rcases h with h | ⟨hnone, hdir⟩
  · rcases h' with h' | ⟨hnone', hdir'⟩
    · exact .inl (h'.trans h)
    · exact .inr ⟨h ▸ hnone', hdir'⟩
  · rcases h' with h' | ⟨hnone', -⟩
    · exact .inr ⟨hnone, h'.trans hdir⟩
    · simp [hdir] at hnone'

/-- What was there is there as it was. -/
theorem entry (h : s.Unchanged s' l) {e : Entry} (he : s.entryAt? l = some e) :
    s'.entryAt? l = some e := by
  rcases h with h | ⟨hnone, -⟩
  · exact h.trans he
  · simp [he] at hnone

/-- A directory put at a vacant place changes nothing. -/
theorem put_directory {m : Manner} {p : Path} {d : Location} {name : Text}
    (h : s.locate m p = .vacant d name) (l : Location) :
    s.Unchanged (s.put (d ++ [name]) .directory) l := by
  obtain ⟨-, hleads⟩ := leads_of_locate h (by simp) (by simp)
  by_cases hl : l = d ++ [name]
  · rw [hl]
    exact .inr ⟨hleads.vacant_entry rfl, entryAt?_put_self s (by simp) _⟩
  · exact .inl (entryAt?_put_of_ne s hl _)

end Unchanged

/-- **Making directories changes nothing else**, whether they all could be made or not. -/
theorem unchanged_makeUpwards (s : Storage) (ps : List Path) (l : Location) :
    s.Unchanged (s.makeUpwards ps).1 l := by
  induction ps with
  | nil => exact .refl s l
  | cons p outer ih =>
    unfold makeUpwards
    split
    · exact .refl s l
    split
    next h => exact .put_directory h l
    · split
      next s₁ h =>
        rw [h] at ih
        exact ih
      next s₁ h =>
        rw [h] at ih
        split
        next h' => exact ih.trans (.put_directory h' l)
        · exact ih
    · exact .refl s l

/-! ## The place that is written -/

theorem entryAt?_of_find? {s : Storage} {p : Path} {l : Location} {content : Bytes}
    (h : s.find? p = some (l, .file content)) : s.entryAt? l = some (.file content) := by
  obtain ⟨n, h⟩ := find?_eq_some_iff.1 h
  obtain ⟨-, hleads⟩ := leads_of_locate h (by simp) (by simp)
  exact hleads.file_entry rfl

/-- **A path goes on leading to the same place.** -/
theorem Persists.find?_eq_some {s s' : Storage} (hkeep : s.Persists s') {p : Path} {l : Location}
    {e : Entry} (h : s.find? p = some (l, e)) : ∃ e', s'.find? p = some (l, e') ∧ e.Alike e' := by
  obtain ⟨n, h⟩ := find?_eq_some_iff.1 h
  obtain ⟨hu, hleads⟩ := leads_of_locate h (by simp) (by simp)
  obtain ⟨e', hleads', hlike⟩ := hleads.persist hkeep rfl
  have hstart : s'.start p = s.start p := by
    unfold Storage.start
    rw [hkeep.current]
  rw [← hstart] at hleads'
  exact ⟨e', find?_eq_some_iff.2 ⟨n, locate_of_leads hu hleads'⟩, hlike⟩

theorem Persists.place?_eq_some {s s' : Storage} (hkeep : s.Persists s') {p : Path} {l : Location}
    (h : s.place? p = some l) : s'.place? p = some l := by
  obtain ⟨⟨l', e⟩, hfind, rfl⟩ := Option.map_eq_some_iff.1 h
  obtain ⟨e', hfind', -⟩ := hkeep.find?_eq_some hfind
  simp [place?, hfind']

/-- A file was written at a path: it is found at a place, and the other places are unchanged. -/
structure WritesFile (s s' : Storage) (p : Path) (l : Location) (content : Bytes) : Prop where
  persists : s.Persists s'
  found : s'.find? p = some (l, .file content)
  others : ∀ l', l' ≠ l → s.Unchanged s' l'

theorem WritesFile.place? {s s' : Storage} {p : Path} {l : Location} {content : Bytes}
    (h : s.WritesFile s' p l content) : s'.place? p = some l := by
  simp [Storage.place?, h.found]

theorem WritesFile.isPresent {s s' : Storage} {p : Path} {l : Location} {content : Bytes}
    (h : s.WritesFile s' p l content) : s'.isPresent p = true := by
  simp [Storage.isPresent, h.found]

/-- Directories made before do not count. -/
theorem WritesFile.of_unchanged {s s₁ s' : Storage} {p : Path} {l : Location} {content : Bytes}
    (hext : s.Extends s₁) (hsame : ∀ l', s.Unchanged s₁ l') (h : s₁.WritesFile s' p l content) :
    s.WritesFile s' p l content :=
  ⟨(Persists.of_extends hext).trans h.persists, h.found,
    fun l' hl' => (hsame l').trans (h.others l' hl')⟩

/-- **Writing a file changes the place its path leads to and no other.** -/
theorem writesFile_write? {s s' : Storage} {p : Path} {content : Bytes}
    (h : s.write? p content = some s') : ∃ l, s.WritesFile s' p l content := by
  have hkeep := persists_write? h
  rcases write?_cases h with ⟨l, old, n, hl, rfl⟩ | ⟨d, name, hl, rfl⟩
  · have hold := find?_eq_some_iff.2 ⟨n, hl⟩
    have hne : l ≠ [] := by
      intro he
      have hentry := entryAt?_of_find? hold
      simp [he, entryAt?] at hentry
    refine ⟨l, hkeep, ?_, fun l' hl' => .inl (entryAt?_put_of_ne s hl' _)⟩
    -- The path leads where it led, and there is the new content now.
    obtain ⟨e, hfind, hlike⟩ := hkeep.find?_eq_some hold
    have hfile : ∃ new, e = .file new := by
      cases hlike with
      | same => exact ⟨old, rfl⟩
      | files _ new => exact ⟨new, rfl⟩
    obtain ⟨new, rfl⟩ := hfile
    have hnew := entryAt?_of_find? hfind
    rw [entryAt?_put_self s hne, Option.some.injEq] at hnew
    rw [hfind, hnew]
  · obtain ⟨hu, hleads⟩ := leads_of_locate hl (by simp) (by simp)
    have hext := extends_put_of_vacant hl (.file content)
    obtain ⟨n, hn⟩ := hleads.fill hext rfl rfl (entryAt?_put_self s (by simp) (.file content))
      (by simp)
    rw [← hext.start p] at hn
    exact ⟨d ++ [name], hkeep, find?_eq_some_iff.2 ⟨n, locate_of_leads hu hn⟩,
      fun l' hl' => .inl (entryAt?_put_of_ne s hl' _)⟩

end Storage

end LocaleSync
