/-
What a session ends with. `Ends x w post` says that `x`, started in the world `w`, ends with an
outcome and a world of which `post` holds, whether it succeeds or fails. A session made of parts is
taken apart by `ends_bind`; the rest says what the parts do.

Writing a file changes one place and nothing else, and where it is safe it adds that file and
directories (`ends_write`).
-/
import LocaleSync.Proofs.Storage.Safe
import LocaleSync.Proofs.Storage.Writing
import LocaleSync.Session

namespace LocaleSync

namespace Storage

/-- A file was written at a path; it is a new one if nothing was there and the path is safe. -/
structure StoresFile (s s' : Storage) (p : Path) (l : Location) (content : Bytes) : Prop
    extends WritesFile s s' p l content where
  adds : s.IsTree → s.IsSafe p → s.isPresent p = false → s.AddsFile s' l content

/-- The place of a new file is the one at which the file is found. -/
theorem WritesFile.storesFile {s s' : Storage} {p : Path} {l : Location} {content : Bytes}
    (h : s.WritesFile s' p l content)
    (hadds : s.IsTree → s.IsSafe p → s.isPresent p = false →
      ∃ l', s.AddsFile s' l' content ∧ s'.find? p = some (l', .file content)) :
    s.StoresFile s' p l content := by
  refine ⟨h, fun htree hsafe habsent => ?_⟩
  obtain ⟨l', hadds, hfound⟩ := hadds htree hsafe habsent
  obtain rfl : l = l' := by simpa [h.found] using hfound
  exact hadds

end Storage

namespace Session

/-- The outcome and the world that a session ends with. -/
def Ends {α : Type} (x : Session α) (w : World) (post : Except Error α → World → Prop) : Prop :=
  post (x.run.run w).1 (x.run.run w).2

section

variable {α β : Type} {x : Session α} {f : α → Session β} {w : World}

theorem Ends.mono {post post' : Except Error α → World → Prop} (h : Ends x w post)
    (hpost : ∀ r w', post r w' → post' r w') : Ends x w post' :=
  hpost _ _ h

theorem Ends.of_run {post : Except Error α → World → Prop} (h : Ends x w post)
    {r : Except Error α} {w' : World} (hrun : x.run.run w = (r, w')) : post r w' := by
  rw [Ends, hrun] at h
  exact h

/-- What a session ends with, and that it does. -/
theorem Ends.and_run {post : Except Error α → World → Prop} (h : Ends x w post) :
    Ends x w fun r w' => x.run.run w = (r, w') ∧ post r w' :=
  ⟨rfl, h⟩

/-- A session that goes on with the answer of another one. -/
theorem ends_bind {post : Except Error β → World → Prop} :
    Ends (x >>= f) w post ↔
      Ends x w fun r w' =>
        match r with
        | .ok a => Ends (f a) w' post
        | .error e => post (.error e) w' := by
  have hrun : (x >>= f).run.run w =
      match x.run.run w with
      | (.ok a, w') => (f a).run.run w'
      | (.error e, w') => (.error e, w') := by
    simp only [ExceptT.run_bind, StateT.run_bind]
    generalize x.run.run w = r
    obtain ⟨_ | _, _⟩ := r <;> rfl
  rw [Ends, Ends, hrun]
  generalize x.run.run w = r
  obtain ⟨_ | _, _⟩ := r <;> rfl

@[simp] theorem ends_pure {a : α} {post : Except Error α → World → Prop} :
    Ends (pure a) w post ↔ post (.ok a) w := Iff.rfl

@[simp] theorem ends_get {post : Except Error World → World → Prop} :
    Ends get w post ↔ post (.ok w) w := Iff.rfl

@[simp] theorem ends_set {w' : World} {post : Except Error PUnit → World → Prop} :
    Ends (set w') w post ↔ post (.ok ⟨⟩) w' := Iff.rfl

@[simp] theorem ends_modify {g : World → World} {post : Except Error PUnit → World → Prop} :
    Ends (modify g) w post ↔ post (.ok ⟨⟩) (g w) := Iff.rfl

@[simp] theorem ends_note {n : Note} {post : Except Error Unit → World → Prop} :
    Ends (note n) w post ↔ post (.ok ()) { w with notes := w.notes ++ [n] } := Iff.rfl

@[simp] theorem ends_isPresent {g : LocaleFile} {post : Except Error Bool → World → Prop} :
    Ends (isPresent g) w post ↔ post (.ok (w.storage.isPresent g.fullPath)) w := Iff.rfl

@[simp] theorem ends_ofExcept {x : Except Error α} {post : Except Error α → World → Prop} :
    Ends (ofExcept x) w post ↔ post x w := by
  cases x <;> rfl

@[simp] theorem ends_call {c : Call} {answer : List Call → Except Error α}
    {post : Except Error α → World → Prop} :
    Ends (call c answer) w post ↔ post (answer w.calls) { w with calls := w.calls ++ [c] } := by
  simp only [call, ends_bind, ends_get, ends_set, ends_ofExcept]

end

/-! ## Writing -/

/-- **Writing changes one place and nothing else** in the world. If it fails, it adds nothing but
directories. -/
theorem ends_write (f : LocaleFile) (content : Bytes) (w : World) :
    Ends (write f content) w fun r w' =>
      w' = { w with storage := w'.storage } ∧
        match r with
        | .ok _ => ∃ l, w.storage.StoresFile w'.storage f.fullPath l content
        | .error _ => w.storage.Extends w'.storage ∧
            (w.storage.IsTree → w.storage.AddsDirectories w'.storage) := by
  cases hq : f.fullPath.parent? with
  | none =>
    simp only [write, hq, ends_bind, ends_get]
    cases hw : w.storage.write? f.fullPath content with
    | none => exact ⟨rfl, .refl _, .refl⟩
    | some s =>
      obtain ⟨l, hwrites⟩ := Storage.writesFile_write? hw
      refine ⟨rfl, l, hwrites.storesFile fun htree hsafe habsent => ?_⟩
      obtain ⟨l', hf, rfl⟩ := Storage.write?_of_not_found htree
        (Storage.not_found_of_isPresent habsent) hw
      exact ⟨l', (Storage.AddsDirectories.refl htree).addsFile hf,
        Storage.find?_eq_some_iff.2 hf.located⟩
  | some q =>
    have hext : w.storage.Extends (w.storage.makeDirectories q).1 :=
      Storage.extends_makeUpwards w.storage q.ancestors
    have hsame : ∀ l, w.storage.Unchanged (w.storage.makeDirectories q).1 l :=
      Storage.unchanged_makeUpwards w.storage q.ancestors
    have hadds (htree : w.storage.IsTree) :
        w.storage.AddsDirectories (w.storage.makeDirectories q).1 :=
      Storage.addsDirectories_makeUpwards htree q.ancestors
    simp only [write, hq, ends_bind, ends_get, ends_set]
    rcases hmade : w.storage.makeDirectories q with ⟨s₁, made⟩
    rw [hmade] at hext hsame hadds
    cases made with
    | false => exact ⟨rfl, hext, hadds⟩
    | true =>
      simp only [if_true, ends_bind, ends_get]
      cases hw : s₁.write? f.fullPath content with
      | none => exact ⟨rfl, hext, hadds⟩
      | some s₂ =>
        obtain ⟨l, hl⟩ := Storage.writesFile_write? hw
        refine ⟨rfl, l, (hl.of_unchanged hext hsame).storesFile fun htree hsafe habsent => ?_⟩
        exact Storage.addsFile_write? htree hsafe habsent hq hmade hw

end Session

end LocaleSync
