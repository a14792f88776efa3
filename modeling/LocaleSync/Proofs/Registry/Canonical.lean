/-
The code of a language is its canonical identifier. Codes are searched before names and short codes,
so where no two of them have the same key each one leads to its own language, whatever the names and
short codes of the others are (`get_of_key_eq`). An identifier can then be replaced by the code of
the language it stands for, once and for all (`normalize_canonical`).
-/
import LocaleSync.Proofs.Registry.Precedence
import Mathlib.Data.List.Nodup

namespace LocaleSync

namespace Registry

/-- The codes of the languages have different keys. -/
def HasDistinctKeys (languages : List Language) : Prop :=
  (languages.map fun l => Language.key l.code).Nodup

instance (languages : List Language) : Decidable (HasDistinctKeys languages) :=
  inferInstanceAs (Decidable (List.Nodup _))

section

variable {languages : List Language} {l : Language} {identifier : Text}

theorem mem_of_search {key : Text} (h : search languages key = some l) : l ∈ languages := by
  simp only [search, Option.or_eq_some_iff] at h
  obtain hcode | ⟨-, hname | ⟨-, hlang⟩⟩ := h
  · exact List.mem_of_find?_eq_some hcode
  · exact List.mem_of_find?_eq_some hname
  · exact List.mem_of_find?_eq_some hlang

/-- A registry answers with languages of its list only. -/
theorem mem_of_get (h : (ofList languages).get identifier = .ok l) : l ∈ languages := by
  rw [get_eq_ok_iff, find?_eq_search] at h
  exact mem_of_search h

/-- **A code stands for its own language.** -/
theorem get_of_key_eq (h : HasDistinctKeys languages) (hl : l ∈ languages)
    (hkey : Language.key identifier = Language.key l.code) :
    (ofList languages).get identifier = .ok l := by
  have hfind : languages.find? (fun m => Language.key m.code = Language.key l.code) = some l := by
    cases hf : languages.find? (fun m => Language.key m.code = Language.key l.code) with
    | none =>
      have hnone := List.find?_eq_none.1 hf l hl
      simp at hnone
    | some m =>
      have hm : Language.key m.code = Language.key l.code := by simpa using List.find?_some hf
      rw [List.inj_on_of_nodup_map h (List.mem_of_find?_eq_some hf) hl hm]
  -- The first search has found it, so the other two are not made.
  rw [get_eq_ok_iff, find?_eq_search, hkey, search, hfind, Option.some_or]

end

theorem normalize_eq_ok_iff {r : Registry} {identifier code : Text} :
    r.normalize identifier = .ok code ↔ ∃ l, r.get identifier = .ok l ∧ l.code = code := by
  unfold normalize
  cases r.get identifier <;> simp [Except.map]

/-- **Codes are canonical.** Where no two codes have the same key, the code that an identifier is
normalized to is normalized to itself and stands for the same language, and a language is found
under every spelling of its code. -/
theorem normalize_canonical {languages : List Language} (h : HasDistinctKeys languages) :
    (∀ identifier code, (ofList languages).normalize identifier = .ok code →
      (ofList languages).normalize code = .ok code ∧
        (ofList languages).get code = (ofList languages).get identifier) ∧
    ∀ l ∈ languages, ∀ identifier, Language.key identifier = Language.key l.code →
      (ofList languages).get identifier = .ok l := by
  refine ⟨?_, fun l hl identifier hkey => get_of_key_eq h hl hkey⟩
  intro identifier code hcode
  obtain ⟨l, hl, rfl⟩ := normalize_eq_ok_iff.1 hcode
  have hback : (ofList languages).get l.code = .ok l := get_of_key_eq h (mem_of_get hl) rfl
  exact ⟨normalize_eq_ok_iff.2 ⟨l, hback, rfl⟩, hback.trans hl.symm⟩

/-- Languages with each other's codes for names, and one with the short code of another. -/
def exchanged : List Language :=
  [⟨1, "pt-br".toList, "De".toList, .ltr⟩, ⟨2, "de".toList, "PT_br".toList, .ltr⟩,
    ⟨3, "fr-fr".toList, "Pt".toList, .ltr⟩]

theorem normalize_canonical_exchanged :
    HasDistinctKeys exchanged ∧
    (ofList exchanged).normalize "pt".toList = .ok "fr-fr".toList ∧
    (ofList exchanged).normalize "fr-fr".toList = .ok "fr-fr".toList ∧
    (ofList exchanged).get " Pt_BR".toList = .ok ⟨1, "pt-br".toList, "De".toList, .ltr⟩ := by
  have hkeys : HasDistinctKeys exchanged := by decide +kernel
  have hname : (ofList exchanged).normalize "pt".toList = .ok "fr-fr".toList := by decide +kernel
  obtain ⟨hcode, hspelling⟩ := normalize_canonical hkeys
  refine ⟨hkeys, hname, (hcode _ _ hname).1, ?_⟩
  exact hspelling _ (by simp [exchanged]) _ (by decide +kernel)

/-- Codes that differ in letter case only: the second language goes by its name alone. -/
example :
    let r := ofList [⟨1, "EN".toList, "British".toList, .ltr⟩, ⟨2, "en".toList, "Irish".toList, .ltr⟩]
    r.normalize "Irish".toList = .ok "en".toList ∧ r.normalize "en".toList = .ok "EN".toList := by
  decide +kernel

end Registry

end LocaleSync
