/-
What the index of a registry holds. Entering identifiers one after another leaves under each key
the first identifier with that key (`position?_index`), so every identifier of a listed language
is answered by some language (`find?_isSome_of_mem_identifiers`), and a code by a language whose
code has the same key (`key_code_of_find?_code`).
-/
import LocaleSync.LocaleFile
import LocaleSync.Registry
import Mathlib.Data.List.Basic

namespace LocaleSync

namespace Registry

theorem position?_append_singleton (index : List (Text × Nat)) (k key : Text) (i : Nat) :
    position? (index ++ [(k, i)]) key =
      (position? index key).or (if k = key then some i else none) := by
  simp only [position?, List.find?_append]
  cases index.find? (·.1 = key) with
  | some e => rfl
  | none => by_cases h : k = key <;> simp [h]

theorem position?_enter (index : List (Text × Nat)) (entry : Text × Nat) (key : Text) :
    position? (enter index entry) key =
      (position? index key).or (if Language.key entry.1 = key then some entry.2 else none) := by
  simp only [enter]
  split
  next h =>
    obtain ⟨i, hi⟩ := Option.isSome_iff_exists.1 h
    by_cases hk : Language.key entry.1 = key
    · rw [← hk, hi]
      rfl
    · simp [hk]
  next => exact position?_append_singleton _ _ _ _

theorem position?_foldl_enter (entries index : List (Text × Nat)) (key : Text) :
    position? (entries.foldl enter index) key =
      (position? index key).or ((entries.find? (Language.key ·.1 = key)).map (·.2)) := by
  induction entries generalizing index with
  | nil => simp
  | cons entry entries ih =>
    rw [List.foldl_cons, ih, position?_enter, Option.or_assoc]
    by_cases hk : Language.key entry.1 = key <;> simp [hk]

/-- **Under a key stands the first identifier that has it.** -/
theorem position?_index (languages : List Language) (key : Text) :
    position? (ofList languages).index key =
      ((identifiers languages).find? (Language.key ·.1 = key)).map (·.2) := by
  exact position?_foldl_enter (identifiers languages) [] key

theorem mem_identifiers {languages : List Language} {identifier : Text} {i : Nat}
    (h : (identifier, i) ∈ identifiers languages) : i < languages.length := by
  simp only [identifiers, List.mem_append, List.mem_map, List.mem_flatMap, Prod.exists,
    Prod.mk.injEq] at h
  obtain (⟨l, j, hj, -, rfl⟩ | ⟨l, j, hj, -, -, -, rfl⟩) | ⟨l, j, hj, -, rfl⟩ := h <;>
    exact List.snd_lt_of_mem_zipIdx hj

/-- An identifier of a listed language stands for some language. -/
theorem find?_isSome_of_mem_identifiers {languages : List Language} {identifier : Text} {i : Nat}
    (h : (identifier, i) ∈ identifiers languages) :
    ((ofList languages).find? identifier).isSome := by
  have hf : ((identifiers languages).find?
      (Language.key ·.1 = Language.key identifier)).isSome := by
    rw [List.find?_isSome]
    exact ⟨_, h, by simp⟩
  obtain ⟨⟨other, j⟩, hj⟩ := Option.isSome_iff_exists.1 hf
  have hlt := mem_identifiers (List.mem_of_find?_eq_some hj)
  rw [find?, position?_index, hj]
  simpa [ofList] using hlt

theorem find?_code_isSome {languages : List Language} {l : Language} (h : l ∈ languages) :
    ((ofList languages).find? l.code).isSome := by
  obtain ⟨i, hi⟩ := List.mem_iff_getElem?.1 h
  apply find?_isSome_of_mem_identifiers
  simp only [identifiers, List.mem_append, List.mem_map]
  exact .inl (.inl ⟨(l, i), List.mk_mem_zipIdx_iff_getElem?.2 hi, rfl⟩)

theorem find?_lang_isSome {languages : List Language} {l : Language} (h : l ∈ languages) :
    ((ofList languages).find? l.lang).isSome := by
  obtain ⟨i, hi⟩ := List.mem_iff_getElem?.1 h
  apply find?_isSome_of_mem_identifiers
  simp only [identifiers, List.mem_append, List.mem_map]
  exact .inr ⟨(l, i), List.mk_mem_zipIdx_iff_getElem?.2 hi, rfl⟩

/-- A code stands for a language whose code has the same key. -/
theorem key_code_of_find?_code {languages : List Language} {l m : Language} (h : l ∈ languages)
    (hm : (ofList languages).find? l.code = some m) :
    m ∈ languages ∧ Language.key m.code = Language.key l.code := by
  obtain ⟨i, hi⟩ := List.mem_iff_getElem?.1 h
  have hcode : (languages.zipIdx.map fun e => (e.1.code, e.2)).find?
      (Language.key ·.1 = Language.key l.code) ≠ none := by
    rw [ne_eq, List.find?_eq_none]
    intro hn
    exact hn (l.code, i) (List.mem_map.2 ⟨(l, i), List.mk_mem_zipIdx_iff_getElem?.2 hi, rfl⟩)
      (by simp)
  -- Codes are entered before everything else, so the hit is one of them.
  cases hf : (languages.zipIdx.map fun e => (e.1.code, e.2)).find?
      (Language.key ·.1 = Language.key l.code) with
  | none => exact absurd hf hcode
  | some e =>
    obtain ⟨⟨m', j⟩, hmem, rfl⟩ := List.mem_map.1 (List.mem_of_find?_eq_some hf)
    have hkey : Language.key m'.code = Language.key l.code := by simpa using List.find?_some hf
    have hj : languages[j]? = some m' := List.mk_mem_zipIdx_iff_getElem?.1 hmem
    rw [find?, position?_index, identifiers, List.append_assoc, List.find?_append, hf] at hm
    obtain rfl : m' = m := by
      have : languages[j]? = some m := by simpa [ofList] using hm
      exact Option.some.inj (hj.symm.trans this)
    exact ⟨List.mem_of_getElem? hj, hkey⟩

theorem get_eq_ok_iff {r : Registry} {identifier : Text} {l : Language} :
    r.get identifier = .ok l ↔ r.find? identifier = some l := by
  unfold get
  split <;> simp_all

end Registry

/-! ## Some languages and files -/

namespace Language

def english : Language :=
  ⟨1, "en-us".toList, "English".toList, .ltr⟩

def french : Language :=
  ⟨2, "fr-fr".toList, "French".toList, .ltr⟩

def german : Language :=
  ⟨3, "de-de".toList, "German".toList, .ltr⟩

def brazilian : Language :=
  ⟨4, "pt-br".toList, "Portuguese".toList, .ltr⟩

end Language

/-- A file in English of the project in `/p`. -/
def englishFile (path : String) : LocaleFile where
  relative := .ofString path
  language := .english
  root := .ofString "/p"

end LocaleSync
