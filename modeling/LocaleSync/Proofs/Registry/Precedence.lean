/-
Which language an identifier stands for. The index is one list of keys, filled in three passes, but
it answers as three searches one after another (`search`): for a language whose code has the key,
then for one with such a name, then for one with such a short code, each time the first in the
order of the list (`find?_eq_search`).

The index holds nothing but positions of listed languages (`lt_of_mem_index`), and every value that
a placeholder has for a listed language is among the identifiers (`value?_mem_identifiers`), so a
text written for one is never unknown.
-/
import LocaleSync.Placeholder
import LocaleSync.Proofs.Registry

namespace LocaleSync

namespace Registry

/-- The first language whose code has the key, else the first with such a name, else the first with
such a short code. -/
def search (languages : List Language) (key : Text) : Option Language :=
  (languages.find? fun l => Language.key l.code = key).or
    ((languages.find? fun l => l.names.any fun name => Language.key name = key).or
      (languages.find? fun l => Language.key l.lang = key))

/-! ## The passes -/

/-- Texts of all languages, each with the position of its language. -/
def numbered (texts : Language → List Text) (languages : List Language) : List (Text × Nat) :=
  languages.zipIdx.flatMap fun e => (texts e.1).map (·, e.2)

theorem identifiers_eq (languages : List Language) :
    identifiers languages =
      numbered (fun l => [l.code]) languages ++ numbered Language.names languages ++
        numbered (fun l => [l.lang]) languages := by
  have hsingle (text : Language → Text) :
      languages.zipIdx.map (fun e => (text e.1, e.2)) = numbered (fun l => [text l]) languages :=
    List.map_eq_flatMap
  rw [← hsingle, ← hsingle]
  rfl

theorem find?_map_number (texts : List Text) (i : Nat) (key : Text) :
    ((texts.map (·, i)).find? (Language.key ·.1 = key)).map (·.2) =
      if (texts.any fun t => Language.key t = key) = true then some i else none := by
  rw [List.find?_map, Option.map_map, ← List.isSome_find?]
  change (texts.find? fun t => Language.key t = key).map (fun _ => i) = _
  cases texts.find? fun t => Language.key t = key <;> rfl

/-- **A pass finds the first language that has a text with the key.** -/
theorem find?_numbered (texts : Language → List Text) (languages : List Language) (key : Text) :
    ((numbered texts languages).find? (Language.key ·.1 = key)).map (·.2) =
      languages.findIdx? fun l => (texts l).any fun t => Language.key t = key := by
  rw [numbered, List.find?_flatMap, List.map_findSome?, List.findIdx?_eq_findSome?_zipIdx]
  congr 1
  funext e
  exact find?_map_number (texts e.1) e.2 key

/-- What stands under a key, by the three passes. -/
theorem position?_eq_findIdx? (languages : List Language) (key : Text) :
    position? (ofList languages).index key =
      (languages.findIdx? fun l => Language.key l.code = key).or
        ((languages.findIdx? fun l => l.names.any fun name => Language.key name = key).or
          (languages.findIdx? fun l => Language.key l.lang = key)) := by
  rw [position?_index, identifiers_eq, List.append_assoc, List.find?_append, List.find?_append,
    Option.map_or, Option.map_or, find?_numbered, find?_numbered, find?_numbered]
  simp only [List.any_cons, List.any_nil, Bool.or_false]

/-! ## The searches -/

/-- A language that is found has its position, and no other one is looked at. -/
theorem bind_findIdx?_or (languages : List Language) (p : Language → Bool) (next? : Option Nat) :
    ((languages.findIdx? p).or next?).bind (languages[·]?) =
      (languages.find? p).or (next?.bind (languages[·]?)) := by
  rw [List.find?_eq_bind_findIdx?_getElem?]
  cases h : languages.findIdx? p with
  | none => rfl
  | some i =>
    obtain ⟨hi, -⟩ := List.findIdx?_eq_some_iff_getElem.1 h
    simp [hi]

/-- **The index answers as the three searches.** -/
theorem find?_eq_search (languages : List Language) (identifier : Text) :
    (ofList languages).find? identifier = search languages (Language.key identifier) := by
  have hfind : (ofList languages).find? identifier =
      (position? (ofList languages).index (Language.key identifier)).bind (languages[·]?) := rfl
  rw [hfind, position?_eq_findIdx?, bind_findIdx?_or, bind_findIdx?_or,
    ← List.find?_eq_bind_findIdx?_getElem?, search]

/-! ## What the index holds -/

theorem mem_enter {index : List (Text × Nat)} {entry e : Text × Nat} (h : e ∈ enter index entry) :
    e ∈ index ∨ e = (Language.key entry.1, entry.2) := by
  simp only [enter] at h
  split at h
  · exact .inl h
  · simpa using h

theorem mem_foldl_enter {entries index : List (Text × Nat)} {e : Text × Nat}
    (h : e ∈ entries.foldl enter index) :
    e ∈ index ∨ ∃ entry ∈ entries, e = (Language.key entry.1, entry.2) := by
  induction entries generalizing index with
  | nil => exact .inl h
  | cons entry entries ih =>
    rcases ih h with h | ⟨other, hother, he⟩
    · rcases mem_enter h with h | he
      · exact .inl h
      · exact .inr ⟨entry, by simp, he⟩
    · exact .inr ⟨other, by simp [hother], he⟩

/-- The index holds positions of the list only. -/
theorem lt_of_mem_index {languages : List Language} {e : Text × Nat}
    (h : e ∈ (ofList languages).index) : e.2 < languages.length := by
  rcases mem_foldl_enter h with h | ⟨entry, hentry, rfl⟩
  · cases h
  · exact mem_identifiers hentry

theorem value?_mem_identifiers {languages : List Language} {l : Language} (h : l ∈ languages)
    {v : Placeholder} {value : Text} (hv : v.value? l = some value) :
    ∃ i, (value, i) ∈ identifiers languages := by
  obtain ⟨i, hi⟩ := List.mem_iff_getElem?.1 h
  have hmem : (l, i) ∈ languages.zipIdx := List.mk_mem_zipIdx_iff_getElem?.2 hi
  have htext (texts : Language → List Text) (ht : value ∈ texts l) :
      (value, i) ∈ numbered texts languages :=
    List.mem_flatMap.2 ⟨(l, i), hmem, List.mem_map.2 ⟨value, ht, rfl⟩⟩
  refine ⟨i, ?_⟩
  rw [identifiers_eq, List.mem_append, List.mem_append]
  cases v with
  | code =>
    cases hv
    exact .inl (.inl (htext _ (by simp)))
  | name | nameCapitalized | nameUppercased =>
    cases hv
    exact .inl (.inr (htext _ (by simp [Language.names])))
  | lang =>
    cases hv
    exact .inr (htext _ (by simp))
  | extension => cases hv

/-- **Which language a registry has for an identifier**: the one that the three searches find, or
the error that names the identifier as it was given. Every position in the index is one of the list,
and whatever stands for a placeholder in a path of a listed language is known. -/
theorem get_eq_search (languages : List Language) (identifier : Text) :
    (ofList languages).get identifier =
        (search languages (Language.key identifier)).elim
          (.error (.languageNotFound identifier)) .ok ∧
      (∀ e ∈ (ofList languages).index, e.2 < languages.length) ∧
      ∀ l ∈ languages, ∀ v value, Placeholder.value? l v = some value →
        ∃ m, (ofList languages).get value = .ok m := by
  refine ⟨?_, fun e he => lt_of_mem_index he, fun l hl v value hv => ?_⟩
  · rw [← find?_eq_search, get]
    cases (ofList languages).find? identifier <;> rfl
  · obtain ⟨i, hi⟩ := value?_mem_identifiers hl hv
    obtain ⟨m, hm⟩ := Option.isSome_iff_exists.1 (find?_isSome_of_mem_identifiers hi)
    exact ⟨m, get_eq_ok_iff.2 hm⟩

/-- Three languages that answer to `pt`: by short code, by name and by code. -/
def contested : List Language :=
  [⟨1, "pt-br".toList, "Brazil".toList, .ltr⟩, ⟨2, "de-de".toList, "Pt".toList, .ltr⟩,
    ⟨3, "pt".toList, "Português".toList, .ltr⟩]

theorem get_eq_search_contested :
    (ofList contested).get " PT".toList = .ok ⟨3, "pt".toList, "Português".toList, .ltr⟩ ∧
      ∃ m, (ofList contested).get "PORTUGUÊS".toList = .ok m := by
  obtain ⟨hget, -, hvalue⟩ := get_eq_search contested " PT".toList
  refine ⟨hget.trans (by decide +kernel), ?_⟩
  exact hvalue ⟨3, "pt".toList, "Português".toList, .ltr⟩ (by simp [contested]) .nameUppercased _
    (by decide +kernel)

end Registry

end LocaleSync
