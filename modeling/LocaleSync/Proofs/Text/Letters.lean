/-
Letters in either case. `Char.toLower` moves the capital letters of ASCII and nothing else
(`toLower_eq_or_mem`), so whatever is told of those 26 letters as of the small ones cannot see the
case of a letter (`toLower_congr`). Splitting at a slash, trimming and lower case do not
(`splitOn_map_toLower`, `trim_map_toLower`, `lower_map_toLower`), and neither does the key of a
language (`Language.key_map_toLower`).
-/
import LocaleSync.Registry
import Mathlib.Data.List.Basic

namespace LocaleSync

namespace Text

/-- The capital letters of ASCII. -/
def capitals : Text :=
  "ABCDEFGHIJKLMNOPQRSTUVWXYZ".toList

theorem toLower_eq_or_mem (c : Char) : c.toLower = c ∨ c ∈ capitals := by
  have hrange : (List.range' 65 26).map Char.ofNat = capitals := by decide
  unfold Char.toLower
  split
  next h =>
    right
    have hfirst : 65 ≤ c.toNat := h.1
    have hlast : c.toNat ≤ 90 := h.2
    rw [← Char.ofNat_toNat c, ← hrange]
    exact List.mem_map_of_mem (List.mem_range'_1.2 ⟨hfirst, by omega⟩)
  next => exact .inl rfl

/-- What is the same for the capital letters and their small ones does not see the case of
letters. -/
theorem toLower_congr {α : Type} {f : Char → α}
    (h : capitals.map (fun c => f c.toLower) = capitals.map f) (c : Char) :
    f c.toLower = f c := by
  rcases toLower_eq_or_mem c with hc | hc
  · rw [hc]
  · exact List.map_inj_left.1 h c hc

/-- What is no letter is met in no other case. -/
theorem toLower_eq_iff {c d : Char} (hd : d.isAlpha = false) : c.toLower = d ↔ c = d := by
  have hletters : (capitals.all fun c => c.isAlpha && c.toLower.isAlpha) = true := by decide
  rcases toLower_eq_or_mem c with hc | hc
  · rw [hc]
  · obtain ⟨hcapital, hsmall⟩ := Bool.and_eq_true_iff.1 (List.all_eq_true.1 hletters c hc)
    constructor
    · intro h
      rw [h, hd] at hsmall
      cases hsmall
    · intro h
      rw [h, hd] at hcapital
      cases hcapital

theorem isBlank_toLower (c : Char) : isBlank c.toLower = isBlank c :=
  toLower_congr (by decide) c

theorem lowerChar_toLower (c : Char) : lowerChar c.toLower = lowerChar c :=
  toLower_congr (by decide +kernel) c

theorem isCased_toLower (c : Char) : isCased c.toLower = isCased c :=
  toLower_congr (by decide +kernel) c

theorem isCaseIgnorable_toLower (c : Char) : isCaseIgnorable c.toLower = isCaseIgnorable c :=
  toLower_congr (by decide +kernel) c

/-! ## Whole texts -/

theorem splitOn_map_toLower (t : Text) :
    splitOn '/' (t.map Char.toLower) = (splitOn '/' t).map (·.map Char.toLower) := by
  induction t with
  | nil => rfl
  | cons c t ih =>
    by_cases hc : c = '/'
    · simp [splitOn, hc, ih, show Char.toLower '/' = '/' from rfl]
    · have hlower : c.toLower ≠ '/' := fun h => hc ((toLower_eq_iff rfl).1 h)
      simp only [List.map_cons, splitOn, hc, hlower, if_false, ih]
      cases splitOn '/' t <;> rfl

theorem joinWith_map_toLower (pieces : List Text) :
    joinWith ['/'] (pieces.map (·.map Char.toLower)) =
      (joinWith ['/'] pieces).map Char.toLower := by
  induction pieces with
  | nil => rfl
  | cons piece pieces ih =>
    cases pieces with
    | nil => rfl
    | cons next pieces =>
      simp only [List.map_cons, joinWith] at ih ⊢
      rw [ih]
      simp [show Char.toLower '/' = '/' from rfl]

/-- Characters can be changed before or after a text is trimmed, as long as white space is told
apart. -/
theorem trim_map {f : Char → Char} (hf : ∀ c, isBlank (f c) = isBlank c) (t : Text) :
    trim (t.map f) = (trim t).map f := by
  have hdrop (u : Text) : (u.map f).dropWhile isBlank = (u.dropWhile isBlank).map f := by
    rw [List.dropWhile_map, show isBlank ∘ f = isBlank from funext hf]
  unfold trim
  rw [hdrop, ← List.map_reverse, hdrop, List.map_reverse]

theorem trim_map_toLower (t : Text) : trim (t.map Char.toLower) = (trim t).map Char.toLower :=
  trim_map isBlank_toLower t

theorem startsCased_map_toLower (t : Text) : startsCased (t.map Char.toLower) = startsCased t := by
  have hcomp : isCaseIgnorable ∘ Char.toLower = isCaseIgnorable := funext isCaseIgnorable_toLower
  unfold startsCased
  rw [List.dropWhile_map, hcomp]
  cases t.dropWhile isCaseIgnorable with
  | nil => rfl
  | cons c t => exact isCased_toLower c

/-- **Lower case does not see the case of ASCII letters**, nor where a word ends. -/
theorem lower_map_toLower (t : Text) : lower (t.map Char.toLower) = lower t := by
  have h : ∀ seen, lowerAfter (seen.map Char.toLower) (t.map Char.toLower) = lowerAfter seen t := by
    induction t with
    | nil => intro seen; rfl
    | cons c t ih =>
      intro seen
      have hrest := ih (c :: seen)
      rw [List.map_cons] at hrest ⊢
      have hsigma : c.toLower = 'Σ' ↔ c = 'Σ' := toLower_eq_iff rfl
      simp only [lowerAfter, hrest, startsCased_map_toLower, lowerChar_toLower, hsigma]
  exact h []

end Text

/-- **The key of a language does not see the case of ASCII letters.** -/
theorem Language.key_map_toLower (t : Text) : key (t.map Char.toLower) = key t := by
  unfold key
  rw [Text.trim_map_toLower, Text.lower_map_toLower]

end LocaleSync
