/-
The keys of identifiers. A key is its own key (`key_key`): it has no white space at its ends
(`IsTrimmed.lower`), it is in lower case, and it has no underscore. And an identifier has the same key
however it is spelled: in letters of either case, with dashes or underscores, with white space
around it or not (`key_map_toLower`, `key_replaceChar`, `trim_around`).
-/
import LocaleSync.Proofs.Text.Casing
import LocaleSync.Proofs.Text.Letters
import Mathlib.Data.List.Forall2
import Mathlib.Data.List.TakeWhile

namespace LocaleSync

namespace Text

/-! ## White space at the ends -/

/-- A text that neither starts nor ends with white space. -/
structure IsTrimmed (t : Text) : Prop where
  first : ∀ c, t.head? = some c → isBlank c = false
  last : ∀ c, t.getLast? = some c → isBlank c = false

theorem dropWhile_isBlank_eq_self {t : Text} (h : ∀ c, t.head? = some c → isBlank c = false) :
    t.dropWhile isBlank = t := by
  cases t with
  | nil => rfl
  | cons c t => rw [List.dropWhile_cons_of_neg (by simp [h c rfl])]

theorem IsTrimmed.reverse {t : Text} (h : IsTrimmed t) : IsTrimmed t.reverse :=
  ⟨by simpa using h.last, by simpa using h.first⟩

/-- White space is dropped before a text that does not start with any. -/
theorem IsTrimmed.dropWhile_append {u a b : Text} (hu : IsTrimmed u)
    (ha : ∀ c ∈ a, isBlank c = true) (hb : ∀ c ∈ b, isBlank c = true) :
    (a ++ u ++ b).dropWhile isBlank = if u = [] then [] else u ++ b := by
  rw [List.append_assoc, List.dropWhile_append_of_pos ha]
  cases u with
  | nil => exact List.dropWhile_eq_nil_iff.2 hb
  | cons c u => exact dropWhile_isBlank_eq_self fun d hd => hu.first d hd

/-- **What is left of a text without the white space around it.** -/
theorem IsTrimmed.trim_eq {u a b : Text} (hu : IsTrimmed u) (ha : ∀ c ∈ a, isBlank c = true)
    (hb : ∀ c ∈ b, isBlank c = true) : trim (a ++ u ++ b) = u := by
  unfold trim
  rw [hu.dropWhile_append ha hb]
  by_cases hne : u = []
  · simp [hne]
  · have hrev := hu.reverse.dropWhile_append (a := b.reverse) (b := []) (by simpa using hb) (by simp)
    rw [if_neg hne, List.reverse_append]
    simpa [hne] using congrArg List.reverse hrev

theorem head?_dropWhile_isBlank (t : Text) :
    ∀ c, (t.dropWhile isBlank).head? = some c → isBlank c = false := by
  intro c hc
  simpa [hc] using List.head?_dropWhile_not isBlank t

/-- A text is what is left of it with white space around. -/
theorem exists_eq_append_trim (t : Text) :
    IsTrimmed (trim t) ∧ ∃ a b, t = a ++ trim t ++ b ∧ ∀ c ∈ a ++ b, isBlank c = true := by
  have hfront : t.takeWhile isBlank ++ t.dropWhile isBlank = t := List.takeWhile_append_dropWhile
  have hback : t.dropWhile isBlank =
      trim t ++ ((t.dropWhile isBlank).reverse.takeWhile isBlank).reverse := by
    rw [trim, ← List.reverse_append, List.takeWhile_append_dropWhile, List.reverse_reverse]
  refine ⟨⟨fun c hc => ?_, fun c hc => ?_⟩, t.takeWhile isBlank,
    ((t.dropWhile isBlank).reverse.takeWhile isBlank).reverse, ?_, fun c hc => ?_⟩
  · refine head?_dropWhile_isBlank t c ?_
    rw [hback, List.head?_append, hc]
    rfl
  · rw [trim, List.getLast?_reverse] at hc
    exact head?_dropWhile_isBlank _ c hc
  · rw [List.append_assoc, ← hback, hfront]
  · rcases List.mem_append.1 hc with hc | hc
    · exact List.mem_takeWhile_imp hc
    · exact List.mem_takeWhile_imp (List.mem_reverse.1 hc)

/-- **White space around a text makes no difference to what is left of it.** -/
theorem trim_around {a b : Text} (h : ∀ c ∈ a ++ b, isBlank c = true) (t : Text) :
    trim (a ++ t ++ b) = trim t := by
  obtain ⟨htrim, x, y, ht, hxy⟩ := exists_eq_append_trim t
  have hall : ∀ c ∈ (a ++ x) ++ (y ++ b), isBlank c = true := by
    intro c hc
    simp only [List.mem_append] at hc h hxy
    rcases hc with (hc | hc) | (hc | hc)
    · exact h c (.inl hc)
    · exact hxy c (.inl hc)
    · exact hxy c (.inr hc)
    · exact h c (.inr hc)
  have hwhole : a ++ t ++ b = (a ++ x) ++ trim t ++ (y ++ b) := by
    conv_lhs => rw [ht]
    simp only [List.append_assoc]
  rw [hwhole]
  exact htrim.trim_eq (fun c hc => hall c (List.mem_append_left _ hc))
    fun c hc => hall c (List.mem_append_right _ hc)

theorem IsTrimmed.trim_eq_self {t : Text} (h : IsTrimmed t) : trim t = t := by
  simpa using h.trim_eq (a := []) (b := []) (by simp) (by simp)

/-! ## Lower case of a trimmed text -/

/-- No other lower case is moved to white space. -/
theorem lowerRanges_miss_blanks : ∀ r ∈ lowerRanges, ∀ q ∈ [(0x85, 0xA0), (0x1680, 0x1680),
    (0x2000, 0x205F), (0x3000, 0x3000)], r.last + r.offset < q.1 ∨ q.2 < r.first + r.offset := by
  decide +kernel

theorem isBlank_eq_false_of_mem_lowerChar {c d : Char} (hd : d ∈ lowerChar c)
    (h : isBlank c = false) : isBlank d = false := by
  unfold lowerChar at hd
  split at hd
  · simp only [List.mem_cons, List.not_mem_nil, or_false] at hd
    rcases hd with rfl | rfl <;> decide
  · obtain rfl := List.mem_singleton.1 hd
    rcases apply_lowerRanges_cases c with ⟨-, hself⟩ | ⟨r, hr, ⟨hfirst, hlast, -⟩, hmoved⟩
    · rw [hself]
      exact h
    · have habove := lowerRanges_above_marks r hr
      have hmiss := lowerRanges_miss_blanks r hr
      simp only [List.forall_mem_cons, List.not_mem_nil, false_implies, implies_true, and_true]
        at hmiss
      rw [hmoved, Bool.eq_false_iff]
      intro hblank
      simp only [isBlank, Bool.or_eq_true, Bool.and_eq_true, decide_eq_true_eq, beq_iff_eq] at hblank
      have hn := toNat_ofNat (r.moved c.toNat)
      simp only [CaseRange.moved] at hn hblank
      omega

theorem LowersTo.isBlank_eq_false {c d : Char} {x : Text} (h : LowersTo c x)
    (hc : isBlank c = false) (hd : d ∈ x) : isBlank d = false := by
  rcases h with rfl | ⟨-, rfl⟩
  · exact isBlank_eq_false_of_mem_lowerChar hd hc
  · obtain rfl := List.mem_singleton.1 hd
    decide

/-- **Lower case puts no white space at the ends of a text.** -/
theorem IsTrimmed.lower {t : Text} (h : IsTrimmed t) : IsTrimmed (Text.lower t) := by
  obtain ⟨pieces, hflat, hpieces⟩ := exists_forall₂_lowerAfter [] t
  have hlower : Text.lower t = pieces.flatten := hflat
  rw [hlower]
  constructor
  · intro d hd
    cases hpieces with
    | nil => cases hd
    | @cons c x _ _ hx _ =>
      obtain ⟨e, y, rfl⟩ := List.exists_cons_of_ne_nil hx.ne_nil
      obtain rfl : e = d := by simpa using hd
      exact hx.isBlank_eq_false (h.first c rfl) (by simp)
  · intro d hd
    -- The last piece is that of the last character.
    have hreverse := List.forall₂_reverse_iff.2 hpieces
    rw [← List.reverse_reverse pieces] at hd
    have hlast : ∀ c, t.reverse.head? = some c → isBlank c = false := by simpa using h.last
    generalize t.reverse = u at hreverse hlast
    generalize pieces.reverse = xs at hreverse hd
    cases hreverse with
    | nil => simp at hd
    | @cons c x _ xs hx _ =>
      have hmem : d ∈ x := by
        refine List.mem_of_getLast? ?_
        rw [← hd]
        simp [List.getLast?_append_of_ne_nil _ hx.ne_nil]
      exact hx.isBlank_eq_false (hlast c rfl) hmem

end Text

/-! ## Keys -/

namespace Language

theorem isBlank_replaced (c : Char) :
    Text.isBlank (if c = '_' then '-' else c) = Text.isBlank c := by
  split
  next h =>
    subst h
    decide
  next => rfl

/-- Dashes and underscores make one key. -/
theorem key_replaceChar (t : Text) : key (Text.replaceChar '_' '-' t) = key t := by
  have htwice : ∀ u, Text.replaceChar '_' '-' (Text.replaceChar '_' '-' u) =
      Text.replaceChar '_' '-' u := by
    intro u
    refine Text.replaceChar_of_not_mem ?_
    intro h
    obtain ⟨c, -, hc⟩ := List.mem_map.1 h
    split at hc
    · exact absurd hc (by decide)
    next hne => exact hne hc
  unfold key
  rw [show Text.trim (Text.replaceChar '_' '-' t) = Text.replaceChar '_' '-' (Text.trim t) from
    Text.trim_map isBlank_replaced t, Text.lower_replaceChar (Text.isNeutral_of_mem (by decide))
    (Text.isNeutral_of_mem (by decide)), htwice]

/-- **A key is its own key.** -/
theorem key_key (t : Text) : key (key t) = key t := by
  have htrim := (Text.exists_eq_append_trim t).1
  calc key (key t) = key (Text.lower (Text.trim t)) := key_replaceChar _
    _ = Text.replaceChar '_' '-' (Text.lower (Text.lower (Text.trim t))) := by
      rw [key, htrim.lower.trim_eq_self]
    _ = key t := by rw [Text.lower_lower, key]

theorem key_around {a b : Text} (h : ∀ c ∈ a ++ b, Text.isBlank c = true) (t : Text) :
    key (a ++ t ++ b) = key t := by
  rw [key, Text.trim_around h, key]

/-- A character of an identifier in the same or in another spelling: an ASCII letter in either case,
a dash or an underscore for each other. -/
def SameSign (c d : Char) : Prop :=
  c.toLower = d.toLower ∨ (c ∈ ['_', '-'] ∧ d ∈ ['_', '-'])

/-- An identifier in the same or in another spelling: character by character, with any white space
around it. -/
def Respells (s t : Text) : Prop :=
  ∃ a u b a' u' b', s = a ++ u ++ b ∧ t = a' ++ u' ++ b' ∧
    (∀ c ∈ a ++ b, Text.isBlank c = true) ∧ (∀ c ∈ a' ++ b', Text.isBlank c = true) ∧
    List.Forall₂ SameSign u u'

theorem SameSign.toLower_eq {c d : Char} (h : SameSign c d) :
    (if c = '_' then '-' else c).toLower = (if d = '_' then '-' else d).toLower := by
  rcases h with h | ⟨hc, hd⟩
  · have hiff : c = '_' ↔ d = '_' := by
      rw [← Text.toLower_eq_iff (c := c) (d := '_') rfl, ← Text.toLower_eq_iff (c := d) (d := '_') rfl,
        h]
    by_cases hc : c = '_'
    · rw [if_pos hc, if_pos (hiff.1 hc)]
    · rw [if_neg hc, if_neg fun hd => hc (hiff.2 hd), h]
  · rcases List.mem_pair.1 hc with rfl | rfl <;> rcases List.mem_pair.1 hd with rfl | rfl <;> rfl

/-- Characters that are the same up to spelling make one key. -/
theorem key_eq_of_forall₂ {u u' : Text} (h : List.Forall₂ SameSign u u') : key u' = key u := by
  have hsame : (Text.replaceChar '_' '-' u).map Char.toLower =
      (Text.replaceChar '_' '-' u').map Char.toLower := by
    induction h with
    | nil => rfl
    | cons hc _ ih => simp only [Text.replaceChar_cons, List.map_cons, hc.toLower_eq, ih]
  calc key u' = key ((Text.replaceChar '_' '-' u').map Char.toLower) := by
        rw [key_map_toLower, key_replaceChar]
    _ = key ((Text.replaceChar '_' '-' u).map Char.toLower) := by rw [hsame]
    _ = key u := by rw [key_map_toLower, key_replaceChar]

/-- **Keys are canonical.** A key is its own key, and all spellings of an identifier have one
key. -/
theorem key_canonical (s : Text) : key (key s) = key s ∧ ∀ t, Respells s t → key t = key s := by
  refine ⟨key_key s, fun t h => ?_⟩
  obtain ⟨a, u, b, a', u', b', rfl, rfl, hs, ht, hsigns⟩ := h
  rw [key_around ht, key_around hs, key_eq_of_forall₂ hsigns]

/-- A word that ends in a capital sigma before an underscore, between a no-break space and a line
end, and the same with a dash, in other letters and with another space behind it. -/
theorem key_canonical_final_sigma :
    Respells "\u00A0ΟΔΟΣ_En\n".toList "ΟΔΟΣ-eN\u3000".toList ∧
      key "ΟΔΟΣ-eN\u3000".toList = key "\u00A0ΟΔΟΣ_En\n".toList ∧
      key "\u00A0ΟΔΟΣ_En\n".toList = "οδος-en".toList ∧
      key "οδος-en".toList = "οδος-en".toList := by
  have hkey : key "\u00A0ΟΔΟΣ_En\n".toList = "οδος-en".toList := by decide +kernel
  have hrespells : Respells "\u00A0ΟΔΟΣ_En\n".toList "ΟΔΟΣ-eN\u3000".toList := by
    refine ⟨['\u00A0'], "ΟΔΟΣ_En".toList, ['\n'], [], "ΟΔΟΣ-eN".toList, ['\u3000'], rfl, rfl,
      List.all_eq_true.1 (by decide), List.all_eq_true.1 (by decide), ?_⟩
    exact .cons (.inl rfl) (.cons (.inl rfl) (.cons (.inl rfl) (.cons (.inl rfl)
      (.cons (.inr (by decide)) (.cons (.inl rfl) (.cons (.inl rfl) .nil))))))
  obtain ⟨htwice, hsame⟩ := key_canonical "\u00A0ΟΔΟΣ_En\n".toList
  refine ⟨hrespells, hsame _ hrespells, hkey, ?_⟩
  rw [hkey] at htwice
  exact htwice

end Language

end LocaleSync
