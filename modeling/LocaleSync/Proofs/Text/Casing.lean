/-
Lower case, character by character and for whole texts. A slash, a dash, a backslash or an underscore
is its own lower case, it is the lower case of nothing else, and words end at it (`IsNeutral`). So
one can be written for another before or after a text is put in lower case (`lower_replaceChar`), and
lower case keeps the separators of a text (`filter_isMark_lower`).

The table of lower case moves no code point to one that it moves again (`lowerRanges_miss`). So what
is in lower case stays as it is (`lower_lower`).
-/
import LocaleSync.Text.Casing
import Mathlib.Data.List.Basic

namespace LocaleSync

namespace Text

/-- A separator: of a path, here or elsewhere, or of the names in a unique name. -/
def isMark (c : Char) : Bool :=
  c = '/' || c = '-' || c = '\\'

theorem isMark_iff {c : Char} : isMark c = true ↔ c = '/' ∨ c = '-' ∨ c = '\\' := by
  simp [isMark, or_assoc]

/-- The character of a number has this number, or there is none and it stands for NUL. -/
theorem toNat_ofNat (n : Nat) : (Char.ofNat n).toNat = n ∨ (Char.ofNat n).toNat = 0 := by
  by_cases h : n.isValidChar
  · exact .inl (by rw [Char.ofNat, dif_pos h]; rfl)
  · exact .inr (by rw [Char.ofNat, dif_neg h]; rfl)

/-! ## The table of lower case -/

/-- Where a code point of a range is moved. -/
def CaseRange.moved (r : CaseRange) (n : Nat) : Nat :=
  Int.toNat (n + r.offset)

/-- Whether a range is moved past another one: before it, behind it, or between its code points. -/
def CaseRange.misses (r q : CaseRange) : Bool :=
  (r.moved r.last).blt q.first || q.last.blt (r.moved r.first) ||
    ((r.stride == 2 || r.first == r.last) && q.stride == 2 &&
      (r.moved r.first + q.first) % 2 == 1)

/-- What another lower case is moved to lies behind all separators. -/
theorem lowerRanges_above_marks : ∀ r ∈ lowerRanges, 95 < r.first + r.offset := by
  decide +kernel

theorem lowerRanges_miss_dotted : ∀ r ∈ lowerRanges,
    r.last + r.offset < 0x130 ∨ 0x130 < r.first + r.offset := by
  decide +kernel

theorem lowerRanges_miss : (lowerRanges.all fun r => lowerRanges.all r.misses) = true := by
  decide +kernel

/-- The lower case of a character other than the dotted capital I: the character itself, or where
its range moves it. -/
theorem apply_lowerRanges_cases (c : Char) :
    (CaseRange.find? lowerRanges c.toNat = none ∧ CaseRange.apply lowerRanges c = c) ∨
    ∃ r ∈ lowerRanges, (r.first ≤ c.toNat ∧ c.toNat ≤ r.last ∧ (c.toNat - r.first) % r.stride = 0) ∧
      CaseRange.apply lowerRanges c = Char.ofNat (r.moved c.toNat) := by
  cases hr : CaseRange.find? lowerRanges c.toNat with
  | none => exact .inl ⟨rfl, by simp [CaseRange.apply, hr]⟩
  | some r =>
    have hin := List.find?_some hr
    simp only [Bool.and_eq_true, decide_eq_true_eq, beq_iff_eq] at hin
    exact .inr ⟨r, List.mem_of_find?_eq_some hr, ⟨hin.1.1, hin.1.2, hin.2⟩,
      by simp [CaseRange.apply, hr, CaseRange.moved]⟩

/-- No code point is moved to one that is moved. -/
theorem find?_moved {r : CaseRange} (hr : r ∈ lowerRanges) {n : Nat} (hfirst : r.first ≤ n)
    (hlast : n ≤ r.last) (hstride : (n - r.first) % r.stride = 0) :
    CaseRange.find? lowerRanges (r.moved n) = none := by
  refine List.find?_eq_none.2 fun q hq hin => ?_
  have hmiss := List.all_eq_true.1 (List.all_eq_true.1 lowerRanges_miss r hr) q hq
  have habove := lowerRanges_above_marks r hr
  simp only [Bool.and_eq_true, beq_iff_eq, decide_eq_true_eq] at hin
  simp only [CaseRange.misses, Bool.or_eq_true, Bool.and_eq_true, Nat.blt_eq, beq_iff_eq] at hmiss
  simp only [CaseRange.moved] at hin hmiss
  obtain ⟨⟨hqfirst, hqlast⟩, hqstride⟩ := hin
  rcases hmiss with (hbefore | hbehind) | ⟨⟨hsteps, htwo⟩, hodd⟩
  · omega
  · omega
  · rw [htwo] at hqstride
    rcases hsteps with hsteps | hsteps
    · rw [hsteps] at hstride
      omega
    · omega

theorem lowerChar_of_find?_eq_none {c : Char} (hc : c ≠ '\u0130')
    (h : CaseRange.find? lowerRanges c.toNat = none) : lowerChar c = [c] := by
  simp [lowerChar, hc, CaseRange.apply, h]

/-- **The lower case of a character is in lower case.** -/
theorem lowerChar_of_mem_lowerChar {c d : Char} (h : d ∈ lowerChar c) : lowerChar d = [d] := by
  unfold lowerChar at h
  split at h
  · simp only [List.mem_cons, List.not_mem_nil, or_false] at h
    rcases h with rfl | rfl <;> decide +kernel
  next hc =>
    obtain rfl := List.mem_singleton.1 h
    rcases apply_lowerRanges_cases c with ⟨hnone, hself⟩ | ⟨r, hr, ⟨hfirst, hlast, hstride⟩, hmoved⟩
    · rw [hself]
      exact lowerChar_of_find?_eq_none hc hnone
    · rw [hmoved]
      rcases toNat_ofNat (r.moved c.toNat) with hn | hn
      · refine lowerChar_of_find?_eq_none (fun hdotted => ?_) ?_
        · have hmiss := lowerRanges_miss_dotted r hr
          have hdot : ('\u0130' : Char).toNat = 0x130 := rfl
          rw [hdotted, CaseRange.moved] at hn
          omega
        · rw [hn]
          exact find?_moved hr hfirst hlast hstride
      · rw [← Char.ofNat_toNat (Char.ofNat _), hn]
        decide +kernel

/-! ## Characters that lower case leaves alone -/

/-- A character that is its own lower case and that of nothing else, and at which words end. -/
structure IsNeutral (c : Char) : Prop where
  lower : lowerChar c = [c]
  source : ∀ d, c ∈ lowerChar d → d = c
  cased : isCased c = false
  ignorable : isCaseIgnorable c = false

/-- The separators and the underscore are neutral. -/
theorem isNeutral_of_mem {c : Char} (h : c ∈ ['/', '-', '\\', '_']) : IsNeutral c := by
  have hall : ['/', '-', '\\', '_'].all (fun c => lowerChar c = [c] ∧ isCased c = false ∧
      isCaseIgnorable c = false ∧ (0 < c.toNat ∧ c.toNat ≤ 95) ∧ c ∉ ['i', '\u0307']) = true := by
    decide +kernel
  obtain ⟨hlower, hcased, hignorable, ⟨hpos, hle⟩, hdotted⟩ :=
    of_decide_eq_true (List.all_eq_true.1 hall c h)
  refine ⟨hlower, fun d hd => ?_, hcased, hignorable⟩
  unfold lowerChar at hd
  split at hd
  · exact absurd hd hdotted
  · obtain rfl := List.mem_singleton.1 hd
    rcases apply_lowerRanges_cases d with ⟨-, hself⟩ | ⟨r, hr, ⟨hfirst, -, -⟩, hmoved⟩
    · exact hself.symm
    · have habove := lowerRanges_above_marks r hr
      have hn := toNat_ofNat (r.moved d.toNat)
      rw [hmoved] at hpos hle
      rw [CaseRange.moved] at hn hpos hle
      omega

theorem isNeutral_of_isMark {c : Char} (h : isMark c = true) : IsNeutral c := by
  refine isNeutral_of_mem ?_
  rcases isMark_iff.1 h with rfl | rfl | rfl <;> decide

theorem IsNeutral.ne_of_isCased {c d : Char} (hc : IsNeutral c) (hd : isCased d = true) : c ≠ d := by
  rintro rfl
  rw [hc.cased] at hd
  cases hd

theorem isCased_sigma : isCased '\u03A3' = true ∧
    ∀ final : Bool, isCased (if final then '\u03C2' else '\u03C3') = true := by
  decide +kernel

theorem toNat_le_of_isMark {c : Char} (h : isMark c = true) : c.toNat ≤ 92 := by
  rcases isMark_iff.1 h with rfl | rfl | rfl <;> decide

theorem isMark_of_mem_lowerChar {c d : Char} (h : isMark c = false) (hd : d ∈ lowerChar c) :
    isMark d = false := by
  rw [Bool.eq_false_iff]
  intro hmark
  obtain rfl := (isNeutral_of_isMark hmark).source c hd
  rw [h] at hmark
  cases hmark

theorem isMark_sigma (final : Bool) : isMark (if final then '\u03C2' else '\u03C3') = false := by
  cases final <;> decide

/-! ## Writing one character for another -/

theorem replaceChar_cons (a b c : Char) (t : Text) :
    replaceChar a b (c :: t) = (if c = a then b else c) :: replaceChar a b t := rfl

theorem replaceChar_of_not_mem {a b : Char} {t : Text} (h : a ∉ t) : replaceChar a b t = t := by
  induction t with
  | nil => rfl
  | cons c t ih =>
    simp only [List.mem_cons, not_or] at h
    rw [replaceChar_cons, if_neg (Ne.symm h.1), ih h.2]

theorem replaceChar_append (a b : Char) (t u : Text) :
    replaceChar a b (t ++ u) = replaceChar a b t ++ replaceChar a b u :=
  List.map_append ..

theorem replaceChar_lowerChar {a : Char} (ha : IsNeutral a) (b : Char) {c : Char} (hc : c ≠ a) :
    replaceChar a b (lowerChar c) = lowerChar c :=
  replaceChar_of_not_mem fun hm => hc (ha.source c hm)

section

variable {a b : Char} (ha : IsNeutral a) (hb : IsNeutral b)

include ha hb

/-- A neutral character neither has case nor is passed over, so words end at any of them alike. -/
theorem startsCased_replaceChar (t : Text) : startsCased (replaceChar a b t) = startsCased t := by
  induction t with
  | nil => rfl
  | cons c t ih =>
    by_cases hc : c = a
    · subst hc
      simp [startsCased, replaceChar, ha.ignorable, ha.cased, hb.ignorable, hb.cased]
    · by_cases hi : isCaseIgnorable c = true
      · simpa [startsCased, replaceChar, hc, hi] using ih
      · simp [startsCased, replaceChar, hc, hi]

theorem lowerAfter_replaceChar (seen t : Text) :
    lowerAfter (replaceChar a b seen) (replaceChar a b t) = replaceChar a b (lowerAfter seen t) := by
  induction t generalizing seen with
  | nil => rfl
  | cons c t ih =>
    have hrest := ih (c :: seen)
    rw [replaceChar_cons] at hrest ⊢
    by_cases hc : c = a
    · subst hc
      have hsigma : c ≠ '\u03A3' ∧ b ≠ '\u03A3' :=
        ⟨ha.ne_of_isCased isCased_sigma.1, hb.ne_of_isCased isCased_sigma.1⟩
      rw [if_pos rfl] at hrest ⊢
      simp only [lowerAfter, hsigma, if_false, ha.lower, hb.lower, hrest, List.singleton_append,
        replaceChar_cons, if_true]
    · rw [if_neg hc] at hrest ⊢
      by_cases hs : c = '\u03A3'
      · have hne : ∀ final : Bool, (if final then '\u03C2' else '\u03C3') ≠ a :=
          fun final => (ha.ne_of_isCased (isCased_sigma.2 final)).symm
        simp only [lowerAfter, hs, if_true, List.singleton_append, startsCased_replaceChar ha hb,
          replaceChar_cons, hne, if_false] at hrest ⊢
        rw [hrest]
      · simp only [lowerAfter, hs, if_false, hrest, replaceChar_append,
          replaceChar_lowerChar ha b hc]

/-- **A neutral character can be written for another before or after the text is put in lower
case.** -/
theorem lower_replaceChar (t : Text) :
    lower (replaceChar a b t) = replaceChar a b (lower t) :=
  lowerAfter_replaceChar ha hb [] t

end

/-! ## Lower case of lower case -/

/-- What stands for a character in the lower case of a text: its own lower case, or the final form
of a capital sigma. -/
def LowersTo (c : Char) (x : Text) : Prop :=
  x = lowerChar c ∨ (c = '\u03A3' ∧ x = ['\u03C2'])

theorem LowersTo.ne_nil {c : Char} {x : Text} (h : LowersTo c x) : x ≠ [] := by
  rcases h with rfl | ⟨-, rfl⟩
  · unfold lowerChar
    split <;> simp
  · simp

theorem LowersTo.lowerChar_eq {c d : Char} {x : Text} (h : LowersTo c x) (hd : d ∈ x) :
    lowerChar d = [d] := by
  rcases h with rfl | ⟨-, rfl⟩
  · exact lowerChar_of_mem_lowerChar hd
  · obtain rfl := List.mem_singleton.1 hd
    decide +kernel

/-- **A text in lower case is made of one piece for each character.** -/
theorem exists_forall₂_lowerAfter (seen t : Text) :
    ∃ pieces, lowerAfter seen t = pieces.flatten ∧ List.Forall₂ LowersTo t pieces := by
  induction t generalizing seen with
  | nil => exact ⟨[], rfl, .nil⟩
  | cons c t ih =>
    obtain ⟨pieces, hflat, hpieces⟩ := ih (c :: seen)
    have hsmall : lowerChar '\u03A3' = ['\u03C3'] := by decide +kernel
    rw [lowerAfter, hflat]
    refine ⟨_ :: pieces, rfl, .cons ?_ hpieces⟩
    split
    next hc =>
      subst hc
      split
      · exact .inr ⟨rfl, rfl⟩
      · exact .inl hsmall.symm
    next => exact .inl rfl

theorem lowerAfter_eq_self {t : Text} (h : ∀ c ∈ t, lowerChar c = [c]) (seen : Text) :
    lowerAfter seen t = t := by
  induction t generalizing seen with
  | nil => rfl
  | cons c t ih =>
    have hc := h c (by simp)
    have hsigma : c ≠ '\u03A3' := by
      rintro rfl
      exact absurd hc (by decide +kernel)
    rw [lowerAfter, if_neg hsigma, hc, ih fun d hd => h d (by simp [hd])]
    rfl

theorem lowerChar_of_mem_flatten {t : Text} {pieces : List Text}
    (h : List.Forall₂ LowersTo t pieces) {d : Char} (hd : d ∈ pieces.flatten) :
    lowerChar d = [d] := by
  induction h with
  | nil => cases hd
  | cons hx _ ih =>
    rcases List.mem_append.1 hd with hd | hd
    · exact hx.lowerChar_eq hd
    · exact ih hd

/-- **What is in lower case stays as it is.** -/
theorem lower_lower (t : Text) : lower (lower t) = lower t := by
  obtain ⟨pieces, hflat, hpieces⟩ := exists_forall₂_lowerAfter [] t
  have hlower : lower t = pieces.flatten := hflat
  rw [hlower]
  exact lowerAfter_eq_self (fun d hd => lowerChar_of_mem_flatten hpieces hd) []

/-! ## The separators of a text -/

theorem filter_isMark_lowerChar (c : Char) : (lowerChar c).filter isMark = [c].filter isMark := by
  by_cases h : isMark c = true
  · rw [(isNeutral_of_isMark h).lower]
  · have hnone : (lowerChar c).filter isMark = [] := List.filter_eq_nil_iff.2 fun d hd => by
      simp [isMark_of_mem_lowerChar (Bool.eq_false_iff.2 h) hd]
    rw [hnone]
    simp [h]

theorem filter_isMark_lowerAfter (seen t : Text) :
    (lowerAfter seen t).filter isMark = t.filter isMark := by
  induction t generalizing seen with
  | nil => rfl
  | cons c t ih =>
    have hhead : ∀ final : Bool,
        (if c = '\u03A3' then [if final then '\u03C2' else '\u03C3'] else lowerChar c).filter isMark =
          [c].filter isMark := by
      intro final
      split
      next hc =>
        subst hc
        rw [List.filter_cons_of_neg (by simp [isMark_sigma]), List.filter_cons_of_neg (by decide)]
      next => exact filter_isMark_lowerChar c
    rw [lowerAfter, List.filter_append, ih, hhead, ← List.filter_append]
    rfl

/-- **Lower case keeps the separators of a text.** -/
theorem filter_isMark_lower (t : Text) : (lower t).filter isMark = t.filter isMark :=
  filter_isMark_lowerAfter [] t

/-- Letters apart, ASCII lower case changes nothing, and it makes letters of letters. -/
theorem isMark_toLower (c : Char) : isMark c.toLower = isMark c := by
  unfold Char.toLower
  split
  next h =>
    have hfirst : 65 ≤ c.val.toNat := h.1
    have hlast : c.val.toNat ≤ 90 := h.2
    have hc : isMark c = false := by
      rw [Bool.eq_false_iff]
      intro hc
      rcases isMark_iff.1 hc with rfl | rfl | rfl <;> exact absurd h (by decide)
    rw [hc, Bool.eq_false_iff]
    intro hd
    have hle : (c.val + ('a'.val - 'A'.val)).toNat ≤ 92 := toNat_le_of_isMark hd
    have hmove : ('a'.val - 'A'.val).toNat = 32 := by decide
    rw [UInt32.toNat_add, hmove] at hle
    omega
  · rfl

theorem toLower_of_isMark {c : Char} (h : isMark c = true) : c.toLower = c := by
  rcases isMark_iff.1 h with rfl | rfl | rfl <;> decide

theorem filter_isMark_map_toLower (t : Text) :
    (t.map Char.toLower).filter isMark = t.filter isMark := by
  induction t with
  | nil => rfl
  | cons c t ih =>
    rw [List.map_cons]
    by_cases hc : isMark c = true
    · rw [toLower_of_isMark hc, List.filter_cons_of_pos hc, List.filter_cons_of_pos hc, ih]
    · rw [List.filter_cons_of_neg (by rwa [isMark_toLower]), List.filter_cons_of_neg hc, ih]

end Text

end LocaleSync
