/-
The segments of a template are its only normal form. Segments are normal (`IsNormal`) if no literal
is empty, no two literals stand side by side and no literal holds a token. Reading a template gives
normal segments (`isNormal_segments`), and reading what normal segments spell gives them again
(`segments_text`), so reading and writing are inverse to each other (`segments_eq_iff`).

The second half rests on where tokens can stand. A token opens with its only `<`, so none begins in
a literal and ends behind it, and a text is cut in the same way on both sides of a token
(`segments_append_token`).
-/
import LocaleSync.Proofs.Template
import Mathlib.Data.List.Chain

namespace LocaleSync

namespace Segment

/-- Whether the segment is literal text. -/
def isLiteral : Segment → Bool
  | .literal _ => true
  | .placeholder _ => false

@[simp] theorem isLiteral_literal (t : Text) : (literal t).isLiteral = true := rfl

@[simp] theorem isLiteral_placeholder (v : Placeholder) : (placeholder v).isLiteral = false := rfl

end Segment

namespace Template

/-- No token stands in the text. -/
def IsTokenless (t : Text) : Prop :=
  ∀ v : Placeholder, ¬ v.token <:+: t

/-- Segments as a template is read. -/
structure IsNormal (segs : List Segment) : Prop where
  ne_nil : ∀ t, .literal t ∈ segs → t ≠ []
  separated : segs.IsChain fun a b => ¬ (a.isLiteral = true ∧ b.isLiteral = true)
  tokenless : ∀ t, .literal t ∈ segs → IsTokenless t

/-! ## Tokens and what stands before them -/

/-- A token that begins before a `<` ends before it. -/
theorem prefix_of_prefix_append {v : Placeholder} {t u : Text} (ht : t ≠ [])
    (hu : ∀ c ∈ u.head?, c = '<') (h : v.token <+: t ++ u) : v.token <+: t := by
  obtain ⟨z, hz⟩ := h
  rcases List.append_eq_append_iff.1 hz with ⟨w, rfl, -⟩ | ⟨w, hw, rfl⟩
  · exact List.prefix_append _ _
  · cases w with
    | nil => simp [hw]
    | cons c w =>
      obtain rfl : c = '<' := hu c (by simp)
      exact absurd (Placeholder.eq_nil_of_token_eq hw) ht

theorem startsWith?_append_eq_none {c : Char} {t u : Text} (h : startsWith? (c :: t) = none)
    (hu : ∀ d ∈ u.head?, d = '<') : startsWith? (c :: t ++ u) = none := by
  rw [startsWith?_eq_none_iff] at h ⊢
  exact fun v hv => h v (prefix_of_prefix_append (by simp) hu hv)

theorem head?_token_append (v : Placeholder) (t : Text) : ∀ c ∈ (v.token ++ t).head?, c = '<' := by
  simp [Placeholder.token]

theorem push_append_placeholder (c : Char) (segs : List Segment) (v : Placeholder)
    (more : List Segment) :
    Segment.push c (segs ++ .placeholder v :: more) =
      Segment.push c segs ++ .placeholder v :: more := by
  rcases segs with _ | ⟨_ | _, segs⟩ <;> rfl

/-- **A token cuts a template.** What stands before it is read as if it stood alone. -/
theorem segments_append_token (t : Text) (v : Placeholder) (u : Text) :
    segments (t ++ (v.token ++ u)) = segments t ++ .placeholder v :: segments u := by
  induction t using text_induction with
  | nil => exact segments_token_append v u
  | token w t ih => rw [List.append_assoc, segments_token_append, ih, segments_token_append,
      List.cons_append]
  | char c t h ih =>
    have hnone := startsWith?_append_eq_none h (head?_token_append v u)
    rw [List.cons_append] at hnone ⊢
    rw [segments_cons hnone, ih, push_append_placeholder, segments_cons h]

theorem IsTokenless.of_cons {c : Char} {t : Text} (h : IsTokenless (c :: t)) : IsTokenless t :=
  fun v hv => h v (List.infix_cons hv)

theorem segments_of_isTokenless {t : Text} (h : IsTokenless t) (hne : t ≠ []) :
    segments t = [.literal t] := by
  induction t with
  | nil => exact absurd rfl hne
  | cons c t ih =>
    have hnone : startsWith? (c :: t) = none :=
      startsWith?_eq_none_iff.2 fun v hv => h v hv.isInfix
    rw [segments_cons hnone]
    by_cases ht : t = []
    · subst ht
      rfl
    · rw [ih h.of_cons ht]
      rfl

/-! ## Normal segments -/

theorem isNormal_nil : IsNormal [] :=
  ⟨by simp, .nil, by simp⟩

theorem isNormal_placeholder_cons {v : Placeholder} {segs : List Segment} :
    IsNormal (.placeholder v :: segs) ↔ IsNormal segs := by
  constructor
  · intro h
    exact ⟨fun t ht => h.ne_nil t (by simp [ht]), h.separated.tail,
      fun t ht => h.tokenless t (by simp [ht])⟩
  · intro h
    refine ⟨fun t ht => h.ne_nil t (by simpa using ht), ?_,
      fun t ht => h.tokenless t (by simpa using ht)⟩
    exact List.isChain_cons.2 ⟨by simp, h.separated⟩

theorem isNormal_literal_cons {t : Text} {segs : List Segment} :
    IsNormal (.literal t :: segs) ↔
      t ≠ [] ∧ IsTokenless t ∧ (∀ s ∈ segs.head?, s.isLiteral = false) ∧ IsNormal segs := by
  constructor
  · intro h
    obtain ⟨hhead, hchain⟩ := List.isChain_cons.1 h.separated
    refine ⟨h.ne_nil t (by simp), h.tokenless t (by simp), fun s hs => ?_, ?_, hchain, ?_⟩
    · simpa using hhead s hs
    · exact fun u hu => h.ne_nil u (by simp [hu])
    · exact fun u hu => h.tokenless u (by simp [hu])
  · rintro ⟨hne, ht, hhead, h⟩
    refine ⟨fun u hu => ?_, ?_, fun u hu => ?_⟩
    · rcases List.mem_cons.1 hu with hu | hu
      · cases hu
        exact hne
      · exact h.ne_nil u hu
    · refine List.isChain_cons.2 ⟨fun s hs => ?_, h.separated⟩
      simp [hhead s hs]
    · rcases List.mem_cons.1 hu with hu | hu
      · cases hu
        exact ht
      · exact h.tokenless u hu

theorem isTokenless_nil : IsTokenless [] :=
  fun v hv => v.token_ne_nil (List.infix_nil.1 hv)

theorem isTokenless_cons {c : Char} {t : Text} (hnone : ∀ v : Placeholder, ¬ v.token <+: c :: t)
    (ht : IsTokenless t) : IsTokenless (c :: t) := by
  intro v hv
  rcases List.infix_cons_iff.1 hv with hv | hv
  · exact hnone v hv
  · exact ht v hv

/-- A character that starts no token can be put before normal segments. -/
theorem IsNormal.push {c : Char} {segs : List Segment} (h : IsNormal segs)
    (hnone : startsWith? (c :: text segs) = none) : IsNormal (Segment.push c segs) := by
  rw [startsWith?_eq_none_iff] at hnone
  have hstart {t u : Text} (htext : text segs = t ++ u) :
      ∀ v : Placeholder, ¬ v.token <+: c :: t := by
    intro v hv
    refine hnone v (hv.trans ?_)
    rw [htext]
    exact ⟨u, rfl⟩
  rcases segs with _ | ⟨t | v, segs⟩
  · refine isNormal_literal_cons.2 ⟨by simp, ?_, by simp, h⟩
    exact isTokenless_cons (hstart rfl) isTokenless_nil
  · obtain ⟨-, ht, hhead, h⟩ := isNormal_literal_cons.1 h
    refine isNormal_literal_cons.2 ⟨by simp, ?_, hhead, h⟩
    exact isTokenless_cons (hstart (text_cons _ _)) ht
  · refine isNormal_literal_cons.2 ⟨by simp, ?_, by simp, h⟩
    exact isTokenless_cons (hstart rfl) isTokenless_nil

/-- **A template is read as normal segments.** -/
theorem isNormal_segments (t : Text) : IsNormal (segments t) := by
  induction t using text_induction with
  | nil => exact isNormal_nil
  | token v t ih =>
    rw [segments_token_append]
    exact isNormal_placeholder_cons.2 ih
  | char c t h ih =>
    rw [segments_cons h]
    exact ih.push (by rwa [text_segments])

/-- **Normal segments are read back from their text.** -/
theorem segments_text {segs : List Segment} (h : IsNormal segs) : segments (text segs) = segs := by
  induction segs with
  | nil => rfl
  | cons s segs ih =>
    cases s with
    | placeholder v =>
      rw [text_cons, Segment.text, segments_token_append, ih (isNormal_placeholder_cons.1 h)]
    | literal t =>
      obtain ⟨hne, ht, hhead, hsegs⟩ := isNormal_literal_cons.1 h
      have hread := segments_of_isTokenless ht hne
      -- Behind the literal comes the end or a placeholder, whose token cuts the text there.
      rcases segs with _ | ⟨_ | v, segs⟩
      · simpa [Segment.text] using hread
      · simp at hhead
      · rw [text_cons, Segment.text] at ih
        have htail := ih hsegs
        rw [segments_token_append, List.cons.injEq] at htail
        rw [text_cons, text_cons, Segment.text, Segment.text, segments_append_token, hread,
          htail.2, List.singleton_append]

/-- **Reading a template and writing segments are inverse to each other** between all texts and the
normal lists of segments: what is read from a text is the one normal list that spells it. -/
theorem segments_eq_iff (t : Text) (segs : List Segment) :
    segments t = segs ↔ text segs = t ∧ IsNormal segs := by
  constructor
  · rintro rfl
    exact ⟨text_segments t, isNormal_segments t⟩
  · rintro ⟨rfl, h⟩
    exact segments_text h

/-- A token that is cut short is literal text up to the one that is whole. -/
example : segments "<language_<language_code><".toList =
    [.literal "<language_".toList, .placeholder .code, .literal "<".toList] := by
  decide

end Template

end LocaleSync
