/-
What reading a template finds. Every template is the text of its segments (`text_segments`), and
a placeholder is among them exactly when its token stands somewhere in the template
(`placeholder_mem_segments_iff`): tokens open with the only `<` they hold, so no two of them
overlap and none starts another. Writing `/` for `\` changes literal text only
(`segments_slashed`).
-/
import LocaleSync.PushPattern
import Mathlib.Data.List.Infix

namespace LocaleSync

/-! ## Tokens -/

namespace Placeholder

theorem mem_all (v : Placeholder) : v ∈ all := by
  cases v <;> decide

/-- No token starts another. -/
theorem token_prefix_free {v w : Placeholder} (h : v.token <+: w.token) : v = w := by
  have hb : v.token.isPrefixOf w.token = true := List.isPrefixOf_iff_prefix.2 h
  revert hb
  cases v <;> cases w <;> decide

theorem prefix_unique {v w : Placeholder} {t : Text} (hv : v.token <+: t) (hw : w.token <+: t) :
    v = w := by
  rcases Nat.le_total v.token.length w.token.length with hle | hle
  · exact token_prefix_free (List.prefix_of_prefix_length_le hv hw hle)
  · exact (token_prefix_free (List.prefix_of_prefix_length_le hw hv hle)).symm

theorem token_ne_nil (v : Placeholder) : v.token ≠ [] := by
  simp [token]

theorem not_mem_token_tail (v : Placeholder) : '<' ∉ v.token.tail := by
  cases v <;> decide

/-- A token opens with its only `<`: whatever stands before a `<` of it is empty. -/
theorem eq_nil_of_token_eq {v : Placeholder} {a b : Text} (h : v.token = a ++ '<' :: b) :
    a = [] := by
  cases a with
  | nil => rfl
  | cons c a =>
    have hm : '<' ∈ v.token.tail := by simp [h]
    exact absurd hm v.not_mem_token_tail

/-- A token inside a text that starts with a token is that token or stands behind it. -/
theorem infix_token_append {v w : Placeholder} {t : Text} (h : v.token <:+: w.token ++ t) :
    v = w ∨ v.token <:+: t := by
  obtain ⟨a, b, h⟩ := h
  rw [List.append_assoc, List.append_eq_append_iff] at h
  rcases h with ⟨c, hw, hc⟩ | ⟨c, -, hc⟩
  · cases c with
    | nil => exact .inr ⟨[], b, by simpa using hc⟩
    | cons d c =>
      -- The token starts inside `w.token`, so its `<` is the first character there.
      have hd : d = '<' := by
        simp only [token, List.cons_append, List.cons.injEq] at hc
        exact hc.1.symm
      subst hd
      have ha : a = [] := eq_nil_of_token_eq hw
      subst ha
      rw [List.nil_append] at hw
      refine .inl (prefix_unique (t := w.token ++ t) ?_ (List.prefix_append _ _))
      rw [hw, ← hc]
      exact List.prefix_append _ _
  · exact .inr ⟨c, b, by simpa using hc.symm⟩

end Placeholder

namespace Template

theorem startsWith?_eq_some_iff {t : Text} {v : Placeholder} :
    startsWith? t = some v ↔ v.token <+: t := by
  constructor
  · intro h
    exact List.isPrefixOf_iff_prefix.1 (by simpa using List.find?_some h)
  · intro h
    cases hs : startsWith? t with
    | some w =>
      have hw : w.token <+: t := List.isPrefixOf_iff_prefix.1 (by simpa using List.find?_some hs)
      rw [Placeholder.prefix_unique hw h]
    | none =>
      have hn := List.find?_eq_none.1 hs v v.mem_all
      exact absurd (List.isPrefixOf_iff_prefix.2 h) hn

theorem startsWith?_eq_none_iff {t : Text} :
    startsWith? t = none ↔ ∀ v : Placeholder, ¬ v.token <+: t := by
  rw [Option.eq_none_iff_forall_ne_some]
  simp only [ne_eq, startsWith?_eq_some_iff]

/-! ## The segments of a text, by how it starts -/

theorem segmentsAfter_eq (n : Nat) (t : Text) : segmentsAfter n t = segments (t.drop n) := by
  induction n generalizing t with
  | zero => rfl
  | succ n ih =>
    cases t with
    | nil => simp [segmentsAfter, segments]
    | cons c t => simpa [segmentsAfter] using ih t

@[simp] theorem segments_token_append (v : Placeholder) (t : Text) :
    segments (v.token ++ t) = .placeholder v :: segments t := by
  have hs : startsWith? (v.token ++ t) = some v :=
    startsWith?_eq_some_iff.2 (List.prefix_append _ _)
  have ht : v.token ++ t = '<' :: (v.label ++ ['>'] ++ t) := rfl
  rw [ht] at hs ⊢
  simp only [segments, segmentsAfter, hs]
  rw [segmentsAfter_eq, List.drop_left' (by simp)]
  rfl

theorem segments_cons {c : Char} {t : Text} (h : startsWith? (c :: t) = none) :
    segments (c :: t) = Segment.push c (segments t) := by
  simp only [segments, segmentsAfter, h]

/-- A text is empty, starts with a token, or starts with a character of literal text. -/
@[elab_as_elim]
theorem text_induction {motive : Text → Prop} (t : Text) (nil : motive [])
    (token : ∀ (v : Placeholder) (t : Text), motive t → motive (v.token ++ t))
    (char : ∀ (c : Char) (t : Text), startsWith? (c :: t) = none → motive t → motive (c :: t)) :
    motive t := by
  induction hn : t.length using Nat.strong_induction_on generalizing t with
  | _ n ih =>
    subst hn
    cases t with
    | nil => exact nil
    | cons c t =>
      cases hs : startsWith? (c :: t) with
      | none => exact char c t hs (ih _ (by simp) t rfl)
      | some v =>
        obtain ⟨u, hu⟩ := startsWith?_eq_some_iff.1 hs
        rw [← hu]
        refine token v u (ih _ ?_ u rfl)
        have hv := List.length_pos_iff.2 v.token_ne_nil
        rw [← hu, List.length_append]
        omega

/-! ## Segments and text -/

@[simp] theorem text_nil : text [] = [] := rfl

@[simp] theorem text_cons (s : Segment) (segs : List Segment) :
    text (s :: segs) = s.text ++ text segs := by
  simp [text]

@[simp] theorem text_append (a b : List Segment) : text (a ++ b) = text a ++ text b := by
  simp [text]

@[simp] theorem text_push (c : Char) (segs : List Segment) :
    text (Segment.push c segs) = c :: text segs := by
  unfold Segment.push
  split <;> simp [Segment.text]

/-- **A template is the text of its segments.** -/
@[simp] theorem text_segments (t : Text) : text (segments t) = t := by
  induction t using text_induction with
  | nil => rfl
  | token v t ih => simp [Segment.text, ih]
  | char c t h ih => rw [segments_cons h, text_push, ih]

@[simp] theorem placeholder_mem_push {v : Placeholder} {c : Char} {segs : List Segment} :
    .placeholder v ∈ Segment.push c segs ↔ .placeholder v ∈ segs := by
  unfold Segment.push
  split <;> simp

theorem infix_of_placeholder_mem {v : Placeholder} {t : Text}
    (h : .placeholder v ∈ segments t) : v.token <:+: t := by
  obtain ⟨a, b, hab⟩ := List.append_of_mem h
  refine ⟨text a, text b, ?_⟩
  rw [← text_segments t, hab]
  simp [Segment.text]

/-- **A placeholder is read exactly where its token stands.** -/
theorem placeholder_mem_segments_iff {v : Placeholder} {t : Text} :
    .placeholder v ∈ segments t ↔ v.token <:+: t := by
  refine ⟨infix_of_placeholder_mem, ?_⟩
  induction t using text_induction with
  | nil => intro h; exact absurd (List.infix_nil.1 h) v.token_ne_nil
  | token w t ih =>
    intro h
    rw [segments_token_append, List.mem_cons]
    rcases Placeholder.infix_token_append h with rfl | h
    · exact .inl rfl
    · exact .inr (ih h)
  | char c t hs ih =>
    intro h
    rw [segments_cons hs, placeholder_mem_push]
    rcases List.infix_cons_iff.1 h with h | h
    · exact absurd h (startsWith?_eq_none_iff.1 hs v)
    · exact ih h

theorem mentions_iff {t : Text} {vs : List Placeholder} :
    mentions t vs = true ↔ ∃ v ∈ vs, v.token <:+: t := by
  simp only [mentions, List.any_eq_true]
  constructor
  · rintro ⟨s, hs, hv⟩
    cases s with
    | literal u => simp at hv
    | placeholder v => exact ⟨v, by simpa using hv, placeholder_mem_segments_iff.1 hs⟩
  · rintro ⟨v, hv, ht⟩
    exact ⟨.placeholder v, placeholder_mem_segments_iff.2 ht, by simpa using hv⟩

end Template

/-! ## Separators -/

namespace PushPattern

@[simp] theorem slashed_nil : slashed [] = [] := rfl

@[simp] theorem slashed_cons (c : Char) (t : Text) :
    slashed (c :: t) = (if c = '\\' then '/' else c) :: slashed t := rfl

@[simp] theorem slashed_append (a b : Text) : slashed (a ++ b) = slashed a ++ slashed b := by
  simp [slashed, Text.replaceChar]

theorem slashed_of_not_mem {t : Text} (h : '\\' ∉ t) : slashed t = t := by
  induction t with
  | nil => rfl
  | cons c t ih =>
    simp only [List.mem_cons, not_or] at h
    rw [slashed_cons, if_neg (fun he => h.1 he.symm), ih h.2]

@[simp] theorem slashed_token (v : Placeholder) : slashed v.token = v.token := by
  apply slashed_of_not_mem
  cases v <;> decide

theorem prefix_of_prefix_slashed {a t : Text} (ha : '/' ∉ a) (h : a <+: slashed t) : a <+: t := by
  induction a generalizing t with
  | nil => exact List.nil_prefix
  | cons x a ih =>
    cases t with
    | nil => simp at h
    | cons c t =>
      simp only [List.mem_cons, not_or] at ha
      rw [slashed_cons, List.cons_prefix_cons] at h
      obtain ⟨hx, h⟩ := h
      have hc : c ≠ '\\' := by
        rintro rfl
        exact ha.1 (by simpa using hx.symm)
      rw [if_neg hc] at hx
      exact List.cons_prefix_cons.2 ⟨hx, ih ha.2 h⟩

/-- A segment with `/` for both kinds of separator in its literal text. -/
def slashedSegment : Segment → Segment
  | .literal t => .literal (slashed t)
  | .placeholder v => .placeholder v

theorem map_slashedSegment_push (c : Char) (segs : List Segment) :
    (Segment.push c segs).map slashedSegment =
      Segment.push (if c = '\\' then '/' else c) (segs.map slashedSegment) := by
  rcases segs with _ | ⟨_ | _, segs⟩ <;> rfl

/-- **Writing `/` for `\` changes literal text only.** -/
theorem segments_slashed (t : Text) :
    Template.segments (slashed t) = (Template.segments t).map slashedSegment := by
  induction t using Template.text_induction with
  | nil => rfl
  | token v t ih => simp [ih, slashedSegment]
  | char c t hs ih =>
    have hs' : Template.startsWith? (slashed (c :: t)) = none := by
      rw [Template.startsWith?_eq_none_iff] at hs ⊢
      intro v hv
      exact hs v (prefix_of_prefix_slashed (by cases v <;> decide) hv)
    rw [slashed_cons] at hs' ⊢
    rw [Template.segments_cons hs', Template.segments_cons hs, map_slashedSegment_push, ih]

theorem placeholder_mem_segments_slashed_iff {v : Placeholder} {t : Text} :
    .placeholder v ∈ Template.segments (slashed t) ↔ v.token <:+: t := by
  rw [segments_slashed, List.mem_map, ← Template.placeholder_mem_segments_iff]
  constructor
  · rintro ⟨s, hs, he⟩
    cases s with
    | literal u => simp [slashedSegment] at he
    | placeholder w => exact (show Segment.placeholder w = .placeholder v from he) ▸ hs
  · exact fun h => ⟨_, h, rfl⟩

end PushPattern

end LocaleSync
