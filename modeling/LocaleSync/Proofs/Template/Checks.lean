/-
What the checks of patterns see. Whether a template has a placeholder, and whether it ends with one,
is asked of its segments, but it is a matter of its text alone: a token that stands somewhere in it
is read there (`mentions_iff`), and one that stands at its end is read last
(`getLast?_segments_iff`). Writing `/` for `\` leaves the answers as they are (`mentions_slashed`), so
it makes no difference that push patterns are checked before and matched after it is done.

`checks_exact` gathers what follows for the patterns that are accepted.
-/
import LocaleSync.Proofs.Template.Normal
import LocaleSync.PullPattern

namespace LocaleSync

namespace Template

theorem mentions_slashed (t : Text) (vs : List Placeholder) :
    mentions (PushPattern.slashed t) vs = mentions t vs := by
  rw [mentions, mentions, PushPattern.segments_slashed, List.any_map]
  congr 1
  funext s
  cases s <;> rfl

/-- The check for placeholders with the given tokens. -/
theorem mentions_iff_of_map_token {vs : List Placeholder} (tokens : List String)
    (h : vs.map Placeholder.token = tokens.map String.toList) (t : Text) :
    mentions t vs = true ↔ ∃ token ∈ tokens, token.toList <:+: t := by
  have hmap {α : Type} (f : α → Text) (xs : List α) :
      (∃ x ∈ xs, f x <:+: t) ↔ ∃ u ∈ xs.map f, u <:+: t := by simp
  rw [mentions_iff, hmap, h, ← hmap]

theorem mentions_mono {t : Text} {vs ws : List Placeholder} (hsub : vs ⊆ ws)
    (h : mentions t vs = true) : mentions t ws = true := by
  obtain ⟨v, hv, ht⟩ := mentions_iff.1 h
  exact mentions_iff.2 ⟨v, hsub hv, ht⟩

/-- **A template ends with a placeholder exactly if its text ends with the token.** -/
theorem getLast?_segments_iff {t : Text} {v : Placeholder} :
    (segments t).getLast? = some (.placeholder v) ↔ v.token <:+ t := by
  constructor
  · intro hlast
    obtain ⟨segs, hsegs⟩ := List.getLast?_eq_some_iff.1 hlast
    refine ⟨text segs, ?_⟩
    rw [← text_segments t, hsegs]
    simp [Segment.text]
  · intro hsuffix
    obtain ⟨front, rfl⟩ := hsuffix
    rw [← List.append_nil v.token, segments_append_token]
    simp [segments, segmentsAfter]

/-- **A pattern is made of a text exactly if it has one of the placeholders asked for**, whatever
else is made of it. -/
theorem having_bind_eq_ok {α : Type} {vs : List Placeholder} {t : Text}
    {make : { t : Text // mentions t vs = true } → Except Error α} {a : α} :
    (having vs t >>= make) = .ok a ↔ ∃ h, make ⟨t, h⟩ = .ok a := by
  by_cases h : mentions t vs = true <;> simp [having, h, bind, Except.bind]

/-- A text without the placeholders asked for is refused in their name. -/
theorem having_bind_of_not_mentions {α : Type} {vs : List Placeholder} {t : Text}
    (h : ¬ mentions t vs = true) (make : { t : Text // mentions t vs = true } → Except Error α) :
    (having vs t >>= make) = .error (.patternInvalid t (Placeholder.describe vs)) := by
  simp [having, h, bind, Except.bind]

/-- Where a pattern can be made of every text that has the placeholders, a text is a pattern, or it
is refused for want of them. -/
theorem having_bind_cases {α : Type} {vs : List Placeholder} {t : Text}
    {make : { t : Text // mentions t vs = true } → Except Error α}
    (hmake : ∀ h, ∃ a, make ⟨t, h⟩ = .ok a) :
    (∃ a, (having vs t >>= make) = .ok a) ∨
      ∃ expected, (having vs t >>= make) = .error (.patternInvalid t expected) := by
  by_cases h : mentions t vs = true
  · obtain ⟨a, ha⟩ := hmake h
    exact .inl ⟨a, having_bind_eq_ok.2 ⟨h, ha⟩⟩
  · exact .inr ⟨_, having_bind_of_not_mentions h make⟩

end Template

/-! ## Accepted patterns -/

namespace PushPattern

/-- The pattern of a text has that text, and there is no other one. -/
theorem compile_eq_ok_iff {raw : Text} {p : PushPattern} : compile raw = .ok p ↔ p.raw = raw := by
  rw [compile, Template.having_bind_eq_ok]
  constructor
  · rintro ⟨_, h⟩
    split at h
    · cases h
      rfl
    · cases h
  · rintro rfl
    refine ⟨p.valid, ?_⟩
    obtain ⟨raw, valid, regex, compiled⟩ := p
    split
    next regex' compiled' =>
      obtain rfl : regex = regex' := Option.some.inj (compiled.symm.trans compiled')
      rfl
    next h => cases h.symm.trans compiled

/-- A text without a placeholder that can be read back is no push pattern. -/
theorem exists_compile_error_iff {raw : Text} :
    (∃ pattern expected, compile raw = .error (.patternInvalid pattern expected)) ↔
      ¬ Template.mentions raw Placeholder.recoverable = true := by
  constructor
  · rintro ⟨pattern, expected, h⟩ hmentions
    simp only [compile, Template.having, hmentions, ↓reduceDIte, bind, Except.bind] at h
    split at h <;> cases h
  · intro h
    exact ⟨_, _, Template.having_bind_of_not_mentions h _⟩

end PushPattern

namespace PullPattern

/-- The pattern of a text has that text, and there is no other one. -/
theorem compile_eq_ok_iff {raw : Text} {p : PullPattern} : compile raw = .ok p ↔ p.raw = raw := by
  rw [compile, Template.having_bind_eq_ok]
  constructor
  · rintro ⟨_, h⟩
    cases h
    rfl
  · rintro rfl
    exact ⟨p.valid, rfl⟩

/-- A text is a pull pattern exactly if it has a placeholder of a language. -/
theorem exists_compile_iff {raw : Text} :
    (∃ p, compile raw = .ok p) ↔ Template.mentions raw Placeholder.ofLanguage = true := by
  simp only [compile_eq_ok_iff]
  exact ⟨fun ⟨p, hp⟩ => hp ▸ p.valid, fun h => ⟨⟨raw, h⟩, rfl⟩⟩

/-- A pattern ends with `<extension>` exactly if its text does. -/
theorem endsWithExtension_iff (p : PullPattern) :
    p.endsWithExtension = true ↔ Placeholder.extension.token <:+ p.raw := by
  rw [endsWithExtension, decide_eq_true_iff, Template.getLast?_segments_iff]

end PullPattern

namespace Template

/-- **The checks of patterns are exact checks of texts.** A template has one of some placeholders
exactly if a token of theirs stands in it, with either kind of separator. So the tokens in a text
decide whether it is a pull pattern, whether it is refused as a push pattern and whether it ends with
`<extension>`; and every push pattern is a pull pattern. -/
theorem checks_exact (t : Text) :
    (∀ vs, mentions t vs = true ↔ ∃ v ∈ vs, v.token <:+: t) ∧
    (∀ vs, mentions (Text.replaceChar '\\' '/' t) vs = mentions t vs) ∧
    ((∃ p, PullPattern.compile t = .ok p) ↔
      ∃ token ∈ ["<language_code>", "<language_name>", "<language_name_cap>",
        "<language_name_allcap>", "<language_lang_code>"], token.toList <:+: t) ∧
    ((∃ pattern expected, PushPattern.compile t = .error (.patternInvalid pattern expected)) ↔
      ¬ "<language_code>".toList <:+: t ∧ ¬ "<language_lang_code>".toList <:+: t) ∧
    (∀ p, PullPattern.compile t = .ok p →
      (p.endsWithExtension = true ↔ "<extension>".toList <:+ t)) ∧
    ∀ p, PushPattern.compile t = .ok p → ∃ q, PullPattern.compile t = .ok q := by
  refine ⟨fun vs => mentions_iff, mentions_slashed t, ?_, ?_, ?_, ?_⟩
  · rw [PullPattern.exists_compile_iff]
    exact mentions_iff_of_map_token _ rfl t
  · rw [PushPattern.exists_compile_error_iff,
      mentions_iff_of_map_token ["<language_code>", "<language_lang_code>"] rfl]
    simp only [List.exists_mem_cons_iff, not_or, List.not_mem_nil, false_and, exists_false, or_false]
  · intro p hp
    rw [PullPattern.endsWithExtension_iff, PullPattern.compile_eq_ok_iff.1 hp]
    rfl
  · intro p hp
    rw [PullPattern.exists_compile_iff, ← PushPattern.compile_eq_ok_iff.1 hp]
    exact mentions_mono (by decide) p.valid

/-- Two tokens, each behind the beginning of another. -/
def behindStrays : Text :=
  "<language_<language_code>\\<<extension>".toList

theorem checks_exact_behindStrays :
    mentions behindStrays [.name, .code] = true ∧
    (∃ p, PullPattern.compile behindStrays = .ok p ∧ p.endsWithExtension = true) ∧
    ¬ ∃ pattern expected,
      PushPattern.compile behindStrays = .error (.patternInvalid pattern expected) := by
  obtain ⟨hmentions, -, hpull, hpush, hends, -⟩ := checks_exact behindStrays
  have hcode : "<language_code>".toList <:+: behindStrays :=
    ⟨"<language_".toList, "\\<<extension>".toList, rfl⟩
  refine ⟨(hmentions _).2 ⟨.code, by simp, hcode⟩, ?_, fun h => (hpush.1 h).1 hcode⟩
  obtain ⟨p, hp⟩ := hpull.2 ⟨_, by simp, hcode⟩
  exact ⟨p, hp, (hends p hp).2 ⟨"<language_<language_code>\\<".toList, rfl⟩⟩

end Template

end LocaleSync
