/-
Generating a path and reading it back. One template serves as a pull pattern, which writes the
values of a language into it, and as a push pattern, which finds them again. `recognize_render`
says that it finds the language it was written for.

The values need not be looked for: where at most one piece has a free length, a text has at most
one cut (`IsCut.unique`), and the rendered segments are one (`isCut_render`).
-/
import LocaleSync.Proofs.PushPattern.Cut
import LocaleSync.Proofs.Registry
import LocaleSync.PullPattern
import LocaleSync.Recognition

namespace LocaleSync

namespace PushPattern

/-! ## Texts with one cut -/

theorem Fits.length_eq {seg : Segment} (hseg : seg ≠ .placeholder .lang) {x y : Text}
    (hx : Fits seg x) (hy : Fits seg y) : x.length = y.length := by
  have same {u : Text} (hx : SameLetters u x) (hy : SameLetters u y) : x.length = y.length := by
    simpa using congrArg List.length (hx.symm.trans hy)
  cases seg with
  | literal u => exact same hx hy
  | placeholder v =>
    cases v with
    | code =>
      obtain ⟨_, _, _, _, rfl, -⟩ := hx
      obtain ⟨_, _, _, _, rfl, -⟩ := hy
      rfl
    | lang => exact absurd rfl hseg
    | name | nameCapitalized | nameUppercased | extension => exact same hx hy

theorem IsCut.length_eq {segs : List Segment} (hsegs : .placeholder .lang ∉ segs) {t u : Text}
    {xs ys : List Text} (hx : IsCut segs t xs) (hy : IsCut segs u ys) : t.length = u.length := by
  induction segs generalizing t u xs ys with
  | nil => rw [(isCut_nil_iff.1 hx).1, (isCut_nil_iff.1 hy).1]
  | cons seg segs ih =>
    simp only [List.mem_cons, not_or] at hsegs
    obtain ⟨x, _, t, rfl, rfl, hx, hxs⟩ := isCut_cons_iff.1 hx
    obtain ⟨y, _, u, rfl, rfl, hy, hys⟩ := isCut_cons_iff.1 hy
    rw [List.length_append, List.length_append, hx.length_eq (Ne.symm hsegs.1) hy,
      ih hsegs.2 hxs hys]

/-- `<language_lang_code>` is there at most once. -/
def LangOnce (segs : List Segment) : Prop :=
  ∀ before after, segs = before ++ .placeholder .lang :: after → .placeholder .lang ∉ after

theorem LangOnce.tail {seg : Segment} {segs : List Segment} (h : LangOnce (seg :: segs)) :
    LangOnce segs := by
  rintro before after rfl
  exact h (seg :: before) after rfl

/-- **With one piece of free length at most, a text has at most one cut.** The lengths of all
other pieces are settled, and so is its own by the length of the text. -/
theorem IsCut.unique {segs : List Segment} (hsegs : LangOnce segs) {t : Text} {xs ys : List Text}
    (hx : IsCut segs t xs) (hy : IsCut segs t ys) : xs = ys := by
  induction segs generalizing t xs ys with
  | nil => rw [(isCut_nil_iff.1 hx).2, (isCut_nil_iff.1 hy).2]
  | cons seg segs ih =>
    obtain ⟨x, xs, u, rfl, rfl, hx, hxs⟩ := isCut_cons_iff.1 hx
    obtain ⟨y, ys, v, rfl, ht, hy, hys⟩ := isCut_cons_iff.1 hy
    have hlen : x.length = y.length := by
      by_cases hseg : seg = .placeholder .lang
      · subst hseg
        have huv := IsCut.length_eq (hsegs [] segs rfl) hxs hys
        have htot := congrArg List.length ht
        simp only [List.length_append] at htot
        omega
      · exact hx.length_eq hseg hy
    obtain ⟨rfl, rfl⟩ := List.append_inj ht hlen
    rw [ih hsegs.tail hxs hys]

theorem cut?_eq_some {segs : List Segment} (hsegs : LangOnce segs) {t : Text} {pieces : List Text}
    (h : IsCut segs t pieces) : cut? segs t = some pieces := by
  have hbest := isBest_cut? segs t
  cases hcut : cut? segs t with
  | none =>
    rw [hcut] at hbest
    exact absurd h (hbest pieces)
  | some others =>
    rw [hcut] at hbest
    rw [IsCut.unique hsegs hbest.cut h]

/-- The value of `<language_code>` is tried before that of `<language_lang_code>`. -/
theorem languageTokens_values (value? : Placeholder → Option Text) :
    languageTokens (Placeholder.recoverable.filterMap fun v => (value? v).map (v, ·)) =
      ((value? .code).toList ++ (value? .lang).toList).filter (!·.isEmpty) := by
  cases hc : value? .code <;> cases hl : value? .lang <;>
    simp [languageTokens, Placeholder.recoverable, Placeholder.ofLanguage, hc, hl]

end PushPattern

namespace PullPattern

open PushPattern (IsCode IsWords IsCut Fits LangOnce slashed slashedSegment)

/-! ## The rendered segments -/

theorem slashed_of_isWords {t : Text} (h : IsWords t) : slashed t = t := by
  apply PushPattern.slashed_of_not_mem
  intro hm
  exact absurd (h.2 _ hm) (by decide)

theorem slashed_of_isCode {t : Text} (h : IsCode t) : slashed t = t := by
  apply PushPattern.slashed_of_not_mem
  obtain ⟨a, b, c, d, rfl, ha, hb, hc, hd⟩ := h
  have hne : ∀ e, isWord e = true → '\\' ≠ e := by
    rintro e he rfl
    exact absurd he (by decide)
  simp [hne a ha, hne b hb, hne c hc, hne d hd]

/-- The values a language has for the placeholders of a template are ones that can be read back. -/
structure Readable (raw : Text) (l : Language) : Prop where
  lang : IsWords l.lang
  code : Placeholder.code.token <:+: raw → IsCode l.code
  names : ∀ v ∈ [Placeholder.name, .nameCapitalized, .nameUppercased], ¬ v.token <:+: raw

theorem fits_render {raw : Text} {l : Language} (h : Readable raw l) {seg : Segment}
    (hseg : seg ∈ Template.segments raw) :
    Fits (slashedSegment seg) (slashed (renderSegment l Placeholder.extension.token seg)) := by
  cases seg with
  | literal t => rfl
  | placeholder v =>
    have hv := Template.placeholder_mem_segments_iff.1 hseg
    cases v with
    | code =>
      change IsCode (slashed l.code)
      rw [slashed_of_isCode (h.code hv)]
      exact h.code hv
    | lang =>
      change IsWords (slashed l.lang)
      rw [slashed_of_isWords h.lang]
      exact h.lang
    | extension => rfl
    | name | nameCapitalized | nameUppercased => exact absurd hv (h.names _ (by simp))

theorem isCut_render {raw : Text} {l : Language} (h : Readable raw l) :
    IsCut (Template.segments (slashed raw))
      (slashed ((Template.segments raw).flatMap (renderSegment l Placeholder.extension.token)))
      ((Template.segments raw).map
        fun seg => slashed (renderSegment l Placeholder.extension.token seg)) := by
  rw [PushPattern.segments_slashed]
  refine ⟨?_, ?_⟩
  · rw [List.forall₂_map_left_iff, List.forall₂_map_right_iff, List.forall₂_same]
    exact fun seg hseg => fits_render h hseg
  · generalize Template.segments raw = segs
    induction segs with
    | nil => rfl
    | cons seg segs ih =>
      rw [List.map_cons, List.flatten_cons, ih, List.flatMap_cons, PushPattern.slashed_append]

/-- Every occurrence of a placeholder is rendered alike, so the first one is its value. -/
theorem captured?_map (f : Segment → Text) (segs : List Segment) (v : Placeholder) :
    PushPattern.captured? (segs.map slashedSegment) (segs.map f) v =
      if .placeholder v ∈ segs then some (f (.placeholder v)) else none := by
  induction segs with
  | nil => rfl
  | cons seg segs ih =>
    simp only [PushPattern.captured?] at ih ⊢
    by_cases hseg : slashedSegment seg = .placeholder v
    · obtain rfl : seg = .placeholder v := by
        cases seg with
        | literal t => cases hseg
        | placeholder w => exact hseg
      simp [slashedSegment]
    · have hne : Segment.placeholder v ≠ seg := by
        rintro rfl
        exact hseg rfl
      simp only [List.map_cons, List.zip_cons_cons, List.find?_cons, hseg, decide_false,
        List.mem_cons, hne, false_or]
      exact ih

theorem langOnce_slashed {raw : Text}
    (h : ∀ a b c d, raw = a ++ Placeholder.lang.token ++ b →
      raw = c ++ Placeholder.lang.token ++ d → a = c) :
    LangOnce (Template.segments (slashed raw)) := by
  rw [PushPattern.segments_slashed]
  intro before after hsplit hmem
  obtain ⟨as, bs, hraw, -, hbs⟩ := List.map_eq_append_iff.1 hsplit
  obtain ⟨s, bs, rfl, hs, rfl⟩ := List.map_eq_cons_iff.1 hbs
  have placeholder_of : ∀ s, slashedSegment s = .placeholder .lang → s = .placeholder .lang := by
    rintro (_ | _) hs
    · cases hs
    · exact hs
  obtain rfl := placeholder_of s hs
  obtain ⟨s, hmem, hs⟩ := List.mem_map.1 hmem
  obtain rfl := placeholder_of s hs
  obtain ⟨bs, cs, rfl⟩ := List.append_of_mem hmem
  -- The two occurrences stand at different places of the text.
  have htext := Template.text_segments raw
  rw [hraw] at htext
  have he := h (Template.text as) (Template.text bs ++ Placeholder.lang.token ++ Template.text cs)
    (Template.text as ++ Placeholder.lang.token ++ Template.text bs) (Template.text cs)
    (by rw [← htext]; simp [Segment.text]) (by rw [← htext]; simp [Segment.text])
  have hlen := congrArg List.length he
  have hpos := List.length_pos_iff.2 Placeholder.lang.token_ne_nil
  simp only [List.length_append] at hlen
  omega

theorem render_of_not_suffix {p : PullPattern} (h : ¬ Placeholder.extension.token <:+ p.raw)
    (l : Language) (name? : Option Text) :
    p.render l name? =
      (Template.segments p.raw).flatMap (renderSegment l Placeholder.extension.token) := by
  have hend : p.endsWithExtension = false := by rwa [Bool.eq_false_iff, ne_eq, endsWithExtension_iff]
  simp [render, hend]

/-- What a push pattern reads back from a path that is rendered from its own text. -/
theorem captures?_render {p : PushPattern} {l : Language} (h : Readable p.raw l)
    (hlang : LangOnce (Template.segments (slashed p.raw))) :
    p.captures? ((Template.segments p.raw).flatMap
        (renderSegment l Placeholder.extension.token)) =
      some (Placeholder.recoverable.filterMap fun v =>
        (if .placeholder v ∈ Template.segments p.raw then
          some (slashed (renderSegment l Placeholder.extension.token (.placeholder v)))
        else none).map (v, ·)) := by
  have hcut := PushPattern.cut?_eq_some hlang (isCut_render h)
  rw [PushPattern.captures?_eq, PushPattern.segments, hcut, Option.map_some]
  simp only [PushPattern.segments_slashed, captured?_map]

theorem languageTokens_render {p : PushPattern} {l : Language} (h : Readable p.raw l)
    (hlang : LangOnce (Template.segments (slashed p.raw))) :
    ∃ values, p.captures? ((Template.segments p.raw).flatMap
        (renderSegment l Placeholder.extension.token)) = some values ∧
      ∃ tokens, PushPattern.languageTokens values =
        (if .placeholder .code ∈ Template.segments p.raw then l.code else l.lang) :: tokens := by
  refine ⟨_, captures?_render h hlang, ?_⟩
  rw [PushPattern.languageTokens_values]
  have hlne : l.lang.isEmpty = false := by simpa using h.lang.1
  by_cases hc : .placeholder .code ∈ Template.segments p.raw
  · have hcode := h.code (Template.placeholder_mem_segments_iff.1 hc)
    have hcne : l.code.isEmpty = false := by
      obtain ⟨a, b, c, d, he, -⟩ := hcode
      simp [he]
    refine ⟨(if .placeholder .lang ∈ Template.segments p.raw then
      some (slashed l.lang) else none).toList.filter (!·.isEmpty), ?_⟩
    simp only [hc, if_true, renderSegment, Placeholder.value?, Option.getD_some,
      slashed_of_isCode hcode, Option.toList_some, List.singleton_append, List.filter_cons, hcne]
    rfl
  · -- A push pattern without `<language_code>` has `<language_lang_code>`.
    have hl : .placeholder .lang ∈ Template.segments p.raw := by
      obtain ⟨v, hv, hinfix⟩ := Template.mentions_iff.1 p.valid
      have hmem := Template.placeholder_mem_segments_iff.2 hinfix
      simp only [Placeholder.recoverable, List.mem_cons, List.not_mem_nil, or_false] at hv
      rcases hv with rfl | rfl
      · exact absurd hmem hc
      · exact hmem
    refine ⟨[], ?_⟩
    simp only [hc, hl, if_true, if_false, renderSegment, Placeholder.value?, Option.getD_some,
      slashed_of_isWords h.lang, Option.toList_some, Option.toList_none, List.nil_append,
      List.filter_cons, hlne, List.filter_nil]
    rfl

end PullPattern

/-! ## The round trip -/

open PushPattern (IsCode IsWords)

/-- **A path generated for a language is recognized as a file of that language.** The language is
the one the registry has for the code, or for the part of it before the dash where the template
has no `<language_code>`; with codes of different keys the code gives the language itself. -/
theorem recognize_render {raw : Text} {push : PushPattern} {pull : PullPattern}
    (hpush : PushPattern.compile raw = .ok push) (hpull : PullPattern.compile raw = .ok pull)
    (hnames : ∀ v ∈ [Placeholder.name, .nameCapitalized, .nameUppercased], ¬ v.token <:+: raw)
    (hext : ¬ Placeholder.extension.token <:+ raw)
    (honce : ∀ a b c d, raw = a ++ Placeholder.lang.token ++ b →
      raw = c ++ Placeholder.lang.token ++ d → a = c)
    {languages : List Language} {l : Language} (hl : l ∈ languages) (hlang : IsWords l.lang)
    (hcode : Placeholder.code.token <:+: raw → IsCode l.code) (name? : Option Text) (root : Path)
    (hplain : Path.posix ⟨pull.render l name?⟩ = pull.render l name?) :
    ∃ f, (push.recognize root ⟨pull.render l name?⟩ (.ofList languages)).file? = some f ∧
      f.relative = ⟨pull.render l name?⟩ ∧ f.root = root ∧
      (Placeholder.code.token <:+: raw →
        (Registry.ofList languages).get l.code = .ok f.language ∧
        ((∀ m ∈ languages, Language.key m.code = Language.key l.code → m = l) →
          f.language = l)) ∧
      (¬ Placeholder.code.token <:+: raw →
        (Registry.ofList languages).get l.lang = .ok f.language) := by
  obtain rfl := PushPattern.compile_eq_ok_iff.1 hpush
  have hraw : pull.raw = push.raw := PullPattern.compile_eq_ok_iff.1 hpull
  have hread : PullPattern.Readable push.raw l := ⟨hlang, hcode, hnames⟩
  have hrender := PullPattern.render_of_not_suffix (hraw ▸ hext) l name?
  rw [hraw] at hrender
  obtain ⟨values, hcap, tokens, htokens⟩ :=
    PullPattern.languageTokens_render hread (PullPattern.langOnce_slashed honce)
  rw [← hrender] at hcap
  -- The first value that is tried stands for a language, so no other one is.
  obtain ⟨m, hm⟩ : ∃ m, (Registry.ofList languages).find?
      (if .placeholder .code ∈ Template.segments push.raw then l.code else l.lang) = some m := by
    apply Option.isSome_iff_exists.1
    split
    · exact Registry.find?_code_isSome hl
    · exact Registry.find?_lang_isSome hl
  refine ⟨{ relative := ⟨pull.render l name?⟩, language := m, root }, ?_, rfl, rfl, fun hc => ?_,
    fun hc => ?_⟩
  · simp only [PushPattern.recognize, hplain, hcap, htokens, List.findSome?_cons, hm]
    rfl
  · rw [if_pos (Template.placeholder_mem_segments_iff.2 hc)] at hm
    refine ⟨Registry.get_eq_ok_iff.2 hm, fun hkeys => ?_⟩
    obtain ⟨hmem, hkey⟩ := Registry.key_code_of_find?_code hl hm
    exact hkeys m hmem hkey
  · rw [if_neg fun h => hc (Template.placeholder_mem_segments_iff.1 h)] at hm
    exact Registry.get_eq_ok_iff.2 hm

theorem eq_of_occurs_at {raw token : Text} {k : Nat}
    (h : ∀ n ≤ raw.length, token.isPrefixOf (raw.drop n) = true → n = k) (a b c d : Text)
    (ha : raw = a ++ token ++ b) (hc : raw = c ++ token ++ d) : a = c := by
  have hlen {u v : Text} (hu : raw = u ++ token ++ v) : u.length = k := by
    rw [List.append_assoc] at hu
    refine h u.length (by simp [hu]) ?_
    rw [hu, List.drop_left, List.isPrefixOf_iff_prefix]
    exact List.prefix_append _ _
  have hk := (hlen ha).trans (hlen hc).symm
  rw [List.append_assoc] at ha hc
  exact List.append_inj_left (ha.symm.trans hc) hk

/-- A template with a backslash, an unknown token and both placeholders, for the second of two
languages. -/
theorem recognize_render_brazilian :
    ∃ (push : PushPattern) (f : LocaleFile),
      PushPattern.compile "a\\<x>/<language_code>.<language_lang_code>".toList = .ok push ∧
      (push.recognize (.ofString "/p") (.ofString "a\\<x>/pt-br.pt")
        (.ofList [.english, .brazilian])).file? = some f ∧
      f.relative = .ofString "a\\<x>/pt-br.pt" ∧
      f.language = .brazilian := by
  have hpush : PushPattern.compile "a\\<x>/<language_code>.<language_lang_code>".toList =
      .ok (.ofText "a\\<x>/<language_code>.<language_lang_code>".toList (by decide)) :=
    PushPattern.compile_ofText _
  have hpull : PullPattern.compile "a\\<x>/<language_code>.<language_lang_code>".toList =
      .ok ⟨"a\\<x>/<language_code>.<language_lang_code>".toList, by decide⟩ := rfl
  have honce : ∀ n ≤ "a\\<x>/<language_code>.<language_lang_code>".toList.length,
      Placeholder.lang.token.isPrefixOf
        ("a\\<x>/<language_code>.<language_lang_code>".toList.drop n) = true → n = 22 := by decide
  have hmem : Language.brazilian ∈ [.english, .brazilian] := by simp
  have hlang : IsWords "pt".toList := ⟨by decide, List.all_eq_true.1 rfl⟩
  obtain ⟨f, hf, hrel, -, hcode, -⟩ := recognize_render hpush hpull (by decide) (by decide)
    (eq_of_occurs_at honce) hmem hlang
    (fun _ => ⟨'p', 't', 'b', 'r', rfl, rfl, rfl, rfl, rfl⟩) none (.ofString "/p") rfl
  exact ⟨_, f, hpush, hf, hrel, (hcode (by decide)).2 (by decide +kernel)⟩

end LocaleSync
