/-
Two runs of the matcher side by side. The patterns may differ in the case of ASCII letters and in
the kind of separator in their literal text (`SameSpelling`), the paths in the case of letters
only. Every cut of one path then has its like among the cuts of the other, with pieces of the same
lengths, so the preferred cuts are alike as well (`IsPreferred.alike`), and so are the values read
back. The keys of such values are the same, so one language is found for both:
`recognize_ignoring_case`.
-/
import LocaleSync.Proofs.Discovery
import LocaleSync.Proofs.Path.Shape
import LocaleSync.Proofs.PushPattern.Cut
import LocaleSync.Proofs.Text.Letters
import Mathlib.Data.List.Lex

namespace LocaleSync

/-! ## Paths -/

namespace Path

theorem isName_map_toLower_iff {piece : Text} : IsName (piece.map Char.toLower) ↔ IsName piece := by
  have hslash : '/' ∈ piece.map Char.toLower ↔ '/' ∈ piece := by
    simp [Text.toLower_eq_iff (show Char.isAlpha '/' = false from rfl)]
  have hdot {c : Char} : c.toLower = '.' ↔ c = '.' := Text.toLower_eq_iff rfl
  rw [isName_iff_ne, isName_iff_ne, hslash]
  simp [List.map_eq_cons_iff, hdot]

theorem posix_map_toLower (t : Text) :
    posix ⟨t.map Char.toLower⟩ = (posix ⟨t⟩).map Char.toLower := by
  have hparts : parts ⟨t.map Char.toLower⟩ = (parts ⟨t⟩).map (·.map Char.toLower) := by
    rw [parts_eq_filter, parts_eq_filter, Text.splitOn_map_toLower, List.filter_map]
    congr 1
    apply List.filter_congr
    intro piece _
    simp [isName_map_toLower_iff]
  rw [posix, hparts, Text.joinWith_map_toLower, posix]

end Path

namespace PushPattern

theorem SameLetters.posix {path₁ path₂ : Path} (h : SameLetters path₁.text path₂.text) :
    SameLetters path₁.posix path₂.posix := by
  unfold SameLetters at h ⊢
  rw [← Path.posix_map_toLower, h, Path.posix_map_toLower]

/-! ## Segments -/

/-- The characters that separate the components of a pattern. -/
def separators : List Char :=
  ['/', '\\']

/-- Literal texts that differ only in the case of ASCII letters and the kind of separator. -/
def SameSpelling (t u : Text) : Prop :=
  List.Forall₂ (fun c d => c.toLower = d.toLower ∨ (c ∈ separators ∧ d ∈ separators)) t u

/-- The same placeholder, or literal texts that differ only in letter case and separators. -/
inductive Alike : Segment → Segment → Prop
  | literal {t u : Text} : SameSpelling t u → Alike (.literal t) (.literal u)
  | placeholder (v : Placeholder) : Alike (.placeholder v) (.placeholder v)

theorem SameSpelling.symm {t u : Text} (h : SameSpelling t u) : SameSpelling u t := by
  refine (h.imp fun c d hcd => ?_).flip
  rcases hcd with hcd | ⟨hc, hd⟩
  · exact .inl hcd.symm
  · exact .inr ⟨hd, hc⟩

theorem Alike.symm {s s' : Segment} (h : Alike s s') : Alike s' s := by
  cases h with
  | literal h => exact .literal h.symm
  | placeholder v => exact .placeholder v

theorem forall₂_alike_symm {segs segs' : List Segment} (h : List.Forall₂ Alike segs segs') :
    List.Forall₂ Alike segs' segs :=
  (h.imp fun _ _ => Alike.symm).flip

/-- With one kind of separator nothing but the case of letters is left. -/
theorem SameSpelling.slashed {t u : Text} (h : SameSpelling t u) :
    SameLetters (slashed t) (slashed u) := by
  have hback {c : Char} : c.toLower = '\\' ↔ c = '\\' := Text.toLower_eq_iff rfl
  induction h with
  | nil => rfl
  | @cons c d t u hcd _ ih =>
    have hhead : (if c = '\\' then '/' else c).toLower = (if d = '\\' then '/' else d).toLower := by
      rcases hcd with hcd | ⟨hc, hd⟩
      · have hiff : c = '\\' ↔ d = '\\' := by rw [← hback, hcd, hback]
        simp only [hiff]
        split
        · rfl
        · exact hcd
      · simp only [separators, List.mem_cons, List.not_mem_nil, or_false] at hc hd
        rcases hc with rfl | rfl <;> rcases hd with rfl | rfl <;> rfl
    unfold SameLetters at ih ⊢
    rw [slashed_cons, slashed_cons, List.map_cons, List.map_cons, hhead, ih]

theorem SameLetters.sameSpelling {t u : Text} (h : SameLetters t u) : SameSpelling t u := by
  have hmap : List.Forall₂ Eq (t.map Char.toLower) (u.map Char.toLower) := by
    rw [List.forall₂_eq_eq_eq]
    exact h
  rw [List.forall₂_map_left_iff, List.forall₂_map_right_iff] at hmap
  exact hmap.imp fun _ _ => .inl

/-! ## Pieces -/

theorem isWord_toLower (c : Char) : isWord c.toLower = isWord c :=
  Text.toLower_congr (by decide +kernel) c

theorem isWords_map_toLower_iff {x : Text} : IsWords (x.map Char.toLower) ↔ IsWords x := by
  simp [IsWords, isWord_toLower]

theorem isCode_map_toLower_iff {x : Text} : IsCode (x.map Char.toLower) ↔ IsCode x := by
  have hdash {c : Char} : c.toLower = '-' ↔ c = '-' := Text.toLower_eq_iff rfl
  constructor
  · rintro ⟨a, b, c, d, h, ha, hb, hc, hd⟩
    simp only [List.map_eq_cons_iff, List.map_eq_nil_iff] at h
    obtain ⟨a', _, rfl, rfl, b', _, rfl, rfl, m, _, rfl, hm, c', _, rfl, rfl, d', _, rfl, rfl, rfl⟩
      := h
    obtain rfl := hdash.1 hm
    simp only [isWord_toLower] at ha hb hc hd
    exact ⟨a', b', c', d', rfl, ha, hb, hc, hd⟩
  · rintro ⟨a, b, c, d, rfl, ha, hb, hc, hd⟩
    exact ⟨a.toLower, b.toLower, c.toLower, d.toLower, rfl, by rwa [isWord_toLower],
      by rwa [isWord_toLower], by rwa [isWord_toLower], by rwa [isWord_toLower]⟩

/-- What fits a segment fits one that is alike, in any case of its letters. -/
theorem Fits.alike {s s' : Segment} (hs : Alike s s') {x y : Text} (hxy : SameLetters x y)
    (h : Fits (slashedSegment s) x) : Fits (slashedSegment s') y := by
  cases hs with
  | literal ht => exact ht.slashed.symm.trans (Eq.trans h hxy)
  | placeholder v =>
    cases v with
    | code => exact isCode_map_toLower_iff.1 (hxy ▸ isCode_map_toLower_iff.2 h)
    | lang => exact isWords_map_toLower_iff.1 (hxy ▸ isWords_map_toLower_iff.2 h)
    | name | nameCapitalized | nameUppercased | extension => exact Eq.trans h hxy

/-! ## Cuts -/

section

variable {segs segs' : List Segment} {t u : Text} {pieces pieces' : List Text}

/-- Every cut has its like. -/
theorem IsCut.alike (hsegs : List.Forall₂ Alike segs segs') (ht : SameLetters t u)
    (h : IsCut (segs.map slashedSegment) t pieces) :
    ∃ others, IsCut (segs'.map slashedSegment) u others ∧
      List.Forall₂ SameLetters pieces others := by
  induction hsegs generalizing t u pieces with
  | nil =>
    obtain ⟨rfl, rfl⟩ := isCut_nil_iff.1 h
    have hu : u = [] := List.map_eq_nil_iff.1 ht.symm
    exact ⟨[], isCut_nil_iff.2 ⟨hu, rfl⟩, .nil⟩
  | cons hs _ ih =>
    obtain ⟨x, rest, v, rfl, rfl, hx, hrest⟩ := isCut_cons_iff.1 h
    -- The other text is divided where this one is.
    unfold SameLetters at ht
    rw [List.map_append] at ht
    obtain ⟨y, w, rfl, hy, hw⟩ := List.map_eq_append_iff.1 ht.symm
    obtain ⟨others, hothers, halike⟩ := ih hw.symm hrest
    exact ⟨y :: others,
      isCut_cons_iff.2 ⟨y, others, w, rfl, rfl, hx.alike hs hy.symm, hothers⟩,
      .cons hy.symm halike⟩

theorem langLengths_alike (hsegs : List.Forall₂ Alike segs segs')
    (hpieces : List.Forall₂ SameLetters pieces pieces') :
    langLengths (segs.map slashedSegment) pieces =
      langLengths (segs'.map slashedSegment) pieces' := by
  induction hsegs generalizing pieces pieces' with
  | nil => cases hpieces <;> rfl
  | cons hs _ ih =>
    cases hpieces with
    | nil => cases hs <;> simp [langLengths]
    | cons hxy hrest =>
      have hlen := congrArg List.length hxy
      rw [List.length_map, List.length_map] at hlen
      cases hs with
      | literal => exact ih hrest
      | placeholder v =>
        cases v with
        | lang => exact congrArg₂ List.cons hlen (ih hrest)
        | code | name | nameCapitalized | nameUppercased | extension => exact ih hrest

/-- **Preferred cuts are alike.** Were the like of one not the other, each would have the smaller
lengths. -/
theorem IsPreferred.alike (hsegs : List.Forall₂ Alike segs segs') (ht : SameLetters t u)
    (h : IsPreferred (segs.map slashedSegment) t pieces)
    (h' : IsPreferred (segs'.map slashedSegment) u pieces') :
    List.Forall₂ SameLetters pieces pieces' := by
  obtain ⟨others', hcut', halike'⟩ := h.cut.alike hsegs ht
  obtain ⟨others, hcut, halike⟩ := h'.cut.alike (forall₂_alike_symm hsegs) ht.symm
  by_cases he' : others' = pieces'
  · exact he' ▸ halike'
  · have hless := h'.greatest others' hcut' he'
    rw [← langLengths_alike hsegs halike'] at hless
    have hlengths := langLengths_alike (forall₂_alike_symm hsegs) halike
    by_cases he : others = pieces
    · rw [hlengths, he] at hless
      exact absurd hless (irrefl_of _ _)
    · have hmore := h.greatest others hcut he
      rw [← hlengths] at hmore
      exact absurd hless (asymm_of _ hmore)

theorem cut?_alike (hsegs : List.Forall₂ Alike segs segs') (ht : SameLetters t u) :
    Option.Rel (List.Forall₂ SameLetters) (cut? (segs.map slashedSegment) t)
      (cut? (segs'.map slashedSegment) u) := by
  have h := isBest_cut? (segs.map slashedSegment) t
  have h' := isBest_cut? (segs'.map slashedSegment) u
  generalize cut? (segs.map slashedSegment) t = best at h ⊢
  generalize cut? (segs'.map slashedSegment) u = best' at h' ⊢
  cases best with
  | none =>
    cases best' with
    | none => exact .none
    | some pieces' =>
      obtain ⟨others, hcut, -⟩ := h'.cut.alike (forall₂_alike_symm hsegs) ht.symm
      exact absurd hcut (h others)
  | some pieces =>
    cases best' with
    | none =>
      obtain ⟨others, hcut, -⟩ := h.cut.alike hsegs ht
      exact absurd hcut (h' others)
    | some pieces' => exact .some (h.alike hsegs ht h')

end

/-! ## Values -/

theorem rel_map {α β γ δ : Type} {R : α → β → Prop} {S : γ → δ → Prop} {f : α → γ} {g : β → δ}
    (hfg : ∀ a b, R a b → S (f a) (g b)) {x : Option α} {y : Option β} (h : Option.Rel R x y) :
    Option.Rel S (x.map f) (y.map g) := by
  cases h with
  | none => exact .none
  | some h => exact .some (hfg _ _ h)

theorem captured?_alike {segs segs' : List Segment} {pieces pieces' : List Text}
    (hsegs : List.Forall₂ Alike segs segs')
    (hpieces : List.Forall₂ SameLetters pieces pieces') (v : Placeholder) :
    Option.Rel SameLetters (captured? (segs.map slashedSegment) pieces v)
      (captured? (segs'.map slashedSegment) pieces' v) := by
  induction hsegs generalizing pieces pieces' with
  | nil => exact .none
  | cons hs _ ih =>
    cases hpieces with
    | nil => exact .none
    | cons hxy hrest =>
      have hnext := ih hrest
      cases hs with
      | literal => simpa [captured?, slashedSegment] using hnext
      | placeholder w =>
        by_cases hw : w = v
        · simpa [captured?, slashedSegment, hw] using hxy
        · simpa [captured?, slashedSegment, hw] using hnext

/-- Values of one placeholder, equal up to the case of ASCII letters. -/
def SameValue (a b : Placeholder × Text) : Prop :=
  a.1 = b.1 ∧ SameLetters a.2 b.2

/-- **The values read back from alike paths are alike.** -/
theorem captures?_alike {p₁ p₂ : PushPattern}
    (hsegs : List.Forall₂ Alike (Template.segments p₁.raw) (Template.segments p₂.raw))
    {t u : Text} (ht : SameLetters t u) :
    Option.Rel (List.Forall₂ SameValue) (p₁.captures? t) (p₂.captures? u) := by
  have hcut := cut?_alike hsegs ht.sameSpelling.slashed
  simp only [captures?_eq, segments, segments_slashed]
  refine rel_map (fun pieces pieces' hpieces => ?_) hcut
  refine List.rel_filterMap (R := Eq) ?_ (by simp)
  intro v w hvw
  subst hvw
  exact rel_map (fun _ _ h => ⟨rfl, h⟩) (captured?_alike hsegs hpieces v)

/-! ## Languages -/

theorem find?_alike {values values' : List (Placeholder × Text)}
    (h : List.Forall₂ SameValue values values') (v : Placeholder) :
    Option.Rel SameValue (values.find? (·.1 = v)) (values'.find? (·.1 = v)) := by
  induction h with
  | nil => exact .none
  | @cons a b _ _ hab _ ih =>
    by_cases ha : a.1 = v
    · have hb : b.1 = v := hab.1 ▸ ha
      simpa [ha, hb] using hab
    · have hb : ¬ b.1 = v := hab.1 ▸ ha
      simpa [ha, hb] using ih

theorem languageTokens_alike {values values' : List (Placeholder × Text)}
    (h : List.Forall₂ SameValue values values') :
    List.Forall₂ SameLetters (languageTokens values) (languageTokens values') := by
  refine List.rel_filter ?_ (List.rel_filterMap (R := Eq) ?_ (by simp))
  · intro x y hxy
    have hlen := congrArg List.length hxy
    rw [List.length_map, List.length_map] at hlen
    simp [← List.length_eq_zero_iff, hlen]
  · intro v w hvw
    subst hvw
    exact rel_map (fun _ _ h => h.2) (find?_alike h v)

theorem findSome?_alike (r : Registry) {tokens tokens' : List Text}
    (h : List.Forall₂ SameLetters tokens tokens') :
    tokens.findSome? r.find? = tokens'.findSome? r.find? := by
  induction h with
  | nil => rfl
  | @cons x y _ _ hxy _ ih =>
    have hkey : Language.key x = Language.key y := by
      rw [← Language.key_map_toLower, hxy, Language.key_map_toLower]
    have hfind : r.find? x = r.find? y := by simp only [Registry.find?, hkey]
    rw [List.findSome?_cons, List.findSome?_cons, hfind, ih]

/-- **Neither the case of letters nor the kind of separator decides what is recognized.** -/
theorem recognize_ignoring_case {raw₁ raw₂ : Text} {p₁ p₂ : PushPattern}
    (h₁ : compile raw₁ = .ok p₁) (h₂ : compile raw₂ = .ok p₂)
    (hsegs : List.Forall₂ Alike (Template.segments raw₁) (Template.segments raw₂))
    {path₁ path₂ : Path} (hpath : SameLetters path₁.text path₂.text) (root : Path)
    (r : Registry) :
    ((p₁.recognize root path₁ r).file?.isSome ↔ (p₂.recognize root path₂ r).file?.isSome) ∧
    (∀ f₁ f₂, (p₁.recognize root path₁ r).file? = some f₁ →
      (p₂.recognize root path₂ r).file? = some f₂ →
        f₁.language = f₂.language ∧ f₁.relative = path₁ ∧ f₂.relative = path₂) ∧
    Option.Rel (List.Forall₂ SameValue) (p₁.captures? path₁.posix) (p₂.captures? path₂.posix) := by
  obtain rfl := compile_eq_ok_iff.1 h₁
  obtain rfl := compile_eq_ok_iff.1 h₂
  have hvalues := captures?_alike hsegs hpath.posix
  have hlanguage :
      ((p₁.captures? path₁.posix).bind fun values => (languageTokens values).findSome? r.find?) =
        (p₂.captures? path₂.posix).bind fun values => (languageTokens values).findSome? r.find? := by
    generalize p₁.captures? path₁.posix = values? at hvalues ⊢
    generalize p₂.captures? path₂.posix = values?' at hvalues ⊢
    cases hvalues with
    | none => rfl
    | some h => exact findSome?_alike r (languageTokens_alike h)
  rw [file?_recognize, file?_recognize, hlanguage]
  refine ⟨by rw [Option.isSome_map, Option.isSome_map], ?_, hvalues⟩
  intro f₁ f₂ hf₁ hf₂
  obtain ⟨l, hl, rfl⟩ := Option.map_eq_some_iff.1 hf₁
  obtain ⟨m, hm, rfl⟩ := Option.map_eq_some_iff.1 hf₂
  exact ⟨Option.some.inj (hl.symm.trans hm), rfl, rfl⟩

open LocaleSync.Language (brazilian)

def brazilianFile : LocaleFile where
  relative := .ofString "RES/Pt-bR/app.Json"
  language := brazilian
  root := .ofString "/p"

/-- Two patterns and two paths that have hardly a letter or a separator in common. -/
theorem recognize_ignoring_case_brazilian :
    ∃ p₁ p₂ : PushPattern, compile "Res\\<language_code>/App.json".toList = .ok p₁ ∧
      compile "rES/<language_code>\\aPP.JSON".toList = .ok p₂ ∧
      (p₁.recognize (.ofString "/p") (.ofString "RES/Pt-bR/app.Json") (.ofList [brazilian])).file? =
        some brazilianFile ∧
      (p₂.recognize (.ofString "/p") (.ofString "res/pT-Br/APP.jSON")
        (.ofList [brazilian])).file?.isSome := by
  have h₁ : compile "Res\\<language_code>/App.json".toList =
      .ok (.ofText "Res\\<language_code>/App.json".toList (by decide)) := compile_ofText _
  have h₂ : compile "rES/<language_code>\\aPP.JSON".toList =
      .ok (.ofText "rES/<language_code>\\aPP.JSON".toList (by decide)) := compile_ofText _
  have hsegs : List.Forall₂ Alike (Template.segments "Res\\<language_code>/App.json".toList)
      (Template.segments "rES/<language_code>\\aPP.JSON".toList) := by
    refine .cons (.literal ?_) (.cons (.placeholder .code) (.cons (.literal ?_) .nil)) <;>
      unfold SameSpelling <;> decide
  have hfile : (recognize (.ofText "Res\\<language_code>/App.json".toList (by decide))
      (.ofString "/p") (.ofString "RES/Pt-bR/app.Json") (.ofList [brazilian])).file? =
        some brazilianFile := by decide +kernel
  have hpath : SameLetters (Path.ofString "RES/Pt-bR/app.Json").text
      (Path.ofString "res/pT-Br/APP.jSON").text := by
    unfold SameLetters
    decide
  refine ⟨_, _, h₁, h₂, hfile, ?_⟩
  exact (recognize_ignoring_case h₁ h₂ hsegs hpath _ _).1.1 (by rw [hfile]; rfl)

end PushPattern

end LocaleSync
