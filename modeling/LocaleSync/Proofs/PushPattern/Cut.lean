/-
The cut a push pattern makes of a path, against all the cuts there are. `Fits` says which pieces a
segment takes and `IsCut` what it is to cut a text into pieces for segments. `cuts` lists the cuts of
a text (`mem_cuts_iff`), those that give their `<language_lang_code>` pieces greater lengths before
the others, the first such piece counting most (`pairwise_cuts`); the one to prefer is its first
(`isBest_cut?`).

The ways to match the regular expression of a pattern are the cuts in the same order
(`ways_itemsAfter`), so the values read back from a path are pieces of the preferred cut
(`captures?_eq`, `captures?_exact`).
-/
import LocaleSync.Proofs.PushPattern.Compiled
import LocaleSync.Proofs.Text.Letters

namespace LocaleSync

namespace PushPattern

/-! ## Pieces -/

/-- Two word characters, a dash and two more. -/
def IsCode (piece : Text) : Prop :=
  ∃ a b c d, piece = [a, b, '-', c, d] ∧
    isWord a = true ∧ isWord b = true ∧ isWord c = true ∧ isWord d = true

/-- One or more word characters. -/
def IsWords (piece : Text) : Prop :=
  piece ≠ [] ∧ ∀ c ∈ piece, isWord c = true

/-- Equal up to the case of ASCII letters. -/
def SameLetters (a b : Text) : Prop :=
  a.map Char.toLower = b.map Char.toLower

/-- The pieces of a path a segment takes. -/
def Fits : Segment → Text → Prop
  | .placeholder .code, piece => IsCode piece
  | .placeholder .lang, piece => IsWords piece
  | seg, piece => SameLetters seg.text piece

/-! ## Cuts -/

/-- The pieces make up the text and fit the segments, one for one. -/
structure IsCut (segs : List Segment) (t : Text) (pieces : List Text) : Prop where
  fits : List.Forall₂ Fits segs pieces
  flatten : pieces.flatten = t

theorem isCut_nil_iff {t : Text} {pieces : List Text} :
    IsCut [] t pieces ↔ t = [] ∧ pieces = [] := by
  constructor
  · rintro ⟨hf, rfl⟩
    cases hf
    exact ⟨rfl, rfl⟩
  · rintro ⟨rfl, rfl⟩
    exact ⟨.nil, rfl⟩

theorem isCut_cons_iff {seg : Segment} {segs : List Segment} {t : Text} {pieces : List Text} :
    IsCut (seg :: segs) t pieces ↔
      ∃ x rest u, pieces = x :: rest ∧ t = x ++ u ∧ Fits seg x ∧ IsCut segs u rest := by
  constructor
  · rintro ⟨hf, rfl⟩
    cases hf with
    | cons hx hrest => exact ⟨_, _, _, rfl, rfl, hx, hrest, rfl⟩
  · rintro ⟨x, rest, u, rfl, rfl, hx, hrest, rfl⟩
    exact ⟨.cons hx hrest, rfl⟩

/-- The lengths of the pieces of `<language_lang_code>`, from left to right. -/
def langLengths : List Segment → List Text → List Nat
  | .placeholder .lang :: segs, x :: pieces => x.length :: langLengths segs pieces
  | _ :: segs, _ :: pieces => langLengths segs pieces
  | _, _ => []

theorem langLengths_cons {seg : Segment} (h : seg ≠ .placeholder .lang) (segs : List Segment)
    (x : Text) (pieces : List Text) :
    langLengths (seg :: segs) (x :: pieces) = langLengths segs pieces := by
  rcases seg with _ | v
  · rfl
  · cases v <;> first | rfl | exact absurd rfl h

/-- The cut with the greatest lengths: every other one has smaller lengths in the order of
words. -/
structure IsPreferred (segs : List Segment) (t : Text) (pieces : List Text) : Prop where
  cut : IsCut segs t pieces
  greatest : ∀ others, IsCut segs t others → others ≠ pieces →
    List.Lex (· < ·) (langLengths segs others) (langLengths segs pieces)

/-- What is to be found for a text: its preferred cut, or nothing if it has no cut. -/
def IsBest (segs : List Segment) (t : Text) : Option (List Text) → Prop
  | none => ∀ pieces, ¬ IsCut segs t pieces
  | some pieces => IsPreferred segs t pieces

/-- The kinds of the characters of a piece, for a segment whose pieces all have one length. -/
def kinds : Segment → List CharKind
  | .placeholder .code => [.word, .word, .literal '-', .word, .word]
  | seg => seg.text.map .literal

/-- The pieces for a segment at the front of a text, with the text behind them: the longest first. -/
def pieces : Segment → Text → List (Text × Text)
  | .placeholder .lang, t => Regex.spans .word t
  | seg, t => (Regex.fixed? (kinds seg) t).toList

theorem pieces_of_ne {seg : Segment} (h : seg ≠ .placeholder .lang) (t : Text) :
    pieces seg t = (Regex.fixed? (kinds seg) t).toList := by
  rcases seg with _ | v
  · rfl
  · cases v <;> first | rfl | exact absurd rfl h

/-- Characters of the kinds of literals spell their text up to letter case. -/
theorem forall₂_takes_literal_iff {literal x : Text} :
    List.Forall₂ (fun k c => CharKind.takes k c = true) (literal.map .literal) x ↔
      SameLetters literal x := by
  rw [SameLetters, ← List.forall₂_eq_eq_eq, List.forall₂_map_left_iff, List.forall₂_map_left_iff,
    List.forall₂_map_right_iff]
  simp only [CharKind.takes, decide_eq_true_iff]

theorem forall₂_takes_code_iff {x : Text} :
    List.Forall₂ (fun k c => CharKind.takes k c = true)
      [.word, .word, .literal '-', .word, .word] x ↔ IsCode x := by
  have hdash : ∀ c, CharKind.takes (.literal '-') c = true ↔ c = '-' := by
    intro c
    rw [CharKind.takes, decide_eq_true_iff, eq_comm]
    exact Text.toLower_eq_iff rfl
  constructor
  · rintro (_ | ⟨ha, _ | ⟨hb, _ | ⟨hc, _ | ⟨hd, _ | ⟨he, _ | _⟩⟩⟩⟩⟩)
    obtain rfl := (hdash _).1 hc
    exact ⟨_, _, _, _, rfl, ha, hb, hd, he⟩
  · rintro ⟨a, b, c, d, rfl, ha, hb, hc, hd⟩
    exact .cons ha (.cons hb (.cons ((hdash _).2 rfl) (.cons hc (.cons hd .nil))))

theorem mem_pieces_iff {seg : Segment} {t x u : Text} :
    (x, u) ∈ pieces seg t ↔ t = x ++ u ∧ Fits seg x := by
  rcases seg with literal | v
  · rw [pieces_of_ne (by simp), Option.mem_toList, Regex.fixed?_eq_some_iff]
    exact and_congr_right fun _ => forall₂_takes_literal_iff
  · cases v with
    | lang => exact Regex.mem_spans_iff
    | code =>
      rw [pieces_of_ne (by simp), Option.mem_toList, Regex.fixed?_eq_some_iff]
      exact and_congr_right fun _ => forall₂_takes_code_iff
    | name | nameCapitalized | nameUppercased | extension =>
      rw [pieces_of_ne (by simp), Option.mem_toList, Regex.fixed?_eq_some_iff]
      exact and_congr_right fun _ => forall₂_takes_literal_iff

/-- The cuts of a text, the one to prefer first. -/
def cuts : List Segment → Text → List (List Text)
  | [], t => if t = [] then [[]] else []
  | seg :: segs, t => (pieces seg t).flatMap fun (x, u) => (cuts segs u).map (x :: ·)

/-- **The list has all the cuts and nothing else.** -/
theorem mem_cuts_iff {segs : List Segment} {t : Text} {cut : List Text} :
    cut ∈ cuts segs t ↔ IsCut segs t cut := by
  induction segs generalizing t cut with
  | nil => by_cases ht : t = [] <;> simp [cuts, isCut_nil_iff, ht]
  | cons seg segs ih =>
    rw [isCut_cons_iff, cuts, List.mem_flatMap]
    constructor
    · rintro ⟨⟨x, u⟩, hx, hcut⟩
      obtain ⟨rest, hrest, rfl⟩ := List.mem_map.1 hcut
      obtain ⟨ht, hfits⟩ := mem_pieces_iff.1 hx
      exact ⟨x, rest, u, rfl, ht, hfits, ih.1 hrest⟩
    · rintro ⟨x, rest, u, rfl, ht, hfits, hrest⟩
      exact ⟨(x, u), mem_pieces_iff.2 ⟨ht, hfits⟩, List.mem_map.2 ⟨rest, ih.2 hrest, rfl⟩⟩

/-- **Cuts with greater lengths come first.** -/
theorem pairwise_cuts (segs : List Segment) (t : Text) :
    (cuts segs t).Pairwise fun a b =>
      List.Lex (· < ·) (langLengths segs b) (langLengths segs a) := by
  induction segs generalizing t with
  | nil => by_cases ht : t = [] <;> simp [cuts, ht]
  | cons seg segs ih =>
    rw [cuts, List.pairwise_flatMap]
    by_cases hseg : seg = .placeholder .lang
    · subst hseg
      refine ⟨fun (x, u) _ => List.pairwise_map.2 ((ih u).imp .cons), ?_⟩
      -- Two cuts that differ in this piece are told apart by its length.
      refine (Regex.pairwise_spans .word t).imp fun hless a ha b hb => ?_
      obtain ⟨_, -, rfl⟩ := List.mem_map.1 ha
      obtain ⟨_, -, rfl⟩ := List.mem_map.1 hb
      exact .rel hless
    · constructor
      · rintro ⟨x, u⟩ -
        simpa only [List.pairwise_map, langLengths_cons hseg] using ih u
      · rw [pieces_of_ne hseg]
        cases Regex.fixed? (kinds seg) t <;> simp

/-- The cut to prefer. -/
def cut? (segs : List Segment) (t : Text) : Option (List Text) :=
  (cuts segs t).head?

/-- **The cut that is found is the preferred one, and none is found only where there is none.** -/
theorem isBest_cut? (segs : List Segment) (t : Text) : IsBest segs t (cut? segs t) := by
  have hsorted := pairwise_cuts segs t
  have hmem {cut : List Text} : IsCut segs t cut → cut ∈ cuts segs t := mem_cuts_iff.2
  rw [cut?]
  cases hcuts : cuts segs t with
  | nil =>
    intro cut hcut
    rw [hcuts] at hmem
    exact List.not_mem_nil (hmem hcut)
  | cons best others =>
    rw [hcuts] at hmem hsorted
    refine ⟨mem_cuts_iff.1 (hcuts ▸ List.mem_cons_self), fun cut hcut hne => ?_⟩
    have hother : cut ∈ others := (List.mem_cons.1 (hmem hcut)).resolve_left hne
    exact List.rel_of_pairwise_cons hsorted hother

/-! ## Cuts as matches -/

/-- The marks of a match that cuts a text into the given pieces, for segments that follow the
placeholders `named`. -/
def marksAfter (named : List Placeholder) : List Segment → List Text → List Regex.Mark
  | seg :: segs, x :: rest =>
    match recoverable? seg with
    | none => x.map .char ++ marksAfter named segs rest
    | some v =>
      if v ∈ named then x.map .char ++ marksAfter named segs rest
      else .opens v.label :: x.map .char ++ [.closes] ++ marksAfter (v :: named) segs rest
  | _, _ => []

section

variable {named : List Placeholder} {segs : List Segment} {x : Text} {rest : List Text}

theorem marksAfter_of_none {seg : Segment} (h : recoverable? seg = none) :
    marksAfter named (seg :: segs) (x :: rest) = x.map .char ++ marksAfter named segs rest := by
  rw [marksAfter, h]

theorem marksAfter_again {v : Placeholder} (hv : v ∈ Placeholder.recoverable) (hm : v ∈ named) :
    marksAfter named (.placeholder v :: segs) (x :: rest) =
      x.map .char ++ marksAfter named segs rest := by
  rw [marksAfter, recoverable?_eq_some_iff.2 ⟨rfl, hv⟩]
  exact if_pos hm

theorem marksAfter_first {v : Placeholder} (hv : v ∈ Placeholder.recoverable) (hm : v ∉ named) :
    marksAfter named (.placeholder v :: segs) (x :: rest) =
      .opens v.label :: x.map .char ++ [.closes] ++ marksAfter (v :: named) segs rest := by
  rw [marksAfter, recoverable?_eq_some_iff.2 ⟨rfl, hv⟩]
  exact if_neg hm

end

/-- A segment for which nothing is read back is matched by its pieces. -/
theorem ways_text {seg : Segment} (h : recoverable? seg = none) (whole t : Text) :
    Regex.ways whole (.concat (seg.text.map .ofChar)) t =
      (pieces seg t).map fun (x, u) => (x.map .char, u) := by
  have hkinds : seg.text.map Regex.ofChar = (kinds seg).map .one ∧ seg ≠ .placeholder .lang := by
    rcases seg with _ | v
    · exact ⟨by simp [kinds, Segment.text, Regex.ofChar], by simp⟩
    · cases v with
      | code | lang => cases h
      | name | nameCapitalized | nameUppercased | extension => exact ⟨rfl, by simp⟩
  rw [hkinds.1, Regex.ways_concat_one, pieces_of_ne hkinds.2]

/-- What a placeholder matches are its pieces. -/
theorem ways_items {v : Placeholder} (hv : v ∈ Placeholder.recoverable) (whole t : Text) :
    Regex.ways whole (.concat (items v)) t =
      (pieces (.placeholder v) t).map fun (x, u) => (x.map .char, u) := by
  rcases List.mem_pair.1 hv with rfl | rfl
  · exact Regex.ways_concat_one whole [.word, .word, .literal '-', .word, .word] t
  · simp [Regex.concat, items, Regex.ways, pieces]

/-- **The ways to match the items of segments up to the end of a text are its cuts**, in the same
order. -/
theorem ways_itemsAfter (whole : Text) (named : List Placeholder) (segs : List Segment) (t : Text) :
    Regex.ways whole (.concat (itemsAfter named segs ++ [.stop])) t =
      (cuts segs t).map fun cut => (marksAfter named segs cut, []) := by
  induction named, segs using expressionAfter_induction generalizing t with
  | nil named =>
    by_cases ht : t = [] <;> simp [itemsAfter, cuts, Regex.concat, Regex.ways, marksAfter, ht]
  | text named seg segs h ih =>
    rw [itemsAfter_of_none h, List.append_assoc, Regex.ways_concat_append, ways_text h, cuts,
      List.flatMap_map, List.map_flatMap]
    congr 1
    funext way
    obtain ⟨x, u⟩ := way
    simp only [ih, List.map_map, Function.comp_def, marksAfter_of_none h]
  | again named v segs hv hm ih =>
    rw [itemsAfter_placeholder hv, if_pos hm, List.cons_append, Regex.ways_concat_cons,
      ways_items hv, cuts, List.flatMap_map, List.map_flatMap]
    congr 1
    funext way
    obtain ⟨x, u⟩ := way
    simp only [ih, List.map_map, Function.comp_def, marksAfter_again hv hm]
  | first named v segs hv hm ih =>
    rw [itemsAfter_placeholder hv, if_neg hm, List.cons_append, Regex.ways_concat_cons, Regex.ways,
      ways_items hv, cuts, List.map_map, List.flatMap_map, List.map_flatMap]
    congr 1
    funext way
    obtain ⟨x, u⟩ := way
    simp only [ih, List.map_map, Function.comp_def, marksAfter_first hv hm]

/-! ## The values read back -/

/-- The piece cut for the first occurrence of a placeholder. -/
def captured? (segs : List Segment) (cut : List Text) (v : Placeholder) : Option Text :=
  ((segs.zip cut).find? (·.1 = .placeholder v)).map (·.2)

section

variable (x : Text) (marks : List Regex.Mark)

theorem group?_char_append (name : Text) :
    Regex.group? name (x.map .char ++ marks) = Regex.group? name marks := by
  induction x with
  | nil => rfl
  | cons c x ih => simpa [Regex.group?] using ih

theorem inside_char_append : Regex.inside 0 (x.map .char ++ .closes :: marks) = x := by
  induction x with
  | nil => rfl
  | cons c x ih => simpa [Regex.inside] using ih

end

/-- **The group of a placeholder has the piece of its first occurrence**, unless the placeholder was
met before. -/
theorem group?_marksAfter {v : Placeholder} (hv : v ∈ Placeholder.recoverable)
    (named : List Placeholder) (segs : List Segment) (cut : List Text) :
    Regex.group? v.label (marksAfter named segs cut) =
      if v ∈ named then none else captured? segs cut v := by
  have hnil : ∀ named segs, Regex.group? v.label (marksAfter named segs []) =
      if v ∈ named then none else captured? segs [] v := by
    intro named segs
    cases segs <;> simp [marksAfter, Regex.group?, captured?]
  induction named, segs using expressionAfter_induction generalizing cut with
  | nil named => simp [marksAfter, Regex.group?, captured?]
  | text named seg segs h ih =>
    have hseg : seg ≠ .placeholder v := by
      rintro rfl
      rw [recoverable?_eq_some_iff.2 ⟨rfl, hv⟩] at h
      cases h
    cases cut with
    | nil => exact hnil _ _
    | cons x rest =>
      rw [marksAfter_of_none h, group?_char_append, ih]
      simp [captured?, hseg]
  | again named w segs hw hm ih =>
    cases cut with
    | nil => exact hnil _ _
    | cons x rest =>
      rw [marksAfter_again hw hm, group?_char_append, ih]
      by_cases hvm : v ∈ named
      · rw [if_pos hvm, if_pos hvm]
      · have hne : w ≠ v := fun he => hvm (he ▸ hm)
        simp [hvm, captured?, hne]
  | first named w segs hw hm ih =>
    cases cut with
    | nil => exact hnil _ _
    | cons x rest =>
      rw [marksAfter_first hw hm, List.append_assoc, List.cons_append, Regex.group?]
      by_cases hwv : w = v
      · subst hwv
        rw [if_pos rfl, List.singleton_append, inside_char_append, if_neg hm]
        simp [captured?]
      · rw [if_neg fun he => hwv (Placeholder.label_injective he), group?_char_append,
          List.singleton_append, Regex.group?, ih]
        · simp [captured?, hwv, Ne.symm hwv]
        · simp

/-- **The values read back are pieces of the preferred cut.** -/
theorem captures?_eq (p : PushPattern) (t : Text) :
    p.captures? t = (cut? p.segments (slashed t)).map fun cut =>
      Placeholder.recoverable.filterMap fun v => (captured? p.segments cut v).map (v, ·) := by
  have hfirst : p.regex.search? (slashed t) =
      (cut? p.segments (slashed t)).map (marksAfter [] p.segments) := by
    rw [Regex.search?_eq, regex_eq, regexOf, List.cons_append, Regex.concat, List.foldr_cons,
      ← Regex.concat, Regex.preferred?_start, ways_itemsAfter, cut?, List.head?_map, Option.map_map]
    rfl
  rw [captures?, hfirst, Option.map_map]
  congr 1
  funext cut
  refine List.filterMap_congr fun v hv => ?_
  rw [group?_marksAfter hv, if_neg List.not_mem_nil]

/-- `x` is the piece cut for the first occurrence of a placeholder. -/
def IsFirstPiece (segs : List Segment) (pieces : List Text) (v : Placeholder) (x : Text) : Prop :=
  ∃ before after xs ys, segs = before ++ .placeholder v :: after ∧ pieces = xs ++ x :: ys ∧
    xs.length = before.length ∧ .placeholder v ∉ before

theorem IsFirstPiece.cons {segs : List Segment} {pieces : List Text} {v : Placeholder} {x y : Text}
    {seg : Segment} (hseg : seg ≠ .placeholder v) (h : IsFirstPiece segs pieces v x) :
    IsFirstPiece (seg :: segs) (y :: pieces) v x := by
  obtain ⟨before, after, xs, ys, rfl, rfl, hlen, hnot⟩ := h
  refine ⟨seg :: before, after, y :: xs, ys, rfl, rfl, by simp [hlen], ?_⟩
  simp only [List.mem_cons, not_or]
  exact ⟨hseg.symm, hnot⟩

theorem isFirstPiece_of_captured? {segs : List Segment} {pieces : List Text} {v : Placeholder}
    {x : Text} (h : captured? segs pieces v = some x) : IsFirstPiece segs pieces v x := by
  induction segs generalizing pieces with
  | nil => simp [captured?] at h
  | cons seg segs ih =>
    cases pieces with
    | nil => simp [captured?] at h
    | cons y pieces =>
      by_cases hseg : seg = .placeholder v
      · subst hseg
        obtain rfl : y = x := by simpa [captured?] using h
        exact ⟨[], segs, [], pieces, rfl, rfl, rfl, by simp⟩
      · exact (ih (by simpa [captured?, hseg] using h)).cons hseg

theorem captured?_isSome_iff {segs : List Segment} {pieces : List Text}
    (h : List.Forall₂ Fits segs pieces) (v : Placeholder) :
    (captured? segs pieces v).isSome ↔ .placeholder v ∈ segs := by
  induction h with
  | nil => simp [captured?]
  | @cons seg x segs pieces _ _ ih =>
    by_cases hseg : seg = .placeholder v
    · simp [captured?, hseg]
    · rw [List.mem_cons, or_iff_right (Ne.symm hseg), ← ih]
      simp [captured?, hseg]

theorem map_fst_values_sublist (value? : Placeholder → Option Text) (vs : List Placeholder) :
    ((vs.filterMap fun v => (value? v).map (v, ·)).map Prod.fst).Sublist vs := by
  induction vs with
  | nil => exact .slnil
  | cons v vs ih =>
    cases hv : value? v with
    | none => simpa [List.filterMap_cons, hv] using ih.cons v
    | some x => simpa [List.filterMap_cons, hv] using ih

theorem mem_map_fst_values_iff (value? : Placeholder → Option Text) (vs : List Placeholder)
    (v : Placeholder) :
    v ∈ (vs.filterMap fun v => (value? v).map (v, ·)).map Prod.fst ↔
      v ∈ vs ∧ (value? v).isSome := by
  simp only [List.mem_map, List.mem_filterMap, Option.map_eq_some_iff, Option.isSome_iff_exists]
  constructor
  · rintro ⟨_, ⟨w, hw, x, hx, rfl⟩, rfl⟩
    exact ⟨hw, x, hx⟩
  · rintro ⟨hv, x, hx⟩
    exact ⟨(v, x), ⟨v, hv, x, hx, rfl⟩, rfl⟩

/-- What the groups of a match say about the placeholders. -/
def valuesOf (marks : List Regex.Mark) : List (Placeholder × Text) :=
  Placeholder.recoverable.filterMap fun v => (Regex.group? v.label marks).map (v, ·)

/-- **What a push pattern reads back from a path.** Its regular expression can be read, and the
values are those of the groups in the match that the expression prefers. It matches exactly the
paths that can be cut into pieces that fit the segments of the pattern; the values are those of the
first `<language_code>` and the first `<language_lang_code>` in the preferred cut, each there if the
pattern has the placeholder. -/
theorem captures?_exact {raw : Text} {p : PushPattern} (hp : compile raw = .ok p) (t : Text) :
    (∃ r, Regex.parse? p.expression = some r ∧
      p.captures? t = (r.preferred? (Text.replaceChar '\\' '/' t)).map valuesOf) ∧
    ((p.captures? t).isSome ↔
      ∃ pieces, IsCut (Template.segments (slashed raw)) (slashed t) pieces) ∧
    ∀ values, p.captures? t = some values →
      ∃ pieces, IsPreferred (Template.segments (slashed raw)) (slashed t) pieces ∧
        (values.map Prod.fst).Sublist Placeholder.recoverable ∧
        (∀ v ∈ Placeholder.recoverable, v ∈ values.map Prod.fst ↔ v.token <:+: raw) ∧
        ∀ v x, (v, x) ∈ values →
          IsFirstPiece (Template.segments (slashed raw)) pieces v x := by
  obtain rfl := compile_eq_ok_iff.1 hp
  have hbest := isBest_cut? p.segments (slashed t)
  refine ⟨⟨p.regex, p.compiled, by rw [← Regex.search?_eq]; rfl⟩, ?_⟩
  rw [captures?_eq]
  cases hcut : cut? p.segments (slashed t) with
  | none =>
    rw [hcut] at hbest
    refine ⟨⟨fun h => by simp at h, fun ⟨pieces, h⟩ => absurd h (hbest pieces)⟩, ?_⟩
    intro values h
    simp at h
  | some pieces =>
    rw [hcut] at hbest
    refine ⟨⟨fun _ => ⟨pieces, hbest.cut⟩, fun _ => by simp⟩, ?_⟩
    intro values h
    obtain rfl := Option.some.inj h
    refine ⟨pieces, hbest, ?_, fun v hv => ?_, fun v x h => ?_⟩
    · exact map_fst_values_sublist _ _
    · rw [mem_map_fst_values_iff, and_iff_right hv, captured?_isSome_iff hbest.cut.fits, segments,
        placeholder_mem_segments_slashed_iff]
    · obtain ⟨w, -, h⟩ := List.mem_filterMap.1 h
      obtain ⟨y, hy, he⟩ := Option.map_eq_some_iff.1 h
      obtain ⟨rfl, rfl⟩ := Prod.mk.inj he
      exact isFirstPiece_of_captured? hy

/-- Two pieces joined by `_`, and a language code. -/
def twoWords : Text :=
  "<language_lang_code>_<language_lang_code>/<language_code>".toList

/-- Of `a_b_c` the first of two pieces joined by `_` gets as much as it can. -/
theorem captures?_two_words :
    ∃ p, compile twoWords = .ok p ∧
      p.expression = ("^(?P<language_lang_code>\\w+)_(?:\\w+)/" ++
        "(?P<language_code>\\w\x7b2\x7d-\\w\x7b2\x7d)$").toList ∧
      p.captures? "a_b_c\\En-US".toList =
        some [(.code, "En-US".toList), (.lang, "a_b".toList)] ∧
      ∃ pieces,
        IsPreferred (Template.segments (slashed twoWords)) "a_b_c/En-US".toList pieces ∧
        IsFirstPiece (Template.segments (slashed twoWords)) pieces .lang "a_b".toList := by
  have hp : compile twoWords = .ok (ofText twoWords (by decide)) := compile_ofText _
  have hvalues : captures? (ofText twoWords (by decide)) "a_b_c\\En-US".toList =
      some [(.code, "En-US".toList), (.lang, "a_b".toList)] := by decide +kernel
  refine ⟨_, hp, by decide +kernel, hvalues, ?_⟩
  obtain ⟨-, -, hread⟩ := captures?_exact hp "a_b_c\\En-US".toList
  obtain ⟨pieces, hpref, -, -, hfirst⟩ := hread _ hvalues
  exact ⟨pieces, hpref, hfirst .lang _ (by simp)⟩

end PushPattern

end LocaleSync
