/-
Push patterns as regular expressions. The expression of every pattern can be read: escaped text is
read as its characters and the group of a placeholder as what the placeholder matches
(`foldlM_group`), so what is read is the items of the segments between the two anchors
(`parse?_expressionOf`). A text with a placeholder that can be read back is therefore a pattern, and
nothing else can go wrong (`compile_cases`).
-/
import LocaleSync.Proofs.Regex
import LocaleSync.Proofs.Template.Checks

namespace LocaleSync

theorem Placeholder.label_injective : Function.Injective Placeholder.label := by
  intro v w h
  revert h
  cases v <;> cases w <;> decide

namespace PushPattern

/-! ## What a segment adds to an expression -/

/-- How the group of a placeholder opens: with its name, or without one. -/
def opening (named : Bool) (v : Placeholder) : Text :=
  if named then "(?P<".toList ++ v.label ++ ['>'] else "(?:".toList

/-- The group of a placeholder that can be read back. -/
def group (named : Bool) (v : Placeholder) : Text :=
  opening named v ++ v.fragment?.getD [] ++ [')']

/-- The placeholder that is read back for a segment. -/
def recoverable? : Segment → Option Placeholder
  | .literal _ => none
  | .placeholder v => if v ∈ Placeholder.recoverable then some v else none

theorem recoverable?_eq_some_iff {seg : Segment} {v : Placeholder} :
    recoverable? seg = some v ↔ seg = .placeholder v ∧ v ∈ Placeholder.recoverable := by
  cases seg with
  | literal t => simp [recoverable?]
  | placeholder w =>
    by_cases hw : w ∈ Placeholder.recoverable
    · simp only [recoverable?, hw, if_true, Option.some.injEq, Segment.placeholder.injEq]
      constructor
      · rintro rfl
        exact ⟨rfl, hw⟩
      · exact fun h => h.1
    · simp only [recoverable?, hw, if_false, reduceCtorEq, Segment.placeholder.injEq, false_iff]
      rintro ⟨rfl, hv⟩
      exact hw hv

/-- A segment for which nothing is read back adds its text, escaped. -/
theorem expressionAfter_of_none {seg : Segment} (h : recoverable? seg = none)
    (named : List Placeholder) (segs : List Segment) :
    expressionAfter named (seg :: segs) = Regex.escape seg.text ++ expressionAfter named segs := by
  rcases seg with t | v
  · rfl
  · cases v with
    | code | lang => cases h
    | name | nameCapitalized | nameUppercased | extension => rfl

/-- A placeholder that is read back adds its group, named if it was not met before. -/
theorem expressionAfter_placeholder {v : Placeholder} (hv : v ∈ Placeholder.recoverable)
    (named : List Placeholder) (segs : List Segment) :
    expressionAfter named (.placeholder v :: segs) =
      if v ∈ named then group false v ++ expressionAfter named segs
      else group true v ++ expressionAfter (v :: named) segs := by
  obtain ⟨fragment, hf⟩ : ∃ fragment, v.fragment? = some fragment := by
    rcases List.mem_pair.1 hv with rfl | rfl <;> exact ⟨_, rfl⟩
  by_cases hm : v ∈ named <;> simp [expressionAfter, hf, hm, group, opening]

/-- Induction over the segments of an expression, the placeholders met so far in hand. -/
@[elab_as_elim]
theorem expressionAfter_induction {motive : List Placeholder → List Segment → Prop}
    (nil : ∀ named, motive named [])
    (text : ∀ named seg segs, recoverable? seg = none → motive named segs →
      motive named (seg :: segs))
    (again : ∀ named v segs, v ∈ Placeholder.recoverable → v ∈ named → motive named segs →
      motive named (.placeholder v :: segs))
    (first : ∀ named v segs, v ∈ Placeholder.recoverable → v ∉ named → motive (v :: named) segs →
      motive named (.placeholder v :: segs))
    (named : List Placeholder) (segs : List Segment) : motive named segs := by
  induction segs generalizing named with
  | nil => exact nil named
  | cons seg segs ih =>
    cases h : recoverable? seg with
    | none => exact text named seg segs h (ih named)
    | some v =>
      obtain ⟨rfl, hv⟩ := recoverable?_eq_some_iff.1 h
      by_cases hm : v ∈ named
      · exact again named v segs hv hm (ih named)
      · exact first named v segs hv hm (ih (v :: named))

/-! ## Reading an expression -/

/-- What a placeholder that is read back matches. -/
def items : Placeholder → List Regex
  | .lang => [.many .word]
  | _ => [.one .word, .one .word, .ofChar '-', .one .word, .one .word]

/-- The items of the segments that follow the placeholders `named`. -/
def itemsAfter (named : List Placeholder) : List Segment → List Regex
  | [] => []
  | seg :: segs =>
    match recoverable? seg with
    | none => seg.text.map .ofChar ++ itemsAfter named segs
    | some v =>
      if v ∈ named then .concat (items v) :: itemsAfter named segs
      else .capture v.label (.concat (items v)) :: itemsAfter (v :: named) segs

theorem itemsAfter_of_none {seg : Segment} (h : recoverable? seg = none)
    (named : List Placeholder) (segs : List Segment) :
    itemsAfter named (seg :: segs) = seg.text.map .ofChar ++ itemsAfter named segs := by
  rw [itemsAfter, h]

theorem itemsAfter_placeholder {v : Placeholder} (hv : v ∈ Placeholder.recoverable)
    (named : List Placeholder) (segs : List Segment) :
    itemsAfter named (.placeholder v :: segs) =
      if v ∈ named then .concat (items v) :: itemsAfter named segs
      else .capture v.label (.concat (items v)) :: itemsAfter (v :: named) segs := by
  rw [itemsAfter, recoverable?_eq_some_iff.2 ⟨rfl, hv⟩]

section

variable {v : Placeholder} {s : Regex.Reader} (hv : v ∈ Placeholder.recoverable)
  (hs : s.mode = .plain)

include hv hs

/-- **A group without a name is read as what the placeholder matches.** -/
theorem foldlM_group_again :
    (group false v).foldlM Regex.Reader.step? s = some (s.puts [.concat (items v)]) := by
  obtain ⟨mode, before, outer, names⟩ := s
  obtain rfl : mode = .plain := hs
  rcases List.mem_pair.1 hv with rfl | rfl <;> rfl

/-- **A group with a new name is read as the group of that name.** -/
theorem foldlM_group_first (hnew : v.label ∉ s.names) :
    (group true v).foldlM Regex.Reader.step? s =
      some { s.puts [.capture v.label (.concat (items v))] with names := v.label :: s.names } := by
  obtain ⟨mode, before, outer, names⟩ := s
  obtain rfl : mode = .plain := hs
  have hlabel : ("(?P<".toList ++ v.label).foldlM Regex.Reader.step? ⟨.plain, before, outer, names⟩ =
      some ⟨.naming v.label, before, outer, names⟩ := by
    rcases List.mem_pair.1 hv with rfl | rfl <;> rfl
  have hname : Regex.isGroupName v.label = true := by
    rcases List.mem_pair.1 hv with rfl | rfl <;> decide
  have hopen : Regex.Reader.step? ⟨.naming v.label, before, outer, names⟩ '>' =
      some ⟨.plain, [], ⟨some v.label, before⟩ :: outer, v.label :: names⟩ := by
    simp [Regex.Reader.step?, Regex.Reader.enterNamed?, Regex.Reader.enter, hname, hnew]
  have hbody : (v.fragment?.getD [] ++ [')']).foldlM Regex.Reader.step?
      ⟨.plain, [], ⟨some v.label, before⟩ :: outer, v.label :: names⟩ =
      some ⟨.plain, .capture v.label (.concat (items v)) :: before, outer, v.label :: names⟩ := by
    rcases List.mem_pair.1 hv with rfl | rfl <;> rfl
  rw [group, opening, if_pos rfl, List.append_assoc, List.foldlM_append, List.foldlM_append, hlabel]
  simp only [Option.bind_eq_bind, Option.bind_some, List.foldlM_cons, List.foldlM_nil,
    Option.pure_def, hopen, hbody]
  rfl

end

/-- **The expression of segments is read as their items.** -/
theorem foldlM_expressionAfter (named : List Placeholder) (segs : List Segment)
    {s : Regex.Reader} (hs : s.mode = .plain) (hnames : s.names = named.map Placeholder.label) :
    ∃ names, (expressionAfter named segs).foldlM Regex.Reader.step? s =
      some { s.puts (itemsAfter named segs) with names } := by
  -- What a segment adds is put behind what was read before it.
  induction named, segs using expressionAfter_induction generalizing s with
  | nil named =>
    obtain ⟨mode, before, outer, names⟩ := s
    obtain rfl : mode = .plain := hs
    exact ⟨names, rfl⟩
  | text named seg segs h ih =>
    obtain ⟨names, hread⟩ := ih (s := s.puts (seg.text.map .ofChar)) rfl hnames
    refine ⟨names, ?_⟩
    rw [expressionAfter_of_none h, itemsAfter_of_none h, List.foldlM_append,
      Regex.foldlM_escape _ hs, Option.bind_eq_bind, Option.bind_some, hread,
      Regex.Reader.puts_puts]
  | again named v segs hv hm ih =>
    obtain ⟨names, hread⟩ := ih (s := s.puts [.concat (items v)]) rfl hnames
    refine ⟨names, ?_⟩
    rw [expressionAfter_placeholder hv, itemsAfter_placeholder hv, if_pos hm, if_pos hm,
      List.foldlM_append, foldlM_group_again hv hs, Option.bind_eq_bind, Option.bind_some, hread,
      Regex.Reader.puts_puts, List.singleton_append]
  | first named v segs hv hm ih =>
    have hnew : v.label ∉ s.names := by
      rw [hnames, List.mem_map_of_injective Placeholder.label_injective]
      exact hm
    obtain ⟨names, hread⟩ := ih
      (s := { s.puts [.capture v.label (.concat (items v))] with names := v.label :: s.names }) rfl
      (congrArg (v.label :: ·) hnames)
    refine ⟨names, ?_⟩
    rw [expressionAfter_placeholder hv, itemsAfter_placeholder hv, if_neg hm, if_neg hm,
      List.foldlM_append, foldlM_group_first hv hs hnew, Option.bind_eq_bind, Option.bind_some,
      hread]
    simp [Regex.Reader.puts]

/-- The regular expression of segments: their items between the two anchors. -/
def regexOf (segs : List Segment) : Regex :=
  .concat (.start :: itemsAfter [] segs ++ [.stop])

/-- **The expression of a text can be read, and is read as that of its segments.** -/
theorem parse?_expressionOf (raw : Text) :
    Regex.parse? (expressionOf raw) = some (regexOf (Template.segments (slashed raw))) := by
  obtain ⟨names, hread⟩ := foldlM_expressionAfter [] (Template.segments (slashed raw))
    (s := Regex.Reader.put {} .start) rfl rfl
  have hstart : Regex.Reader.step? {} '^' = some (Regex.Reader.put {} .start) := rfl
  rw [Regex.parse?, expressionOf, List.cons_append, List.foldlM_cons, hstart]
  simp only [Option.bind_eq_bind, Option.bind_some, List.foldlM_append, hread]
  simp [Regex.Reader.step?, Regex.Reader.puts, Regex.Reader.put, Regex.Reader.operator?,
    Regex.isOperator, Regex.Reader.result?, regexOf]

theorem regex_eq (p : PushPattern) : p.regex = regexOf p.segments :=
  Option.some.inj (p.compiled.symm.trans (parse?_expressionOf p.raw))

/-! ## Texts that are patterns -/

/-- The pattern of a text with a placeholder that can be read back. -/
def ofText (raw : Text) (h : Template.mentions raw Placeholder.recoverable = true) : PushPattern :=
  ⟨raw, h, _, parse?_expressionOf raw⟩

theorem compile_ofText {raw : Text} (h : Template.mentions raw Placeholder.recoverable = true) :
    compile raw = .ok (ofText raw h) :=
  compile_eq_ok_iff.2 rfl

/-- **A text is a push pattern, or it is refused for want of a placeholder.** -/
theorem compile_cases (raw : Text) :
    (∃ p, compile raw = .ok p) ∨
      ∃ expected, compile raw = .error (.patternInvalid raw expected) :=
  Template.having_bind_cases fun h =>
    ⟨ofText raw h, (Template.having_bind_eq_ok.1 (compile_ofText h)).2⟩

end PushPattern

end LocaleSync
