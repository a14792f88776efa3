/-
The regular expression of a push pattern keeps the whole pattern. It can be read back (`decode`):
a backslash gives the character behind it and the group of a placeholder gives its token
(`decodeAfter_escape`, `decodeAfter_group`), so patterns with one expression differ at most in the
kind of their separators.

No literal text opens, closes or names a group. The parentheses that no backslash escapes are those
of the groups of placeholders, in their order (`opened_expressionAfter`, `parens_expressionAfter`),
and the names of groups are the labels of the placeholders, each once
(`exists_groupNames_expressionAfter`).
-/
import LocaleSync.Proofs.PushPattern.Compiled
import Mathlib.Data.List.Nodup

namespace LocaleSync

namespace PushPattern

/-! ## Reading back -/

/-- The groups of placeholders, with the placeholders they stand for. -/
def groups : List (Text × Placeholder) :=
  Placeholder.recoverable.flatMap fun v => [(group true v, v), (group false v, v)]

/-- The group that an expression starts with. -/
def group? (e : Text) : Option (Text × Placeholder) :=
  groups.find? fun g => g.1.isPrefixOf e

/-- The text that an expression stands for after its first `skip` characters. -/
def decodeAfter : (skip : Nat) → Text → Text
  | _, [] => []
  | skip + 1, _ :: e => decodeAfter skip e
  | 0, c :: e =>
    if c = '\\' then e.take 1 ++ decodeAfter 1 e
    else
      match group? (c :: e) with
      | some (g, v) => v.token ++ decodeAfter (g.length - 1) e
      | none => c :: decodeAfter 0 e

/-- The text that an anchored expression stands for. -/
def decode (e : Text) : Text :=
  decodeAfter 0 (e.drop 1).dropLast

theorem decodeAfter_eq (n : Nat) (e : Text) : decodeAfter n e = decodeAfter 0 (e.drop n) := by
  induction n generalizing e with
  | zero => rfl
  | succ n ih =>
    cases e with
    | nil => rfl
    | cons c e => simpa [decodeAfter] using ih e

theorem decodeAfter_backslash (c : Char) (e : Text) :
    decodeAfter 0 ('\\' :: c :: e) = c :: decodeAfter 0 e := by
  simp [decodeAfter]

/-- Every group opens with a parenthesis. -/
theorem group?_eq_none {c : Char} (hc : c ≠ '(') (e : Text) : group? (c :: e) = none := by
  have hhead : groups.all (fun g => g.1.head? = some '(') = true := by decide
  refine List.find?_eq_none.2 fun g hg hprefix => ?_
  have hg := List.all_eq_true.1 hhead g hg
  obtain ⟨rest, hrest⟩ := List.isPrefixOf_iff_prefix.1 hprefix
  rcases g with ⟨_ | ⟨d, g⟩, v⟩
  · simp at hg
  · simp only [List.head?_cons, Option.some.injEq, decide_eq_true_eq] at hg
    rw [List.cons_append, List.cons.injEq] at hrest
    exact hc (hrest.1.symm.trans hg)

/-- **Escaped text is read back as it was.** -/
theorem decodeAfter_escape (t e : Text) :
    decodeAfter 0 (Regex.escape t ++ e) = t ++ decodeAfter 0 e := by
  induction t with
  | nil => rfl
  | cons c t ih =>
    rw [Regex.escape_cons]
    by_cases hmeta : Regex.isMeta c = true
    · rw [if_pos hmeta, List.append_assoc, List.cons_append, List.singleton_append,
        decodeAfter_backslash, ih, List.cons_append]
    · have hback : c ≠ '\\' := Regex.ne_of_isMeta hmeta (by decide)
      have hparen : c ≠ '(' := Regex.ne_of_isMeta hmeta (by decide)
      rw [if_neg hmeta, List.append_assoc, List.singleton_append]
      simp only [decodeAfter, hback, if_false, group?_eq_none hparen, ih, List.cons_append]

/-- **A group is read back as the token of its placeholder.** -/
theorem decodeAfter_group {v : Placeholder} (hv : v ∈ Placeholder.recoverable) (named : Bool)
    (e : Text) : decodeAfter 0 (group named v ++ e) = v.token ++ decodeAfter 0 e := by
  have hfind : group? (group named v ++ e) = some (group named v, v) := by
    rcases List.mem_pair.1 hv with rfl | rfl <;> cases named <;> rfl
  obtain ⟨g, hg⟩ : ∃ g, group named v = '(' :: g := by
    cases named <;> exact ⟨_, rfl⟩
  rw [hg, List.cons_append] at hfind ⊢
  simp only [decodeAfter, hfind, show '(' ≠ '\\' by decide, if_false]
  rw [decodeAfter_eq]
  simp

theorem decodeAfter_expressionAfter (named : List Placeholder) (segs : List Segment) :
    decodeAfter 0 (expressionAfter named segs) = Template.text segs := by
  induction named, segs using expressionAfter_induction with
  | nil named => rfl
  | text named seg segs h ih =>
    rw [expressionAfter_of_none h, decodeAfter_escape, ih, Template.text_cons]
  | again named v segs hv hm ih =>
    rw [expressionAfter_placeholder hv, if_pos hm, decodeAfter_group hv, ih, Template.text_cons]
    rfl
  | first named v segs hv hm ih =>
    rw [expressionAfter_placeholder hv, if_neg hm, decodeAfter_group hv, ih, Template.text_cons]
    rfl

/-- **The expression of a pattern is read back as the pattern**, with `/` for both kinds of
separator. -/
theorem decode_expression (p : PushPattern) : decode p.expression = slashed p.raw := by
  rw [decode, expression, expressionOf, List.cons_append, List.drop_one, List.tail_cons,
    List.dropLast_concat, decodeAfter_expressionAfter, Template.text_segments]

theorem expression_eq_iff {p q : PushPattern} :
    p.expression = q.expression ↔ slashed p.raw = slashed q.raw := by
  constructor
  · intro h
    rw [← decode_expression p, h, decode_expression q]
  · intro h
    rw [expression, expression, expressionOf, expressionOf, h]

/-! ## Characters that are not escaped -/

/-- What stands from each character on that is neither escaped nor a backslash that escapes; the
first character may be escaped by what stands before it. -/
def unescapedAfter (escaped : Bool) : Text → List Text
  | [] => []
  | c :: e =>
    if escaped then unescapedAfter false e
    else if c = '\\' then unescapedAfter true e
    else (c :: e) :: unescapedAfter false e

/-- What stands from each character on that is neither escaped nor a backslash that escapes. -/
def unescaped (e : Text) : List Text :=
  unescapedAfter false e

/-- A text that starts with an opening parenthesis. -/
def opens? (t : Text) : Option Text :=
  if t.head? = some '(' then some t else none

/-- The parenthesis that a text starts with. -/
def paren? (t : Text) : Option Char :=
  t.head?.filter fun c => c = '(' || c = ')'

/-- The name of the group that a text starts with. -/
def groupName? (t : Text) : Option Text :=
  if "(?P<".toList.isPrefixOf t then some (Text.beforeFirst '>' (t.drop 4)) else none

/-- What stands from each opening parenthesis on that is not escaped. -/
def opened (e : Text) : List Text :=
  (unescaped e).filterMap opens?

/-- The parentheses that are not escaped. -/
def parens (e : Text) : Text :=
  (unescaped e).filterMap paren?

/-- The names of the groups of an expression. -/
def groupNames (e : Text) : List Text :=
  (unescaped e).filterMap groupName?

/-- **Literal text has no parenthesis that is not escaped**: what asks for one finds none in it. -/
theorem filterMap_unescaped_escape {α : Type} {f : Text → Option α}
    (hf : ∀ {c : Char} (e : Text), c ≠ '(' → c ≠ ')' → f (c :: e) = none) (t e : Text) :
    (unescaped (Regex.escape t ++ e)).filterMap f = (unescaped e).filterMap f := by
  induction t with
  | nil => rfl
  | cons c t ih =>
    rw [Regex.escape_cons]
    by_cases hmeta : Regex.isMeta c = true
    · rw [if_pos hmeta]
      exact ih
    · have hback : c ≠ '\\' := Regex.ne_of_isMeta hmeta (by decide)
      have hskip : f (c :: (Regex.escape t ++ e)) = none :=
        hf _ (Regex.ne_of_isMeta hmeta (by decide)) (Regex.ne_of_isMeta hmeta (by decide))
      rw [if_neg hmeta, List.append_assoc, List.singleton_append, unescaped, unescapedAfter,
        if_neg Bool.false_ne_true, if_neg hback, List.filterMap_cons_none hskip]
      exact ih

section

variable {c : Char} (e : Text)

theorem opens?_eq_none (hopen : c ≠ '(') (_ : c ≠ ')') : opens? (c :: e) = none := by
  simp [opens?, hopen]

theorem paren?_eq_none (hopen : c ≠ '(') (hclose : c ≠ ')') : paren? (c :: e) = none := by
  simp [paren?, hopen, hclose]

theorem groupName?_eq_none (hopen : c ≠ '(') (_ : c ≠ ')') : groupName? (c :: e) = none := by
  simp [groupName?, Ne.symm hopen]

end

section

variable {v : Placeholder} (hv : v ∈ Placeholder.recoverable) (named : Bool) (e : Text)

include hv

/-- A group opens once, at its start. -/
theorem opened_group : opened (group named v ++ e) = (group named v ++ e) :: opened e := by
  rcases List.mem_pair.1 hv with rfl | rfl <;> cases named <;> rfl

theorem parens_group : parens (group named v ++ e) = '(' :: ')' :: parens e := by
  rcases List.mem_pair.1 hv with rfl | rfl <;> cases named <;> rfl

theorem groupNames_group :
    groupNames (group named v ++ e) = (if named then [v.label] else []) ++ groupNames e := by
  rcases List.mem_pair.1 hv with rfl | rfl <;> cases named <;> rfl

end

/-! ## The groups of an expression -/

/-- A text that starts with the group of a placeholder. -/
def StartsWithGroup (v : Placeholder) (t : Text) : Prop :=
  ∃ named rest, t = group named v ++ rest

/-- The placeholders that are read back for segments, each as often as it occurs. -/
def occurrences (segs : List Segment) : List Placeholder :=
  segs.filterMap recoverable?

theorem occurrences_of_none {seg : Segment} (h : recoverable? seg = none) (segs : List Segment) :
    occurrences (seg :: segs) = occurrences segs :=
  List.filterMap_cons_none h

theorem occurrences_placeholder {v : Placeholder} (hv : v ∈ Placeholder.recoverable)
    (segs : List Segment) : occurrences (.placeholder v :: segs) = v :: occurrences segs :=
  List.filterMap_cons_some (recoverable?_eq_some_iff.2 ⟨rfl, hv⟩)

/-- **The groups that an expression opens are those of its placeholders**, in order. -/
theorem opened_expressionAfter (named : List Placeholder) (segs : List Segment) :
    List.Forall₂ StartsWithGroup (occurrences segs)
      (opened (expressionAfter named segs ++ ['$'])) := by
  induction named, segs using expressionAfter_induction with
  | nil named => exact .nil
  | text named seg segs h ih =>
    rw [expressionAfter_of_none h, occurrences_of_none h, List.append_assoc, opened,
      filterMap_unescaped_escape opens?_eq_none]
    exact ih
  | again named v segs hv hm ih =>
    rw [expressionAfter_placeholder hv, if_pos hm, occurrences_placeholder hv, List.append_assoc,
      opened_group hv]
    exact .cons ⟨false, _, rfl⟩ ih
  | first named v segs hv hm ih =>
    rw [expressionAfter_placeholder hv, if_neg hm, occurrences_placeholder hv, List.append_assoc,
      opened_group hv]
    exact .cons ⟨true, _, rfl⟩ ih

/-- **Every group is closed before the next one opens**, and no other parenthesis stands there. -/
theorem parens_expressionAfter (named : List Placeholder) (segs : List Segment) :
    parens (expressionAfter named segs ++ ['$']) =
      (occurrences segs).flatMap fun _ => ['(', ')'] := by
  induction named, segs using expressionAfter_induction with
  | nil named => rfl
  | text named seg segs h ih =>
    rw [expressionAfter_of_none h, occurrences_of_none h, List.append_assoc, parens,
      filterMap_unescaped_escape paren?_eq_none]
    exact ih
  | again named v segs hv hm ih =>
    rw [expressionAfter_placeholder hv, if_pos hm, occurrences_placeholder hv, List.append_assoc,
      parens_group hv, ih]
    rfl
  | first named v segs hv hm ih =>
    rw [expressionAfter_placeholder hv, if_neg hm, occurrences_placeholder hv, List.append_assoc,
      parens_group hv, ih]
    rfl

/-- **The names of groups are the labels of the placeholders that were not met before**, each
once. -/
theorem exists_groupNames_expressionAfter (named : List Placeholder) (segs : List Segment) :
    ∃ vs : List Placeholder, groupNames (expressionAfter named segs ++ ['$']) =
      vs.map Placeholder.label ∧ vs.Nodup ∧ ∀ v, v ∈ vs ↔ v ∈ occurrences segs ∧ v ∉ named := by
  induction named, segs using expressionAfter_induction with
  | nil named => exact ⟨[], rfl, .nil, by simp [occurrences]⟩
  | text named seg segs h ih =>
    rw [expressionAfter_of_none h, occurrences_of_none h, List.append_assoc, groupNames,
      filterMap_unescaped_escape groupName?_eq_none]
    exact ih
  | again named v segs hv hm ih =>
    obtain ⟨vs, hvs, hnodup, hmem⟩ := ih
    rw [expressionAfter_placeholder hv, if_pos hm, occurrences_placeholder hv, List.append_assoc,
      groupNames_group hv, hvs]
    refine ⟨vs, rfl, hnodup, fun w => ?_⟩
    rw [hmem, List.mem_cons]
    constructor
    · exact fun hw => ⟨.inr hw.1, hw.2⟩
    · rintro ⟨rfl | hw, hnot⟩
      · exact absurd hm hnot
      · exact ⟨hw, hnot⟩
  | first named v segs hv hm ih =>
    obtain ⟨vs, hvs, hnodup, hmem⟩ := ih
    rw [expressionAfter_placeholder hv, if_neg hm, occurrences_placeholder hv, List.append_assoc,
      groupNames_group hv, hvs]
    refine ⟨v :: vs, rfl, List.nodup_cons.2 ⟨fun h => by simpa using ((hmem v).1 h).2, hnodup⟩,
      fun w => ?_⟩
    rw [List.mem_cons, hmem, List.mem_cons, List.mem_cons, not_or]
    by_cases hw : w = v
    · subst hw
      simp [hm]
    · simp [hw]

theorem mem_occurrences_iff {p : PushPattern} {v : Placeholder} :
    v ∈ occurrences p.segments ↔ v ∈ Placeholder.recoverable ∧ v.token <:+: p.raw := by
  rw [← placeholder_mem_segments_slashed_iff, occurrences, List.mem_filterMap]
  simp only [recoverable?_eq_some_iff]
  constructor
  · rintro ⟨seg, hseg, rfl, hv⟩
    exact ⟨hv, hseg⟩
  · exact fun h => ⟨_, h.2, rfl, h.1⟩

/-- **The expression of a push pattern is a faithful spelling of it.** It is read back as the
pattern with `/` for both kinds of separator, so two patterns have one expression exactly if they
are the same up to separators. Its groups are those of the placeholders that can be read back, in
the order they occur, and there is no parenthesis but theirs that is not escaped. No name of a
group comes twice, and the names are the labels of the placeholders that the pattern has. -/
theorem expression_faithful {raw : Text} {p : PushPattern} (hp : compile raw = .ok p) :
    decode p.expression = Text.replaceChar '\\' '/' raw ∧
    (∀ raw' p', compile raw' = .ok p' → (p.expression = p'.expression ↔
      Text.replaceChar '\\' '/' raw = Text.replaceChar '\\' '/' raw')) ∧
    List.Forall₂ StartsWithGroup (occurrences (Template.segments (slashed raw)))
      (opened p.expression) ∧
    parens p.expression =
      (occurrences (Template.segments (slashed raw))).flatMap (fun _ => ['(', ')']) ∧
    (groupNames p.expression).Nodup ∧
    ∀ name, name ∈ groupNames p.expression ↔
      ∃ v ∈ Placeholder.recoverable, v.label = name ∧ v.token <:+: raw := by
  obtain rfl := compile_eq_ok_iff.1 hp
  obtain ⟨vs, hvs, hnodup, hmem⟩ := exists_groupNames_expressionAfter [] p.segments
  have hnames : groupNames p.expression = vs.map Placeholder.label := hvs
  refine ⟨decode_expression p, fun raw' p' hp' => ?_, opened_expressionAfter [] p.segments,
    parens_expressionAfter [] p.segments, ?_, fun name => ?_⟩
  · obtain rfl := compile_eq_ok_iff.1 hp'
    exact expression_eq_iff
  · rw [hnames]
    exact hnodup.map Placeholder.label_injective
  · rw [hnames, List.mem_map]
    simp only [hmem, List.not_mem_nil, not_false_eq_true, and_true, mem_occurrences_iff]
    constructor
    · rintro ⟨v, ⟨hv, htoken⟩, hlabel⟩
      exact ⟨v, hv, hlabel, htoken⟩
    · rintro ⟨v, hv, hlabel, htoken⟩
      exact ⟨v, ⟨hv, htoken⟩, hlabel⟩

/-- Text that opens, names and closes a group of its own around the first placeholder. -/
def disguised : Text :=
  "(?P<language_code>\\w)\\<language_code>[<language_lang_code>".toList

theorem expression_faithful_disguised :
    ∃ p, compile disguised = .ok p ∧
      p.expression = ("^\\(\\?P(?P<language_code>\\w\x7b2\x7d-\\w\x7b2\x7d)/w\\)/" ++
        "(?:\\w\x7b2\x7d-\\w\x7b2\x7d)\\[(?P<language_lang_code>\\w+)$").toList ∧
      decode p.expression = "(?P<language_code>/w)/<language_code>[<language_lang_code>".toList ∧
      parens p.expression = "()()()".toList ∧
      "language_code".toList ∈ groupNames p.expression ∧
      "language_lang_code".toList ∈ groupNames p.expression ∧ (groupNames p.expression).Nodup := by
  have hp : compile disguised = .ok (ofText disguised (by decide)) := compile_ofText _
  obtain ⟨hdecode, -, -, hparens, hnodup, hnames⟩ := expression_faithful hp
  refine ⟨_, hp, by decide +kernel, hdecode.trans (by decide), hparens.trans (by decide +kernel), ?_,
    ?_, hnodup⟩
  · exact (hnames _).2 ⟨.code, by decide, rfl, ⟨"(?P".toList, _, rfl⟩⟩
  · exact (hnames _).2 ⟨.lang, by decide, rfl,
      ⟨"(?P<language_code>\\w)\\<language_code>[".toList, [], rfl⟩⟩

end PushPattern

end LocaleSync
