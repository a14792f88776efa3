/-
How the spelling of a path gives its steps. Splitting at a separator and joining again are inverse
to each other (`joinWith_splitOn`, `splitOn_joinWith`). The steps of a path are its components
without `.`, and these come piece by piece from the spelling (`steps`): so joining paths joins
their steps (`steps_join`), and what is left of a path behind another one has the steps that are
left (`steps_strip?`).
-/
import LocaleSync.Path
import Mathlib.Data.List.Basic

namespace LocaleSync

/-! ## Splitting and joining -/

namespace Text

theorem splitOn_ne_nil (sep : Char) (t : Text) : splitOn sep t ≠ [] := by
  cases t with
  | nil => simp [splitOn]
  | cons c t =>
    simp only [splitOn]
    split
    · simp
    · split <;> simp

@[simp] theorem splitOn_cons_self (sep : Char) (t : Text) :
    splitOn sep (sep :: t) = [] :: splitOn sep t := by
  simp [splitOn]

theorem splitOn_cons_of_ne {sep c : Char} (hc : c ≠ sep) {t piece : Text} {pieces : List Text}
    (h : splitOn sep t = piece :: pieces) :
    splitOn sep (c :: t) = (c :: piece) :: pieces := by
  simp [splitOn, hc, h]

theorem splitOn_append_of_not_mem {sep : Char} {a : Text} (ha : sep ∉ a) {t piece : Text}
    {pieces : List Text} (h : splitOn sep t = piece :: pieces) :
    splitOn sep (a ++ t) = (a ++ piece) :: pieces := by
  induction a with
  | nil => exact h
  | cons c a ih =>
    simp only [List.mem_cons, not_or] at ha
    exact splitOn_cons_of_ne (Ne.symm ha.1) (ih ha.2)

theorem splitOn_of_not_mem {sep : Char} {t : Text} (h : sep ∉ t) : splitOn sep t = [t] := by
  have hnil : splitOn sep [] = [[]] := rfl
  simpa using splitOn_append_of_not_mem h hnil

theorem splitOn_append (sep : Char) (a b : Text) :
    splitOn sep (a ++ sep :: b) = splitOn sep a ++ splitOn sep b := by
  induction a with
  | nil => simp [splitOn]
  | cons c a ih =>
    by_cases hc : c = sep
    · subst hc
      rw [List.cons_append, splitOn_cons_self, splitOn_cons_self, ih, List.cons_append]
    · obtain ⟨piece, pieces, h⟩ := List.exists_cons_of_ne_nil (splitOn_ne_nil sep a)
      rw [h, List.cons_append] at ih
      rw [List.cons_append, splitOn_cons_of_ne hc ih, splitOn_cons_of_ne hc h, List.cons_append]

theorem not_mem_of_mem_splitOn {sep : Char} {t piece : Text} (h : piece ∈ splitOn sep t) :
    sep ∉ piece := by
  induction t generalizing piece with
  | nil =>
    obtain rfl : piece = [] := by simpa [splitOn] using h
    simp
  | cons c t ih =>
    by_cases hc : c = sep
    · subst hc
      rw [splitOn_cons_self, List.mem_cons] at h
      rcases h with rfl | h
      · simp
      · exact ih h
    · obtain ⟨first, pieces, ht⟩ := List.exists_cons_of_ne_nil (splitOn_ne_nil sep t)
      rw [splitOn_cons_of_ne hc ht, List.mem_cons] at h
      rcases h with rfl | h
      · simp only [List.mem_cons, not_or]
        exact ⟨Ne.symm hc, ih (by simp [ht])⟩
      · exact ih (by simp [ht, h])

theorem joinWith_cons_cons (sep a b : Text) (pieces : List Text) :
    joinWith sep (a :: b :: pieces) = a ++ sep ++ joinWith sep (b :: pieces) := rfl

theorem joinWith_cons {sep : Text} (a : Text) {pieces : List Text} (h : pieces ≠ []) :
    joinWith sep (a :: pieces) = a ++ sep ++ joinWith sep pieces := by
  obtain ⟨b, pieces, rfl⟩ := List.exists_cons_of_ne_nil h
  rfl

theorem joinWith_append {sep : Text} {as bs : List Text} (ha : as ≠ []) (hb : bs ≠ []) :
    joinWith sep (as ++ bs) = joinWith sep as ++ sep ++ joinWith sep bs := by
  induction as with
  | nil => exact absurd rfl ha
  | cons a as ih =>
    by_cases has : as = []
    · subst has
      exact joinWith_cons a hb
    · rw [List.cons_append, joinWith_cons a (by simp [has]), ih has, joinWith_cons a has]
      simp only [List.append_assoc]

@[simp] theorem joinWith_splitOn (sep : Char) (t : Text) :
    joinWith [sep] (splitOn sep t) = t := by
  induction t with
  | nil => rfl
  | cons c t ih =>
    by_cases hc : c = sep
    · subst hc
      rw [splitOn_cons_self, joinWith_cons _ (splitOn_ne_nil c t), ih]
      rfl
    · obtain ⟨piece, pieces, ht⟩ := List.exists_cons_of_ne_nil (splitOn_ne_nil sep t)
      rw [splitOn_cons_of_ne hc ht]
      rw [ht] at ih
      cases pieces with
      | nil => simpa [joinWith] using ih
      | cons next pieces =>
        rw [joinWith_cons_cons] at ih ⊢
        rw [← ih]
        rfl

theorem mem_of_mem_joinWith {sep c : Char} {pieces : List Text} (h : c ∈ joinWith [sep] pieces) :
    c = sep ∨ ∃ piece ∈ pieces, c ∈ piece := by
  induction pieces with
  | nil => cases h
  | cons piece pieces ih =>
    by_cases hp : pieces = []
    · subst hp
      exact .inr ⟨piece, by simp, h⟩
    · rw [joinWith_cons piece hp, List.mem_append, List.mem_append, List.mem_singleton] at h
      rcases h with (h | h) | h
      · exact .inr ⟨piece, by simp, h⟩
      · exact .inl h
      · rcases ih h with h | ⟨q, hq, h⟩
        · exact .inl h
        · exact .inr ⟨q, by simp [hq], h⟩

theorem splitOn_joinWith {sep : Char} {pieces : List Text} (hne : pieces ≠ [])
    (h : ∀ piece ∈ pieces, sep ∉ piece) : splitOn sep (joinWith [sep] pieces) = pieces := by
  induction pieces with
  | nil => exact absurd rfl hne
  | cons piece pieces ih =>
    have hpiece : splitOn sep piece = [piece] := splitOn_of_not_mem (h piece (by simp))
    by_cases hp : pieces = []
    · subst hp
      exact hpiece
    · rw [joinWith_cons piece hp, List.append_assoc, List.singleton_append, splitOn_append, hpiece,
        ih hp fun q hq => h q (by simp [hq])]
      rfl

/-- Text without separators goes on with the last piece. -/
theorem splitOn_append_last {sep : Char} {t last : Text} {front : List Text}
    (h : splitOn sep t = front ++ [last]) {a : Text} (ha : sep ∉ a) :
    splitOn sep (t ++ a) = front ++ [last ++ a] := by
  have hpieces : ∀ piece ∈ front ++ [last], sep ∉ piece :=
    fun piece hm => not_mem_of_mem_splitOn (h ▸ hm)
  have htext : t ++ a = joinWith [sep] (front ++ [last ++ a]) := by
    rw [← joinWith_splitOn sep t, h]
    by_cases hf : front = []
    · subst hf
      rfl
    · simp [joinWith_append hf, joinWith]
  rw [htext, splitOn_joinWith (by simp)]
  intro piece hm
  rcases List.mem_append.1 hm with hm | hm
  · exact hpieces piece (by simp [hm])
  · obtain rfl := List.mem_singleton.1 hm
    simp [hpieces last (by simp), ha]

end Text

namespace Path

/-! ## Pieces -/

theorem component?_eq_none_iff {piece : Text} : component? piece = none ↔ isVoid piece = true := by
  unfold component?
  by_cases h : isVoid piece = true
  · simp [h]
  · simp only [h]
    by_cases hu : piece = ['.', '.'] <;> simp [hu]

theorem component?_eq_some {piece : Text} {c : Component} (h : component? piece = some c) :
    c = .up ∨ c = .normal piece := by
  unfold component? at h
  split at h
  · cases h
  · split at h
    · exact .inl (Option.some.inj h).symm
    · exact .inr (Option.some.inj h).symm

theorem up_or_normal_of_mem_filterMap {pieces : List Text} {c : Component}
    (h : c ∈ pieces.filterMap component?) : c = .up ∨ ∃ piece, c = .normal piece := by
  obtain ⟨piece, -, hp⟩ := List.mem_filterMap.1 h
  exact (component?_eq_some hp).imp_right fun hc => ⟨piece, hc⟩

theorem root_not_mem_filterMap (pieces : List Text) : .root ∉ pieces.filterMap component? := by
  intro hm
  simpa using up_or_normal_of_mem_filterMap hm

theorem filterMap_dropWhile_isVoid (pieces : List Text) :
    (pieces.dropWhile isVoid).filterMap component? = pieces.filterMap component? := by
  induction pieces with
  | nil => rfl
  | cons piece pieces ih =>
    by_cases h : isVoid piece = true
    · rw [List.dropWhile_cons_of_pos h, ih, List.filterMap_cons_none (component?_eq_none_iff.2 h)]
    · rw [List.dropWhile_cons_of_neg h]

theorem filterMap_trimEnd (pieces : List Text) :
    (trimEnd pieces).filterMap component? = pieces.filterMap component? := by
  rw [trimEnd, List.filterMap_reverse, filterMap_dropWhile_isVoid, ← List.filterMap_reverse,
    List.reverse_reverse]

theorem filterMap_dropComponents (n : Nat) (pieces : List Text) :
    (dropComponents n pieces).filterMap component? = (pieces.filterMap component?).drop n := by
  induction n generalizing pieces with
  | zero => rfl
  | succ n ih =>
    rw [dropComponents, ih, ← filterMap_dropWhile_isVoid pieces]
    cases h : pieces.dropWhile isVoid with
    | nil => simp
    | cons piece rest =>
      -- What stops the dropping names a component, the one that is taken off.
      have hp : isVoid piece = false := by
        simpa [h] using List.head?_dropWhile_not isVoid pieces
      cases hc : component? piece with
      | none => simp [component?_eq_none_iff.1 hc] at hp
      | some c => simp [List.filterMap_cons_some hc]

theorem mem_of_mem_trimEnd {pieces : List Text} {piece : Text} (h : piece ∈ trimEnd pieces) :
    piece ∈ pieces := by
  simp only [trimEnd, List.mem_reverse] at h
  exact List.mem_reverse.1 ((List.dropWhile_suffix _).subset h)

theorem trimEnd_cons {piece : Text} (h : isVoid piece = false) (pieces : List Text) :
    trimEnd (piece :: pieces) = piece :: trimEnd pieces := by
  simp only [trimEnd, List.reverse_cons, List.dropWhile_append, List.isEmpty_iff]
  split
  next he => simp [he, h]
  next => simp

/-- Without void pieces at either end, pieces start with one that names a component. -/
theorem head?_trimEnd_dropWhile {pieces : List Text} (piece : Text)
    (h : (trimEnd (pieces.dropWhile isVoid)).head? = some piece) : isVoid piece = false := by
  cases hd : pieces.dropWhile isVoid with
  | nil => simp [hd, trimEnd] at h
  | cons first rest =>
    have hfirst : isVoid first = false := by
      simpa [hd] using List.head?_dropWhile_not isVoid pieces
    rw [hd, trimEnd_cons hfirst, List.head?_cons, Option.some.injEq] at h
    exact h ▸ hfirst

theorem mem_of_mem_dropComponents {n : Nat} {pieces : List Text} {piece : Text}
    (h : piece ∈ dropComponents n pieces) : piece ∈ pieces := by
  induction n generalizing pieces with
  | zero => exact h
  | succ n ih => exact (List.dropWhile_suffix _).subset (List.mem_of_mem_drop (ih h))

theorem eq_of_component?_eq_normal {piece name : Text}
    (h : component? piece = some (.normal name)) : piece = name := by
  rcases component?_eq_some h with h | h
  · cases h
  · exact (Component.normal.inj h).symm

/-! ## Steps -/

/-- The components of a path without `.`. -/
def steps (p : Path) : List Component :=
  (if p.isAbsolute then [.root] else []) ++ (Text.splitOn '/' p.text).filterMap component?

theorem isAbsolute_iff {p : Path} : p.isAbsolute = true ↔ ∃ t, p.text = '/' :: t := by
  rcases p with ⟨_ | ⟨c, t⟩⟩
  · simp [isAbsolute]
  · simp [isAbsolute]

/-- Whatever passes over `.` sees the steps of a path in its components. -/
theorem foldl_components {β : Type} {f : β → Component → β} (hf : ∀ b, f b .here = b) (b : β)
    (p : Path) : p.components.foldl f b = p.steps.foldl f b := by
  obtain ⟨first, rest, h⟩ := List.exists_cons_of_ne_nil (Text.splitOn_ne_nil '/' p.text)
  simp only [components, steps, h]
  by_cases ha : p.isAbsolute = true
  · obtain ⟨t, ht⟩ := isAbsolute_iff.1 ha
    rw [ht, Text.splitOn_cons_self, List.cons.injEq] at h
    obtain ⟨rfl, -⟩ := h
    simp [ha, component?, isVoid]
  · by_cases hd : first = ['.']
    · subst hd
      simp [ha, hf, component?, isVoid]
    · simp [ha, hd]

theorem steps_absolute {p : Path} (h : p.isAbsolute = true) : p.components = p.steps := by
  obtain ⟨t, ht⟩ := isAbsolute_iff.1 h
  simp [components, steps, h, ht, component?, isVoid]

theorem steps_relative {p : Path} (h : p.isAbsolute = false) :
    p.steps = (Text.splitOn '/' p.text).filterMap component? := by
  simp [steps, h]

theorem components_relative {p : Path} (h : p.isAbsolute = false) :
    p.components = p.steps ∨ p.components = .here :: p.steps := by
  obtain ⟨first, rest, hs⟩ := List.exists_cons_of_ne_nil (Text.splitOn_ne_nil '/' p.text)
  simp only [components, steps, hs, h]
  by_cases hd : first = ['.']
  · right
    simp [hd, component?, isVoid]
  · left
    simp [hd]

theorem here_not_mem_steps (p : Path) : .here ∉ p.steps := by
  rw [steps, List.mem_append, not_or]
  refine ⟨by split <;> simp, fun hm => ?_⟩
  simpa using up_or_normal_of_mem_filterMap hm

theorem steps_eq_filter (p : Path) : p.steps = p.components.filter (· ≠ .here) := by
  have hsteps : p.steps.filter (· ≠ .here) = p.steps := by
    rw [List.filter_eq_self]
    intro c hc
    exact decide_eq_true fun he => p.here_not_mem_steps (he ▸ hc)
  by_cases ha : p.isAbsolute = true
  · rw [steps_absolute ha, hsteps]
  · rcases components_relative (Bool.eq_false_iff.2 ha) with hc | hc <;> rw [hc]
    · exact hsteps.symm
    · rw [List.filter_cons_of_neg (by simp), hsteps]

theorem steps_cons_slash (t : Text) :
    steps ⟨'/' :: t⟩ = .root :: (Text.splitOn '/' t).filterMap component? := by
  simp [steps, isAbsolute, component?, isVoid]

theorem root_not_mem_steps {p : Path} (h : p.isAbsolute = false) : .root ∉ p.steps := by
  rw [steps_relative h]
  exact root_not_mem_filterMap _

theorem isAbsolute_of_root_mem {p : Path} (h : .root ∈ p.components) : p.isAbsolute = true := by
  by_contra hn
  have hrel := Bool.eq_false_iff.2 hn
  rcases components_relative hrel with hc | hc <;> rw [hc] at h
  · exact root_not_mem_steps hrel h
  · exact root_not_mem_steps hrel (by simpa using h)

/-! ## Names -/

/-- A single normal component. -/
def IsName (name : Text) : Prop :=
  components ⟨name⟩ = [.normal name]

instance (name : Text) : Decidable (IsName name) :=
  inferInstanceAs (Decidable (_ = _))

theorem normal_mem_steps {p : Path} {name : Text} (h : .normal name ∈ p.steps) :
    '/' ∉ name ∧ component? name = some (.normal name) := by
  have hmem : .normal name ∈ (Text.splitOn '/' p.text).filterMap component? := by
    rw [steps, List.mem_append] at h
    rcases h with h | h
    · split at h <;> simp at h
    · exact h
  obtain ⟨piece, hp, hc⟩ := List.mem_filterMap.1 hmem
  obtain rfl := eq_of_component?_eq_normal hc
  exact ⟨Text.not_mem_of_mem_splitOn hp, hc⟩

theorem isName_iff {name : Text} :
    IsName name ↔ '/' ∉ name ∧ component? name = some (.normal name) := by
  constructor
  · intro h
    apply normal_mem_steps (p := ⟨name⟩)
    by_cases ha : isAbsolute ⟨name⟩ = true
    · rw [← steps_absolute ha, h]
      simp
    · rcases components_relative (Bool.eq_false_iff.2 ha) with hc | hc
      · rw [← hc, h]
        simp
      · rw [h] at hc
        simp at hc
  · rintro ⟨hs, hc⟩
    have ha : isAbsolute ⟨name⟩ = false := by
      rw [Bool.eq_false_iff, ne_eq, isAbsolute_iff]
      rintro ⟨t, ht⟩
      exact hs (by rw [show name = '/' :: t from ht]; simp)
    have hd : name ≠ ['.'] := by
      rintro rfl
      simp [component?, isVoid] at hc
    simp [IsName, components, Text.splitOn_of_not_mem hs, ha, hd, hc]

theorem isName_iff_ne {name : Text} :
    IsName name ↔ '/' ∉ name ∧ name ≠ [] ∧ name ≠ ['.'] ∧ name ≠ ['.', '.'] := by
  rw [isName_iff, and_congr_right_iff]
  intro _
  by_cases hvoid : isVoid name = true
  · have hdot : name = [] ∨ name = ['.'] := by simpa [isVoid] using hvoid
    rcases hdot with rfl | rfl <;> simp [component?, hvoid]
  · have hdot : ¬ (name = [] ∨ name = ['.']) := by simpa [isVoid] using hvoid
    by_cases hup : name = ['.', '.'] <;> simp_all [component?]

namespace IsName

variable {name : Text}

theorem slash_not_mem (h : IsName name) : '/' ∉ name :=
  (isName_iff.1 h).1

theorem component? (h : IsName name) : component? name = some (.normal name) :=
  (isName_iff.1 h).2

theorem isVoid (h : IsName name) : isVoid name = false := by
  rw [Bool.eq_false_iff, ne_eq, ← component?_eq_none_iff, h.component?]
  simp

theorem ne_dots (h : IsName name) : name ≠ ['.', '.'] := by
  rintro rfl
  cases h.component?

theorem cons (h : IsName name) {c : Char} (hc : c ≠ '/') : IsName (c :: name) := by
  rw [isName_iff_ne] at h ⊢
  obtain ⟨hslash, hnil, hdot, -⟩ := h
  exact ⟨by simp [Ne.symm hc, hslash], by simp, by simp [hnil], by simp [hdot]⟩

theorem append (h : IsName name) {t : Text} (ht : '/' ∉ t) : IsName (name ++ t) := by
  rw [isName_iff_ne] at h ⊢
  obtain ⟨hslash, hnil, hdot, hdots⟩ := h
  obtain ⟨c, rest, rfl⟩ := List.exists_cons_of_ne_nil hnil
  refine ⟨by simp_all, by simp, fun he => ?_, fun he => ?_⟩
  · rw [List.cons_append, List.cons.injEq, List.append_eq_nil_iff] at he
    exact hdot (by rw [he.1, he.2.1])
  · rw [List.cons_append, List.cons.injEq, List.append_eq_singleton_iff] at he
    rcases he.2 with ⟨hrest, -⟩ | ⟨hrest, -⟩
    · exact hdot (by rw [he.1, hrest])
    · exact hdots (by rw [he.1, hrest])

end IsName

/-! ## Spelling, joining and stripping -/

theorem filterMap_splitOn_joinWith {pieces : List Text} (h : ∀ piece ∈ pieces, '/' ∉ piece) :
    (Text.splitOn '/' (Text.joinWith ['/'] pieces)).filterMap component? =
      pieces.filterMap component? := by
  by_cases hne : pieces = []
  · subst hne
    rfl
  · rw [Text.splitOn_joinWith hne h]

/-- Pieces that do not start with a void one spell a relative path. -/
theorem isAbsolute_joinWith {pieces : List Text} (h : ∀ piece ∈ pieces, '/' ∉ piece)
    (hhead : ∀ piece, pieces.head? = some piece → isVoid piece = false) :
    isAbsolute ⟨Text.joinWith ['/'] pieces⟩ = false := by
  rcases pieces with _ | ⟨piece, pieces⟩
  · rfl
  · have hvoid := hhead piece rfl
    rcases piece with _ | ⟨c, piece⟩
    · simp [isVoid] at hvoid
    · have hc : '/' ≠ c := fun he => h (c :: piece) (by simp) (he ▸ List.mem_cons_self)
      cases pieces <;> simp [isAbsolute, Text.joinWith, Ne.symm hc]

/-- A piece that names a component. -/
structure IsSolid (piece : Text) : Prop where
  solid : isVoid piece = false
  slash_not_mem : '/' ∉ piece

theorem IsSolid.ne_nil {piece : Text} (h : IsSolid piece) : piece ≠ [] := by
  rintro rfl
  cases h.solid

theorem IsName.isSolid {name : Text} (h : IsName name) : IsSolid name :=
  ⟨h.isVoid, h.slash_not_mem⟩

/-- The path that spells pieces, from the root directory or not. -/
def ofPieces (rooted : Bool) (pieces : List Text) : Path :=
  ⟨(if rooted then ['/'] else []) ++ Text.joinWith ['/'] pieces⟩

/-- One `..` or none. -/
def dots (odd : Bool) : List Text :=
  if odd then [['.', '.']] else []

/-- A path of names behind one `..` or none. -/
def IsCollapsed (p : Path) : Prop :=
  ∃ rooted odd names, (∀ name ∈ names, IsName name) ∧ p = ofPieces rooted (dots odd ++ names)

theorem isSolid_climbing {n : Nat} {names : List Text} (h : ∀ name ∈ names, IsName name) :
    ∀ piece ∈ List.replicate n ['.', '.'] ++ names, IsSolid piece := by
  intro piece hm
  rcases List.mem_append.1 hm with hm | hm
  · rw [List.eq_of_mem_replicate hm]
    exact ⟨by decide, by decide⟩
  · exact (h piece hm).isSolid

theorem dots_eq_replicate (odd : Bool) : dots odd = List.replicate odd.toNat ['.', '.'] := by
  cases odd <;> rfl

theorem isSolid_dots_append {odd : Bool} {names : List Text} (h : ∀ name ∈ names, IsName name) :
    ∀ piece ∈ dots odd ++ names, IsSolid piece := by
  rw [dots_eq_replicate]
  exact isSolid_climbing h

theorem filterMap_component?_names {names : List Text} (h : ∀ name ∈ names, IsName name) :
    names.filterMap component? = names.map .normal := by
  rw [List.filterMap_congr fun name hn => (h name hn).component?]
  exact congrFun List.filterMap_eq_map names

section ofPieces

variable {rooted : Bool} {pieces : List Text}

theorem isAbsolute_ofPieces (h : ∀ piece ∈ pieces, IsSolid piece) :
    (ofPieces rooted pieces).isAbsolute = rooted := by
  cases rooted with
  | true => rfl
  | false =>
    exact isAbsolute_joinWith (fun piece hm => (h piece hm).slash_not_mem)
      fun piece hp => (h piece (List.mem_of_mem_head? hp)).solid

theorem spell_root : spell [] pieces = ofPieces true pieces := by
  by_cases hp : pieces = []
  · simp [spell, ofPieces, hp, Text.joinWith]
  · simp [spell, ofPieces, hp, Text.joinWith_cons [] hp]

theorem steps_ofPieces_rooted (h : ∀ piece ∈ pieces, '/' ∉ piece) :
    (ofPieces true pieces).steps = .root :: pieces.filterMap component? := by
  have ht := steps_cons_slash (Text.joinWith ['/'] pieces)
  rw [filterMap_splitOn_joinWith h] at ht
  exact ht

theorem steps_ofPieces (h : ∀ piece ∈ pieces, IsSolid piece) :
    (ofPieces rooted pieces).steps =
      (if rooted then [.root] else []) ++ pieces.filterMap component? := by
  have hslash : ∀ piece ∈ pieces, '/' ∉ piece := fun piece hm => (h piece hm).slash_not_mem
  cases rooted with
  | true => exact steps_ofPieces_rooted hslash
  | false =>
    rw [steps_relative (isAbsolute_ofPieces h)]
    exact filterMap_splitOn_joinWith hslash

/-- A path that spells pieces does not start with `.`. -/
theorem components_eq_steps_ofPieces (h : ∀ piece ∈ pieces, IsSolid piece) :
    (ofPieces rooted pieces).components = (ofPieces rooted pieces).steps := by
  cases rooted with
  | true => exact steps_absolute rfl
  | false =>
    have hrel : (ofPieces false pieces).isAbsolute = false := isAbsolute_ofPieces h
    rcases pieces with _ | ⟨first, rest⟩
    · rfl
    · have hsplit : Text.splitOn '/' (ofPieces false (first :: rest)).text = first :: rest :=
        Text.splitOn_joinWith (by simp) fun piece hm => (h piece hm).slash_not_mem
      have hfirst : first ≠ ['.'] := by
        rintro rfl
        cases (h ['.'] (by simp)).solid
      rw [steps_relative hrel, components, hsplit]
      simp only [hrel, Bool.false_eq_true, if_false, if_neg hfirst]

end ofPieces

/-- A path of names has these names as its components, and no others. -/
theorem components_ofPieces {names : List Text} (h : ∀ name ∈ names, IsName name) :
    (ofPieces false names).components = names.map .normal := by
  have hsolid : ∀ name ∈ names, IsSolid name := fun name hm => (h name hm).isSolid
  rw [components_eq_steps_ofPieces hsolid, steps_ofPieces hsolid, filterMap_component?_names h]
  rfl

theorem parts_ofPieces {names : List Text} (h : ∀ name ∈ names, IsName name) :
    (ofPieces false names).parts = names := by
  unfold parts
  rw [components_ofPieces h, List.filterMap_map]
  exact List.filterMap_some

/-- Joining a relative path to one that is not empty puts its pieces behind the others; an empty
piece at the end makes room for them. -/
theorem splitOn_join {p : Path} (hp : p.text ≠ []) :
    ∃ front voids, Text.splitOn '/' p.text = front ++ voids ∧ front ≠ [] ∧
      (∀ piece ∈ voids, isVoid piece = true) ∧
      ∀ q : Path, q.isAbsolute = false → (p.join q).isAbsolute = p.isAbsolute ∧
        Text.splitOn '/' (p.join q).text = front ++ Text.splitOn '/' q.text := by
  have habs (t : Text) : isAbsolute ⟨p.text ++ t⟩ = p.isAbsolute := by
    obtain ⟨c, s, hs⟩ := List.exists_cons_of_ne_nil hp
    simp [isAbsolute, hs]
  by_cases hl : p.text.getLast? = some '/'
  · obtain ⟨t, ht⟩ := List.getLast?_eq_some_iff.1 hl
    refine ⟨Text.splitOn '/' t, [[]], ?_, Text.splitOn_ne_nil '/' t, by simp [isVoid],
      fun q hq => ?_⟩
    · rw [ht, Text.splitOn_append]
      rfl
    · have hjoin : p.join q = ⟨p.text ++ q.text⟩ := by simp [join, hq, hl]
      refine ⟨hjoin ▸ habs _, ?_⟩
      rw [hjoin, ht, List.append_assoc, List.singleton_append, Text.splitOn_append]
  · refine ⟨Text.splitOn '/' p.text, [], (List.append_nil _).symm, Text.splitOn_ne_nil '/' _,
      by simp, fun q hq => ?_⟩
    have hjoin : p.join q = ⟨p.text ++ '/' :: q.text⟩ := by simp [join, hq, hl, hp]
    refine ⟨hjoin ▸ habs _, ?_⟩
    rw [hjoin, Text.splitOn_append]

/-- Joining a relative path adds its steps. -/
theorem steps_join (p : Path) {q : Path} (hq : q.isAbsolute = false) :
    (p.join q).steps = p.steps ++ q.steps := by
  by_cases hp : p.text = []
  · have hjoin : p.join q = q := by simp [join, hq, hp]
    rw [hjoin, steps_relative (by simp [isAbsolute, hp] : p.isAbsolute = false), hp]
    rfl
  · obtain ⟨front, voids, hsplit, -, hv, hj⟩ := splitOn_join hp
    obtain ⟨habs, hjoin⟩ := hj q hq
    have hnone : voids.filterMap component? = [] :=
      List.filterMap_eq_nil_iff.2 fun piece hm => component?_eq_none_iff.2 (hv piece hm)
    rw [steps_relative hq, steps, steps, habs, hjoin, hsplit, List.filterMap_append,
      List.filterMap_append, hnone, List.append_nil, List.append_assoc]

/-- What is left of a path behind another one from the root directory is relative and has the
steps that are left. -/
theorem steps_dropComponents {base : Path} {rest : List Text} {steps : List Component}
    (hrest : ∀ piece ∈ rest, '/' ∉ piece) (hbase : base.components = .root :: steps)
    (hstart : steps <+: rest.filterMap component?) {r : Path}
    (hr : r = ⟨Text.joinWith ['/']
      (trimEnd ((dropComponents steps.length rest).dropWhile isVoid))⟩) :
    r.isAbsolute = false ∧ .root :: rest.filterMap component? = base.steps ++ r.steps := by
  have habs : base.isAbsolute = true := isAbsolute_of_root_mem (by simp [hbase])
  have hmem : ∀ piece ∈ trimEnd ((dropComponents steps.length rest).dropWhile isVoid),
      '/' ∉ piece := fun piece hm =>
    hrest piece (mem_of_mem_dropComponents
      ((List.dropWhile_suffix _).subset (mem_of_mem_trimEnd hm)))
  have hrel := isAbsolute_joinWith hmem head?_trimEnd_dropWhile
  rw [← hr] at hrel
  refine ⟨hrel, ?_⟩
  obtain ⟨left, hleft⟩ := hstart
  rw [steps_relative hrel, hr, filterMap_splitOn_joinWith hmem, filterMap_trimEnd,
    filterMap_dropWhile_isVoid, filterMap_dropComponents, ← steps_absolute habs, hbase,
    ← hleft, List.drop_left, List.cons_append]

/-- An absolute path behind one with steps is relative and has the steps that are left; behind
the empty one it is the same path. -/
theorem steps_strip? {p base r : Path} (hp : p.isAbsolute = true) (h : p.strip? base = some r) :
    (r.isAbsolute = true ∧ r.steps = p.steps) ∨
      (r.isAbsolute = false ∧ p.steps = base.steps ++ r.steps) := by
  obtain ⟨t, ht⟩ := isAbsolute_iff.1 hp
  have hsteps : p.steps = .root :: (Text.splitOn '/' t).filterMap component? := by
    rw [← steps_cons_slash, ← ht]
  have hslash : ∀ piece ∈ Text.splitOn '/' t, '/' ∉ piece :=
    fun piece => Text.not_mem_of_mem_splitOn
  unfold strip? at h
  split at h
  next hstart =>
    rw [List.isPrefixOf_iff_prefix, steps_absolute hp, hsteps] at hstart
    rw [ht, Text.splitOn_cons_self] at h
    rw [hsteps]
    cases hbase : base.components with
    | nil =>
      rw [hbase] at h
      simp only [Text.splitOn_ne_nil, decide_false, Bool.and_false, Bool.false_eq_true, if_false,
        Option.some.injEq] at h
      subst h
      rw [spell_root, steps_ofPieces_rooted fun piece hm => hslash piece (mem_of_mem_trimEnd hm),
        filterMap_trimEnd]
      exact .inl ⟨rfl, rfl⟩
    | cons step steps =>
      rw [hbase, List.cons_prefix_cons] at hstart
      obtain ⟨rfl, hstart⟩ := hstart
      rw [hbase] at h
      exact .inr (steps_dropComponents hslash hbase hstart (Option.some.inj h).symm)
  next => cases h

end Path

end LocaleSync
