/-
Paths piece by piece. Two paths have the same shape if their pieces belong together one by one
(`SameShape`): they are the same, or both are names. So no piece of one path is passed over without
the one that belongs to it, and paths with the same steps have the same text
(`SameShape.eq_of_steps`).

The parts of a path are those of its pieces that are names (`parts_eq_filter`). Joined, they spell a
path of names alone (`isName_of_mem_splitOn_posix`), and a path of names is spelled as it is
(`posix_of_names`).
-/
import LocaleSync.Proofs.Path.Parent
import Mathlib.Data.List.Forall2

namespace LocaleSync

theorem Text.mem_joinWith {sep c : Char} {pieces : List Text} {piece : Text} (h : piece ∈ pieces)
    (hc : c ∈ piece) : c ∈ joinWith [sep] pieces := by
  induction pieces with
  | nil => cases h
  | cons first pieces ih =>
    by_cases hp : pieces = []
    · subst hp
      exact List.mem_singleton.1 h ▸ hc
    · rw [joinWith_cons first hp, List.mem_append]
      rcases List.mem_cons.1 h with rfl | h
      · exact .inl (List.mem_append_left _ hc)
      · exact .inr (ih h)

namespace Path

theorem isName_of_not_mem {name : Text} (hne : name ≠ []) (hslash : '/' ∉ name)
    (hdot : '.' ∉ name) : IsName name := by
  refine isName_iff_ne.2 ⟨hslash, hne, fun he => ?_, fun he => ?_⟩ <;>
    exact hdot (by simp [he])

/-! ## Paths of the same shape -/

/-- Pieces of two paths that belong together. -/
def Alike (x y : Text) : Prop :=
  x = y ∨ (IsName x ∧ IsName y)

/-- Path texts of which the pieces belong together, one by one. -/
def SameShape (t u : Text) : Prop :=
  List.Forall₂ Alike (Text.splitOn '/' t) (Text.splitOn '/' u)

theorem Alike.cons {c : Char} (hc : c ≠ '/') {x y : Text} (h : Alike x y) :
    Alike (c :: x) (c :: y) := by
  rcases h with rfl | ⟨hx, hy⟩
  · exact .inl rfl
  · exact .inr ⟨hx.cons hc, hy.cons hc⟩

theorem Alike.symm {x y : Text} (h : Alike x y) : Alike y x := by
  rcases h with rfl | ⟨hx, hy⟩
  · exact .inl rfl
  · exact .inr ⟨hy, hx⟩

theorem SameShape.symm {t u : Text} (h : SameShape t u) : SameShape u t :=
  List.Forall₂.flip (List.Forall₂.imp (fun _ _ => Alike.symm) h)

theorem sameShape_nil : SameShape [] [] :=
  .cons (.inl rfl) .nil

theorem SameShape.cons {t u : Text} (h : SameShape t u) (c : Char) :
    SameShape (c :: t) (c :: u) := by
  by_cases hc : c = '/'
  · subst hc
    rw [SameShape, Text.splitOn_cons_self, Text.splitOn_cons_self]
    exact .cons (.inl rfl) h
  · obtain ⟨x, xs, hx⟩ := List.exists_cons_of_ne_nil (Text.splitOn_ne_nil '/' t)
    obtain ⟨y, ys, hy⟩ := List.exists_cons_of_ne_nil (Text.splitOn_ne_nil '/' u)
    rw [SameShape, hx, hy, List.forall₂_cons] at h
    rw [SameShape, Text.splitOn_cons_of_ne hc hx, Text.splitOn_cons_of_ne hc hy]
    exact .cons (h.1.cons hc) h.2

theorem SameShape.append_left {t u : Text} (h : SameShape t u) (w : Text) :
    SameShape (w ++ t) (w ++ u) := by
  induction w with
  | nil => exact h
  | cons c w ih => exact ih.cons c

/-- Whatever names stand before them, the paths go on alike. -/
theorem SameShape.name_append {t u : Text} (h : SameShape t u) {a b : Text} (ha : IsName a)
    (hb : IsName b) : SameShape (a ++ t) (b ++ u) := by
  obtain ⟨x, xs, hx⟩ := List.exists_cons_of_ne_nil (Text.splitOn_ne_nil '/' t)
  obtain ⟨y, ys, hy⟩ := List.exists_cons_of_ne_nil (Text.splitOn_ne_nil '/' u)
  have hxslash : '/' ∉ x := Text.not_mem_of_mem_splitOn (t := t) (by simp [hx])
  have hyslash : '/' ∉ y := Text.not_mem_of_mem_splitOn (t := u) (by simp [hy])
  rw [SameShape, hx, hy, List.forall₂_cons] at h
  rw [SameShape, Text.splitOn_append_of_not_mem ha.slash_not_mem hx,
    Text.splitOn_append_of_not_mem hb.slash_not_mem hy]
  exact .cons (.inr ⟨ha.append hxslash, hb.append hyslash⟩) h.2

theorem SameShape.isAbsolute_eq {t u : Text} (h : SameShape t u) :
    isAbsolute ⟨t⟩ = isAbsolute ⟨u⟩ := by
  obtain ⟨x, xs, hx⟩ := List.exists_cons_of_ne_nil (Text.splitOn_ne_nil '/' t)
  obtain ⟨y, ys, hy⟩ := List.exists_cons_of_ne_nil (Text.splitOn_ne_nil '/' u)
  rw [SameShape, hx, hy, List.forall₂_cons] at h
  obtain ⟨hxy, hrest⟩ := h
  have hfirst : x = [] ↔ y = [] := by
    rcases hxy with rfl | ⟨hx, hy⟩
    · rfl
    · exact iff_of_false hx.isSolid.ne_nil hy.isSolid.ne_nil
  have hmore : xs = [] ↔ ys = [] := by
    rw [← List.length_eq_zero_iff, hrest.length_eq, List.length_eq_zero_iff]
  rw [isAbsolute_eq_of_splitOn (p := ⟨t⟩) hx, isAbsolute_eq_of_splitOn (p := ⟨u⟩) hy]
  simp only [hfirst, ne_eq, hmore]

/-- Pieces that belong together name the same steps only if they are the same. -/
theorem eq_of_filterMap_eq {xs ys : List Text} (h : List.Forall₂ Alike xs ys)
    (he : xs.filterMap component? = ys.filterMap component?) : xs = ys := by
  induction h with
  | nil => rfl
  | @cons x y xs ys hxy _ ih =>
    rcases hxy with rfl | ⟨hx, hy⟩
    · cases hc : component? x with
      | none =>
        rw [List.filterMap_cons_none hc, List.filterMap_cons_none hc] at he
        rw [ih he]
      | some c =>
        rw [List.filterMap_cons_some hc, List.filterMap_cons_some hc, List.cons.injEq] at he
        rw [ih he.2]
    · rw [List.filterMap_cons_some hx.component?, List.filterMap_cons_some hy.component?,
        List.cons.injEq, Component.normal.injEq] at he
      rw [he.1, ih he.2]

/-- **Paths of the same shape with the same steps are the same.** -/
theorem SameShape.eq_of_steps {t u : Text} (h : SameShape t u)
    (hsteps : steps ⟨t⟩ = steps ⟨u⟩) : t = u := by
  rw [steps, steps, h.isAbsolute_eq, List.append_cancel_left_eq] at hsteps
  have hpieces : Text.splitOn '/' t = Text.splitOn '/' u := eq_of_filterMap_eq h hsteps
  rw [← Text.joinWith_splitOn '/' t, hpieces, Text.joinWith_splitOn]

/-- What has the shape of a path of names is one. -/
theorem SameShape.forall_isName {t u : Text} (h : SameShape t u)
    (hu : ∀ piece ∈ Text.splitOn '/' u, IsName piece) :
    ∀ piece ∈ Text.splitOn '/' t, IsName piece := by
  unfold SameShape at h
  generalize Text.splitOn '/' t = xs at h ⊢
  generalize Text.splitOn '/' u = ys at h hu
  induction h with
  | nil => exact hu
  | cons hxy _ ih =>
    rw [List.forall_mem_cons] at hu ⊢
    refine ⟨?_, ih hu.2⟩
    rcases hxy with rfl | ⟨hx, -⟩
    · exact hu.1
    · exact hx

/-! ## Parts -/

theorem filterMap_components {β : Type} {f : Component → Option β} (hf : f .here = none)
    (p : Path) : p.components.filterMap f = p.steps.filterMap f := by
  by_cases ha : p.isAbsolute = true
  · rw [steps_absolute ha]
  · rcases components_relative (Bool.eq_false_iff.2 ha) with hc | hc
    · rw [hc]
    · rw [hc, List.filterMap_cons_none hf]

/-- **The parts of a path are the names among its pieces.** -/
theorem parts_eq_filter (p : Path) :
    p.parts = (Text.splitOn '/' p.text).filter fun piece => decide (IsName piece) := by
  unfold parts
  rw [filterMap_components rfl, steps, List.filterMap_append, List.filterMap_filterMap,
    ← List.filterMap_eq_filter]
  have hroot (f : Component → Option Text) (hf : f .root = none) :
      (if p.isAbsolute then [.root] else []).filterMap f = [] := by
    split <;> simp [hf]
  rw [hroot _ rfl, List.nil_append]
  apply List.filterMap_congr
  intro piece hm
  have hslash : '/' ∉ piece := Text.not_mem_of_mem_splitOn hm
  by_cases hname : IsName piece
  · simp [hname.component?, Option.guard, hname]
  · cases hc : component? piece with
    | none => simp [Option.guard, hname]
    | some c =>
      rcases component?_eq_some hc with rfl | rfl
      · simp [Option.guard, hname]
      · exact absurd (isName_iff.2 ⟨hslash, hc⟩) hname

theorem isName_of_mem_parts {p : Path} {part : Text} (h : part ∈ p.parts) : IsName part := by
  rw [parts_eq_filter] at h
  simpa using (List.mem_filter.1 h).2

theorem mem_text_of_mem_posix {p : Path} {c : Char} (hc : c ∈ p.posix) (hne : c ≠ '/') :
    c ∈ p.text := by
  rcases Text.mem_of_mem_joinWith hc with h | ⟨part, hpart, h⟩
  · exact absurd h hne
  · rw [parts_eq_filter] at hpart
    rw [← Text.joinWith_splitOn '/' p.text]
    exact Text.mem_joinWith (List.mem_of_mem_filter hpart) h

/-- The spelling of the parts of a path is made of names, unless there are none. -/
theorem isName_of_mem_splitOn_posix {p : Path} (h : p.posix ≠ []) :
    ∀ piece ∈ Text.splitOn '/' p.posix, IsName piece := by
  have hne : p.parts ≠ [] := by
    intro he
    exact h (by simp [posix, he, Text.joinWith])
  unfold posix
  rw [Text.splitOn_joinWith hne fun part hm => (isName_of_mem_parts hm).slash_not_mem]
  exact fun piece => isName_of_mem_parts

theorem posix_of_names {t : Text} (h : ∀ piece ∈ Text.splitOn '/' t, IsName piece) :
    posix ⟨t⟩ = t := by
  have hall : (Text.splitOn '/' t).filter (fun piece => decide (IsName piece)) =
      Text.splitOn '/' t :=
    List.filter_eq_self.2 fun piece hm => decide_eq_true (h piece hm)
  rw [posix, parts_eq_filter, hall, Text.joinWith_splitOn]

theorem isAbsolute_of_names {t : Text} (h : ∀ piece ∈ Text.splitOn '/' t, IsName piece) :
    isAbsolute ⟨t⟩ = false := by
  rw [Bool.eq_false_iff, ne_eq, isAbsolute_iff]
  intro habs
  obtain ⟨u, hu⟩ := habs
  have ht : t = '/' :: u := hu
  have hempty : IsName [] := h [] (by rw [ht, Text.splitOn_cons_self]; simp)
  exact hempty.isSolid.ne_nil rfl

end Path

end LocaleSync
