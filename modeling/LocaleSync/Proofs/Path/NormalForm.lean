/-
Two normal forms of paths.

The parts of a path, joined, are a canonical form of it (`posix_canonical`): they can be read off
again (`parts_posix`), so two paths share this form exactly if they share their parts
(`posix_eq_posix_iff`).

Seen from a directory, a relative path is collapsed. What comes out depends on its position alone:
one `..` or none, then the names (`collapse_relative`). A path spelled like that is in normal form,
however many `..` it starts with (`inNormalForm_climbing`), and collapsing it again changes nothing,
because it leads to a position that collapsing keeps (`collapse_collapse`). Collapsing can be done
on the spelling as well: names are joined, and each `..` leads to the parent, as long as there is
one (`collapse_eq_foldl_go`).
-/
import LocaleSync.Proofs.Path.Parent
import LocaleSync.Proofs.Path.Position
import LocaleSync.Proofs.Path.Shape

namespace LocaleSync

/-- How a component is spelled. -/
def Component.text : Component → Text
  | .root => ['/']
  | .here => ['.']
  | .up => ['.', '.']
  | .normal name => name

namespace Path

/-! ## Joining names and going to parents -/

/-- A step taken on the spelling of a path: a name is joined, and `..` leads to the parent; where
there is none it is joined. -/
def go (p : Path) : Component → Path
  | .here => p
  | .up => p.parent?.getD (p.join ⟨Component.up.text⟩)
  | c => p.join ⟨c.text⟩

/-- A path that spells the pieces collected so far, the last one first. -/
structure Spells (rooted : Bool) (p : Path) (names : List Text) : Prop where
  spelled : p = ofPieces rooted names.reverse
  solid : ∀ name ∈ names, IsSolid name

section

variable {rooted : Bool} {p : Path} {names : List Text}

theorem Spells.join (h : Spells rooted p names) {name : Text} (hname : IsSolid name) :
    Spells rooted (p.join ⟨name⟩) (name :: names) := by
  refine ⟨?_, List.forall_mem_cons.2 ⟨hname, h.solid⟩⟩
  rw [h.spelled, join_ofPieces (fun piece hm => h.solid piece (List.mem_reverse.1 hm)) hname,
    List.reverse_cons]

theorem Spells.parent? {name : Text} (h : Spells rooted p (name :: names)) :
    ∃ d, p.parent? = some d ∧ Spells rooted d names := by
  obtain ⟨hname, hnames⟩ := List.forall_mem_cons.1 h.solid
  refine ⟨_, ?_, rfl, hnames⟩
  rw [h.spelled, List.reverse_cons]
  exact parent?_ofPieces (fun piece hm => hnames piece (List.mem_reverse.1 hm)) hname

theorem Spells.parent?_eq_none (h : Spells rooted p []) : p.parent? = none := by
  rw [h.spelled]
  cases rooted <;> decide

/-- A step on the spelling is a step on what has been collected. -/
theorem Spells.go (h : Spells rooted p names) {c : Component} (hroot : c ≠ .root)
    (hname : ∀ name, c = .normal name → IsName name) :
    Spells rooted (p.go c) (collapseStep names c) := by
  cases c with
  | root => exact absurd rfl hroot
  | here => exact h
  | normal name => exact h.join (hname name rfl).isSolid
  | up =>
    cases names with
    | nil =>
      rw [Path.go, h.parent?_eq_none]
      exact h.join ⟨by decide, by decide⟩
    | cons name names =>
      obtain ⟨d, hparent, hd⟩ := h.parent?
      rw [Path.go, hparent]
      exact hd

end

/-- **Collapsing joins names and goes to parents.** Only where there is no parent, a `..` stays. -/
theorem collapse_eq_foldl_go (p : Path) : p.collapse = p.components.foldl go ⟨[]⟩ := by
  obtain ⟨cs, hcs, hsteps⟩ := p.steps_eq
  -- Behind the root, if the path starts there, the steps are names and `..`.
  have hstart : Spells p.isAbsolute
      ((if p.isAbsolute then [Component.root] else []).foldl go ⟨[]⟩)
      ((if p.isAbsolute then [Component.root] else []).foldl collapseStep []) := by
    cases p.isAbsolute <;> exact ⟨rfl, fun _ hm => nomatch hm⟩
  have hend : Spells p.isAbsolute (p.steps.foldl go ⟨[]⟩) (p.steps.foldl collapseStep []) := by
    rw [hsteps, List.foldl_append, List.foldl_append]
    refine List.foldl_rel hstart fun c hc q names hq => hq.go ?_ ?_
    · rintro rfl
      exact hcs hc
    · rintro name rfl
      have hmem : .normal name ∈ p.steps := hsteps ▸ List.mem_append_right _ hc
      exact isName_iff.2 (normal_mem_steps hmem)
  rw [collapse, foldl_components (f := collapseStep) (fun _ => rfl),
    foldl_components (f := go) (fun _ => rfl), hend.spelled]
  cases p.isAbsolute <;> rfl

/-! ## Joined parts -/

theorem parts_posix (p : Path) : parts ⟨p.posix⟩ = p.parts :=
  parts_ofPieces fun _ => isName_of_mem_parts

theorem posix_posix (p : Path) : posix ⟨p.posix⟩ = p.posix := by
  rw [posix, parts_posix, posix]

theorem posix_eq_posix_iff {p q : Path} : p.posix = q.posix ↔ p.parts = q.parts := by
  constructor
  · intro h
    rw [← p.parts_posix, h, q.parts_posix]
  · intro h
    rw [posix, h, posix]

/-- The parts of a path are its pieces without the ones that are empty, `.` or `..`. -/
theorem parts_eq_filter_ne (p : Path) :
    p.parts = (Text.splitOn '/' p.text).filter fun piece =>
      piece ≠ [] ∧ piece ≠ ['.'] ∧ piece ≠ ['.', '.'] := by
  rw [parts_eq_filter]
  apply List.filter_congr
  intro piece hm
  have hslash : '/' ∉ piece := Text.not_mem_of_mem_splitOn hm
  simp only [isName_iff_ne, hslash, not_false_eq_true, true_and]

/-- **The joined parts are a canonical form of a path.** They have the parts of the path and are
their own canonical form; every part is a name, and paths have the same canonical form exactly if
they have the same parts. -/
theorem posix_canonical (p q : Path) :
    parts ⟨p.posix⟩ = p.parts ∧ posix ⟨p.posix⟩ = p.posix ∧
      p.parts = (Text.splitOn '/' p.text).filter (fun piece =>
        piece ≠ [] ∧ piece ≠ ['.'] ∧ piece ≠ ['.', '.']) ∧
      (∀ part ∈ p.parts, part ≠ [] ∧ '/' ∉ part ∧ part ≠ ['.'] ∧ part ≠ ['.', '.']) ∧
      (p.posix = q.posix ↔ p.parts = q.parts) := by
  refine ⟨p.parts_posix, p.posix_posix, p.parts_eq_filter_ne, fun part hm => ?_,
    posix_eq_posix_iff⟩
  obtain ⟨hslash, hnil, hdot, hdots⟩ := isName_iff_ne.1 (isName_of_mem_parts hm)
  exact ⟨hnil, hslash, hdot, hdots⟩

/-! ## The normal form of a relative path -/

/-- A relative path without `.`, in which every `..` stands before every name, spelled with single
separators between its components. -/
structure InNormalForm (p : Path) : Prop where
  relative : p.isAbsolute = false
  here_not_mem : .here ∉ p.components
  ups_first : ∀ (i j : Nat) (name : Text), p.components[i]? = some .up →
    p.components[j]? = some (.normal name) → i < j
  spelled : p.text = Text.joinWith ['/'] (p.components.map Component.text)
  no_leading : p.text.head? ≠ some '/'
  no_trailing : p.text.getLast? ≠ some '/'
  empty : p.components = [] → p.text = []

theorem IsSolid.map_text {piece : Text} (h : IsSolid piece) :
    (component? piece).map Component.text = some piece := by
  rw [component?, if_neg (by simp [h.solid])]
  by_cases hup : piece = ['.', '.']
  · rw [if_pos hup, hup]
    rfl
  · rw [if_neg hup]
    rfl

theorem map_text_filterMap {pieces : List Text} (h : ∀ piece ∈ pieces, IsSolid piece) :
    (pieces.filterMap component?).map Component.text = pieces := by
  rw [List.map_filterMap, List.filterMap_congr fun piece hm => (h piece hm).map_text]
  exact List.filterMap_some

theorem text_ofPieces {pieces : List Text} (h : ∀ piece ∈ pieces, IsSolid piece) :
    (ofPieces false pieces).text =
      Text.joinWith ['/'] ((ofPieces false pieces).components.map Component.text) := by
  have htexts : (ofPieces false pieces).components.map Component.text = pieces := by
    rw [components_eq_steps_ofPieces h, steps_ofPieces h]
    exact map_text_filterMap h
  rw [htexts]
  rfl

section climbing

variable {n : Nat} {names : List Text}

/-- A path that goes up and then down by names has these steps as its components. -/
theorem components_climbing (h : ∀ name ∈ names, IsName name) :
    (ofPieces false (List.replicate n ['.', '.'] ++ names)).components =
      List.replicate n .up ++ names.map .normal := by
  have hup : component? ['.', '.'] = some .up := by decide
  rw [components_eq_steps_ofPieces (isSolid_climbing h), steps_ofPieces (isSolid_climbing h),
    List.filterMap_append, List.filterMap_replicate_of_some hup, filterMap_component?_names h]
  rfl

theorem parts_climbing (h : ∀ name ∈ names, IsName name) :
    (ofPieces false (List.replicate n ['.', '.'] ++ names)).parts = names := by
  unfold parts
  rw [components_climbing h, List.filterMap_append, List.filterMap_replicate_of_none rfl,
    List.filterMap_map]
  exact List.filterMap_some

theorem lt_of_up_of_normal {i j : Nat} {name : Text}
    (hi : (List.replicate n Component.up ++ names.map .normal)[i]? = some .up)
    (hj : (List.replicate n Component.up ++ names.map .normal)[j]? = some (.normal name)) :
    i < j := by
  -- The places below `n` are those of the `..`, the names stand at the others.
  have hbelow : i < n := by
    by_contra hle
    have hlength : (List.replicate n Component.up).length ≤ i := by
      rw [List.length_replicate]
      omega
    rw [List.getElem?_append_right hlength, List.getElem?_map] at hi
    simp at hi
  have habove : n ≤ j := by
    by_contra hlt
    have hlength : j < (List.replicate n Component.up).length := by
      rw [List.length_replicate]
      omega
    rw [List.getElem?_append_left hlength, List.getElem?_replicate_of_lt (by omega)] at hj
    cases hj
  omega

/-- **A path that goes up and then down by names is in normal form.** -/
theorem inNormalForm_climbing (h : ∀ name ∈ names, IsName name) :
    (ofPieces false (List.replicate n ['.', '.'] ++ names)).InNormalForm where
  relative := isAbsolute_ofPieces (isSolid_climbing h)
  here_not_mem := by
    rw [components_eq_steps_ofPieces (isSolid_climbing h)]
    exact here_not_mem_steps _
  ups_first i j name hi hj := by
    rw [components_climbing h] at hi hj
    exact lt_of_up_of_normal hi hj
  spelled := text_ofPieces (isSolid_climbing h)
  no_leading := of_decide_eq_false (isAbsolute_ofPieces (isSolid_climbing h))
  no_trailing := getLast?_joinWith (isSolid_climbing h)
  empty hnil := by
    rw [text_ofPieces (isSolid_climbing h), hnil]
    rfl

end climbing

/-! ## Collapsing twice -/

/-- What a relative path collapses to depends on its position alone. -/
theorem collapse_relative {p : Path} (hp : p.isAbsolute = false) :
    p.collapse = ofPieces false
      (List.replicate (p.position.ups % 2) ['.', '.'] ++ p.position.names.reverse) := by
  obtain ⟨odd, hodd, hcollapse⟩ := p.collapse_eq_ofPieces
  have hparity : odd.toNat = p.position.ups % 2 := by
    rw [hodd hp]
    rcases Nat.mod_two_eq_zero_or_one p.position.ups with hups | hups <;> rw [hups] <;> rfl
  rw [hcollapse, hp, dots_eq_replicate, hparity]

theorem collapse_collapse {p : Path} (hp : p.isAbsolute = false) :
    p.collapse.collapse = p.collapse := by
  -- The names of the position stay, and the number of levels up is already less than two.
  rw [collapse_relative (p.isAbsolute_collapse.trans hp), position_collapse, Nat.mod_mod,
    ← collapse_relative hp]

theorem relativeTo_of_relative {p : Path} (hp : p.isAbsolute = false) (base : Path) :
    p.relativeTo base = p.collapse := by
  simp [relativeTo, hp]

/-- **A relative path seen from a directory is in normal form.** Its names are those that are left
when every `..` has taken back the name before it, and to take it relative to the directory again
changes nothing. -/
theorem relativeTo_inNormalForm {p : Path} (hp : p.isAbsolute = false) (base : Path) :
    (p.relativeTo base).InNormalForm ∧ (p.relativeTo base).parts = p.position.names.reverse ∧
      (p.relativeTo base).relativeTo base = p.relativeTo base := by
  have hnames := p.isName_of_mem_reverse_names
  rw [relativeTo_of_relative hp, relativeTo_of_relative (p.isAbsolute_collapse.trans hp)]
  refine ⟨?_, ?_, collapse_collapse hp⟩
  · rw [collapse_relative hp]
    exact inNormalForm_climbing hnames
  · rw [collapse_relative hp]
    exact parts_climbing hnames

/-- A path that leaves the directory it starts in, by way of a name and a `.`. -/
def wandering : Path :=
  .ofString "./a/.././../b//c/."

theorem relativeTo_inNormalForm_wandering :
    wandering.isAbsolute = false ∧
      wandering.relativeTo (.ofString "/srv") = .ofString "../b/c" ∧
      (wandering.relativeTo (.ofString "/srv")).InNormalForm ∧
      (wandering.relativeTo (.ofString "/srv")).parts = wandering.position.names.reverse ∧
      (wandering.relativeTo (.ofString "/srv")).relativeTo (.ofString "/srv") =
        wandering.relativeTo (.ofString "/srv") :=
  ⟨by decide, by decide, relativeTo_inNormalForm (by decide) _⟩

-- From the root directory on this can fail: collapsing may bring a path into the directory.
example :
    relativeTo (.ofString "/a/../b/c") (.ofString "/b") = .ofString "/b/c" ∧
      relativeTo (.ofString "/b/c") (.ofString "/b") = .ofString "c" := by
  decide

end Path

end LocaleSync
