/-
Where paths lead by their spelling alone. The `position` of a path forgets `.`, lets `..` take back
the name before it and counts the `..` that have nothing to take back; at the root directory they
lead nowhere. A relative path goes on from the position of the path it is joined to
(`position_join`).

Collapsing a path keeps its position only up to the parity of that count (`position_collapse`),
because a `..` that has nothing to take back takes back a `..` before it. So a destination is where
its pattern says exactly if the pattern climbs at most one level out of the project, or if climbing
makes no difference (`destination_position_iff`).
-/
import LocaleSync.Proofs.Path.Steps
import LocaleSync.PullPattern

namespace LocaleSync

namespace Path

/-- A place by its spelling: from the root directory or from somewhere, some levels up, and down
by names, the last one first. -/
@[ext]
structure Position where
  rooted : Bool
  ups : Nat
  names : List Text
  deriving DecidableEq, Repr

namespace Position

/-- Where one is. -/
def origin : Position :=
  ⟨false, 0, []⟩

/-- One level up. The root directory has none above it. -/
def up (s : Position) : Position :=
  match s.names with
  | _ :: names => { s with names }
  | [] => if s.rooted then s else { s with ups := s.ups + 1 }

/-- A step of a path taken. -/
def step (s : Position) : Component → Position
  | .root => ⟨true, 0, []⟩
  | .here => s
  | .up => s.up
  | .normal name => { s with names := name :: s.names }

/-- Some levels up. -/
def climb (s : Position) : Nat → Position
  | 0 => s
  | n + 1 => (s.climb n).up

/-- What `t` is from `s` on. -/
def compose (s t : Position) : Position :=
  { s.climb t.ups with names := t.names ++ (s.climb t.ups).names }

end Position

/-- Where a path leads by its spelling. -/
def position (p : Path) : Position :=
  p.components.foldl Position.step .origin

namespace Position

/-! ## Climbing -/

@[simp] theorem rooted_up (s : Position) : s.up.rooted = s.rooted := by
  unfold up
  split
  · rfl
  · split <;> rfl

@[simp] theorem names_up (s : Position) : s.up.names = s.names.drop 1 := by
  unfold up
  split
  next h => simp [h]
  next h => split <;> simp [h]

theorem ups_up (s : Position) :
    s.up.ups = if s.rooted = true ∨ s.names ≠ [] then s.ups else s.ups + 1 := by
  unfold up
  split
  next h => simp [h]
  next h => by_cases hr : s.rooted = true <;> simp [hr, h]

@[simp] theorem rooted_climb (s : Position) (n : Nat) : (s.climb n).rooted = s.rooted := by
  induction n with
  | zero => rfl
  | succ n ih => rw [climb, rooted_up, ih]

@[simp] theorem names_climb (s : Position) (n : Nat) : (s.climb n).names = s.names.drop n := by
  induction n with
  | zero => rfl
  | succ n ih => rw [climb, names_up, ih, List.drop_drop]

theorem ups_climb (s : Position) (n : Nat) :
    (s.climb n).ups = if s.rooted then s.ups else s.ups + (n - s.names.length) := by
  induction n with
  | zero => simp [climb]
  | succ n ih =>
    rw [climb, ups_up, ih, rooted_climb, names_climb]
    by_cases hr : s.rooted = true
    · simp [hr]
    · by_cases hn : n < s.names.length
      · have hd : s.names.drop n ≠ [] := by
          rw [ne_eq, List.drop_eq_nil_iff]
          omega
        rw [if_pos (.inr hd), if_neg hr, if_neg hr]
        omega
      · have hd : s.names.drop n = [] := List.drop_eq_nil_iff.2 (by omega)
        rw [if_neg (by simp [hr, hd]), if_neg hr, if_neg hr]
        omega

/-- Climbing fewer levels leads to the same place only at the end of the names of a path from the
root directory. -/
theorem climb_eq_climb_iff {s : Position} {m n : Nat} (h : m ≤ n) :
    s.climb m = s.climb n ↔ m = n ∨ (s.rooted = true ∧ s.names.length ≤ m) := by
  constructor
  · intro he
    have hn := congrArg (·.names.length) he
    have hu := congrArg Position.ups he
    simp only [names_climb, List.length_drop] at hn
    rw [ups_climb, ups_climb] at hu
    by_cases hr : s.rooted = true
    · have : m = n ∨ s.names.length ≤ m := by omega
      rcases this with hmn | hle
      · exact .inl hmn
      · exact .inr ⟨hr, hle⟩
    · rw [if_neg hr, if_neg hr] at hu
      exact .inl (by omega)
  · rintro (rfl | ⟨hr, hle⟩)
    · rfl
    · apply Position.ext
      · rw [rooted_climb, rooted_climb]
      · rw [ups_climb, ups_climb, if_pos hr, if_pos hr]
      · rw [names_climb, names_climb, List.drop_eq_nil_iff.2 hle,
          List.drop_eq_nil_iff.2 (Nat.le_trans hle h)]

/-! ## Going on from a position -/

@[simp] theorem compose_origin (s : Position) : s.compose origin = s := rfl

theorem compose_eq_compose_iff {s t : Position} {m : Nat} (h : m ≤ t.ups) :
    s.compose { t with ups := m } = s.compose t ↔
      m = t.ups ∨ (s.rooted = true ∧ s.names.length ≤ m) := by
  rw [← climb_eq_climb_iff h]
  constructor
  · intro he
    exact Position.ext (congrArg Position.rooted he :) (congrArg Position.ups he :)
      (List.append_cancel_left (congrArg Position.names he))
  · intro he
    simp only [compose, he]

theorem step_compose {s t : Position} {c : Component} (hc : c ≠ .root) (ht : t.rooted = false) :
    (s.compose t).step c = s.compose (t.step c) := by
  cases c with
  | root => exact absurd rfl hc
  | here => rfl
  | normal name => rfl
  | up =>
    rcases t with ⟨r, u, names⟩
    obtain rfl : r = false := ht
    cases names with
    | nil => rfl
    | cons name names => rfl

theorem rooted_step {t : Position} {c : Component} (hc : c ≠ .root) :
    (t.step c).rooted = t.rooted := by
  cases c with
  | root => exact absurd rfl hc
  | here => rfl
  | normal name => rfl
  | up => exact rooted_up t

theorem rooted_foldl_step {t : Position} {cs : List Component} (hcs : .root ∉ cs) :
    (cs.foldl step t).rooted = t.rooted := by
  induction cs generalizing t with
  | nil => rfl
  | cons c cs ih =>
    simp only [List.mem_cons, not_or] at hcs
    rw [List.foldl_cons, ih hcs.2, rooted_step (Ne.symm hcs.1)]

theorem foldl_step_compose {s t : Position} {cs : List Component} (hcs : .root ∉ cs)
    (ht : t.rooted = false) : cs.foldl step (s.compose t) = s.compose (cs.foldl step t) := by
  induction cs generalizing t with
  | nil => rfl
  | cons c cs ih =>
    simp only [List.mem_cons, not_or] at hcs
    rw [List.foldl_cons, step_compose (Ne.symm hcs.1) ht,
      ih hcs.2 ((rooted_step (Ne.symm hcs.1)).trans ht), List.foldl_cons]

theorem foldl_step_normal (s : Position) (names : List Text) :
    (names.map Component.normal).foldl step s = { s with names := names.reverse ++ s.names } := by
  induction names generalizing s with
  | nil => rfl
  | cons name names ih =>
    rw [List.map_cons, List.foldl_cons, ih]
    simp [step]

end Position

/-! ## Positions of paths -/

theorem position_eq_foldl_steps (p : Path) : p.position = p.steps.foldl Position.step .origin :=
  foldl_components (fun _ => rfl) _ p

theorem steps_eq (p : Path) :
    ∃ cs, .root ∉ cs ∧ p.steps = (if p.isAbsolute then [.root] else []) ++ cs := by
  exact ⟨_, root_not_mem_filterMap _, rfl⟩

@[simp] theorem rooted_position (p : Path) : p.position.rooted = p.isAbsolute := by
  obtain ⟨cs, hcs, hsteps⟩ := p.steps_eq
  rw [position_eq_foldl_steps, hsteps, List.foldl_append, Position.rooted_foldl_step hcs]
  cases p.isAbsolute <;> rfl

theorem position_join_absolute (p : Path) {q : Path} (hq : q.isAbsolute = true) :
    (p.join q).position = q.position := by
  simp [join, hq]

/-- **A relative path goes on where the path before it leads.** -/
theorem position_join (p : Path) {q : Path} (hq : q.isAbsolute = false) :
    (p.join q).position = p.position.compose q.position := by
  rw [position_eq_foldl_steps, steps_join p hq, List.foldl_append, ← position_eq_foldl_steps,
    position_eq_foldl_steps q, ← Position.foldl_step_compose (root_not_mem_steps hq) rfl,
    Position.compose_origin]

/-! ## Collapsing -/

/-- What collapsing has collected at a position: its names, and behind them one `..` or none. Off
the root directory there is one after an odd number of levels up. -/
def Position.Collects (s : Position) (odd : Bool) (names : List Text) : Prop :=
  names = s.names ++ dots odd ∧
    (s.rooted = false → odd = decide (s.ups % 2 = 1))

theorem Position.Collects.step {s : Position} {odd : Bool} {names : List Text}
    (h : s.Collects odd names) (c : Component) :
    ∃ odd, (s.step c).Collects odd (collapseStep names c) := by
  obtain ⟨rfl, hodd⟩ := h
  cases c with
  | root => exact ⟨false, rfl, fun h => by cases h⟩
  | here => exact ⟨odd, rfl, hodd⟩
  | normal name => exact ⟨odd, rfl, hodd⟩
  | up =>
    rcases s with ⟨rooted, ups, names⟩
    cases names with
    | cons name names => exact ⟨odd, rfl, hodd⟩
    | nil =>
      -- With no name to take back, a `..` is collected or the one collected before is dropped.
      refine ⟨!odd, ?_, ?_⟩
      · cases odd <;> cases rooted <;> rfl
      · cases rooted with
        | true => intro h; cases h
        | false =>
          intro _
          rw [hodd rfl]
          change (!decide (ups % 2 = 1)) = decide ((ups + 1) % 2 = 1)
          rw [← decide_not, decide_eq_decide]
          omega

theorem Position.Collects.foldl {s : Position} {odd : Bool} {names : List Text}
    (h : s.Collects odd names) (cs : List Component) :
    ∃ odd, (cs.foldl Position.step s).Collects odd (cs.foldl collapseStep names) := by
  induction cs generalizing s odd names with
  | nil => exact ⟨odd, h⟩
  | cons c cs ih =>
    obtain ⟨odd, h⟩ := h.step c
    exact ih h

theorem Position.mem_names_foldl_step {name : Text} {cs : List Component} {s : Position}
    (h : name ∈ (cs.foldl Position.step s).names) : name ∈ s.names ∨ .normal name ∈ cs := by
  induction cs generalizing s with
  | nil => exact .inl h
  | cons c cs ih =>
    rcases ih h with h | h
    · cases c with
      | root => cases h
      | here => exact .inl h
      | up =>
        rw [Position.step, Position.names_up] at h
        exact .inl (List.mem_of_mem_drop h)
      | normal other =>
        rcases List.mem_cons.1 h with rfl | h
        · exact .inr (by simp)
        · exact .inl h
    · exact .inr (by simp [h])

theorem isName_of_mem_names {p : Path} {name : Text} (h : name ∈ p.position.names) :
    IsName name := by
  rw [position_eq_foldl_steps] at h
  rcases Position.mem_names_foldl_step h with h | h
  · cases h
  · exact isName_iff.2 (normal_mem_steps h)

theorem isName_of_mem_reverse_names (p : Path) : ∀ name ∈ p.position.names.reverse, IsName name :=
  fun _ hm => isName_of_mem_names (List.mem_reverse.1 hm)

/-- **A collapsed path spells the names of the position, behind one `..` or none.** -/
theorem collapse_eq_ofPieces (p : Path) :
    ∃ odd, (p.isAbsolute = false → odd = decide (p.position.ups % 2 = 1)) ∧
      p.collapse = ofPieces p.isAbsolute (dots odd ++ p.position.names.reverse) := by
  have horigin : Position.origin.Collects false [] := ⟨rfl, fun _ => rfl⟩
  obtain ⟨odd, hnames, hodd⟩ := horigin.foldl p.components
  refine ⟨odd, fun ha => hodd (by rw [← position, rooted_position, ha]), ?_⟩
  rw [collapse, hnames, ← position]
  cases odd <;> cases p.isAbsolute <;> simp [ofPieces, dots]

theorem isCollapsed_collapse (p : Path) : p.collapse.IsCollapsed := by
  obtain ⟨odd, -, h⟩ := p.collapse_eq_ofPieces
  exact ⟨_, odd, _, p.isName_of_mem_reverse_names, h⟩

theorem isAbsolute_collapse (p : Path) : p.collapse.isAbsolute = p.isAbsolute := by
  obtain ⟨odd, -, h⟩ := p.collapse_eq_ofPieces
  rw [h]
  exact isAbsolute_ofPieces (isSolid_dots_append p.isName_of_mem_reverse_names)

/-- From the root directory on, no step leads out. -/
theorem Position.ups_foldl_step {cs : List Component} (hcs : .root ∉ cs) {s : Position}
    (hs : s.rooted = true) : (cs.foldl Position.step s).ups = s.ups := by
  induction cs generalizing s with
  | nil => rfl
  | cons c cs ih =>
    simp only [List.mem_cons, not_or] at hcs
    have hc := Ne.symm hcs.1
    rw [List.foldl_cons, ih hcs.2 ((Position.rooted_step hc).trans hs)]
    cases c with
    | root => exact absurd rfl hc
    | here | normal => rfl
    | up => rw [Position.step, Position.ups_up, if_pos (.inl hs)]

theorem ups_of_isAbsolute {p : Path} (h : p.isAbsolute = true) : p.position.ups = 0 := by
  obtain ⟨cs, hcs, hsteps⟩ := p.steps_eq
  rw [position_eq_foldl_steps, hsteps, h, List.foldl_append]
  exact Position.ups_foldl_step hcs rfl

/-- **Collapsing keeps the names of the position and the parity of the levels up.** -/
theorem position_collapse (p : Path) :
    p.collapse.position = { p.position with ups := p.position.ups % 2 } := by
  obtain ⟨odd, hodd, h⟩ := p.collapse_eq_ofPieces
  have hnames := p.isName_of_mem_reverse_names
  rw [h, position_eq_foldl_steps, steps_ofPieces (isSolid_dots_append hnames),
    List.filterMap_append, filterMap_component?_names hnames, ← List.append_assoc,
    List.foldl_append, Position.foldl_step_normal, List.reverse_reverse]
  have hroot := p.rooted_position
  cases ha : p.isAbsolute with
  | true =>
    have hups := ups_of_isAbsolute ha
    rw [ha] at hroot
    apply Position.ext
    · rw [hroot]
      cases odd <;> rfl
    · rw [hups]
      cases odd <;> rfl
    · cases odd <;> exact List.append_nil _
  | false =>
    rw [ha] at hroot
    have hparity := hodd ha
    cases odd with
    | true =>
      have hups : p.position.ups % 2 = 1 := of_decide_eq_true hparity.symm
      exact Position.ext hroot.symm hups.symm (List.append_nil _)
    | false =>
      have hups : p.position.ups % 2 = 0 := by
        have := of_decide_eq_false hparity.symm
        omega
      exact Position.ext hroot.symm hups.symm (List.append_nil _)

/-! ## Destinations -/

/-- A path as `base` sees it: what is left of an absolute path that lies inside. -/
def seenFrom (p base : Path) : Path :=
  if p.isAbsolute then (p.strip? base).getD p else p

theorem steps_join_absolute (p : Path) {q : Path} (hq : q.isAbsolute = true) :
    (p.join q).steps = q.steps := by
  simp [join, hq]

/-- Nothing gets lost where a path is taken relative to a directory that it lies in. -/
theorem steps_join_seenFrom (base p : Path) :
    (base.join (p.seenFrom base)).steps = (base.join p).steps := by
  unfold seenFrom
  by_cases hp : p.isAbsolute = true
  · rw [if_pos hp, steps_join_absolute base hp]
    cases hr : p.strip? base with
    | none => exact steps_join_absolute base hp
    | some r =>
      rcases steps_strip? hp hr with ⟨ha, hs⟩ | ⟨ha, hs⟩
      · rw [Option.getD_some, steps_join_absolute base ha, hs]
      · rw [Option.getD_some, steps_join base ha, ← hs]
  · rw [if_neg hp]

theorem position_join_seenFrom (base p : Path) :
    (base.join (p.seenFrom base)).position = (base.join p).position := by
  rw [position_eq_foldl_steps, steps_join_seenFrom, ← position_eq_foldl_steps]

end Path

namespace PullPattern

/-- **Where a destination is.** It is the place its pattern spells from the project's directory on
exactly if the path climbs at most one level out of that directory, or if that directory is so near
the root directory that the levels which are lost lead nowhere. -/
theorem destination_position_iff (p : PullPattern) (base : Path) (l : Language)
    (name? : Option Text) :
    (p.destination base l name?).fullPath.position = (base.join ⟨p.render l name?⟩).position ↔
      (Path.seenFrom ⟨p.render l name?⟩ base).position.ups ≤ 1 ∨
        (base.isAbsolute = true ∧ base.position.names.length ≤
          (Path.seenFrom ⟨p.render l name?⟩ base).position.ups % 2) := by
  rw [← Path.position_join_seenFrom base ⟨p.render l name?⟩]
  have hfull : (p.destination base l name?).fullPath =
      base.join (Path.seenFrom ⟨p.render l name?⟩ base).collapse := rfl
  rw [hfull]
  generalize Path.seenFrom ⟨p.render l name?⟩ base = seen
  by_cases ha : seen.isAbsolute = true
  · have hups := Path.ups_of_isAbsolute ha
    rw [Path.position_join_absolute base ha,
      Path.position_join_absolute base (seen.isAbsolute_collapse.trans ha), Path.position_collapse]
    refine iff_of_true (Path.Position.ext rfl ?_ rfl) (.inl (by omega))
    simp [hups]
  · have hrel := Bool.eq_false_iff.2 ha
    rw [Path.position_join base hrel, Path.position_join base (seen.isAbsolute_collapse.trans hrel),
      Path.position_collapse, Path.Position.compose_eq_compose_iff (Nat.mod_le _ _),
      Path.rooted_position]
    refine or_congr_left ?_
    omega

/-- Two levels up from `/a/b/c` a file stays in `/a/b/c`. -/
theorem destination_position_two_levels_up :
    (destination ⟨"../../<language_code>".toList, by decide⟩ (.ofString "/a/b/c")
      ⟨1, "en-us".toList, "English".toList, .ltr⟩ none).fullPath.position =
        ⟨true, 0, ["en-us".toList, "c".toList, "b".toList, "a".toList]⟩ ∧
    ((Path.ofString "/a/b/c").join ⟨render ⟨"../../<language_code>".toList, by decide⟩
      ⟨1, "en-us".toList, "English".toList, .ltr⟩ none⟩).position =
        ⟨true, 0, ["en-us".toList, "a".toList]⟩ := by
  decide

end PullPattern

end LocaleSync
