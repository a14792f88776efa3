/-
The files below a directory, links followed. A walker goes through directories in byte order of
their names (`Walker.next?`). It tells of every name in them and opens each directory that it tells
of; a link to a directory that it is in counts as a failure. A walk keeps the files it is told of and
leaves a directory at once if it has been entered before, under whatever path (`filesFrom`). So the
walk ends on every storage, and meets each file under one path for each directory it is in.

What a name is, its directory says; the path to it is used only to follow a link and to read a
directory. So a file is met under a path of any size, a link is followed and a directory is read
only under a path that is short enough, and a directory is entered only if its location can be
spelled out.
-/
import LocaleSync.Storage.Resolve

namespace LocaleSync

namespace Storage

/-- A name to look at: the directory it is in, the names that led there from the start of the
walk, and how many links may still be followed on the way. -/
structure Pending where
  directory : Location
  names : List Text
  name : Text
  links : Nat
  deriving DecidableEq, Repr

namespace Pending

/-- The names of the path to a pending name. -/
def trail (p : Pending) : List Text :=
  p.names ++ [p.name]

/-- Whether the path to a pending name, in a walk that starts at `root`, can be used. -/
def isUsable (root : Location) (p : Pending) : Bool :=
  isSpellable (root ++ p.trail)

/-- What the path to a pending name leads to. -/
def target (s : Storage) (p : Pending) : Target :=
  s.resolve .follow p.links p.directory [p.name]

/-- The location of the directory that a pending name leads to by way of places that can be spelled
out, and the links left there. -/
def canonical? (s : Storage) (p : Pending) : Option (Location × Nat) :=
  match s.resolve .canonical p.links p.directory [p.name] with
  | .found l .directory links => some (l, links)
  | _ => none

end Pending

/-- The names of a directory, to look at. -/
def pendingIn (s : Storage) (dir : Location) (names : List Text) (links : Nat) : List Pending :=
  (s.names dir).map fun name => ⟨dir, names, name, links⟩

/-! ## Walkers -/

/-- What a walker tells of a name. -/
inductive Event where
  | file (trail : List Text)
  | directory (p : Pending)
  /-- Neither a file nor a directory. -/
  | other
  /-- A link that leads nowhere or to a directory that the walker is in, or a directory that cannot
  be read. -/
  | failure
  deriving DecidableEq, Repr

/-- A directory that a walker is in: where it is, and what it lists of it, none for a failure to
read it. -/
structure OpenDirectory where
  location : Location
  listed : List (Option Pending)
  deriving DecidableEq, Repr

/-- The directories that a walker is in, innermost first. -/
abbrev Walker := List OpenDirectory

/-- The directory that a pending name is or leads to, opened. -/
def Pending.opened (s : Storage) (root : Location) (p : Pending) : OpenDirectory :=
  match p.target s with
  | .found l .directory links =>
    ⟨l, if p.isUsable root then (s.pendingIn l p.trail links).map some else [none]⟩
  | _ => ⟨p.directory ++ [p.name], [none]⟩

namespace Walker

/-- A link followed. -/
def follow (s : Storage) (root : Location) (w : Walker) (p : Pending) : Event × Walker :=
  match p.target s with
  | .found _ (.file _) _ => (.file p.trail, w)
  | .found l .directory _ =>
    if w.any (·.location = l) then (.failure, w) else (.directory p, p.opened s root :: w)
  | .found .. => (.other, w)
  | _ => (.failure, w)

/-- A name looked at. -/
def look (s : Storage) (root : Location) (w : Walker) (p : Pending) : Event × Walker :=
  match s.entryAt? (p.directory ++ [p.name]) with
  | some (.file _) => (.file p.trail, w)
  | some .directory => (.directory p, p.opened s root :: w)
  | some (.link _) => if p.isUsable root then w.follow s root p else (.failure, w)
  | some .pipe => (.other, w)
  | none => (.failure, w)

/-- What the walker tells next, unless it is at the end. -/
def next? (s : Storage) (root : Location) : Walker → Option (Event × Walker)
  | [] => none
  | ⟨_, []⟩ :: w => next? s root w
  | ⟨l, none :: listed⟩ :: w => some (.failure, ⟨l, listed⟩ :: w)
  | ⟨l, some p :: listed⟩ :: w => some (look s root (⟨l, listed⟩ :: w) p)

/-- The walker without the rest of the directory it is in. -/
def leave (w : Walker) : Walker :=
  w.tail

/-- How much is left to tell of the directories that the walker is in. -/
def size (w : Walker) : Nat :=
  w.foldr (fun d n => d.listed.length + n) 0

/-- What a look leads to: a directory opened, or nothing new. -/
theorem look_cases (s : Storage) (root : Location) (w : Walker) (p : Pending) :
    (w.look s root p = (.directory p, p.opened s root :: w)) ∨
      ((w.look s root p).2 = w ∧ ∀ q, (w.look s root p).1 ≠ .directory q) := by
  unfold look follow
  repeat' split
  all_goals simp

/-- **What a walker tells comes from the first thing that is left in the innermost directory where
anything is left.** -/
theorem next?_cases {s : Storage} {root : Location} {w w' : Walker} {e : Event}
    (h : w.next? s root = some (e, w')) :
    ∃ done l x listed rest, w = done ++ ⟨l, x :: listed⟩ :: rest ∧ (∀ d ∈ done, d.listed = []) ∧
      ((x = none ∧ (e, w') = (.failure, ⟨l, listed⟩ :: rest)) ∨
        ∃ p, x = some p ∧ (e, w') = look s root (⟨l, listed⟩ :: rest) p) := by
  induction w with
  | nil => simp [next?] at h
  | cons d w ih =>
    obtain ⟨l, listed⟩ := d
    match listed with
    | [] =>
      obtain ⟨done, l', x, listed, rest, rfl, hdone, hx⟩ := ih h
      exact ⟨⟨l, []⟩ :: done, l', x, listed, rest, rfl, List.forall_mem_cons.2 ⟨rfl, hdone⟩, hx⟩
    | none :: listed =>
      exact ⟨[], l, none, listed, w, rfl, by simp, .inl ⟨rfl, Option.some.inj h.symm⟩⟩
    | some p :: listed =>
      exact ⟨[], l, some p, listed, w, rfl, by simp, .inr ⟨p, rfl, Option.some.inj h.symm⟩⟩

theorem size_append (w v : Walker) : size (w ++ v) = w.size + v.size := by
  induction w with
  | nil => simp [size]
  | cons d w ih =>
    simp only [size, List.cons_append, List.foldr_cons] at ih ⊢
    omega

/-- There is less to tell after the first thing of a directory. -/
theorem size_lt (done : Walker) (l : Location) (x : Option Pending) (listed : List (Option Pending))
    (rest : Walker) : size (⟨l, listed⟩ :: rest) < size (done ++ ⟨l, x :: listed⟩ :: rest) := by
  rw [size_append]
  simp only [size, List.foldr_cons, List.length_cons]
  omega

theorem size_lt_of_next? {s : Storage} {root : Location} {w w' : Walker} {e : Event}
    (h : w.next? s root = some (e, w')) (he : ∀ p, e ≠ .directory p) : w'.size < w.size := by
  obtain ⟨done, l, x, listed, rest, rfl, -, ⟨-, hlook⟩ | ⟨p, -, hlook⟩⟩ := next?_cases h
  · obtain ⟨-, rfl⟩ := Prod.mk.inj hlook
    exact size_lt ..
  · rcases look_cases s root (⟨l, listed⟩ :: rest) p with hdir | ⟨hsame, -⟩
    · rw [hdir] at hlook
      exact absurd (Prod.mk.inj hlook).1 (he p)
    · rw [← hlook] at hsame
      obtain rfl : w' = ⟨l, listed⟩ :: rest := hsame
      exact size_lt ..

theorem size_leave_lt_of_next? {s : Storage} {root : Location} {w w' : Walker} {p : Pending}
    (h : w.next? s root = some (.directory p, w')) : w'.leave.size < w.size := by
  obtain ⟨done, l, x, listed, rest, rfl, -, ⟨-, hlook⟩ | ⟨q, -, hlook⟩⟩ := next?_cases h
  · cases (Prod.mk.inj hlook).1
  · rcases look_cases s root (⟨l, listed⟩ :: rest) q with hdir | ⟨-, hother⟩
    · rw [hdir] at hlook
      obtain rfl := (Prod.mk.inj hlook).2
      exact size_lt ..
    · rw [← hlook] at hother
      exact absurd rfl (hother p)

end Walker

/-! ## Walks -/

/-- Whether a location is a directory that is not among `entered`. -/
def isUnentered (s : Storage) (entered : List Location) (l : Location) : Bool :=
  s.entryAt? l = some .directory && !entered.contains l

/-- The directories that are not among `entered`. -/
def unentered (s : Storage) (entered : List Location) : List Location :=
  ([] :: s.entries.map (·.1)).filter (s.isUnentered entered)

theorem mem_locations {s : Storage} {l : Location} {e : Entry} (h : s.entryAt? l = some e) :
    l ∈ [] :: s.entries.map (·.1) := by
  unfold entryAt? at h
  split at h
  · simp_all
  · obtain ⟨x, hx, _⟩ := Option.map_eq_some_iff.1 h
    have hl := List.find?_some hx
    simp only [decide_eq_true_eq] at hl
    exact List.mem_cons_of_mem _ (hl ▸ List.mem_map_of_mem (List.mem_of_find?_eq_some hx))

theorem unentered_cons (s : Storage) (entered : List Location) (l : Location) :
    s.unentered (l :: entered) = (s.unentered entered).filter (· ≠ l) := by
  rw [unentered, unentered, List.filter_filter]
  congr 1
  funext k
  rw [Bool.eq_iff_iff]
  simp [isUnentered, and_comm, and_assoc]

/-- Entering a directory leaves fewer to enter. -/
theorem length_unentered_cons_lt {s : Storage} {entered : List Location} {l : Location}
    (h : s.isUnentered entered l = true) :
    (s.unentered (l :: entered)).length < (s.unentered entered).length := by
  have hdir : s.entryAt? l = some .directory := by
    simp only [isUnentered, Bool.and_eq_true, decide_eq_true_eq] at h
    exact h.1
  rw [unentered_cons, List.length_filter_lt_length_iff_exists]
  exact ⟨l, List.mem_filter.2 ⟨mem_locations hdir, h⟩, by simp⟩

/-- The names that lead from `root` to the files that a walker still tells of, but for those in
directories that have been entered. -/
def filesFrom (s : Storage) (root : Location) (entered : List Location) (w : Walker) :
    List (List Text) :=
  match _ : w.next? s root with
  | none => []
  | some (.file trail, w') => trail :: filesFrom s root entered w'
  | some (.directory p, w') =>
    match p.canonical? s with
    | some (l, _) =>
      if s.isUnentered entered l then filesFrom s root (l :: entered) w'
      else filesFrom s root entered w'.leave
    | none => filesFrom s root entered w'.leave
  | some (.other, w') | some (.failure, w') => filesFrom s root entered w'
  termination_by ((s.unentered entered).length, w.size)
  decreasing_by
    · exact Prod.Lex.right _ (Walker.size_lt_of_next? ‹_› (by simp))
    · exact Prod.Lex.left _ _ (length_unentered_cons_lt ‹_›)
    · exact Prod.Lex.right _ (Walker.size_leave_lt_of_next? ‹_›)
    · exact Prod.Lex.right _ (Walker.size_leave_lt_of_next? ‹_›)
    · exact Prod.Lex.right _ (Walker.size_lt_of_next? ‹_› (by simp))
    · exact Prod.Lex.right _ (Walker.size_lt_of_next? ‹_› (by simp))

/-- The names that lead to the files below a directory. -/
def walk (s : Storage) (root : Location) : List (List Text) :=
  s.filesFrom root [root] [⟨root, (s.pendingIn root [] linkLimit).map some⟩]

end Storage

end LocaleSync
