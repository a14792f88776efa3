/-
A walk, look by look. Its walker never leaves the directories that have been entered, so it need not
be watched for links back into them: a walk is one recursion over the names that are pending
(`walk_eq`).

At each moment of a walk some directories have been entered and some names are still to be looked at
(`moment`); looking at the first of them leads to the next moment. Nothing is pending at the end, so
what is shown to pass from each moment to the one before it holds of all of them
(`moment_induction`). The files of the walk are those that are looked at (`mem_walk_iff`).

At every moment the names that are pending are in order (`isOrderly_moment`): each is reached by a
way through directories that have been entered, the ways of the later ones start the ways of the
earlier ones, and the directories entered were reached by ways that come before all that is pending.
So a walk lists its files in the order of their names (`sorted_walk`).
-/
import LocaleSync.Proofs.Storage.Ways
import LocaleSync.Storage.Walk

namespace LocaleSync

namespace Storage

/-! ## Walks as one recursion -/

/-- What a walk makes of a name. -/
inductive Sight where
  | file
  | directory (l : Location) (linksLeft : Nat)
  | nothing
  deriving DecidableEq, Repr

/-- The directory a pending name leads to by way of places that can be spelled out. -/
def Pending.directorySight (s : Storage) (p : Pending) : Sight :=
  match p.canonical? s with
  | some (l, links) => .directory l links
  | none => .nothing

/-- What a link among the pending names leads to. -/
def Pending.linkSight (s : Storage) (p : Pending) : Sight :=
  match p.target s with
  | .found _ (.file _) _ => .file
  | .found _ .directory _ => p.directorySight s
  | _ => .nothing

/-- What a pending name is, or leads to. -/
def Pending.sight (s : Storage) (root : Location) (p : Pending) : Sight :=
  match s.entryAt? (p.directory ++ [p.name]) with
  | some (.file _) => .file
  | some .directory => p.directorySight s
  | some (.link _) => if p.isUsable root then p.linkSight s else .nothing
  | _ => .nothing

/-- The names of the directory that a pending name is, if they can be read. -/
def pendingBelow (s : Storage) (root : Location) (p : Pending) (l : Location) (links : Nat) :
    List Pending :=
  if p.isUsable root then s.pendingIn l p.trail links else []

/-- The names that lead from `root` to the files found from the pending names on. -/
def walkFrom (s : Storage) (root : Location) (entered : List Location) :
    List Pending → List (List Text)
  | [] => []
  | p :: rest =>
    match p.sight s root with
    | .file => p.trail :: walkFrom s root entered rest
    | .directory l links =>
      if s.isUnentered entered l then
        walkFrom s root (l :: entered) (s.pendingBelow root p l links ++ rest)
      else walkFrom s root entered rest
    | .nothing => walkFrom s root entered rest
  termination_by pending => ((s.unentered entered).length, pending.length)
  decreasing_by
    all_goals first
      | exact Prod.Lex.left _ _ (length_unentered_cons_lt (by assumption))
      | exact Prod.Lex.right _ (by simp)

/-- The names that a walker has not looked at. -/
def Walker.pending (w : Walker) : List Pending :=
  w.flatMap fun d => d.listed.filterMap id

/-- A walker that is in directories which have been entered. -/
def Walker.IsWithin (entered : List Location) (w : Walker) : Prop :=
  ∀ d ∈ w, d.location ∈ entered

section

variable {s : Storage} {root : Location} {entered : List Location} {w : Walker} {p : Pending}

theorem Pending.canonical?_eq_some_iff {l : Location} {links : Nat} :
    p.canonical? s = some (l, links) ↔
      s.resolve .canonical p.links p.directory [p.name] = .found l .directory links := by
  unfold Pending.canonical?
  split
  next l' links' hr => simp [hr]
  next hr =>
    simp only [reduceCtorEq, false_iff]
    exact hr l links

/-- A path that leads to a directory by way of places that can be spelled out leads there. -/
theorem Pending.target_of_canonical? {l : Location} {links : Nat}
    (h : p.canonical? s = some (l, links)) : p.target s = .found l .directory links :=
  ((leads_iff.2 (canonical?_eq_some_iff.1 h)).follow rfl rfl).resolve_eq

theorem Pending.directorySight_of_target {l : Location} {links : Nat}
    (h : p.target s = .found l .directory links) (hl : l ∈ entered) :
    p.directorySight s = .nothing ∨
      ∃ l links, p.directorySight s = .directory l links ∧ l ∈ entered := by
  unfold Pending.directorySight
  cases hcanonical : p.canonical? s with
  | none => exact .inl rfl
  | some found =>
    obtain ⟨l', links'⟩ := found
    obtain ⟨rfl, -, -⟩ := Target.found.inj (h.symm.trans (target_of_canonical? hcanonical))
    exact .inr ⟨l, links', rfl, hl⟩

theorem Pending.pending_opened (root : Location) {l : Location} {links : Nat}
    (h : p.canonical? s = some (l, links)) :
    p.opened s root = ⟨l, (p.opened s root).listed⟩ ∧
      (p.opened s root).listed.filterMap id = s.pendingBelow root p l links := by
  unfold Pending.opened pendingBelow
  rw [target_of_canonical? h]
  refine ⟨rfl, ?_⟩
  by_cases husable : p.isUsable root = true
  · simp [husable, List.filterMap_map]
  · simp [husable]

namespace Walker

theorem pending_eq_nil_of_next? (h : w.next? s root = none) : w.pending = [] := by
  induction w with
  | nil => rfl
  | cons d w ih =>
    obtain ⟨l, listed⟩ := d
    match listed with
    | [] => exact ih h
    | none :: _ => cases h
    | some _ :: _ => cases h

/-- What a walker tells is a failure to read, or what it makes of the first name that is pending. -/
theorem pending_of_next? {w' : Walker} {e : Event} (h : w.next? s root = some (e, w')) :
    ∃ v : Walker, (∀ d ∈ v, ∃ d' ∈ w, d'.location = d.location) ∧
      ((e = .failure ∧ w' = v ∧ w.pending = v.pending) ∨
        ∃ p, w.pending = p :: v.pending ∧ (e, w') = v.look s root p) := by
  obtain ⟨done, l, x, listed, rest, rfl, hdone, hx⟩ := next?_cases h
  have hpending : pending (done ++ ⟨l, x :: listed⟩ :: rest) =
      (x :: listed).filterMap id ++ pending rest := by
    have hnone : done.flatMap (fun d => d.listed.filterMap id) = [] := by
      refine List.flatMap_eq_nil_iff.2 fun d hd => ?_
      rw [hdone d hd]
      rfl
    rw [pending, List.flatMap_append, hnone]
    rfl
  refine ⟨⟨l, listed⟩ :: rest, ?_, ?_⟩
  · intro d hd
    rcases List.mem_cons.1 hd with rfl | hd
    · exact ⟨⟨l, x :: listed⟩, by simp, rfl⟩
    · exact ⟨d, by simp [hd], rfl⟩
  · rw [hpending]
    rcases hx with ⟨rfl, hlook⟩ | ⟨p, rfl, hlook⟩
    · obtain ⟨rfl, rfl⟩ := Prod.mk.inj hlook
      exact .inl ⟨rfl, rfl, rfl⟩
    · exact .inr ⟨p, rfl, hlook⟩

/-- A walker that is in directories which have been entered sees what a walk makes of a name; the
links that it refuses to follow lead to directories that have been entered. -/
theorem IsWithin.look_sight (hw : w.IsWithin entered) (s : Storage) (root : Location)
    (p : Pending) :
    (w.look s root p = (.file p.trail, w) ∧ p.sight s root = .file) ∨
    (w.look s root p = (.directory p, p.opened s root :: w) ∧
      p.sight s root = p.directorySight s) ∨
    ((w.look s root p = (.other, w) ∨ w.look s root p = (.failure, w)) ∧
      (p.sight s root = .nothing ∨
        ∃ l links, p.sight s root = .directory l links ∧ l ∈ entered)) := by
  unfold look Pending.sight
  cases s.entryAt? (p.directory ++ [p.name]) with
  | none => exact .inr (.inr ⟨.inr rfl, .inl rfl⟩)
  | some e =>
    cases e with
    | file content => exact .inl ⟨rfl, rfl⟩
    | directory => exact .inr (.inl ⟨rfl, rfl⟩)
    | pipe => exact .inr (.inr ⟨.inl rfl, .inl rfl⟩)
    | link target =>
      by_cases husable : p.isUsable root = true
      · simp only [husable, if_true, follow, Pending.linkSight]
        cases htarget : p.target s with
        | vacant | missing | blocked => exact .inr (.inr ⟨.inr rfl, .inl rfl⟩)
        | found l e links =>
          cases e with
          | file content => exact .inl ⟨rfl, rfl⟩
          | pipe | link => exact .inr (.inr ⟨.inl rfl, .inl rfl⟩)
          | directory =>
            by_cases hloop : w.any (·.location = l) = true
            · refine .inr (.inr ⟨.inr (by simp only [hloop, if_true]), ?_⟩)
              obtain ⟨d, hd, hdl⟩ := List.any_eq_true.1 hloop
              exact Pending.directorySight_of_target htarget (of_decide_eq_true hdl ▸ hw d hd)
            · exact .inr (.inl ⟨by simp only [hloop]; rfl, rfl⟩)
      · simp only [husable]
        exact .inr (.inr ⟨.inr rfl, .inl rfl⟩)

end Walker

/-- A name that makes no difference to a walk. -/
theorem walkFrom_pass (rest : List Pending) (h : p.sight s root = .nothing ∨
    ∃ l links, p.sight s root = .directory l links ∧ l ∈ entered) :
    s.walkFrom root entered (p :: rest) = s.walkFrom root entered rest := by
  rw [walkFrom]
  rcases h with h | ⟨l, links, h, hl⟩
  · rw [h]
  · rw [h]
    exact if_neg (by simp [isUnentered, hl])

/-- What a walker tells, against what a walk makes of the names that are pending. -/
def Walker.Tells (s : Storage) (root : Location) (entered : List Location) (w : Walker) :
    Event → Walker → Prop
  | .file trail, w' => ∃ p : Pending, p.trail = trail ∧ p.sight s root = .file ∧
      w.pending = p :: w'.pending ∧ w'.IsWithin entered
  | .directory p, w' => ∃ v : Walker, w' = p.opened s root :: v ∧
      p.sight s root = p.directorySight s ∧ w.pending = p :: v.pending ∧ v.IsWithin entered
  | _, w' => s.walkFrom root entered w.pending = s.walkFrom root entered w'.pending ∧
      w'.IsWithin entered

theorem Walker.IsWithin.tells {w' : Walker} {e : Event} (hw : w.IsWithin entered)
    (h : w.next? s root = some (e, w')) : w.Tells s root entered e w' := by
  obtain ⟨v, hlocations, hcases⟩ := pending_of_next? h
  have hv : v.IsWithin entered := by
    intro d hd
    obtain ⟨d', hd', hsame⟩ := hlocations d hd
    exact hsame ▸ hw d' hd'
  rcases hcases with ⟨rfl, rfl, hpending⟩ | ⟨p, hpending, hlook⟩
  · exact ⟨by rw [hpending], hv⟩
  rcases hv.look_sight s root p with ⟨he, hsight⟩ | ⟨he, hsight⟩ | ⟨he, hsight⟩
  · rw [he] at hlook
    obtain ⟨rfl, rfl⟩ := Prod.mk.inj hlook
    exact ⟨p, rfl, hsight, hpending, hv⟩
  · rw [he] at hlook
    obtain ⟨rfl, rfl⟩ := Prod.mk.inj hlook
    exact ⟨v, rfl, hsight, hpending, hv⟩
  · have hpass : s.walkFrom root entered w.pending = s.walkFrom root entered v.pending := by
      rw [hpending, walkFrom_pass _ hsight]
    rcases he with he | he <;> rw [he] at hlook <;> obtain ⟨rfl, rfl⟩ := Prod.mk.inj hlook
    · exact ⟨hpass, hv⟩
    · exact ⟨hpass, hv⟩

/-- **A walk needs no watch for links back into the directories it is in.** -/
theorem Walker.IsWithin.filesFrom_eq (hw : w.IsWithin entered) :
    s.filesFrom root entered w = s.walkFrom root entered w.pending := by
  fun_induction filesFrom s root entered w with
  | case1 entered w h => rw [pending_eq_nil_of_next? h, walkFrom]
  | case2 entered w trail w' h ih =>
    obtain ⟨p, rfl, hsight, hpending, hw'⟩ := hw.tells h
    rw [hpending, walkFrom, hsight, ih hw']
  | case3 entered w p w' h l links hcanonical hnew ih =>
    obtain ⟨v, rfl, hsight, hpending, hv⟩ := hw.tells h
    obtain ⟨hopened, hbelow⟩ := Pending.pending_opened root hcanonical
    rw [hpending, walkFrom, hsight, Pending.directorySight, hcanonical, ih ?_]
    · simp only [hnew, if_true, pending, List.flatMap_cons, hbelow]
    · intro d hd
      rcases List.mem_cons.1 hd with rfl | hd
      · rw [hopened]
        simp
      · exact List.mem_cons_of_mem l (hv d hd)
  | case4 entered w p w' h l links hcanonical hnew ih =>
    obtain ⟨v, rfl, hsight, hpending, hv⟩ := hw.tells h
    rw [hpending, walkFrom, hsight, Pending.directorySight, hcanonical]
    exact (ih hv).trans (if_neg hnew).symm
  | case5 entered w p w' h hcanonical ih =>
    obtain ⟨v, rfl, hsight, hpending, hv⟩ := hw.tells h
    rw [hpending, walkFrom, hsight, Pending.directorySight, hcanonical]
    exact ih hv
  | case6 entered w w' h ih | case7 entered w w' h ih =>
    obtain ⟨hpending, hw'⟩ := hw.tells h
    rw [hpending, ih hw']

/-- **A walk is one recursion over the names that are pending.** -/
theorem walk_eq (s : Storage) (root : Location) :
    s.walk root = s.walkFrom root [root] (s.pendingIn root [] linkLimit) := by
  have hw : Walker.IsWithin [root] [⟨root, (s.pendingIn root [] linkLimit).map some⟩] := by
    intro d hd
    obtain rfl := List.mem_singleton.1 hd
    simp
  have hpending : Walker.pending [⟨root, (s.pendingIn root [] linkLimit).map some⟩] =
      s.pendingIn root [] linkLimit := by
    simp [Walker.pending, List.filterMap_map]
  rw [walk, hw.filesFrom_eq, hpending]

end

/-! ## Moments -/

/-- The directories entered so far, and the names still to look at. -/
structure Moment where
  entered : List Location
  pending : List Pending
  deriving DecidableEq

/-- The moment after the first of the names has been looked at. -/
def Moment.next (s : Storage) (root : Location) (m : Moment) : Moment :=
  match m.pending with
  | [] => m
  | p :: rest =>
    match p.sight s root with
    | .directory l links =>
      if s.isUnentered m.entered l then ⟨l :: m.entered, s.pendingBelow root p l links ++ rest⟩
      else ⟨m.entered, rest⟩
    | _ => ⟨m.entered, rest⟩

/-- The moments of a walk that starts at `root`. -/
def moment (s : Storage) (root : Location) : Nat → Moment
  | 0 => ⟨[root], s.pendingIn root [] linkLimit⟩
  | n + 1 => (s.moment root n).next s root

/-- A name that is looked at in a walk. -/
def IsLookedAt (s : Storage) (root : Location) (p : Pending) : Prop :=
  ∃ n rest, (s.moment root n).pending = p :: rest

section

variable {s : Storage} {root : Location} {m : Moment} {p : Pending} {rest : List Pending}

/-- **What a look can do**: enter a directory that has not been entered, or nothing but look. -/
theorem Moment.next_cases (s : Storage) (root : Location) (h : m.pending = p :: rest) :
    (∃ l links, p.sight s root = .directory l links ∧ l ∉ m.entered ∧
      m.next s root = ⟨l :: m.entered, s.pendingBelow root p l links ++ rest⟩) ∨
    (m.next s root = ⟨m.entered, rest⟩ ∧ ∀ l links, p.sight s root = .directory l links →
      s.entryAt? l = some .directory → l ∈ m.entered) := by
  cases hsight : p.sight s root with
  | file => exact .inr ⟨by simp [Moment.next, h, hsight], fun l links he => by cases he⟩
  | nothing => exact .inr ⟨by simp [Moment.next, h, hsight], fun l links he => by cases he⟩
  | directory l links =>
    by_cases hnew : s.isUnentered m.entered l = true
    · refine .inl ⟨l, links, rfl, ?_, by simp [Moment.next, h, hsight, hnew]⟩
      simp only [isUnentered, Bool.and_eq_true, Bool.not_eq_true', List.contains_eq_mem,
        decide_eq_false_iff_not] at hnew
      exact hnew.2
    · refine .inr ⟨by simp [Moment.next, h, hsight, hnew], fun l' links' he hdir => ?_⟩
      obtain ⟨rfl, rfl⟩ := Sight.directory.inj he
      simpa [isUnentered, hdir] using hnew

theorem Moment.entered_subset_next {d : Location} (h : d ∈ m.entered) :
    d ∈ (m.next s root).entered := by
  cases hm : m.pending with
  | nil => simpa [Moment.next, hm] using h
  | cons p rest =>
    rcases Moment.next_cases s root hm with ⟨l, links, -, -, hn⟩ | ⟨hn, -⟩
    · simp [hn, h]
    · simp [hn, h]

theorem Moment.pending_subset_next (h : m.pending = p :: rest) {q : Pending} (hq : q ∈ rest) :
    q ∈ (m.next s root).pending := by
  rcases Moment.next_cases s root h with ⟨l, links, -, -, hn⟩ | ⟨hn, -⟩
  · simp [hn, hq]
  · simp [hn, hq]

theorem moment_succ_of_pending_eq_nil {n : Nat} (h : (s.moment root n).pending = []) :
    s.moment root (n + 1) = s.moment root n := by
  simp [moment, Moment.next, h]

/-- The files found from a moment on: the name that is looked at, if it is one, and those found from
the next moment on. -/
theorem walkFrom_eq (h : m.pending = p :: rest) :
    s.walkFrom root m.entered m.pending =
      (if p.sight s root = .file then [p.trail] else []) ++
        s.walkFrom root (m.next s root).entered (m.next s root).pending := by
  rw [h, walkFrom]
  cases hsight : p.sight s root with
  | file => simp [Moment.next, h, hsight]
  | nothing => simp [Moment.next, h, hsight]
  | directory l links =>
    by_cases hnew : s.isUnentered m.entered l = true
    · simp [Moment.next, h, hsight, hnew]
    · simp [Moment.next, h, hsight, hnew]

/-- What holds where nothing is pending, and passes from each moment to the one before it, holds at
every moment. -/
theorem moment_induction (s : Storage) (root : Location) {motive : Nat → Prop}
    (hend : ∀ n, (s.moment root n).pending = [] → motive n)
    (hlook : ∀ n p rest, (s.moment root n).pending = p :: rest → motive (n + 1) → motive n)
    (n : Nat) : motive n := by
  -- The recursion of the walk goes through the moments, and it ends.
  suffices h : ∀ entered pending, ∀ n, s.moment root n = ⟨entered, pending⟩ → motive n from
    h _ _ n rfl
  intro entered pending
  induction entered, pending using walkFrom.induct s root with
  | case1 entered => exact fun n hn => hend n (by rw [hn])
  | case2 entered p rest hsight ih =>
    intro n hn
    refine hlook n p rest (by rw [hn]) (ih (n + 1) ?_)
    simp [moment, hn, Moment.next, hsight]
  | case3 entered p rest l links hsight hnew ih =>
    intro n hn
    refine hlook n p rest (by rw [hn]) (ih (n + 1) ?_)
    simp [moment, hn, Moment.next, hsight, hnew]
  | case4 entered p rest l links hsight hnew ih =>
    intro n hn
    refine hlook n p rest (by rw [hn]) (ih (n + 1) ?_)
    simp [moment, hn, Moment.next, hsight, hnew]
  | case5 entered p rest hsight ih =>
    intro n hn
    refine hlook n p rest (by rw [hn]) (ih (n + 1) ?_)
    simp [moment, hn, Moment.next, hsight]

/-- **A walk comes to an end.** -/
theorem exists_moment_pending_eq_nil (s : Storage) (root : Location) :
    ∃ n, (s.moment root n).pending = [] := by
  have h : Nat → ∃ n, (s.moment root n).pending = [] :=
    moment_induction s root (fun n hn => ⟨n, hn⟩) fun _ _ _ _ h => h
  exact h 0

theorem isLookedAt_of_mem_pending {n : Nat} (h : p ∈ (s.moment root n).pending) :
    s.IsLookedAt root p := by
  induction n using moment_induction s root with
  | hend n hn =>
    rw [hn] at h
    cases h
  | hlook n q rest hn ih =>
    rw [hn] at h
    rcases List.mem_cons.1 h with rfl | hp
    · exact ⟨n, rest, hn⟩
    · exact ih (Moment.pending_subset_next hn hp)

theorem walkFrom_moment_suffix (s : Storage) (root : Location) (n : Nat) :
    s.walkFrom root (s.moment root n).entered (s.moment root n).pending <:+ s.walk root := by
  induction n with
  | zero =>
    rw [walk_eq]
    exact List.suffix_rfl
  | succ n ih =>
    cases hm : (s.moment root n).pending with
    | nil =>
      rw [moment_succ_of_pending_eq_nil hm]
      exact ih
    | cons p rest =>
      rw [walkFrom_eq hm] at ih
      exact (List.suffix_append _ _).trans ih

/-- **The files of a walk are the files that are looked at.** -/
theorem mem_walk_iff {t : List Text} :
    t ∈ s.walk root ↔ ∃ p, s.IsLookedAt root p ∧ p.sight s root = .file ∧ p.trail = t := by
  constructor
  · have hfrom : ∀ n, t ∈ s.walkFrom root (s.moment root n).entered (s.moment root n).pending →
        ∃ p, s.IsLookedAt root p ∧ p.sight s root = .file ∧ p.trail = t := by
      intro n
      induction n using moment_induction s root with
      | hend n hn =>
        rw [hn, walkFrom]
        exact fun h => by cases h
      | hlook n p rest hn ih =>
        intro h
        rw [walkFrom_eq hn, List.mem_append] at h
        rcases h with h | h
        · split at h
          next hsight =>
            obtain rfl := List.mem_singleton.1 h
            exact ⟨p, ⟨n, rest, hn⟩, hsight, rfl⟩
          next => cases h
        · exact ih h
    rw [walk_eq]
    exact hfrom 0
  · rintro ⟨p, ⟨n, rest, hn⟩, hsight, rfl⟩
    refine (walkFrom_moment_suffix s root n).subset ?_
    rw [walkFrom_eq hn, if_pos hsight]
    simp

end

/-! ## What a look sees -/

section

variable {s : Storage} {root : Location} {p : Pending}

theorem mem_pendingIn {dir : Location} {names : List Text} {links : Nat} :
    p ∈ s.pendingIn dir names links ↔ ∃ name ∈ s.names dir, ⟨dir, names, name, links⟩ = p :=
  List.mem_map

theorem mem_pendingBelow {q : Pending} {l : Location} {links : Nat}
    (h : q ∈ s.pendingBelow root p l links) :
    ∃ name ∈ s.names l, ⟨l, p.trail, name, links⟩ = q := by
  unfold pendingBelow at h
  split at h
  · exact mem_pendingIn.1 h
  · cases h

/-- What is pending after a look was pending, or is a name in the directory that was entered. -/
theorem Moment.pending_next_cases {m : Moment} {q : Pending} (h : q ∈ (m.next s root).pending) :
    q ∈ m.pending ∨ ∃ p rest l links name, m.pending = p :: rest ∧
      p.sight s root = .directory l links ∧ l ∉ m.entered ∧ ⟨l, p.trail, name, links⟩ = q := by
  cases hm : m.pending with
  | nil =>
    rw [Moment.next, hm] at h
    exact .inl (hm ▸ h)
  | cons p rest =>
    rcases Moment.next_cases s root hm with ⟨l, links, hsight, hnew, hn⟩ | ⟨hn, -⟩
    · rw [hn] at h
      rcases List.mem_append.1 h with hq | hq
      · obtain ⟨name, -, hq⟩ := mem_pendingBelow hq
        exact .inr ⟨p, rest, l, links, name, rfl, hsight, hnew, hq⟩
      · exact .inl (List.mem_cons_of_mem p hq)
    · rw [hn] at h
      exact .inl (List.mem_cons_of_mem p h)

theorem Pending.resolve_of_directorySight {l : Location} {links : Nat}
    (h : p.directorySight s = .directory l links) :
    s.resolve .canonical p.links p.directory [p.name] = .found l .directory links := by
  unfold Pending.directorySight at h
  split at h
  next hr =>
    obtain ⟨rfl, rfl⟩ := Sight.directory.inj h
    exact canonical?_eq_some_iff.1 hr
  next => cases h

/-- A directory that is seen is where the name leads by way of places that can be spelled out. -/
theorem Pending.resolve_of_sight {l : Location} {links : Nat}
    (h : p.sight s root = .directory l links) :
    s.resolve .canonical p.links p.directory [p.name] = .found l .directory links := by
  unfold Pending.sight at h
  split at h
  · cases h
  · exact resolve_of_directorySight h
  · split at h
    · unfold Pending.linkSight at h
      split at h
      · cases h
      · exact resolve_of_directorySight h
      · cases h
    · cases h
  · cases h

theorem Pending.leadsTo_of_sight {l : Location} {links : Nat}
    (h : p.sight s root = .directory l links) : s.LeadsTo p.directory p.name l .directory :=
  ⟨_, _, ((leads_iff.2 (resolve_of_sight h)).follow rfl rfl).resolve_eq⟩

/-- A file that is seen is where the name leads, with the links that are left for it. -/
theorem Pending.leads_of_sight_file (hname : IsEntryName p.name) (h : p.sight s root = .file) :
    ∃ l content left,
      Leads s .follow p.links p.directory [p.name] (.found l (.file content) left) := by
  unfold Pending.sight at h
  split at h
  next content he =>
    have hup : IsLookedUp .follow p.directory p.name := hname.isLookedUp (fun h => by cases h)
    exact ⟨_, content, _, .leaf hup he (by simp) (by simp)⟩
  next =>
    unfold Pending.directorySight at h
    split at h <;> cases h
  next =>
    split at h
    · unfold Pending.linkSight at h
      split at h
      next l content left hr => exact ⟨l, content, left, leads_iff.2 hr⟩
      next =>
        unfold Pending.directorySight at h
        split at h <;> cases h
      next => cases h
    · cases h
  next => cases h

theorem Pending.leadsTo_of_sight_file (hname : IsEntryName p.name)
    (h : p.sight s root = .file) : ∃ l content, s.LeadsTo p.directory p.name l (.file content) := by
  obtain ⟨l, content, left, hl⟩ := leads_of_sight_file hname h
  exact ⟨l, content, _, left, hl.resolve_eq⟩

end

/-! ## The order of what is pending -/

/-- A name in a directory that is reached by a way through directories that have been entered. -/
structure Pending.IsOnWay (s : Storage) (root : Location) (entered : List Location) (p : Pending) :
    Prop where
  way : ∃ before, Way s root p.names (p.directory :: before) ∧
    ∀ d ∈ p.directory :: before, d ∈ entered
  listed : p.name ∈ s.names p.directory

/-- The names are on ways that lie one inside another and come in order, behind those to the
directories entered. -/
structure Moment.IsOrderly (s : Storage) (root : Location) (m : Moment) : Prop where
  entered : ∀ d ∈ m.entered, ∃ names before, Way s root names (d :: before) ∧
    ∀ p ∈ m.pending, names <+: p.names ∨ Before names p.trail
  pending : ∀ p ∈ m.pending, p.IsOnWay s root m.entered
  nested : m.pending.Pairwise fun p q => q.names <+: p.names
  ordered : m.pending.Pairwise fun p q => Before p.trail q.trail

section

variable {s : Storage} {root : Location} {m : Moment}

theorem ordered_pendingIn (s : Storage) (dir : Location) (names : List Text) (links : Nat) :
    (s.pendingIn dir names links).Pairwise fun p q => Before p.trail q.trail := by
  refine List.pairwise_map.2 ((s.sorted_names dir).imp ?_)
  exact fun hab => before_append hab names [] []

theorem ordered_pendingBelow (s : Storage) (root : Location) (p : Pending) (l : Location)
    (links : Nat) :
    (s.pendingBelow root p l links).Pairwise fun p q => Before p.trail q.trail := by
  unfold pendingBelow
  split
  · exact ordered_pendingIn ..
  · exact .nil

theorem Moment.isOrderly_start (s : Storage) (root : Location) :
    (s.moment root 0).IsOrderly s root := by
  refine ⟨fun d hd => ?_, fun p hp => ?_, ?_, ordered_pendingIn ..⟩
  · obtain rfl := List.mem_singleton.1 hd
    exact ⟨[], [], .start, fun p _ => .inl List.nil_prefix⟩
  · obtain ⟨name, hname, rfl⟩ := mem_pendingIn.1 hp
    exact ⟨⟨[], .start, fun d hd => hd⟩, hname⟩
  · refine List.pairwise_map.2 (List.pairwise_of_forall ?_)
    exact fun _ _ => List.nil_prefix

theorem Pending.IsOnWay.mono {p : Pending} {entered entered' : List Location}
    (h : p.IsOnWay s root entered) (hsub : ∀ d ∈ entered, d ∈ entered') :
    p.IsOnWay s root entered' := by
  obtain ⟨before, hway, hmem⟩ := h.way
  exact ⟨⟨before, hway, fun d hd => hsub d (hmem d hd)⟩, h.listed⟩

/-- Entering a directory keeps the order: it is reached by the way of the name that was looked at,
and its names stand before all others. -/
theorem Moment.IsOrderly.enter {entered : List Location} {p : Pending} {rest : List Pending}
    (h : Moment.IsOrderly s root ⟨entered, p :: rest⟩) {l : Location} {links : Nat}
    (hsight : p.sight s root = .directory l links) (hnew : l ∉ entered) :
    Moment.IsOrderly s root ⟨l :: entered, s.pendingBelow root p l links ++ rest⟩ := by
  have hp := h.pending p (by simp)
  have hordered := List.pairwise_cons.1 h.ordered
  have hnested := List.pairwise_cons.1 h.nested
  obtain ⟨before, hway, hmem⟩ := hp.way
  have hl : Way s root p.trail (l :: p.directory :: before) :=
    .step hway hp.listed (Pending.leadsTo_of_sight hsight) fun hd => hnew (hmem l hd)
  refine ⟨fun d hd => ?_, fun q hq => ?_, ?_, ?_⟩
  · rcases List.mem_cons.1 hd with rfl | hd
    · refine ⟨p.trail, _, hl, fun q hq => ?_⟩
      rcases List.mem_append.1 hq with hq | hq
      · obtain ⟨name, -, rfl⟩ := mem_pendingBelow hq
        exact .inl List.prefix_rfl
      · exact .inr (hordered.1 q hq)
    · obtain ⟨names, before', hw, hbefore⟩ := h.entered d hd
      refine ⟨names, before', hw, fun q hq => ?_⟩
      rcases List.mem_append.1 hq with hq | hq
      · obtain ⟨name, -, rfl⟩ := mem_pendingBelow hq
        rcases hbefore p (by simp) with hb | hb
        · exact .inl (hb.trans (List.prefix_append _ _))
        · exact .inr (by simpa [Pending.trail] using hb.append [] [name])
      · exact hbefore q (by simp [hq])
  · rcases List.mem_append.1 hq with hq | hq
    · obtain ⟨name, hname, rfl⟩ := mem_pendingBelow hq
      refine ⟨⟨_, hl, fun d hd => ?_⟩, hname⟩
      rcases List.mem_cons.1 hd with rfl | hd
      · simp
      · exact List.mem_cons_of_mem l (hmem d hd)
    · exact (h.pending q (by simp [hq])).mono fun d hd => List.mem_cons_of_mem l hd
  · refine List.pairwise_append.2 ⟨?_, hnested.2, fun q hq r hr => ?_⟩
    · refine List.pairwise_of_forall_mem_list fun q hq r hr => ?_
      obtain ⟨_, -, rfl⟩ := mem_pendingBelow hq
      obtain ⟨_, -, rfl⟩ := mem_pendingBelow hr
      exact List.prefix_rfl
    · obtain ⟨_, -, rfl⟩ := mem_pendingBelow hq
      exact (hnested.1 r hr).trans (List.prefix_append _ _)
  · refine List.pairwise_append.2 ⟨ordered_pendingBelow .., hordered.2, fun q hq r hr => ?_⟩
    obtain ⟨name, -, rfl⟩ := mem_pendingBelow hq
    simpa [Pending.trail] using (hordered.1 r hr).append [name] []

theorem Moment.IsOrderly.pass {entered : List Location} {p : Pending} {rest : List Pending}
    (h : Moment.IsOrderly s root ⟨entered, p :: rest⟩) :
    Moment.IsOrderly s root ⟨entered, rest⟩ := by
  refine ⟨fun d hd => ?_, fun q hq => h.pending q (by simp [hq]),
    (List.pairwise_cons.1 h.nested).2, (List.pairwise_cons.1 h.ordered).2⟩
  obtain ⟨names, before, hw, hbefore⟩ := h.entered d hd
  exact ⟨names, before, hw, fun q hq => hbefore q (by simp [hq])⟩

/-- **A look leaves the order as it is.** -/
theorem Moment.IsOrderly.next (h : m.IsOrderly s root) : (m.next s root).IsOrderly s root := by
  obtain ⟨entered, pending⟩ := m
  cases pending with
  | nil => exact h
  | cons p rest =>
    rcases Moment.next_cases s root (m := ⟨entered, p :: rest⟩) rfl with
      ⟨l, links, hsight, hnew, hn⟩ | ⟨hn, -⟩
    · rw [hn]
      exact h.enter hsight hnew
    · rw [hn]
      exact h.pass

/-- **At every moment what is pending is in order.** -/
theorem isOrderly_moment (s : Storage) (root : Location) (n : Nat) :
    (s.moment root n).IsOrderly s root := by
  induction n with
  | zero => exact Moment.isOrderly_start s root
  | succ n ih => exact ih.next

theorem IsLookedAt.isOnWay {p : Pending} (h : s.IsLookedAt root p) :
    ∃ entered, p.IsOnWay s root entered := by
  obtain ⟨n, rest, hn⟩ := h
  exact ⟨_, (isOrderly_moment s root n).pending p (by simp [hn])⟩

/-- A directory is found at its location, if this need not be spelled out or can be. -/
theorem leads_location (hs : s.IsFileTree) {m : Manner} (hm : m.followLast = true)
    {l t : Location} {links : Nat} (hl : s.entryAt? (l ++ t) = some .directory)
    (hspell : m.spelled = true → isSpellable (l ++ t) = true) :
    Leads s m links l t (.found (l ++ t) .directory links) := by
  induction t using List.reverseRecOn with
  | nil =>
    rw [List.append_nil]
    exact .done
  | append_singleton t name ih =>
    rw [← List.append_assoc] at hl hspell ⊢
    have hup : IsLookedUp m (l ++ t) name := (hs.names hl name (by simp)).isLookedUp hspell
    have ht := ih (hs.parent _ _ _ hl) fun hspelled => isSpellable_of_append (hspell hspelled)
    exact ht.goOn hm rfl (.directory hup hl .done)

/-- **The names of a walk lead to the directory that they are said to lead to**, with as many links
as are said to be left; and by way of places that can be spelled out, if the walk starts at one. -/
theorem leads_of_mem_pending (hs : s.IsFileTree) (hroot : s.entryAt? root = some .directory)
    {m : Manner} (hm : m.followLast = true) (hspell : m.spelled = true → isSpellable root = true)
    (n : Nat) : ∀ p ∈ (s.moment root n).pending,
      Leads s m linkLimit [] (root ++ p.names) (.found p.directory .directory p.links) := by
  induction n with
  | zero =>
    intro p hp
    obtain ⟨name, -, rfl⟩ := mem_pendingIn.1 hp
    simpa using leads_location (l := []) hs hm hroot hspell
  | succ n ih =>
    intro q hq
    rcases Moment.pending_next_cases hq with hq | ⟨p, rest, l, links, name, hn, hsight, -, rfl⟩
    · exact ih q hq
    · have hp := ih p (by simp [hn])
      have hl := (leads_iff.2 (Pending.resolve_of_sight hsight)).follow hm rfl
      simpa [Pending.trail] using hp.goOn hm rfl hl

/-- What is found from a moment on lies behind what is pending there, and comes in order. -/
theorem ordered_walkFrom (s : Storage) (root : Location) (n : Nat) :
    (s.walkFrom root (s.moment root n).entered (s.moment root n).pending).Pairwise Before ∧
      ∀ t ∈ s.walkFrom root (s.moment root n).entered (s.moment root n).pending,
        ∃ p ∈ (s.moment root n).pending, p.trail <+: t := by
  induction n using moment_induction s root with
  | hend n hn =>
    rw [hn, walkFrom]
    exact ⟨.nil, fun t ht => by cases ht⟩
  | hlook n p rest hn ih =>
    have hordered := (isOrderly_moment s root n).ordered
    rw [hn, List.pairwise_cons] at hordered
    rw [walkFrom_eq hn]
    rcases Moment.next_cases s root hn with
      ⟨l, links, hsight, -, hnext⟩ | ⟨hnext, -⟩
    · rw [if_neg (by simp [hsight]), List.nil_append]
      refine ⟨ih.1, fun t ht => ?_⟩
      obtain ⟨q, hq, hqt⟩ := ih.2 t ht
      rw [moment, hnext] at hq
      rcases List.mem_append.1 hq with hq | hq
      · obtain ⟨name, -, rfl⟩ := mem_pendingBelow hq
        exact ⟨p, by simp [hn], (List.prefix_append p.trail [name]).trans hqt⟩
      · exact ⟨q, by simp [hn, hq], hqt⟩
    · have hlater : ∀ t ∈ s.walkFrom root ((s.moment root n).next s root).entered
          ((s.moment root n).next s root).pending, ∃ q ∈ rest, q.trail <+: t := by
        intro t ht
        obtain ⟨q, hq, hqt⟩ := ih.2 t ht
        rw [moment, hnext] at hq
        exact ⟨q, hq, hqt⟩
      refine ⟨List.pairwise_append.2 ⟨by split <;> simp, ih.1, fun t ht u hu => ?_⟩, ?_⟩
      · split at ht
        · obtain rfl := List.mem_singleton.1 ht
          obtain ⟨q, hq, x, rfl⟩ := hlater u hu
          simpa using (hordered.1 q hq).append [] x
        · cases ht
      · intro t ht
        rcases List.mem_append.1 ht with ht | ht
        · split at ht
          · obtain rfl := List.mem_singleton.1 ht
            exact ⟨p, by simp [hn], List.prefix_rfl⟩
          · cases ht
        · obtain ⟨q, hq, hqt⟩ := hlater t ht
          exact ⟨q, by simp [hn, hq], hqt⟩

/-- **A walk lists its files in the order of their names**, each once. -/
theorem sorted_walk (s : Storage) (root : Location) : (s.walk root).Pairwise (· < ·) := by
  rw [walk_eq]
  exact (ordered_walkFrom s root 0).1.imp Before.lt

theorem nodup_walk (s : Storage) (root : Location) : (s.walk root).Nodup := by
  refine (s.sorted_walk root).imp ?_
  rintro t _ hlt rfl
  exact List.lt_irrefl t hlt

end

end Storage

end LocaleSync
