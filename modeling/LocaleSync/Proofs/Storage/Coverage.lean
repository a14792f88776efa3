/-
What a walk covers. Where the limits on paths do not show (`IsWithinLimits`), a walk looks at every
name of every directory that can be reached (`exists_isLookedAt`), and it enters each directory by
the first of all ways there (`IsLookedAt.isFirst`). So its files are those that names lead to, each
by the first way to the directory that it is named in (`mem_walk_iff_isFirst`).

Both rest on what a moment leaves behind: a name of a directory that has been entered is pending, or
it was looked at and what it leads to has been entered (`isClosed_moment`). A way that comes before
what is pending therefore leads only to what has been entered (`Moment.IsClosed.mem_entered`).

A directory below the root is entered by its own names if they are the first way there, whatever
the limits (`isLookedAt_of_isFirst`).
-/
import LocaleSync.Proofs.Storage.Walk

namespace LocaleSync

namespace Storage

/-! ## Directories that can be reached -/

/-- The directories that names lead to from a first one. -/
inductive Reached (s : Storage) (root : Location) : Location → Prop where
  | root : Reached s root root
  | step {d name l} : Reached s root d → name ∈ s.names d → s.LeadsTo d name l .directory →
      Reached s root l

theorem Reached.directory {s : Storage} (hs : s.IsTree) {root : Location}
    (hroot : s.entryAt? root = some .directory) {d : Location} (h : s.Reached root d) :
    s.entryAt? d = some .directory := by
  induction h with
  | root => exact hroot
  | step _ _ hl ih => exact hl.entry hs ih

theorem Way.reached {s : Storage} {root : Location} {names : List Text} {ds : List Location}
    (h : Way s root names ds) : ∀ d ∈ ds, s.Reached root d := by
  induction h with
  | start =>
    intro d hd
    obtain rfl := List.mem_singleton.1 hd
    exact .root
  | @step names d before name l _ hname hl _ ih =>
    intro d' hd
    rcases List.mem_cons.1 hd with rfl | hd
    · exact .step (ih d (by simp)) hname hl
    · exact ih d' hd

/-! ## Limits -/

/-- Where a name leads with any number of links, it leads with those that are left. -/
def Pending.HasLinks (s : Storage) (p : Pending) : Prop :=
  ∀ l e, s.LeadsTo p.directory p.name l e →
    ∃ left, s.resolve .follow p.links p.directory [p.name] = .found l e left

/-- The path to a name, unless the name is a file, is short enough to be used, and so are the paths
of the places by which it leads to a directory. -/
structure Pending.IsShort (s : Storage) (root : Location) (p : Pending) : Prop where
  path : (∀ content, s.entryAt? (p.directory ++ [p.name]) ≠ some (.file content)) →
    p.isUsable root = true
  places : ∀ l left, s.resolve .follow p.links p.directory [p.name] = .found l .directory left →
    s.resolve .canonical p.links p.directory [p.name] = .found l .directory left

/-- No path of a walk meets a limit: there are links enough, and it is short enough. -/
structure IsWithinLimits (s : Storage) (root : Location) : Prop where
  spellable : isSpellable root = true
  links : ∀ p, s.IsLookedAt root p → p.HasLinks s
  short : ∀ p, s.IsLookedAt root p → p.IsShort s root

section

variable {s : Storage} {root : Location} {p : Pending} {l : Location}

/-- A name that is not blocked has links enough. -/
theorem Pending.hasLinks_of_ne_blocked
    (h : s.resolve .follow p.links p.directory [p.name] ≠ .blocked) : p.HasLinks s := by
  rintro l e ⟨n, k, hn⟩
  have hmore := ((leads_resolve s .follow p.links p.directory [p.name]).more h n).resolve_eq
  rw [Nat.add_comm, ((leads_iff.2 hn).more (by simp) p.links).resolve_eq] at hmore
  cases hr : s.resolve .follow p.links p.directory [p.name] with
  | found l' e' left =>
    rw [hr] at hmore
    obtain ⟨rfl, rfl, -⟩ := Target.found.inj hmore
    exact ⟨left, rfl⟩
  | vacant | missing | blocked =>
    rw [hr] at hmore
    cases hmore

/-- A name that leads to a directory is seen to, if there are links enough and the way is short. -/
theorem Pending.sight_of_leadsTo (hname : IsEntryName p.name) (hlinks : p.HasLinks s)
    (hshort : p.IsShort s root) (h : s.LeadsTo p.directory p.name l .directory) :
    p.isUsable root = true ∧ ∃ links, p.sight s root = .directory l links := by
  obtain ⟨left, hfollow⟩ := hlinks l _ h
  have hdirectory : p.directorySight s = .directory l left := by
    simp [Pending.directorySight, Pending.canonical?, hshort.places l left hfollow]
  rcases h.entry_or_link hname with he | ⟨target, he⟩
  · exact ⟨hshort.path (by simp [he]), left, by simp [Pending.sight, he, hdirectory]⟩
  · have husable := hshort.path (by simp [he])
    refine ⟨husable, left, ?_⟩
    simp [Pending.sight, he, husable, Pending.linkSight, Pending.target, hfollow, hdirectory]

/-- A name that leads to a file is seen to, if there are links enough and the way is short. -/
theorem Pending.sight_of_leadsTo_file (hname : IsEntryName p.name) (hlinks : p.HasLinks s)
    (hshort : p.IsShort s root) {content : Bytes}
    (h : s.LeadsTo p.directory p.name l (.file content)) : p.sight s root = .file := by
  obtain ⟨left, hfollow⟩ := hlinks l _ h
  rcases h.entry_or_link hname with he | ⟨target, he⟩
  · simp [Pending.sight, he]
  · have husable := hshort.path (by simp [he])
    simp [Pending.sight, he, husable, Pending.linkSight, Pending.target, hfollow]

end

section

variable {s : Storage} {root : Location}

/-- What is looked at can be checked moment by moment, up to one where nothing is pending. -/
theorem forall_isLookedAt {n : Nat} (hn : (s.moment root n).pending = []) {holds : Pending → Bool}
    (h : (List.range n).all (fun k => (s.moment root k).pending.head?.all holds) = true) :
    ∀ p, s.IsLookedAt root p → holds p = true := by
  rintro p ⟨k, rest, hk⟩
  have hlater : ∀ i, (s.moment root (n + i)).pending = [] := by
    intro i
    induction i with
    | zero => exact hn
    | succ i ih => rw [← Nat.add_assoc, moment_succ_of_pending_eq_nil ih, ih]
  have hlt : k < n := by
    by_contra hle
    have hnil := hlater (k - n)
    rw [Nat.add_sub_cancel' (by omega), hk] at hnil
    cases hnil
  simpa [hk] using List.all_eq_true.1 h k (List.mem_range.2 hlt)

/-- Whether a name meets no limit. -/
def Pending.isWithinLimits (s : Storage) (root : Location) (p : Pending) : Bool :=
  p.isUsable root && s.resolve .follow p.links p.directory [p.name] ≠ .blocked &&
    s.resolve .canonical p.links p.directory [p.name] =
      s.resolve .follow p.links p.directory [p.name]

theorem isWithinLimits_of_forall (hroot : isSpellable root = true)
    (h : ∀ p, s.IsLookedAt root p → p.isWithinLimits s root = true) : s.IsWithinLimits root := by
  simp only [Pending.isWithinLimits, Bool.and_eq_true, decide_eq_true_eq] at h
  refine ⟨hroot, fun p hp => Pending.hasLinks_of_ne_blocked (h p hp).1.2, fun p hp => ?_⟩
  obtain ⟨⟨husable, -⟩, hsame⟩ := h p hp
  exact ⟨fun _ => husable, fun l left hl => hsame.trans hl⟩

end

/-! ## What a moment leaves behind -/

/-- Every name of a directory that has been entered is pending, or it was looked at and the
directory that it leads to has been entered. -/
def Moment.IsClosed (s : Storage) (root : Location) (m : Moment) : Prop :=
  ∀ d ∈ m.entered, ∀ name ∈ s.names d, ∃ p : Pending, p.directory = d ∧ p.name = name ∧
    (p ∈ m.pending ∨
      s.IsLookedAt root p ∧ ∀ l, s.LeadsTo d name l .directory → l ∈ m.entered)

section

variable {s : Storage} {root : Location}

theorem entryAt?_of_mem_entered (hs : s.IsTree) (hroot : s.entryAt? root = some .directory)
    {n : Nat} {d : Location} (h : d ∈ (s.moment root n).entered) :
    s.entryAt? d = some .directory := by
  obtain ⟨names, before, hway, -⟩ := (isOrderly_moment s root n).entered d h
  exact (hway.reached d (by simp)).directory hs hroot

/-- **A look leaves nothing behind.** -/
theorem Moment.IsClosed.next (hs : s.IsFileTree) (hroot : s.entryAt? root = some .directory)
    (hlimits : s.IsWithinLimits root) {n : Nat} (h : (s.moment root n).IsClosed s root) :
    (s.moment root (n + 1)).IsClosed s root := by
  cases hm : (s.moment root n).pending with
  | nil =>
    rw [moment_succ_of_pending_eq_nil hm]
    exact h
  | cons p rest =>
    have hlooked : s.IsLookedAt root p := ⟨n, rest, hm⟩
    have hp := (isOrderly_moment s root n).pending p (by simp [hm])
    have hname := hs.isEntryName hp.listed
    -- What the name that is looked at leads to has been entered by then.
    have hseen : ∀ l, s.LeadsTo p.directory p.name l .directory →
        p.isUsable root = true ∧ l ∈ (s.moment root (n + 1)).entered := by
      intro l hl
      obtain ⟨husable, links, hsight⟩ :=
        Pending.sight_of_leadsTo hname (hlimits.links p hlooked) (hlimits.short p hlooked) hl
      refine ⟨husable, ?_⟩
      obtain ⟨before, -, hmem⟩ := hp.way
      have hdir := hl.entry hs.toIsTree
        (entryAt?_of_mem_entered hs.toIsTree hroot (hmem p.directory (by simp)))
      rcases Moment.next_cases s root hm with ⟨l', links', hsight', -, hn⟩ | ⟨hn, hpass⟩
      · rw [hsight] at hsight'
        obtain ⟨rfl, rfl⟩ := Sight.directory.inj hsight'
        simp [moment, hn]
      · simpa [moment, hn] using hpass l links hsight hdir
    have hold : ∀ d ∈ (s.moment root n).entered, ∀ name ∈ s.names d, ∃ q : Pending,
        q.directory = d ∧ q.name = name ∧ (q ∈ (s.moment root (n + 1)).pending ∨
          s.IsLookedAt root q ∧
            ∀ l, s.LeadsTo d name l .directory → l ∈ (s.moment root (n + 1)).entered) := by
      intro d hd name hname
      obtain ⟨q, rfl, rfl, hq⟩ := h d hd name hname
      refine ⟨q, rfl, rfl, ?_⟩
      rcases hq with hq | ⟨hq, hentered⟩
      · rw [hm] at hq
        rcases List.mem_cons.1 hq with rfl | hq
        · exact .inr ⟨hlooked, fun l hl => (hseen l hl).2⟩
        · exact .inl (Moment.pending_subset_next hm hq)
      · exact .inr ⟨hq, fun l hl => Moment.entered_subset_next (hentered l hl)⟩
    intro d hd name hname
    rcases Moment.next_cases s root hm with ⟨l, links, hsight, -, hn⟩ | ⟨hn, -⟩
    · rw [moment, hn] at hd
      rcases List.mem_cons.1 hd with rfl | hd
      · have husable := (hseen d (Pending.leadsTo_of_sight hsight)).1
        refine ⟨⟨d, p.trail, name, links⟩, rfl, rfl, .inl ?_⟩
        rw [moment, hn]
        simp [pendingBelow, husable, mem_pendingIn, hname]
      · exact hold d hd name hname
    · rw [moment, hn] at hd
      exact hold d hd name hname

theorem isClosed_moment (hs : s.IsFileTree) (hroot : s.entryAt? root = some .directory)
    (hlimits : s.IsWithinLimits root) (n : Nat) : (s.moment root n).IsClosed s root := by
  induction n with
  | zero =>
    intro d hd name hname
    obtain rfl := List.mem_singleton.1 hd
    exact ⟨⟨d, [], name, linkLimit⟩, rfl, rfl, .inl (mem_pendingIn.2 ⟨name, hname, rfl⟩)⟩
  | succ n ih => exact ih.next hs hroot hlimits

/-! ## First ways -/

variable {m : Moment} {p : Pending} {rest : List Pending} {names : List Text} {d : Location}
  {before : List Location}

theorem Pending.isPrefix_names {b : Text} {y : List Text} (h : p.trail = names ++ b :: y) :
    names <+: p.names := by
  have hlen := congrArg List.length h
  simp only [Pending.trail, List.length_append, List.length_cons, List.length_nil] at hlen
  have hnames : names <+: p.trail := ⟨b :: y, h.symm⟩
  exact List.prefix_of_prefix_length_le hnames (List.prefix_append _ _) (by omega)

/-- A name to which a way comes before all that is pending is not pending itself. -/
theorem Moment.IsOrderly.not_pending (h : m.IsOrderly s root)
    (hfirst : ∀ q ∈ m.pending, IsFirst s root q.names q.directory) (hm : m.pending = p :: rest)
    (hway : Way s root names (d :: before)) {name : Text} (hb : Before (names ++ [name]) p.trail)
    {q : Pending} (hq : q ∈ m.pending) (hd : q.directory = d) : q.name ≠ name := by
  rintro rfl
  subst hd
  obtain ⟨before', hqway, -⟩ := (h.pending q hq).way
  have hnested : q.names <+: p.names := by
    rw [hm] at hq
    rcases List.mem_cons.1 hq with rfl | hq
    · exact List.prefix_rfl
    · exact (List.pairwise_cons.1 (hm ▸ h.nested)).1 q hq
  rcases hb.of_concat with ⟨b, y, htrail⟩ | hbefore
  · -- The way goes along with the first pending one to its last directory, so it is that of `q`.
    have hnames := Pending.isPrefix_names htrail
    obtain rfl : names = q.names := by
      rcases List.prefix_or_prefix_of_prefix hnames hnested with hp | hp
      · exact hway.eq_of_isPrefix hqway hp
      · exact (hqway.eq_of_isPrefix hway hp).symm
    rw [hm] at hq
    rcases List.mem_cons.1 hq with rfl | hq
    · exact List.lt_irrefl _ hb.lt
    · exact List.lt_asymm hb.lt ((List.pairwise_cons.1 (hm ▸ h.ordered)).1 q hq).lt
  · -- The way branched off before, and cannot meet a first way behind that.
    obtain ⟨shared, a, b, x, y, rfl, htrail, hab⟩ := hbefore
    have hq' : q.names <+: shared ++ b :: y :=
      htrail ▸ hnested.trans (List.prefix_append p.names [p.name])
    obtain ⟨z, hz⟩ := exists_eq_append_cons hq' (hqway.not_isPrefix hway)
    refine (hfirst q hq).first _ _ hway ?_
    rw [hz]
    exact (before_append hab shared x z).lt

/-- **A way that comes before all that is pending leads only to what has been entered.** -/
theorem Moment.IsClosed.mem_entered (hclosed : m.IsClosed s root) (horderly : m.IsOrderly s root)
    (hfirst : ∀ q ∈ m.pending, IsFirst s root q.names q.directory) (hm : m.pending = p :: rest)
    {ds : List Location} (h : Way s root names ds) (hb : Before names p.trail) :
    ∀ d ∈ ds.head?, d ∈ m.entered := by
  induction h with
  | start =>
    obtain ⟨shared, a, b, x, y, he, -⟩ := hb
    simp at he
  | @step names d before name l hway hname hl hnew ih =>
    have hd : d ∈ m.entered := by
      rcases hb.of_concat with ⟨b, y, htrail⟩ | hbefore
      · obtain ⟨before', hpway, hmem⟩ := (horderly.pending p (by simp [hm])).way
        obtain ⟨d', before₁, hway', hd'⟩ := hpway.of_isPrefix (Pending.isPrefix_names htrail)
        obtain ⟨rfl, -⟩ := List.cons.inj (hway.unique hway')
        exact hmem _ hd'
      · exact ih hbefore d (by simp)
    obtain ⟨q, hqd, hqn, hq⟩ := hclosed d hd name hname
    rintro _ ⟨⟩
    rcases hq with hq | ⟨-, hentered⟩
    · exact absurd hqn (horderly.not_pending hfirst hm hway hb hq hqd)
    · exact hentered _ hl

/-- The way of the name that is looked at is the first one to a directory not entered yet. -/
theorem Moment.IsClosed.isFirst (hclosed : m.IsClosed s root) (horderly : m.IsOrderly s root)
    (hfirst : ∀ q ∈ m.pending, IsFirst s root q.names q.directory) (hm : m.pending = p :: rest)
    {l : Location} (hl : s.LeadsTo p.directory p.name l .directory) (hnew : l ∉ m.entered) :
    IsFirst s root p.trail l := by
  have hp := horderly.pending p (by simp [hm])
  obtain ⟨before, hway, hmem⟩ := hp.way
  have hlway : Way s root p.trail (l :: p.directory :: before) :=
    .step hway hp.listed hl fun hd => hnew (hmem l hd)
  refine ⟨⟨_, hlway⟩, fun others before' hothers hlt => hnew ?_⟩
  exact hclosed.mem_entered horderly hfirst hm hothers (hothers.before_of_lt hlway hlt) l (by simp)

/-- **What is pending is reached by the first way there.** -/
theorem isFirst_moment (hs : s.IsFileTree) (hroot : s.entryAt? root = some .directory)
    (hlimits : s.IsWithinLimits root) (n : Nat) :
    ∀ p ∈ (s.moment root n).pending, IsFirst s root p.names p.directory := by
  induction n with
  | zero =>
    intro p hp
    obtain ⟨name, -, rfl⟩ := mem_pendingIn.1 hp
    exact ⟨⟨[], .start⟩, fun others _ _ hlt => List.not_lt_nil _ hlt⟩
  | succ n ih =>
    intro q hq
    rcases Moment.pending_next_cases hq with hq | ⟨p, rest, l, links, name, hm, hsight, hnew, rfl⟩
    · exact ih q hq
    · exact (isClosed_moment hs hroot hlimits n).isFirst (isOrderly_moment s root n) ih hm
        (Pending.leadsTo_of_sight hsight) hnew

theorem IsLookedAt.isFirst (hs : s.IsFileTree) (hroot : s.entryAt? root = some .directory)
    (hlimits : s.IsWithinLimits root) (h : s.IsLookedAt root p) :
    IsFirst s root p.names p.directory := by
  obtain ⟨n, rest, hn⟩ := h
  exact isFirst_moment hs hroot hlimits n p (by simp [hn])

/-! ## All that can be reached -/

theorem root_mem_entered (s : Storage) (root : Location) (n : Nat) :
    root ∈ (s.moment root n).entered := by
  induction n with
  | zero => simp [moment]
  | succ n ih => exact Moment.entered_subset_next ih

/-- **Every name of every directory that can be reached is looked at.** At the end nothing is
pending, so what has been entered has been looked through. -/
theorem exists_isLookedAt (hs : s.IsFileTree) (hroot : s.entryAt? root = some .directory)
    (hlimits : s.IsWithinLimits root) (hd : s.Reached root d) {name : Text}
    (hname : name ∈ s.names d) :
    ∃ p, s.IsLookedAt root p ∧ p.directory = d ∧ p.name = name := by
  obtain ⟨n, hn⟩ := exists_moment_pending_eq_nil s root
  have hclosed := isClosed_moment hs hroot hlimits n
  simp only [Moment.IsClosed, hn, List.not_mem_nil, false_or] at hclosed
  have hentered : ∀ d, s.Reached root d → d ∈ (s.moment root n).entered := by
    intro d hd
    induction hd with
    | root => exact root_mem_entered s root n
    | step _ hname hl ih =>
      obtain ⟨p, -, -, -, hp⟩ := hclosed _ ih _ hname
      exact hp _ hl
  obtain ⟨p, hpd, hpn, hp, -⟩ := hclosed d (hentered d hd) name hname
  exact ⟨p, hp, hpd, hpn⟩

/-- **The files of a walk are those that names lead to, each by the first way** to the directory
that it is named in. -/
theorem mem_walk_iff_isFirst (hs : s.IsFileTree) (hroot : s.entryAt? root = some .directory)
    (hlimits : s.IsWithinLimits root) {name : Text} :
    names ++ [name] ∈ s.walk root ↔ ∃ d l content, IsFirst s root names d ∧ name ∈ s.names d ∧
      s.LeadsTo d name l (.file content) := by
  rw [mem_walk_iff]
  constructor
  · rintro ⟨p, hp, hsight, htrail⟩
    obtain ⟨rfl, he⟩ := List.append_inj' htrail rfl
    obtain ⟨rfl, -⟩ := List.cons.inj he
    obtain ⟨_, hon⟩ := hp.isOnWay
    obtain ⟨l, content, hl⟩ := Pending.leadsTo_of_sight_file (hs.isEntryName hon.listed) hsight
    exact ⟨_, l, content, hp.isFirst hs hroot hlimits, hon.listed, hl⟩
  · rintro ⟨d, l, content, hfirst, hname, hl⟩
    obtain ⟨before, hway⟩ := hfirst.way
    obtain ⟨p, hp, rfl, rfl⟩ :=
      exists_isLookedAt hs hroot hlimits (hway.reached d (by simp)) hname
    obtain rfl := hfirst.unique (hp.isFirst hs hroot hlimits)
    exact ⟨p, hp, Pending.sight_of_leadsTo_file (hs.isEntryName hname) (hlimits.links p hp)
      (hlimits.short p hp) hl, rfl⟩

/-! ## Directories below the root -/

theorem Pending.sight_directory (hs : s.IsFileTree) (root : Location)
    (hdir : s.entryAt? (p.directory ++ [p.name]) = some .directory)
    (hspell : isSpellable (p.directory ++ [p.name]) = true) :
    p.sight s root = .directory (p.directory ++ [p.name]) p.links := by
  have hl : s.resolve .canonical p.links p.directory [p.name] =
      .found (p.directory ++ [p.name]) .directory p.links :=
    (leads_location hs rfl hdir fun _ => hspell).resolve_eq
  simp [Pending.sight, hdir, Pending.directorySight, Pending.canonical?, hl]

/-- A way by the names of a location leads there. -/
theorem Way.eq_location (hs : s.IsFileTree) (h : Way s root names (d :: before))
    (hdir : s.entryAt? (root ++ names) = some .directory) : d = root ++ names := by
  induction names using List.reverseRecOn generalizing d before with
  | nil =>
    obtain ⟨rfl, -⟩ := List.cons.inj (h.unique .start)
    simp
  | append_singleton names name ih =>
    obtain ⟨l, d', before', he, hway, hname, hl⟩ := h.inv_step
    obtain ⟨rfl, -⟩ := List.cons.inj he
    rw [← List.append_assoc] at hdir ⊢
    obtain rfl := ih hway (hs.parent _ _ _ hdir)
    exact (hl.unique (leadsTo_entry (hs.isEntryName hname) hdir (by simp))).1

/-- **A directory below the root is read at its own place** if that is the first way there. What has
been entered before a name is looked at was reached by a way that comes before, and none comes
before the first. -/
theorem isLookedAt_of_isFirst (hs : s.IsFileTree)
    (hdir : s.entryAt? (root ++ names) = some .directory)
    (hspell : isSpellable (root ++ names) = true)
    (hfirst : IsFirst s root names (root ++ names)) {name : Text}
    (hname : name ∈ s.names (root ++ names)) :
    s.IsLookedAt root ⟨root ++ names, names, name, linkLimit⟩ := by
  induction names using List.reverseRecOn generalizing name with
  | nil =>
    refine isLookedAt_of_mem_pending (n := 0) (mem_pendingIn.2 ⟨name, ?_, by simp⟩)
    simpa using hname
  | append_singleton names last ih =>
    obtain ⟨before, hway⟩ := hfirst.way
    obtain ⟨_, d, before', he, hway', hlast, -⟩ := hway.inv_step
    obtain ⟨rfl, rfl⟩ := List.cons.inj he
    rw [← List.append_assoc] at hdir hspell hname hway hfirst ⊢
    have hparent := hs.parent _ _ _ hdir
    obtain rfl := hway'.eq_location hs hparent
    obtain ⟨n, rest, hn⟩ :=
      ih hparent (isSpellable_of_append hspell) (hfirst.of_append hway') hlast
    have hsight := Pending.sight_directory (p := ⟨_, names, last, linkLimit⟩) hs root hdir hspell
    rcases Moment.next_cases s root hn with ⟨l, links, hsight', -, hnext⟩ | ⟨-, hpass⟩
    · rw [hsight] at hsight'
      obtain ⟨rfl, rfl⟩ := Sight.directory.inj hsight'
      refine isLookedAt_of_mem_pending (n := n + 1) ?_
      have husable : Pending.isUsable root ⟨root ++ names, names, last, linkLimit⟩ = true := by
        simpa [Pending.isUsable, Pending.trail] using hspell
      rw [moment, hnext, pendingBelow, if_pos husable]
      exact List.mem_append_left _ (mem_pendingIn.2 ⟨name, hname, rfl⟩)
    · have hentered := hpass _ _ hsight hdir
      obtain ⟨others, before, hothers, hp⟩ := (isOrderly_moment s root n).entered _ hentered
      rcases hp _ (hn ▸ List.mem_cons_self) with hstart | hb
      · exact absurd hstart (hothers.not_isPrefix hway)
      · exact absurd hb.lt (hfirst.first _ _ hothers)

end

end Storage

end LocaleSync
