/-
What writing changes. Making directories only adds directories (`addsDirectories_makeUpwards`), and
writing at a path that leads to nothing adds one file (`addsFile_write?`), so everything that was
there stays as it is.

The second needs care: a path such as `a/../b` may lead to nothing only because `a` is not there,
and making `a` would let it lead to `b`. It cannot happen to a path that goes down by names from
where it stops being there (`IsAnchored`): the directories made for it are new and empty
(`isFresh_of_makeUpwards`).
-/
import LocaleSync.Proofs.Path.Parent
import LocaleSync.Proofs.Storage.Leads

namespace LocaleSync

namespace Storage

/-! ## Locating -/

/-- A path that can be used at all. -/
structure IsUsable (p : Path) : Prop where
  ne_nil : p.text ≠ []
  no_nul : p.text.contains '\x00' = false
  short : Text.utf8Size p.text < pathLimit

theorem locate_eq_resolve {p : Path} (h : IsUsable p) (s : Storage) (m : Manner) :
    s.locate m p = s.resolve m linkLimit (s.start p) (Text.splitOn '/' p.text) := by
  have hcond : ¬ (p.text.contains '\x00' || decide (Text.utf8Size p.text ≥ pathLimit)) = true := by
    rw [h.no_nul, Bool.false_or, decide_eq_true_eq]
    exact Nat.not_le.2 h.short
  rw [locate, if_neg h.ne_nil, if_neg hcond]

theorem locate_of_not_isUsable {p : Path} (h : ¬ IsUsable p) (s : Storage) (m : Manner) :
    s.locate m p = if p.text = [] then .missing else .blocked := by
  unfold locate
  split
  · rfl
  next hne =>
    rw [if_pos]
    by_contra hn
    simp only [Bool.or_eq_true, decide_eq_true_eq, not_or, Bool.not_eq_true, Nat.not_le] at hn
    exact h ⟨hne, hn.1, hn.2⟩

/-- A path that leads to an entry or to a vacant place can be used, and its pieces lead there. -/
theorem leads_of_locate {s : Storage} {m : Manner} {p : Path} {r : Target}
    (h : s.locate m p = r) (hmissing : r ≠ .missing) (hblocked : r ≠ .blocked) :
    IsUsable p ∧ Leads s m linkLimit (s.start p) (Text.splitOn '/' p.text) r := by
  by_cases hu : IsUsable p
  · rw [locate_eq_resolve hu] at h
    exact ⟨hu, leads_iff.2 h⟩
  · rw [locate_of_not_isUsable hu] at h
    split at h
    · exact absurd h.symm hmissing
    · exact absurd h.symm hblocked

theorem locate_of_leads {s : Storage} {m : Manner} {p : Path} {r : Target} (hu : IsUsable p)
    (h : Leads s m linkLimit (s.start p) (Text.splitOn '/' p.text) r) : s.locate m p = r := by
  rw [locate_eq_resolve hu]
  exact h.resolve_eq

theorem Extends.locate_eq_found {s s' : Storage} (hext : s.Extends s') {m : Manner} {p : Path}
    {l : Location} {e : Entry} {n : Nat} (h : s.locate m p = .found l e n) :
    s'.locate m p = .found l e n := by
  obtain ⟨hu, hl⟩ := leads_of_locate h (by simp) (by simp)
  refine locate_of_leads hu ?_
  rw [hext.start]
  exact hl.mono hext rfl

theorem find?_eq_some_iff {s : Storage} {p : Path} {l : Location} {e : Entry} :
    s.find? p = some (l, e) ↔ ∃ n, s.locate .follow p = .found l e n := by
  unfold find?
  split
  next l' e' n' h => simp [h]
  next hn =>
    simp only [reduceCtorEq, false_iff, not_exists]
    exact fun n h => hn _ _ _ h

/-- The location that a path leads to. -/
def place? (s : Storage) (p : Path) : Option Location :=
  (s.find? p).map (·.1)

theorem isDirectory_iff {s : Storage} {p : Path} :
    s.isDirectory p = true ↔ ∃ l n, s.locate .follow p = .found l .directory n := by
  unfold isDirectory
  split
  next l h =>
    obtain ⟨n, h⟩ := find?_eq_some_iff.1 h
    simp [h]
  next hn =>
    simp only [Bool.false_eq_true, false_iff, not_exists]
    exact fun l n h => hn l (find?_eq_some_iff.2 ⟨n, h⟩)

theorem Extends.find?_eq_some {s s' : Storage} (hext : s.Extends s') {p : Path} {l : Location}
    {e : Entry} (h : s.find? p = some (l, e)) : s'.find? p = some (l, e) := by
  obtain ⟨n, h⟩ := find?_eq_some_iff.1 h
  exact find?_eq_some_iff.2 ⟨n, hext.locate_eq_found h⟩

theorem Extends.read?_eq_some {s s' : Storage} (hext : s.Extends s') {p : Path} {content : Bytes}
    (h : s.read? p = some content) : s'.read? p = some content := by
  unfold read? at h ⊢
  split at h
  next l c hf =>
    rw [hext.find?_eq_some hf]
    exact h
  next => cases h

theorem Extends.isDirectory {s s' : Storage} (hext : s.Extends s') {p : Path}
    (h : s.isDirectory p = true) : s'.isDirectory p = true := by
  obtain ⟨l, n, h⟩ := isDirectory_iff.1 h
  exact isDirectory_iff.2 ⟨l, n, hext.locate_eq_found h⟩

/-! ## Vacant places -/

/-- An entry put at a vacant place: the tree stays one, and the path leads to the entry. -/
structure IsFilled (s : Storage) (p : Path) (l : Location) (e : Entry) : Prop where
  tree : (s.put l e).IsTree
  keeps : s.Extends (s.put l e)
  free : s.entryAt? l = none
  entry : (s.put l e).entryAt? l = some e
  located : ∃ n, (s.put l e).locate .follow p = .found l e n

theorem isFilled_of_vacant {s : Storage} (hs : s.IsTree) {m : Manner} (hm : m.spelled = false)
    {p : Path} {d : Location} {name : Text} (h : s.locate m p = .vacant d name) {e : Entry}
    (hlink : ∀ target, e ≠ .link target) : IsFilled s p (d ++ [name]) e := by
  obtain ⟨hu, hl⟩ := leads_of_locate h (by simp) (by simp)
  obtain ⟨hd, hfree⟩ := hl.sound hs (hs.start p)
  have hkeeps := Extends.put hfree e
  have hentry : (s.put (d ++ [name]) e).entryAt? (d ++ [name]) = some e :=
    entryAt?_put_self s (by simp) e
  obtain ⟨n, hn⟩ := hl.fill hkeeps hm rfl hentry hlink
  refine ⟨hs.put hd hfree e, hkeeps, hfree, hentry, n, locate_of_leads hu ?_⟩
  rw [hkeeps.start]
  exact hn

/-- A path to a name in a directory leads where the name leads from there. -/
theorem locate_child {s : Storage} {m : Manner} (hm : m.spelled = false) {p q : Path}
    {pieces : List Text} {name : Text} (hp : Text.splitOn '/' p.text = pieces ++ [name])
    (hname : Path.IsName name) (hq : p.parent? = some q) {d : Location} {n : Nat}
    (hd : s.locate .follow q = .found d .directory n) (hu : IsUsable p) :
    s.locate m p = s.resolve m n d [name] := by
  cases pieces with
  | nil =>
    rw [Path.parent?_eq_empty hp hname.isVoid, Option.some.injEq] at hq
    subst hq
    cases hd
  | cons first pieces =>
    rw [Path.parent?_eq_spell hp hname.isVoid, Option.some.injEq] at hq
    subst hq
    have hslash : ∀ piece ∈ first :: pieces, '/' ∉ piece := fun piece hm =>
      Text.not_mem_of_mem_splitOn (by rw [hp]; exact List.mem_append_left _ hm)
    have htrim : ∀ piece ∈ Path.trimEnd pieces, '/' ∉ piece := fun piece hm =>
      hslash piece (List.mem_cons_of_mem _ (Path.mem_of_mem_trimEnd hm))
    obtain ⟨ends, hsplit, hends, habs⟩ := Path.splitOn_spell (hslash first (by simp)) htrim
    obtain ⟨voids, hvoids, hv⟩ := Path.eq_trimEnd_append pieces
    obtain ⟨-, hl⟩ := leads_of_locate hd (by simp) (by simp)
    have hdir := hl.of_append_void rfl hsplit hends
    have hname := leads_voids hv (leads_resolve s m n d [name])
    have hstart : s.start p = s.start (Path.spell first (Path.trimEnd pieces)) := by
      rw [start, start, habs, Path.isAbsolute_of_splitOn hp (by simp)]
    refine locate_of_leads hu ?_
    rw [hp, hstart]
    have := hdir.append hm rfl hname (by simp)
    rw [List.cons_append, ← List.append_assoc, ← hvoids] at this
    exact this

/-! ## Making directories -/

/-- Nothing but directories is added. -/
structure AddsDirectories (s s' : Storage) : Prop where
  tree : s'.IsTree
  keeps : s.Extends s'
  others : ∀ {l e}, s'.entryAt? l = some e → s.entryAt? l = some e ∨ e = .directory

namespace AddsDirectories

variable {s s' s'' : Storage}

theorem refl (hs : s.IsTree) : s.AddsDirectories s :=
  ⟨hs, .refl s, .inl⟩

theorem trans (h : s.AddsDirectories s') (h' : s'.AddsDirectories s'') :
    s.AddsDirectories s'' := by
  refine ⟨h'.tree, h.keeps.trans h'.keeps, fun {l e} he => ?_⟩
  rcases h'.others he with he | he
  · exact h.others he
  · exact .inr he

theorem of_isFilled {p : Path} {l : Location} (h : IsFilled s p l .directory) :
    s.AddsDirectories (s.put l .directory) := by
  refine ⟨h.tree, h.keeps, fun {l' e} he => ?_⟩
  by_cases hl : l' = l
  · subst hl
    rw [h.entry] at he
    exact .inr (Option.some.inj he).symm
  · rw [entryAt?_put_of_ne _ hl] at he
    exact .inl he

end AddsDirectories

/-- **Making directories adds nothing else**, whether they all could be made or not. -/
theorem addsDirectories_makeUpwards {s : Storage} (hs : s.IsTree) (ps : List Path) :
    s.AddsDirectories (s.makeUpwards ps).1 := by
  induction ps with
  | nil => exact .refl hs
  | cons p outer ih =>
    unfold makeUpwards
    split
    · exact .refl hs
    split
    next h => exact .of_isFilled (isFilled_of_vacant hs rfl h (by simp))
    · split
      next s₁ h =>
        rw [h] at ih
        exact ih
      next s₁ h =>
        rw [h] at ih
        split
        next h' => exact ih.trans (.of_isFilled (isFilled_of_vacant ih.tree rfl h' (by simp)))
        · exact ih
    · exact .refl hs

/-- A path along which directories are made only below the place where it stops being there. -/
inductive IsAnchored (s : Storage) : Path → Prop where
  | settled {p} : (s.locate .keep p).isSettled = true → IsAnchored s p
  | empty : IsAnchored s ⟨[]⟩
  | child {p q pieces name} : Text.splitOn '/' p.text = pieces ++ [name] → Path.IsName name →
      p.parent? = some q → IsAnchored s q → IsAnchored s p

/-- The path leads to a directory that is new in `s'`, with nothing in it. -/
def IsFresh (s s' : Storage) (p : Path) : Prop :=
  ∃ l n, s'.locate .follow p = .found l .directory n ∧ s.entryAt? l = none ∧
    ∀ name, s'.entryAt? (l ++ [name]) = none

theorem isFresh_of_vacant {s s₁ : Storage} (hs₁ : s₁.IsTree) (hkeeps : s.Extends s₁) {p : Path}
    {d : Location} {name : Text} (h : s₁.locate .keep p = .vacant d name) :
    IsFresh s (s₁.put (d ++ [name]) .directory) p := by
  have hf := isFilled_of_vacant hs₁ rfl h (e := .directory) (by simp)
  obtain ⟨n, hn⟩ := hf.located
  refine ⟨_, n, hn, hkeeps.entry_eq_none hf.free, fun x => ?_⟩
  rw [entryAt?_put_of_ne _ (by simp)]
  exact hs₁.eq_none_of_eq_none hf.free x

/-- In a new and empty directory a name is free, unless it is too long for a name. -/
theorem resolve_in_empty {s : Storage} {m : Manner} {n : Nat} {d : Location} {name : Text}
    (hname : Path.IsName name) (hempty : s.entryAt? (d ++ [name]) = none) :
    s.resolve m n d [name] = .vacant d name ∨ s.resolve m n d [name] = .blocked := by
  by_cases ha : isAllowed m d name = true
  · exact .inl (Leads.vacant ⟨hname.isVoid, hname.ne_dots, ha⟩ hempty).resolve_eq
  · exact .inr (Leads.refused hname.isVoid hname.ne_dots (Bool.eq_false_iff.2 ha)).resolve_eq

/-- What a name in a fresh directory leads to. -/
theorem IsFresh.locate_child {s s' : Storage} {m : Manner} (hm : m.spelled = false) {p q : Path}
    {pieces : List Text} {name : Text} (hp : Text.splitOn '/' p.text = pieces ++ [name])
    (hname : Path.IsName name) (hq : p.parent? = some q) (h : IsFresh s s' q) :
    (∃ l, s'.locate m p = .vacant l name) ∨ s'.locate m p = .blocked := by
  obtain ⟨l, n, hl, -, hempty⟩ := h
  by_cases hu : IsUsable p
  · rw [Storage.locate_child hm hp hname hq hl hu]
    rcases resolve_in_empty hname (hempty name) with h | h
    · exact .inl ⟨l, h⟩
    · exact .inr h
  · have hne : p.text ≠ [] := by
      intro he
      rw [he] at hp
      rcases pieces with _ | ⟨_, _⟩
      · obtain rfl : [] = name := by simpa [Text.splitOn] using hp
        exact absurd hname.isVoid (by decide)
      · simp [Text.splitOn] at hp
    rw [locate_of_not_isUsable hu, if_neg hne]
    exact .inr rfl

theorem IsFresh.isDirectory_child {s s' : Storage} {p q : Path} {pieces : List Text} {name : Text}
    (hp : Text.splitOn '/' p.text = pieces ++ [name]) (hname : Path.IsName name)
    (hq : p.parent? = some q) (h : IsFresh s s' q) : s'.isDirectory p = false := by
  rw [Bool.eq_false_iff, ne_eq, isDirectory_iff]
  rintro ⟨l, n, hl⟩
  rcases h.locate_child (m := .follow) rfl hp hname hq with ⟨_, h⟩ | h
  · rw [h] at hl
    cases hl
  · rw [h] at hl
    cases hl

/-- In a fresh directory the next one of a path is made fresh, if it can be made. -/
theorem IsFresh.make_child {s s₁ s' : Storage} (hadds : s.AddsDirectories s₁) {p q : Path}
    {pieces : List Text} {name : Text} (hp : Text.splitOn '/' p.text = pieces ++ [name])
    (hname : Path.IsName name) (hq : p.parent? = some q) (hfresh : IsFresh s s₁ q)
    (h : (match s₁.locate .keep p with
      | .vacant dir x => (s₁.put (dir ++ [x]) .directory, true)
      | _ => (s₁, s₁.isDirectory p)) = (s', true)) : IsFresh s s' p := by
  rcases hfresh.locate_child (m := .keep) rfl hp hname hq with ⟨l, hv⟩ | hb
  · rw [hv] at h
    obtain rfl := (Prod.mk.inj h).1
    exact isFresh_of_vacant hadds.tree hadds.keeps hv
  · rw [hb] at h
    simp [hfresh.isDirectory_child hp hname hq] at h

theorem exists_succ_of_makeUpwards {s s' : Storage} {p : Path} {n : Nat}
    (h : s.makeUpwards (p.upwards n) = (s', true)) : ∃ k, n = k + 1 := by
  cases n with
  | zero => simp [Path.upwards, makeUpwards] at h
  | succ k => exact ⟨k, rfl⟩

/-- **Directories made along an anchored path are new and empty**, if any are made at all. -/
theorem isFresh_of_makeUpwards {s s' : Storage} (hs : s.IsTree) {p : Path} (hp : IsAnchored s p)
    (n : Nat) (h : s.makeUpwards (p.upwards n) = (s', true)) : s' = s ∨ IsFresh s s' p := by
  induction hp generalizing n s' with
  | settled hset =>
    obtain ⟨n, rfl⟩ := exists_succ_of_makeUpwards h
    simp only [Path.upwards, makeUpwards] at h
    split at h
    · exact .inl (Prod.mk.inj h).1.symm
    split at h
    next hv => rw [hv] at hset; cases hset
    next hv => rw [hv] at hset; cases hset
    · exact .inl (Prod.mk.inj h).1.symm
  | empty =>
    obtain ⟨n, rfl⟩ := exists_succ_of_makeUpwards h
    simp only [Path.upwards, makeUpwards, if_true] at h
    exact .inl (Prod.mk.inj h).1.symm
  | @child p q pieces name hpieces hname hq _ ih =>
    obtain ⟨n, rfl⟩ := exists_succ_of_makeUpwards h
    simp only [Path.upwards, makeUpwards, hq] at h
    split at h
    · exact .inl (Prod.mk.inj h).1.symm
    split at h
    next hv =>
      obtain rfl := (Prod.mk.inj h).1
      exact .inr (isFresh_of_vacant hs (.refl s) hv)
    next hmissing =>
      have hadds := addsDirectories_makeUpwards hs (q.upwards n)
      split at h
      next => cases h
      next s₁ hs₁ =>
        rw [hs₁] at hadds
        rcases ih n hs₁ with rfl | hfresh
        · -- Nothing was made above, so the path still leads nowhere.
          rw [hmissing] at h
          exact .inl (Prod.mk.inj h).1.symm
        · exact .inr (hfresh.make_child hadds hpieces hname hq h)
    · exact .inl (Prod.mk.inj h).1.symm

/-! ## Writing a file -/

/-- One file is added, and directories. -/
structure AddsFile (s s' : Storage) (l : Location) (content : Bytes) : Prop where
  tree : s'.IsTree
  keeps : s.Extends s'
  free : s.entryAt? l = none
  file : s'.entryAt? l = some (.file content)
  others : ∀ {l' e}, s'.entryAt? l' = some e → l' ≠ l → s.entryAt? l' = some e ∨ e = .directory

theorem AddsDirectories.addsFile {s s₁ : Storage} (h : s.AddsDirectories s₁) {p : Path}
    {l : Location} {content : Bytes} (hf : IsFilled s₁ p l (.file content)) :
    s.AddsFile (s₁.put l (.file content)) l content := by
  refine ⟨hf.tree, h.keeps.trans hf.keeps, h.keeps.entry_eq_none hf.free, hf.entry, ?_⟩
  intro l' e he hl
  rw [entryAt?_put_of_ne _ hl] at he
  exact h.others he

/-- A path at which nothing that is there is written over: it cannot be used, or it is a name in a
directory to which the way is anchored. -/
def IsSafe (s : Storage) (p : Path) : Prop :=
  ¬ IsUsable p ∨ ∃ pieces name q, Text.splitOn '/' p.text = pieces ++ [name] ∧
    Path.IsName name ∧ p.parent? = some q ∧ IsAnchored s q

theorem write?_of_not_isUsable {p : Path} (h : ¬ IsUsable p) (s : Storage) (content : Bytes) :
    s.write? p content = none := by
  by_cases hne : p.text = [] <;> simp [write?, locate_of_not_isUsable h, hne]

theorem write?_of_not_found {s s' : Storage} (hs : s.IsTree) {p : Path} {content : Bytes}
    (hfound : ∀ l e n, s.locate .follow p ≠ .found l e n) (h : s.write? p content = some s') :
    ∃ l, IsFilled s p l (.file content) ∧ s' = s.put l (.file content) := by
  unfold write? at h
  split at h
  next l c n hl => exact absurd hl (hfound _ _ _)
  next d name hl =>
    exact ⟨_, isFilled_of_vacant hs rfl hl (by simp), (Option.some.inj h).symm⟩
  next => cases h

theorem not_found_of_isPresent {s : Storage} {p : Path} (h : s.isPresent p = false) (l : Location)
    (e : Entry) (n : Nat) : s.locate .follow p ≠ .found l e n := by
  intro hl
  have := find?_eq_some_iff.2 ⟨n, hl⟩
  simp [isPresent, this] at h

/-- **Writing at a safe path that leads to nothing adds one file.** -/
theorem addsFile_write? {s s₁ s₂ : Storage} (hs : s.IsTree) {p q : Path} (hsafe : s.IsSafe p)
    (habsent : s.isPresent p = false) (hq : p.parent? = some q)
    (hmade : s.makeDirectories q = (s₁, true)) {content : Bytes}
    (hw : s₁.write? p content = some s₂) :
    ∃ l, s.AddsFile s₂ l content ∧ s₂.find? p = some (l, .file content) := by
  have hadds := addsDirectories_makeUpwards hs q.ancestors
  rw [show s.makeUpwards q.ancestors = (s₁, true) from hmade] at hadds
  rcases hsafe with hu | ⟨pieces, name, q', hp, hname, hq', hanchor⟩
  · rw [write?_of_not_isUsable hu] at hw
    cases hw
  obtain rfl : q = q' := Option.some.inj (hq.symm.trans hq')
  have hfound : ∀ l e n, s₁.locate .follow p ≠ .found l e n := by
    rcases isFresh_of_makeUpwards hs hanchor _ hmade with rfl | hfresh
    · exact not_found_of_isPresent habsent
    · intro l e n hl
      rcases hfresh.locate_child (m := .follow) rfl hp hname hq with ⟨_, h⟩ | h <;>
        rw [h] at hl <;> cases hl
  obtain ⟨l, hf, rfl⟩ := write?_of_not_found hadds.tree hfound hw
  exact ⟨l, hadds.addsFile hf, find?_eq_some_iff.2 hf.located⟩

end Storage

end LocaleSync
