/-
Ways through a storage. The names in a directory are listed in byte order, each once
(`sorted_names`), and in a file tree each of them can be spelled in a path (`IsFileTree`). A name
leads to an entry, links followed, however many they are (`LeadsTo`).

A way follows names from directory to directory and passes none twice (`Way`). Of two ways to one
directory neither starts with the other, so one of them comes first in the order of their names. The
way that comes before all others to its end is the first one there (`IsFirst`), and so are the ways
it starts with (`IsFirst.of_append`).
-/
import LocaleSync.Proofs.Storage.Leads
import LocaleSync.Proofs.Text.Index
import Mathlib.Data.List.Infix

namespace LocaleSync

namespace Storage

/-! ## Listings -/

theorem nameIn?_eq_some_iff {d l : Location} {name : Text} :
    nameIn? d l = some name ↔ l = d ++ [name] := by
  rcases List.eq_nil_or_concat l with rfl | ⟨l, last, rfl⟩
  · simp [nameIn?]
  · rw [List.concat_eq_append]
    by_cases hl : l = d
    · simp [nameIn?, hl]
    · have hne : l ++ [last] ≠ d ++ [name] := fun he => hl (List.append_inj' he rfl).1
      simp [nameIn?, hl, hne]

/-- What is listed in a directory is what is there. -/
theorem mem_names_iff {s : Storage} {d : Location} {name : Text} :
    name ∈ s.names d ↔ ∃ e, s.entryAt? (d ++ [name]) = some e := by
  have hmem : name ∈ s.names d ↔ ∃ x ∈ s.entries, x.1 = d ++ [name] := by
    simp only [names, Text.sort, List.mem_mergeSort, List.mem_eraseDups, List.mem_filterMap,
      nameIn?_eq_some_iff]
  rw [hmem, entryAt?, if_neg (by simp), ← Option.isSome_iff_exists, Option.isSome_map,
    List.find?_isSome]
  simp

theorem nodup_eraseDups (ts : List Text) : ts.eraseDups.Nodup := by
  induction hn : ts.length using Nat.strongRecOn generalizing ts with
  | ind n ih =>
    cases ts with
    | nil => simp
    | cons t ts =>
      rw [List.eraseDups_cons, List.nodup_cons]
      refine ⟨by simp, ih _ ?_ _ rfl⟩
      rw [← hn]
      exact Nat.lt_succ_of_le (List.length_filter_le _ ts)

/-- **A directory is listed in byte order, each name once.** -/
theorem sorted_names (s : Storage) (d : Location) : (s.names d).Pairwise (· < ·) :=
  Text.sorted_sort (nodup_eraseDups _)

/-! ## File trees -/

/-- A name that an entry can have. -/
structure IsEntryName (name : Text) : Prop where
  isName : Path.IsName name
  no_nul : '\x00' ∉ name
  short : Text.utf8Size name ≤ nameLimit

instance (name : Text) : Decidable (IsEntryName name) :=
  decidable_of_iff (Path.IsName name ∧ '\x00' ∉ name ∧ Text.utf8Size name ≤ nameLimit)
    ⟨fun ⟨h, hn, hs⟩ => ⟨h, hn, hs⟩, fun ⟨h, hn, hs⟩ => ⟨h, hn, hs⟩⟩

/-- A tree of entries under names that they can have. -/
structure IsFileTree (s : Storage) : Prop extends s.IsTree where
  names : ∀ {l e}, s.entryAt? l = some e → ∀ name ∈ l, IsEntryName name

/-- A storage is a file tree if each of its entries has its name and lies in a directory. -/
theorem isFileTree_of_entries {s : Storage}
    (h : ∀ x ∈ s.entries, s.entryAt? x.1.dropLast = some .directory ∧
      ∀ name ∈ x.1, IsEntryName name)
    (hcurrent : s.entryAt? s.current = some .directory) : s.IsFileTree := by
  have hentry : ∀ {l e}, s.entryAt? l = some e → l = [] ∨ ∃ x ∈ s.entries, x.1 = l := by
    intro l e he
    unfold entryAt? at he
    split at he
    next hl => exact .inl hl
    next =>
      obtain ⟨x, hx, -⟩ := Option.map_eq_some_iff.1 he
      exact .inr ⟨x, List.mem_of_find?_eq_some hx, by simpa using List.find?_some hx⟩
  refine ⟨⟨fun l name e he => ?_, hcurrent⟩, fun {l e} he name hm => ?_⟩
  · rcases hentry he with hl | ⟨x, hx, hl⟩
    · simp at hl
    · simpa [hl] using (h x hx).1
  · rcases hentry he with rfl | ⟨x, hx, rfl⟩
    · cases hm
    · exact (h x hx).2 name hm

theorem IsFileTree.isEntryName {s : Storage} (hs : s.IsFileTree) {d : Location} {name : Text}
    (h : name ∈ s.names d) : IsEntryName name := by
  obtain ⟨e, he⟩ := mem_names_iff.1 h
  exact hs.names he name (by simp)

/-- A name that an entry has is looked up, if its place need not be spelled out or can be. -/
theorem IsEntryName.isLookedUp {name : Text} (h : IsEntryName name) {m : Manner} {d : Location}
    (hm : m.spelled = true → isSpellable (d ++ [name]) = true) : IsLookedUp m d name := by
  refine ⟨h.isName.isVoid, h.isName.ne_dots, ?_⟩
  rw [isAllowed, decide_eq_true h.short, Bool.true_and]
  cases hs : m.spelled with
  | false => rfl
  | true => exact hm hs

theorem utf8Size_append (t u : Text) :
    Text.utf8Size (t ++ u) = Text.utf8Size t + Text.utf8Size u := by
  induction t with
  | nil => simp [Text.utf8Size]
  | cons c t ih =>
    simp only [Text.utf8Size, List.cons_append, List.foldr_cons] at ih ⊢
    omega

/-- What a place is in has a shorter spelling than the place. -/
theorem isSpellable_of_append {l t : List Text} (h : isSpellable (l ++ t) = true) :
    isSpellable l = true := by
  by_cases hl : l = []
  · subst hl
    decide
  by_cases ht : t = []
  · simpa [ht] using h
  · simp only [isSpellable, Location.path, Text.joinWith_append hl ht, decide_eq_true_eq] at h ⊢
    rw [List.append_assoc, ← List.cons_append, utf8Size_append] at h
    exact decide_eq_true (Nat.lt_of_le_of_lt (Nat.le_add_right _ _) h)

/-! ## Where a name leads -/

/-- A target with more links left. -/
def Target.more (k : Nat) : Target → Target
  | .found l e left => .found l e (left + k)
  | r => r

/-- With more links to follow, a path leads where it led, unless it was blocked. -/
theorem Leads.more {s : Storage} {m : Manner} {links : Nat} {here : Location} {ps : List Text}
    {r : Target} (h : Leads s m links here ps r) (hr : r ≠ .blocked) (k : Nat) :
    Leads s m (links + k) here ps (r.more k) := by
  induction h with
  | done => exact .done
  | void hv _ ih => exact .void hv (ih hr)
  | up _ ih => exact .up (ih hr)
  | vacant hu he => exact .vacant hu he
  | missing hu he hrest => exact .missing hu he hrest
  | directory hu he _ ih => exact .directory hu he (ih hr)
  | keptLink hu hf he => exact .keptLink hu hf he
  | emptyLink hu hf he => exact .emptyLink hu hf he
  | link hu hf he ht _ ih =>
    rw [Nat.add_right_comm]
    exact .link hu hf he ht (ih hr)
  | leaf hu he hd hl => exact .leaf hu he hd hl
  | refused | tooManyLinks | obstacle => exact absurd rfl hr

/-- What is found by way of places that can be spelled out is found wherever links are followed. -/
theorem Leads.follow {s : Storage} {m : Manner} (hm : m.followLast = true) {links : Nat}
    {here : Location} {ps : List Text} {r : Target} (h : Leads s .canonical links here ps r)
    {l : Location} {e : Entry} {left : Nat} (hr : r = .found l e left) :
    Leads s m links here ps r := by
  have hup : ∀ {d piece}, IsLookedUp .canonical d piece → IsLookedUp m d piece := by
    intro d piece hu
    have ha := hu.allowed
    simp only [isAllowed, Manner.canonical, Bool.and_eq_true, Bool.not_true, Bool.false_or] at ha
    exact ⟨hu.solid, hu.ne_dots, by simp [isAllowed, ha.1, ha.2]⟩
  induction h with
  | done => exact .done
  | void hv _ ih => exact .void hv (ih hr)
  | up _ ih => exact .up (ih hr)
  | directory hu he _ ih => exact .directory (hup hu) he (ih hr)
  | link hu _ he ht _ ih => exact .link (hup hu) (fun _ => hm) he ht (ih hr)
  | leaf hu he hd hl => exact .leaf (hup hu) he hd hl
  | keptLink _ hf _ => cases hf
  | refused | vacant | missing | emptyLink | tooManyLinks | obstacle => cases hr

/-- A path on which links are followed goes on where its first pieces lead. -/
theorem Leads.goOn {s : Storage} {m : Manner} (hm : m.followLast = true) {links n : Nat}
    {here d : Location} {ps qs : List Text} {r r' : Target} (h : Leads s m links here ps r)
    (hr : r = .found d .directory n) (hq : Leads s m n d qs r') :
    Leads s m links here (ps ++ qs) r' := by
  induction h with
  | done =>
    obtain ⟨rfl, -, rfl⟩ := Target.found.inj hr
    exact hq
  | void hv _ ih => exact .void hv (ih hr)
  | up _ ih => exact .up (ih hr)
  | directory hu he _ ih => exact .directory hu he (ih hr)
  | link hu _ he ht _ ih =>
    have h := ih hr
    rw [List.append_assoc] at h
    exact .link hu (fun _ => hm) he ht h
  | leaf _ _ hd _ =>
    obtain ⟨-, rfl, -⟩ := Target.found.inj hr
    exact absurd rfl hd
  | keptLink => cases hr
  | refused | vacant | missing | emptyLink | tooManyLinks | obstacle => cases hr

/-- Where a name in a directory leads, links followed, however many they are. -/
def LeadsTo (s : Storage) (d : Location) (name : Text) (l : Location) (e : Entry) : Prop :=
  ∃ links left, s.resolve .follow links d [name] = .found l e left

/-- A name leads to one entry. -/
theorem LeadsTo.unique {s : Storage} {d l l' : Location} {name : Text} {e e' : Entry}
    (h : s.LeadsTo d name l e) (h' : s.LeadsTo d name l' e') : l = l' ∧ e = e' := by
  obtain ⟨n, k, h⟩ := h
  obtain ⟨n', k', h'⟩ := h'
  have hmore := ((leads_iff.2 h).more (by simp) n').resolve_eq
  rw [Nat.add_comm, ((leads_iff.2 h').more (by simp) n).resolve_eq] at hmore
  obtain ⟨rfl, rfl, -⟩ := Target.found.inj hmore
  exact ⟨rfl, rfl⟩

/-- A name that is neither a link nor too long leads to its own entry. -/
theorem leadsTo_entry {s : Storage} {d : Location} {name : Text} {e : Entry}
    (hname : IsEntryName name) (he : s.entryAt? (d ++ [name]) = some e)
    (hlink : ∀ target, e ≠ .link target) : s.LeadsTo d name (d ++ [name]) e := by
  have hup : IsLookedUp .follow d name := hname.isLookedUp (fun h => by cases h)
  by_cases hd : e = .directory
  · subst hd
    exact ⟨0, 0, (Leads.directory hup he .done).resolve_eq⟩
  · exact ⟨0, 0, (Leads.leaf hup he hd hlink).resolve_eq⟩

/-- What a name leads to is its own entry, unless the name is a link. -/
theorem LeadsTo.entry_or_link {s : Storage} {d l : Location} {name : Text} {e : Entry}
    (hname : IsEntryName name) (h : s.LeadsTo d name l e) :
    s.entryAt? (d ++ [name]) = some e ∨ ∃ target, s.entryAt? (d ++ [name]) = some (.link target) := by
  cases he : s.entryAt? (d ++ [name]) with
  | none =>
    obtain ⟨n, k, h⟩ := h
    have hup : IsLookedUp .follow d name := hname.isLookedUp (fun h => by cases h)
    rw [(Leads.vacant hup he).resolve_eq] at h
    cases h
  | some e' =>
    cases e' with
    | link target => exact .inr ⟨target, rfl⟩
    | directory | file | pipe =>
      obtain ⟨-, rfl⟩ := (leadsTo_entry hname he (by simp)).unique h
      exact .inl rfl

theorem LeadsTo.entry {s : Storage} (hs : s.IsTree) {d l : Location} {name : Text} {e : Entry}
    (h : s.LeadsTo d name l e) (hd : s.entryAt? d = some .directory) : s.entryAt? l = some e := by
  obtain ⟨n, k, h⟩ := h
  exact (leads_iff.2 h).sound hs hd

/-! ## Ways -/

/-- Names that lead from the directory `root` to others, one after another, and the directories
that they pass, the last one first. None is passed twice. -/
inductive Way (s : Storage) (root : Location) : List Text → List Location → Prop where
  | start : Way s root [] [root]
  | step {names d before name l} : Way s root names (d :: before) → name ∈ s.names d →
      s.LeadsTo d name l .directory → l ∉ d :: before →
      Way s root (names ++ [name]) (l :: d :: before)

section

variable {s : Storage} {root d d' : Location} {names names' t u : List Text}
  {before before' ds : List Location}

theorem Way.nodup (h : Way s root names ds) : ds.Nodup := by
  induction h with
  | start => simp
  | step _ _ _ hnew ih => exact List.nodup_cons.2 ⟨hnew, ih⟩

theorem Way.isEntryName (hs : s.IsFileTree) (h : Way s root names ds) :
    ∀ name ∈ names, IsEntryName name := by
  induction h with
  | start => simp
  | step _ hname _ _ ih =>
    intro other hm
    rcases List.mem_append.1 hm with hm | hm
    · exact ih other hm
    · exact List.mem_singleton.1 hm ▸ hs.isEntryName hname

/-- The last step of a way. -/
theorem Way.inv_step {name : Text} (h : Way s root (names ++ [name]) ds) :
    ∃ l d before, ds = l :: d :: before ∧ Way s root names (d :: before) ∧ name ∈ s.names d ∧
      s.LeadsTo d name l .directory := by
  generalize hw : names ++ [name] = w at h
  cases h with
  | start => simp at hw
  | step h hname hl hnew =>
    obtain ⟨rfl, he⟩ := List.append_inj' hw rfl
    obtain rfl := List.cons.inj he |>.1
    exact ⟨_, _, _, rfl, h, hname, hl⟩

/-- Names lead along one way only. -/
theorem Way.unique {ds' : List Location} (h : Way s root names ds) (h' : Way s root names ds') :
    ds = ds' := by
  induction h generalizing ds' with
  | start =>
    generalize hw : ([] : List Text) = w at h'
    cases h' with
    | start => rfl
    | step => simp at hw
  | step _ _ hl _ ih =>
    obtain ⟨l', d', before', rfl, h', -, hl'⟩ := h'.inv_step
    obtain ⟨rfl, rfl⟩ := List.cons.inj (ih h')
    rw [(hl.unique hl').1]

/-- A way starts with the ways of its first names. -/
theorem Way.of_append (h : Way s root (names ++ t) ds) :
    ∃ later earlier, ds = later ++ earlier ∧ later.length = t.length ∧ Way s root names earlier := by
  induction t using List.reverseRecOn generalizing ds with
  | nil => exact ⟨[], ds, rfl, rfl, by simpa using h⟩
  | append_singleton t name ih =>
    rw [← List.append_assoc] at h
    obtain ⟨l, d, before, rfl, h, -, -⟩ := h.inv_step
    obtain ⟨later, earlier, he, hlen, h⟩ := ih h
    exact ⟨l :: later, earlier, by rw [he, List.cons_append], by simp [hlen], h⟩

theorem Way.exists_cons (h : Way s root names ds) : ∃ d before, ds = d :: before := by
  cases h <;> exact ⟨_, _, rfl⟩

theorem Way.of_isPrefix (h : Way s root names ds) (ht : t <+: names) :
    ∃ d before, Way s root t (d :: before) ∧ d ∈ ds := by
  obtain ⟨x, rfl⟩ := ht
  obtain ⟨later, earlier, rfl, -, h⟩ := h.of_append
  obtain ⟨d, before, rfl⟩ := h.exists_cons
  exact ⟨d, before, h, by simp⟩

/-- Every directory on a way is the end of a way that it starts with. -/
theorem Way.exists_of_mem (h : Way s root names ds) (hd : d ∈ ds) :
    ∃ t before, t <+: names ∧ Way s root t (d :: before) := by
  induction h with
  | start =>
    obtain rfl := List.mem_singleton.1 hd
    exact ⟨[], [], List.nil_prefix, .start⟩
  | step h hname hl hnew ih =>
    rcases List.mem_cons.1 hd with rfl | hd
    · exact ⟨_, _, List.prefix_rfl, .step h hname hl hnew⟩
    · obtain ⟨t, before, ht, hw⟩ := ih hd
      exact ⟨t, before, ht.trans (List.prefix_append _ _), hw⟩

/-- A way to a directory starts with no other way there. -/
theorem Way.eq_of_isPrefix (h : Way s root t (d :: before)) (h' : Way s root u (d :: before'))
    (htu : t <+: u) : t = u := by
  obtain ⟨x, rfl⟩ := htu
  obtain ⟨later, earlier, he, hlen, hw⟩ := h'.of_append
  obtain rfl := h.unique hw
  cases later with
  | nil =>
    obtain rfl : x = [] := List.length_eq_zero_iff.1 hlen.symm
    simp
  | cons d₁ later =>
    -- The directory would be passed at the end and once before.
    obtain ⟨rfl, rfl⟩ := List.cons.inj he
    exact absurd h'.nodup (by simp)

/-- A way to a directory is no part of another way there that ends before its end. -/
theorem Way.not_isPrefix {b : Text} {y : List Text} (h : Way s root t (d :: before))
    (h' : Way s root (u ++ b :: y) (d :: before')) : ¬ t <+: u := by
  intro hp
  have hlen := hp.length_le
  rw [h.eq_of_isPrefix h' (hp.trans (List.prefix_append _ _))] at hlen
  simp only [List.length_append, List.length_cons] at hlen
  omega

end

/-! ## The order of ways -/

/-- The one branches off before the other. -/
def Before (t u : List Text) : Prop :=
  ∃ shared a b x y, t = shared ++ a :: x ∧ u = shared ++ b :: y ∧ a < b

theorem before_append {a b : Text} (hab : a < b) (shared x y : List Text) :
    Before (shared ++ a :: x) (shared ++ b :: y) :=
  ⟨shared, a, b, x, y, rfl, rfl, hab⟩

theorem Before.append {t u : List Text} (h : Before t u) (x y : List Text) :
    Before (t ++ x) (u ++ y) := by
  obtain ⟨shared, a, b, x', y', rfl, rfl, hab⟩ := h
  simpa using before_append hab shared (x' ++ x) (y' ++ y)

theorem Before.lt {t u : List Text} (h : Before t u) : t < u := by
  obtain ⟨shared, a, b, x, y, rfl, rfl, hab⟩ := h
  induction shared with
  | nil => exact List.cons_lt_cons_iff.2 (.inl hab)
  | cons c shared ih => exact List.cons_lt_cons_iff.2 (.inr ⟨rfl, ih⟩)

theorem before_or_isPrefix {t u : List Text} (h : t < u) : Before t u ∨ t <+: u := by
  induction t generalizing u with
  | nil => exact .inr List.nil_prefix
  | cons a t ih =>
    cases u with
    | nil => exact absurd h (List.not_lt_nil _)
    | cons b u =>
      rcases List.cons_lt_cons_iff.1 h with hab | ⟨rfl, htu⟩
      · exact .inl (before_append hab [] t u)
      · rcases ih htu with ⟨shared, a', b', x, y, rfl, rfl, hab⟩ | htu
        · exact .inl (before_append hab (a :: shared) x y)
        · exact .inr (List.cons_prefix_cons.2 ⟨rfl, htu⟩)

/-- Names that start a list and reach over where it branches off have the branch in them. -/
theorem exists_eq_append_cons {t shared y : List Text} {b : Text} (h : t <+: shared ++ b :: y)
    (hover : ¬ t <+: shared) : ∃ z, t = shared ++ b :: z := by
  rcases List.prefix_or_prefix_of_prefix h (List.prefix_append shared (b :: y)) with hp | ⟨z, rfl⟩
  · exact absurd hp hover
  · rw [List.prefix_append_right_inj] at h
    cases z with
    | nil => exact absurd (by simp) hover
    | cons b' z =>
      obtain ⟨rfl, -⟩ := List.cons_prefix_cons.1 h
      exact ⟨z, rfl⟩

/-- What branches off at its last name, or before it. -/
theorem Before.of_concat {t u : List Text} {a : Text} (h : Before (t ++ [a]) u) :
    (∃ b y, u = t ++ b :: y) ∨ Before t u := by
  obtain ⟨shared, a', b, x, y, he, rfl, hab⟩ := h
  rcases List.eq_nil_or_concat x with rfl | ⟨x, last, rfl⟩
  · obtain ⟨rfl, -⟩ := List.append_inj' he rfl
    exact .inl ⟨b, y, rfl⟩
  · rw [List.concat_eq_append, ← List.cons_append, ← List.append_assoc] at he
    obtain ⟨rfl, -⟩ := List.append_inj' he rfl
    exact .inr (before_append hab shared x y)

/-- A way to a directory that no other way there comes before, in the order of the names. -/
structure IsFirst (s : Storage) (root : Location) (names : List Text) (d : Location) : Prop where
  way : ∃ before, Way s root names (d :: before)
  first : ∀ others before, Way s root others (d :: before) → ¬ others < names

section

variable {s : Storage} {root d d' : Location} {names names' t u : List Text}
  {before before' : List Location}

theorem IsFirst.unique (h : IsFirst s root names d) (h' : IsFirst s root names' d) :
    names = names' := by
  obtain ⟨_, hw⟩ := h.way
  obtain ⟨_, hw'⟩ := h'.way
  exact List.le_antisymm (h.first _ _ hw') (h'.first _ _ hw)

/-- Of two ways to one directory the lesser branches off. -/
theorem Way.before_of_lt (h : Way s root t (d :: before)) (h' : Way s root u (d :: before'))
    (hlt : t < u) : Before t u := by
  rcases before_or_isPrefix hlt with hb | hp
  · exact hb
  · obtain rfl := h.eq_of_isPrefix h' hp
    exact absurd hlt (List.lt_irrefl _)

/-- A way that comes before another one to a directory goes on to where that one goes on. Where it
has been there already, it need only be followed so far. -/
theorem Way.exists_before {name : Text} (h : Way s root u (d :: before)) (hb : Before u t)
    (h' : Way s root (t ++ [name]) (d' :: d :: before')) :
    ∃ others before, Way s root others (d' :: before) ∧ Before others (t ++ [name]) := by
  obtain ⟨l, d₁, before₁, he, -, hname, hl⟩ := h'.inv_step
  obtain ⟨rfl, rfl, rfl⟩ : d' = l ∧ d = d₁ ∧ before' = before₁ := by simpa using he
  by_cases hmem : d' ∈ d :: before
  · obtain ⟨u', before₁, hu', hw⟩ := h.exists_of_mem hmem
    refine ⟨u', before₁, hw, ?_⟩
    obtain ⟨shared, a, b, x, y, rfl, rfl, hab⟩ := hb
    rw [List.append_assoc, List.cons_append] at h' ⊢
    obtain ⟨z, rfl⟩ := exists_eq_append_cons hu' (hw.not_isPrefix h')
    exact before_append hab shared z (y ++ [name])
  · exact ⟨_, _, .step h hname hl hmem, hb.append [name] [name]⟩

/-- **A first way is first all along.** -/
theorem IsFirst.of_append (h : IsFirst s root (names ++ t) d')
    (hw : Way s root names (d :: before)) : IsFirst s root names d := by
  induction t using List.reverseRecOn generalizing d' with
  | nil =>
    rw [List.append_nil] at h
    obtain ⟨_, hw'⟩ := h.way
    obtain ⟨rfl, -⟩ := List.cons.inj (hw.unique hw')
    exact h
  | append_singleton t name ih =>
    rw [← List.append_assoc] at h
    obtain ⟨_, hway⟩ := h.way
    obtain ⟨_, d₁, before₁, he, hway₁, -, -⟩ := hway.inv_step
    obtain ⟨rfl, rfl⟩ := List.cons.inj he
    refine ih ⟨⟨before₁, hway₁⟩, fun others before₂ hothers hlt => ?_⟩
    obtain ⟨others, _, hothers, hb⟩ := hothers.exists_before (hothers.before_of_lt hway₁ hlt) hway
    exact h.first _ _ hothers hb.lt

end

end Storage

end LocaleSync
