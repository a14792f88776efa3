/-
Following paths, case by case. `Leads` has one rule for each thing that can happen on the way of a
path and holds exactly of what `resolve` finds (`leads_iff`), so facts about paths are inductions
over its rules.

In a tree (`IsTree`) what is found is there and what is vacant is free (`Leads.sound`). Adding
entries (`Extends`) does not change a path that is settled (`Leads.mono`), and fills a vacant place
with what is put there (`Leads.fill`). A path goes on where its first pieces lead
(`Leads.append`).
-/
import LocaleSync.Proofs.Path.Steps
import LocaleSync.Storage.Change

namespace LocaleSync

namespace Storage

/-! ## Entries -/

theorem entryAt?_put_self (s : Storage) {l : Location} (hl : l ≠ []) (e : Entry) :
    (s.put l e).entryAt? l = some e := by
  simp [entryAt?, put, hl]

theorem entryAt?_put_of_ne (s : Storage) {l l' : Location} (h : l' ≠ l) (e : Entry) :
    (s.put l e).entryAt? l' = s.entryAt? l' := by
  unfold entryAt? put
  split
  · rfl
  · rw [List.find?_cons_of_neg (by simpa using Ne.symm h), List.find?_filter]
    congr 2
    funext x
    by_cases hx : x.1 = l'
    · simp [hx, h]
    · simp [hx]

/-- A storage in which everything lies in a directory, and so does the current directory. -/
structure IsTree (s : Storage) : Prop where
  parent : ∀ l name e, s.entryAt? (l ++ [name]) = some e → s.entryAt? l = some .directory
  current : s.entryAt? s.current = some .directory

theorem isTree_empty : IsTree ⟨[], []⟩ :=
  ⟨fun l name e h => by simp [entryAt?] at h, rfl⟩

namespace IsTree

variable {s : Storage}

theorem dropLast (h : s.IsTree) {l : Location} {e : Entry} (hl : s.entryAt? l = some e) :
    s.entryAt? l.dropLast = some .directory := by
  rcases List.eq_nil_or_concat l with rfl | ⟨l, name, rfl⟩
  · rfl
  · rw [List.concat_eq_append] at hl ⊢
    rw [List.dropLast_concat]
    exact h.parent l name e hl

/-- Nothing lies in what is not there. -/
theorem eq_none_of_eq_none (h : s.IsTree) {l : Location} (hl : s.entryAt? l = none)
    (name : Text) : s.entryAt? (l ++ [name]) = none := by
  cases he : s.entryAt? (l ++ [name]) with
  | none => rfl
  | some e =>
    have := h.parent l name e he
    rw [hl] at this
    cases this

theorem start (h : s.IsTree) (p : Path) : s.entryAt? (s.start p) = some .directory := by
  unfold Storage.start
  split
  · rfl
  · exact h.current

theorem put (h : s.IsTree) {d : Location} {name : Text} (hd : s.entryAt? d = some .directory)
    (hfree : s.entryAt? (d ++ [name]) = none) (e : Entry) : (s.put (d ++ [name]) e).IsTree := by
  have hne : ∀ l e', s.entryAt? l = some e' → l ≠ d ++ [name] := by
    rintro l e' hl rfl
    rw [hfree] at hl
    cases hl
  refine ⟨fun l x e' hl => ?_, ?_⟩
  · by_cases hx : l ++ [x] = d ++ [name]
    · obtain ⟨rfl, -⟩ := List.append_inj' hx rfl
      rw [entryAt?_put_of_ne _ (hne l _ hd)]
      exact hd
    · rw [entryAt?_put_of_ne _ hx] at hl
      have hdir := h.parent l x e' hl
      rw [entryAt?_put_of_ne _ (hne l _ hdir)]
      exact hdir
  · rw [show (s.put (d ++ [name]) e).current = s.current from rfl,
      entryAt?_put_of_ne _ (hne _ _ h.current)]
    exact h.current

end IsTree

/-- Everything that is in `s` is in `s'`, as it is. -/
structure Extends (s s' : Storage) : Prop where
  current : s'.current = s.current
  entry : ∀ {l e}, s.entryAt? l = some e → s'.entryAt? l = some e

namespace Extends

variable {s s' s'' : Storage}

theorem refl (s : Storage) : s.Extends s :=
  ⟨rfl, id⟩

theorem trans (h : s.Extends s') (h' : s'.Extends s'') : s.Extends s'' :=
  ⟨h'.current.trans h.current, fun he => h'.entry (h.entry he)⟩

/-- What is free later was free before. -/
theorem entry_eq_none (h : s.Extends s') {l : Location} (hl : s'.entryAt? l = none) :
    s.entryAt? l = none := by
  cases he : s.entryAt? l with
  | none => rfl
  | some e =>
    rw [h.entry he] at hl
    cases hl

theorem put {l : Location} (hfree : s.entryAt? l = none) (e : Entry) : s.Extends (s.put l e) := by
  refine ⟨rfl, fun {l' e'} hl => ?_⟩
  rw [entryAt?_put_of_ne]
  · exact hl
  · rintro rfl
    rw [hfree] at hl
    cases hl

theorem start (h : s.Extends s') (p : Path) : s'.start p = s.start p := by
  rw [Storage.start, Storage.start, h.current]

end Extends

/-! ## What a path leads to -/

theorem resolve_nil (s : Storage) (m : Manner) (links : Nat) (here : Location) :
    s.resolve m links here [] = .found here .directory links := by
  cases links <;> rfl

theorem resolve_cons (s : Storage) (m : Manner) (links : Nat) (here : Location) (piece : Text)
    (rest : List Text) :
    s.resolve m links here (piece :: rest) =
      if Path.isVoid piece then s.resolve m links here rest
      else if piece = ['.', '.'] then s.resolve m links here.dropLast rest
      else if !isAllowed m here piece then .blocked
      else
        match s.entryAt? (here ++ [piece]) with
        | none => if rest = [] then .vacant here piece else .missing
        | some .directory => s.resolve m links (here ++ [piece]) rest
        | some (.link target) =>
          if rest = [] && !m.followLast then .found (here ++ [piece]) (.link target) links
          else if target = [] then .missing
          else
            match links with
            | 0 => .blocked
            | links + 1 =>
              s.resolve m links (linkStart here target) (Text.splitOn '/' target ++ rest)
        | some e => if rest = [] then .found (here ++ [piece]) e links else .blocked := by
  cases links <;> rfl

/-- A piece that is looked up. -/
structure IsLookedUp (m : Manner) (here : Location) (piece : Text) : Prop where
  solid : Path.isVoid piece = false
  ne_dots : piece ≠ ['.', '.']
  allowed : isAllowed m here piece = true

/-- What pieces lead to from a directory, with so many links still to be followed. -/
inductive Leads (s : Storage) (m : Manner) : Nat → Location → List Text → Target → Prop where
  | done {links here} : Leads s m links here [] (.found here .directory links)
  | void {links here piece rest r} : Path.isVoid piece = true → Leads s m links here rest r →
      Leads s m links here (piece :: rest) r
  | up {links here rest r} : Leads s m links here.dropLast rest r →
      Leads s m links here (['.', '.'] :: rest) r
  | refused {links here piece rest} : Path.isVoid piece = false → piece ≠ ['.', '.'] →
      isAllowed m here piece = false → Leads s m links here (piece :: rest) .blocked
  | vacant {links here piece} : IsLookedUp m here piece → s.entryAt? (here ++ [piece]) = none →
      Leads s m links here [piece] (.vacant here piece)
  | missing {links here piece rest} : IsLookedUp m here piece →
      s.entryAt? (here ++ [piece]) = none → rest ≠ [] →
      Leads s m links here (piece :: rest) .missing
  | directory {links here piece rest r} : IsLookedUp m here piece →
      s.entryAt? (here ++ [piece]) = some .directory →
      Leads s m links (here ++ [piece]) rest r → Leads s m links here (piece :: rest) r
  | keptLink {links here piece target} : IsLookedUp m here piece → m.followLast = false →
      s.entryAt? (here ++ [piece]) = some (.link target) →
      Leads s m links here [piece] (.found (here ++ [piece]) (.link target) links)
  | emptyLink {links here piece rest} : IsLookedUp m here piece →
      (rest = [] → m.followLast = true) → s.entryAt? (here ++ [piece]) = some (.link []) →
      Leads s m links here (piece :: rest) .missing
  | tooManyLinks {here piece rest target} : IsLookedUp m here piece →
      (rest = [] → m.followLast = true) → s.entryAt? (here ++ [piece]) = some (.link target) →
      target ≠ [] → Leads s m 0 here (piece :: rest) .blocked
  | link {links here piece rest target r} : IsLookedUp m here piece →
      (rest = [] → m.followLast = true) → s.entryAt? (here ++ [piece]) = some (.link target) →
      target ≠ [] →
      Leads s m links (linkStart here target) (Text.splitOn '/' target ++ rest) r →
      Leads s m (links + 1) here (piece :: rest) r
  | leaf {links here piece e} : IsLookedUp m here piece → s.entryAt? (here ++ [piece]) = some e →
      e ≠ .directory → (∀ target, e ≠ .link target) →
      Leads s m links here [piece] (.found (here ++ [piece]) e links)
  | obstacle {links here piece rest e} : IsLookedUp m here piece →
      s.entryAt? (here ++ [piece]) = some e → e ≠ .directory → (∀ target, e ≠ .link target) →
      rest ≠ [] → Leads s m links here (piece :: rest) .blocked

section

variable {s : Storage} {m : Manner} {links : Nat} {here : Location} {piece : Text}
  {rest : List Text}

/-- What is neither a directory nor a link ends the way. -/
theorem leads_resolve_leaf (hup : IsLookedUp m here piece) {e : Entry}
    (he : s.entryAt? (here ++ [piece]) = some e) (hd : e ≠ .directory)
    (hl : ∀ target, e ≠ .link target) :
    Leads s m links here (piece :: rest) (s.resolve m links here (piece :: rest)) := by
  have hresolve : s.resolve m links here (piece :: rest) =
      if rest = [] then .found (here ++ [piece]) e links else .blocked := by
    cases e with
    | directory => exact absurd rfl hd
    | link target => exact absurd rfl (hl target)
    | file | pipe => simp [resolve_cons, hup.solid, hup.ne_dots, hup.allowed, he]
  rw [hresolve]
  by_cases hr : rest = []
  · subst hr
    exact .leaf hup he hd hl
  · rw [if_neg hr]
    exact .obstacle hup he hd hl hr

/-- A link is followed, unless it is last and to be kept. -/
theorem leads_resolve_link
    (hlinks : ∀ k, links = k + 1 → ∀ here ps, Leads s m k here ps (s.resolve m k here ps))
    (hup : IsLookedUp m here piece) {target : Text}
    (he : s.entryAt? (here ++ [piece]) = some (.link target)) :
    Leads s m links here (piece :: rest) (s.resolve m links here (piece :: rest)) := by
  rw [resolve_cons]
  simp only [hup.solid, hup.ne_dots, hup.allowed, he, Bool.false_eq_true, if_false, Bool.not_true]
  by_cases hk : rest = [] ∧ m.followLast = false
  · obtain ⟨rfl, hf⟩ := hk
    simp only [hf, decide_true, Bool.not_false, Bool.and_self, if_true]
    exact .keptLink hup hf he
  · have hf : rest = [] → m.followLast = true := by
      intro hr
      by_contra hn
      exact hk ⟨hr, Bool.eq_false_iff.2 hn⟩
    have hcond : ¬ (decide (rest = []) && !m.followLast) = true := by
      simp only [Bool.and_eq_true, decide_eq_true_eq, Bool.not_eq_true', not_and,
        Bool.not_eq_false]
      exact hf
    simp only [if_neg hcond]
    by_cases ht : target = []
    · subst ht
      exact .emptyLink hup hf he
    · simp only [if_neg ht]
      cases links with
      | zero => exact .tooManyLinks hup hf he ht
      | succ k => exact .link hup hf he ht (hlinks k rfl _ _)

/-- One more piece, given what the pieces after it lead to and what links lead to. -/
theorem leads_resolve_cons
    (hrest : ∀ here, Leads s m links here rest (s.resolve m links here rest))
    (hlinks : ∀ k, links = k + 1 → ∀ here ps, Leads s m k here ps (s.resolve m k here ps)) :
    Leads s m links here (piece :: rest) (s.resolve m links here (piece :: rest)) := by
  by_cases hvoid : Path.isVoid piece = true
  · rw [resolve_cons, if_pos hvoid]
    exact .void hvoid (hrest here)
  have hsolid := Bool.eq_false_iff.2 hvoid
  by_cases hdots : piece = ['.', '.']
  · subst hdots
    exact (resolve_cons s m links here _ rest) ▸ .up (hrest _)
  by_cases hallowed : isAllowed m here piece = true
  · have hup : IsLookedUp m here piece := ⟨hsolid, hdots, hallowed⟩
    cases he : s.entryAt? (here ++ [piece]) with
    | none =>
      simp only [resolve_cons, hsolid, hdots, hallowed, he, Bool.false_eq_true, if_false,
        Bool.not_true]
      by_cases hr : rest = []
      · subst hr
        exact .vacant hup he
      · rw [if_neg hr]
        exact .missing hup he hr
    | some e =>
      cases e with
      | directory =>
        simp only [resolve_cons, hsolid, hdots, hallowed, he, Bool.false_eq_true, if_false,
          Bool.not_true]
        exact .directory hup he (hrest _)
      | link target => exact leads_resolve_link hlinks hup he
      | file content => exact leads_resolve_leaf hup he (by simp) (by simp)
      | pipe => exact leads_resolve_leaf hup he (by simp) (by simp)
  · rw [resolve_cons, if_neg hvoid, if_neg hdots, if_pos (by simp [hallowed])]
    exact .refused hsolid hdots (Bool.eq_false_iff.2 hallowed)

end

theorem leads_resolve (s : Storage) (m : Manner) (links : Nat) (here : Location)
    (ps : List Text) : Leads s m links here ps (s.resolve m links here ps) := by
  induction links generalizing here ps with
  | zero =>
    induction ps generalizing here with
    | nil => exact .done
    | cons piece rest ih => exact leads_resolve_cons ih fun k hk => by cases hk
  | succ links ihlinks =>
    induction ps generalizing here with
    | nil => exact .done
    | cons piece rest ih =>
      refine leads_resolve_cons ih fun k hk => ?_
      obtain rfl := Nat.succ.inj hk
      exact ihlinks

theorem Leads.resolve_eq {s : Storage} {m : Manner} {links : Nat} {here : Location}
    {ps : List Text} {r : Target} (h : Leads s m links here ps r) :
    s.resolve m links here ps = r := by
  induction h with
  | done => exact resolve_nil _ _ _ _
  | void hv _ ih => rw [resolve_cons, if_pos hv, ih]
  | up _ ih => rw [resolve_cons, if_neg (by decide), if_pos rfl, ih]
  | refused hv hd ha => simp [resolve_cons, hv, hd, ha]
  | vacant hu he => simp [resolve_cons, hu.solid, hu.ne_dots, hu.allowed, he]
  | missing hu he hr => simp [resolve_cons, hu.solid, hu.ne_dots, hu.allowed, he, hr]
  | directory hu he _ ih => simp [resolve_cons, hu.solid, hu.ne_dots, hu.allowed, he, ih]
  | keptLink hu hf he => simp [resolve_cons, hu.solid, hu.ne_dots, hu.allowed, he, hf]
  | emptyLink hu hf he =>
    simp only [resolve_cons, hu.solid, hu.ne_dots, hu.allowed, he]
    simpa using hf
  | tooManyLinks hu hf he ht =>
    simp only [resolve_cons, hu.solid, hu.ne_dots, hu.allowed, he]
    simpa [ht] using hf
  | link hu hf he ht _ ih =>
    simp only [resolve_cons, hu.solid, hu.ne_dots, hu.allowed, he]
    simpa [ht, ih] using fun hr hn => absurd (hf hr) (by simp [hn])
  | @leaf links here piece e hu he hd hl =>
    cases e with
    | directory => exact absurd rfl hd
    | link target => exact absurd rfl (hl target)
    | file | pipe => simp [resolve_cons, hu.solid, hu.ne_dots, hu.allowed, he]
  | @obstacle links here piece rest e hu he hd hl hr =>
    cases e with
    | directory => exact absurd rfl hd
    | link target => exact absurd rfl (hl target)
    | file | pipe => simp [resolve_cons, hu.solid, hu.ne_dots, hu.allowed, he, hr]

/-- **The rules say exactly what is found.** -/
theorem leads_iff {s : Storage} {m : Manner} {links : Nat} {here : Location} {ps : List Text}
    {r : Target} : Leads s m links here ps r ↔ s.resolve m links here ps = r :=
  ⟨Leads.resolve_eq, fun h => h ▸ leads_resolve s m links here ps⟩

/-! ## What is found is there -/

/-- What a target says of the entries. -/
def Target.IsSound (s : Storage) : Target → Prop
  | .found l e _ => s.entryAt? l = some e
  | .vacant d name => s.entryAt? d = some .directory ∧ s.entryAt? (d ++ [name]) = none
  | _ => True

theorem IsTree.linkStart {s : Storage} {here : Location} (hhere : s.entryAt? here = some .directory)
    (target : Text) : s.entryAt? (linkStart here target) = some .directory := by
  unfold Storage.linkStart
  split
  · rfl
  · exact hhere

theorem Leads.sound {s : Storage} (hs : s.IsTree) {m : Manner} {links : Nat} {here : Location}
    {ps : List Text} {r : Target} (h : Leads s m links here ps r)
    (hhere : s.entryAt? here = some .directory) : r.IsSound s := by
  induction h with
  | done => exact hhere
  | void _ _ ih => exact ih hhere
  | up _ ih => exact ih (hs.dropLast hhere)
  | vacant _ he => exact ⟨hhere, he⟩
  | directory _ he _ ih => exact ih he
  | keptLink _ _ he => exact he
  | link _ _ _ _ _ ih => exact ih (IsTree.linkStart hhere _)
  | leaf _ he => exact he
  | refused | missing | emptyLink | tooManyLinks | obstacle => trivial

/-! ## Adding entries -/

/-- A target that does not hang on something that is not there. -/
def Target.isSettled : Target → Bool
  | .found _ _ _ => true
  | .blocked => true
  | _ => false

/-- What is added changes only paths that were missing something. -/
theorem Leads.mono {s s' : Storage} (hext : s.Extends s') {m : Manner} {links : Nat}
    {here : Location} {ps : List Text} {r : Target} (h : Leads s m links here ps r)
    (hr : r.isSettled = true) : Leads s' m links here ps r := by
  induction h with
  | done => exact .done
  | void hv _ ih => exact .void hv (ih hr)
  | up _ ih => exact .up (ih hr)
  | refused hv hd ha => exact .refused hv hd ha
  | directory hu he _ ih => exact .directory hu (hext.entry he) (ih hr)
  | keptLink hu hf he => exact .keptLink hu hf (hext.entry he)
  | tooManyLinks hu hf he ht => exact .tooManyLinks hu hf (hext.entry he) ht
  | link hu hf he ht _ ih => exact .link hu hf (hext.entry he) ht (ih hr)
  | leaf hu he hd hl => exact .leaf hu (hext.entry he) hd hl
  | obstacle hu he hd hl hne => exact .obstacle hu (hext.entry he) hd hl hne
  | vacant | missing | emptyLink => cases hr

theorem IsLookedUp.congr {m m' : Manner} (hm : m'.spelled = m.spelled) {here : Location}
    {piece : Text} (h : IsLookedUp m here piece) : IsLookedUp m' here piece := by
  refine ⟨h.solid, h.ne_dots, ?_⟩
  have := h.allowed
  rw [isAllowed] at this ⊢
  rwa [hm]

/-- What is put at a vacant place is found there. -/
theorem Leads.fill {s s' : Storage} (hext : s.Extends s') {m : Manner} (hm : m.spelled = false)
    {links : Nat} {here : Location} {ps : List Text} {r : Target} (h : Leads s m links here ps r)
    {d : Location} {name : Text} (hr : r = .vacant d name) {e : Entry}
    (he : s'.entryAt? (d ++ [name]) = some e) (hlink : ∀ target, e ≠ .link target) :
    ∃ n, Leads s' .follow links here ps (.found (d ++ [name]) e n) := by
  have hm' : Manner.follow.spelled = m.spelled := hm.symm
  induction h with
  | void hv _ ih =>
    obtain ⟨n, h⟩ := ih hr
    exact ⟨n, .void hv h⟩
  | up _ ih =>
    obtain ⟨n, h⟩ := ih hr
    exact ⟨n, .up h⟩
  | directory hu hd _ ih =>
    obtain ⟨n, h⟩ := ih hr
    exact ⟨n, .directory (hu.congr hm') (hext.entry hd) h⟩
  | link hu _ hl ht _ ih =>
    obtain ⟨n, h⟩ := ih hr
    exact ⟨n, .link (hu.congr hm') (fun _ => rfl) (hext.entry hl) ht h⟩
  | vacant hu _ =>
    obtain ⟨rfl, rfl⟩ := Target.vacant.inj hr
    by_cases hd : e = .directory
    · subst hd
      exact ⟨_, .directory (hu.congr hm') he .done⟩
    · exact ⟨_, .leaf (hu.congr hm') he hd hlink⟩
  | done | refused | missing | keptLink | emptyLink | tooManyLinks | leaf | obstacle => cases hr

/-! ## Longer and shorter paths -/

/-- A path goes on where its first pieces lead. -/
theorem Leads.append {s : Storage} {m : Manner} (hm : m.spelled = false) {links n : Nat}
    {here d : Location} {ps qs : List Text} {r r' : Target} (h : Leads s .follow links here ps r)
    (hr : r = .found d .directory n) (hq : Leads s m n d qs r') (hqs : qs ≠ []) :
    Leads s m links here (ps ++ qs) r' := by
  have hm' : m.spelled = Manner.follow.spelled := hm
  have hrest : ∀ rest : List Text, rest ++ qs = [] → m.followLast = true := by
    intro rest hn
    exact absurd (List.append_eq_nil_iff.1 hn).2 hqs
  induction h with
  | done =>
    obtain ⟨rfl, -, rfl⟩ := Target.found.inj hr
    exact hq
  | void hv _ ih => exact .void hv (ih hr)
  | up _ ih => exact .up (ih hr)
  | directory hu he _ ih => exact .directory (hu.congr hm') he (ih hr)
  | link hu _ he ht _ ih =>
    have h := ih hr
    rw [List.append_assoc] at h
    exact .link (hu.congr hm') (hrest _) he ht h
  | leaf _ _ hd _ =>
    obtain ⟨-, rfl, -⟩ := Target.found.inj hr
    exact absurd rfl hd
  | keptLink _ hf _ => cases hf
  | refused | vacant | missing | emptyLink | tooManyLinks | obstacle => cases hr

/-- A piece that is not void stands before the void ones at the end. -/
theorem exists_of_cons_eq_append {piece : Text} {rest qs voids : List Text}
    (h : piece :: rest = qs ++ voids) (hv : ∀ piece ∈ voids, Path.isVoid piece = true)
    (hpiece : Path.isVoid piece = false) : ∃ qs', qs = piece :: qs' ∧ rest = qs' ++ voids := by
  cases qs with
  | nil =>
    obtain rfl : _ = voids := h
    exact absurd (hv piece List.mem_cons_self) (by simp [hpiece])
  | cons q qs =>
    obtain ⟨rfl, rfl⟩ := List.cons.inj h
    exact ⟨qs, rfl, rfl⟩

/-- Void pieces at the end of a path to a directory can be left out. -/
theorem Leads.of_append_void {s : Storage} {links n : Nat} {here d : Location}
    {ps qs : List Text} {r : Target} (h : Leads s .follow links here ps r)
    (hr : r = .found d .directory n) {voids : List Text} (hps : ps = qs ++ voids)
    (hv : ∀ piece ∈ voids, Path.isVoid piece = true) : Leads s .follow links here qs r := by
  induction h generalizing qs voids with
  | done =>
    obtain ⟨rfl, -⟩ := List.append_eq_nil_iff.1 hps.symm
    exact .done
  | void hpiece _ ih =>
    cases qs with
    | nil =>
      obtain rfl : _ = voids := hps
      exact ih hr rfl fun q hq => hv q (List.mem_cons_of_mem _ hq)
    | cons q qs =>
      obtain ⟨rfl, rfl⟩ := List.cons.inj hps
      exact .void hpiece (ih hr rfl hv)
  | up _ ih =>
    obtain ⟨qs, rfl, rfl⟩ := exists_of_cons_eq_append hps hv (by decide)
    exact .up (ih hr rfl hv)
  | directory hu he _ ih =>
    obtain ⟨qs, rfl, rfl⟩ := exists_of_cons_eq_append hps hv hu.solid
    exact .directory hu he (ih hr rfl hv)
  | link hu _ he ht _ ih =>
    obtain ⟨qs, rfl, rfl⟩ := exists_of_cons_eq_append hps hv hu.solid
    exact .link hu (fun _ => rfl) he ht (ih hr (List.append_assoc ..).symm hv)
  | leaf _ _ hd _ =>
    obtain ⟨-, rfl, -⟩ := Target.found.inj hr
    exact absurd rfl hd
  | keptLink _ hf _ => cases hf
  | refused | vacant | missing | emptyLink | tooManyLinks | obstacle => cases hr

theorem leads_voids {s : Storage} {m : Manner} {links : Nat} {here : Location}
    {voids ps : List Text} {r : Target} (hv : ∀ piece ∈ voids, Path.isVoid piece = true)
    (h : Leads s m links here ps r) : Leads s m links here (voids ++ ps) r := by
  induction voids with
  | nil => exact h
  | cons piece voids ih =>
    exact .void (hv piece (by simp)) (ih fun q hq => hv q (List.mem_cons_of_mem _ hq))

theorem Leads.append_voids {s : Storage} {links n : Nat} {here d : Location}
    {ps voids : List Text} (h : Leads s .follow links here ps (.found d .directory n))
    (hv : ∀ piece ∈ voids, Path.isVoid piece = true) :
    Leads s .follow links here (ps ++ voids) (.found d .directory n) := by
  by_cases hne : voids = []
  · rw [hne, List.append_nil]
    exact h
  · have hend : Leads s .follow n d (voids ++ []) (.found d .directory n) := leads_voids hv .done
    rw [List.append_nil] at hend
    exact h.append rfl rfl hend hne

/-- A path that is found by following its last piece is found without following it. -/
theorem Leads.keep {s : Storage} {links n : Nat} {here l : Location} {e : Entry} {ps : List Text}
    {r : Target} (h : Leads s .follow links here ps r) (hr : r = .found l e n) :
    ∃ l' e' n', Leads s .keep links here ps (.found l' e' n') := by
  have hm : Manner.keep.spelled = Manner.follow.spelled := rfl
  induction h with
  | done => exact ⟨_, _, _, .done⟩
  | void hv _ ih =>
    obtain ⟨l', e', n', h⟩ := ih hr
    exact ⟨l', e', n', .void hv h⟩
  | up _ ih =>
    obtain ⟨l', e', n', h⟩ := ih hr
    exact ⟨l', e', n', .up h⟩
  | directory hu he _ ih =>
    obtain ⟨l', e', n', h⟩ := ih hr
    exact ⟨l', e', n', .directory (hu.congr hm) he h⟩
  | @link links here piece rest target r hu _ he ht _ ih =>
    by_cases hrest : rest = []
    · subst hrest
      exact ⟨_, _, _, .keptLink (hu.congr hm) rfl he⟩
    · obtain ⟨l', e', n', h⟩ := ih hr
      exact ⟨l', e', n', .link (hu.congr hm) (fun h => absurd h hrest) he ht h⟩
  | leaf hu he hd hl => exact ⟨_, _, _, .leaf (hu.congr hm) he hd hl⟩
  | keptLink _ hf _ => cases hf
  | refused | vacant | missing | emptyLink | tooManyLinks | obstacle => cases hr

end Storage

end LocaleSync
