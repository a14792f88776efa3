/-
Which pages a pull plan is made of. The pages of a language are asked for once for each pattern, and
of every answer the plan takes the pages that are selected, in their order (`IsSelection`). Whether a
page is selected is a matter of texts (`IsSelected`): its version tag, and for an explicit pattern
the ending of the pattern and its last piece. Since a pattern that was accepted once is accepted
again (`resolve_raw`), every selected page has a target (`targets_eq`), and planning fails only
where a call does (`plan_selects`).
-/
import LocaleSync.Proofs.PullPattern.PageNames
import LocaleSync.Proofs.Session
import LocaleSync.Proofs.Template.Checks
import LocaleSync.Pull
import Mathlib.Data.List.Forall2
import Mathlib.Data.List.ProdSigma

namespace LocaleSync

/-! ## Endings of texts -/

namespace Text

/-- What follows the last `sep` of a text; nothing if there is none. -/
def IsAfterLast (sep : Char) (t : Text) : Option Text → Prop
  | none => sep ∉ t
  | some rest => sep ∉ rest ∧ ∃ before, t = before ++ sep :: rest

theorem afterLast?_append {sep : Char} {rest : Text} (h : sep ∉ rest) (before : Text) :
    afterLast? sep (before ++ sep :: rest) = some rest := by
  induction before with
  | nil => simp [afterLast?, afterLast?_eq_none_iff.2 h]
  | cons c before ih => simp [afterLast?, ih]

theorem isAfterLast_iff {sep : Char} {t : Text} {rest? : Option Text} :
    IsAfterLast sep t rest? ↔ afterLast? sep t = rest? := by
  cases rest? with
  | none => exact afterLast?_eq_none_iff.symm
  | some rest =>
    constructor
    · rintro ⟨hrest, before, rfl⟩
      exact afterLast?_append hrest before
    · intro h
      exact (eq_append_of_afterLast? h).symm

/-- What follows the last separator of a text, of either kind. -/
def IsLastPiece (t name : Text) : Prop :=
  ('/' ∉ name ∧ '\\' ∉ name) ∧
    (t = name ∨ ∃ before sep, (sep = '/' ∨ sep = '\\') ∧ t = before ++ sep :: name)

end Text

namespace Path

/-- The extension of a path: what follows the last dot of its file name, unless the name begins with
that dot. -/
def IsExtension (p : Path) : Option Text → Prop
  | none => ∀ stem ext, p.fileName? = some (stem ++ '.' :: ext) → stem = []
  | some ext => '.' ∉ ext ∧ ∃ stem, stem ≠ [] ∧ p.fileName? = some (stem ++ '.' :: ext)

theorem extension?_eq_some_iff {p : Path} {ext : Text} :
    p.extension? = some ext ↔ p.IsExtension (some ext) := by
  simp only [extension?, Option.bind_eq_bind, Option.bind_eq_some_iff, IsExtension]
  constructor
  · rintro ⟨name, hname, rest, hrest, hext⟩
    split at hext
    next hlong =>
      obtain rfl : rest = ext := Option.some.inj hext
      obtain ⟨⟨stem, rfl⟩, hdot⟩ := Text.eq_append_of_afterLast? hrest
      refine ⟨hdot, stem, ?_, hname⟩
      rintro rfl
      simp at hlong
    next => cases hext
  · rintro ⟨hdot, stem, hstem, hname⟩
    refine ⟨_, hname, ext, Text.afterLast?_append hdot stem, ?_⟩
    have hpos := List.length_pos_iff.2 hstem
    rw [if_pos]
    simp
    omega

theorem isExtension_iff {p : Path} {ext? : Option Text} :
    p.IsExtension ext? ↔ p.extension? = ext? := by
  cases ext? with
  | some ext => exact extension?_eq_some_iff.symm
  | none =>
    rw [Option.eq_none_iff_forall_ne_some]
    simp only [ne_eq, extension?_eq_some_iff, IsExtension]
    constructor
    · rintro h ext ⟨-, stem, hstem, hname⟩
      exact hstem (h stem ext hname)
    · intro h stem ext hname
      by_contra hstem
      -- The last dot stands at this one or behind it, so there is something before it too.
      obtain ⟨rest, hrest⟩ : ∃ rest, Text.afterLast? '.' (stem ++ '.' :: ext) = some rest := by
        rw [← Option.ne_none_iff_exists', ne_eq, Text.afterLast?_eq_none_iff]
        simp
      obtain ⟨⟨front, hfront⟩, hdot⟩ := Text.eq_append_of_afterLast? hrest
      refine h rest ⟨hdot, front, ?_, hfront ▸ hname⟩
      rintro rfl
      obtain ⟨c, stem, rfl⟩ := List.exists_cons_of_ne_nil hstem
      simp only [List.cons_append, List.nil_append, List.cons.injEq] at hfront
      exact hdot (hfront.2 ▸ by simp)

end Path

namespace PullPattern

theorem isLastPiece_iff {p : PullPattern} {name : Text} :
    Text.IsLastPiece p.raw name ↔ p.fileName = name := by
  unfold fileName Text.IsLastPiece
  constructor
  · rintro ⟨⟨hslash, hback⟩, hraw⟩
    have hname : ∀ c ∈ name.reverse, (c != '/' && c != '\\') = true := by
      intro c hc
      have hc := List.mem_reverse.1 hc
      simp only [Bool.and_eq_true, bne_iff_ne, ne_eq]
      exact ⟨fun h => hslash (h ▸ hc), fun h => hback (h ▸ hc)⟩
    rcases hraw with hraw | ⟨before, sep, hsep, hraw⟩
    · rw [hraw, List.takeWhile_eq_self_iff.2 hname, List.reverse_reverse]
    · have hstop : (sep != '/' && sep != '\\') = false := by
        rcases hsep with rfl | rfl <;> rfl
      rw [hraw, List.reverse_append, List.reverse_cons, List.append_assoc,
        List.takeWhile_append_of_pos hname, List.singleton_append,
        List.takeWhile_cons_of_neg (by simp [hstop]), List.append_nil, List.reverse_reverse]
  · rintro rfl
    have hmem : ∀ c ∈ (p.raw.reverse.takeWhile fun c => c != '/' && c != '\\').reverse,
        c ≠ '/' ∧ c ≠ '\\' := by
      intro c hc
      simpa using List.mem_takeWhile_imp (List.mem_reverse.1 hc)
    refine ⟨⟨fun h => (hmem _ h).1 rfl, fun h => (hmem _ h).2 rfl⟩, ?_⟩
    have hsplit := List.takeWhile_append_dropWhile (p := fun c => c != '/' && c != '\\')
      (l := p.raw.reverse)
    cases hrest : p.raw.reverse.dropWhile fun c => c != '/' && c != '\\' with
    | nil =>
      left
      rw [hrest, List.append_nil] at hsplit
      rw [hsplit, List.reverse_reverse]
    | cons sep before =>
      right
      have hsep := List.head?_dropWhile_not (fun c => c != '/' && c != '\\') p.raw.reverse
      rw [hrest] at hsep hsplit
      refine ⟨before.reverse, sep, ?_, ?_⟩
      · simpa [or_iff_not_imp_left] using hsep
      · simpa using congrArg List.reverse hsplit.symm

/-- **The text of a pattern is never refused again.** -/
theorem resolve_raw (pattern? : Option PullPattern) (curdir : Path) (l : Language)
    (name? : Option Text) :
    resolve curdir l (pattern?.map (·.raw)) name? =
      .ok ((pattern?.getD standard).destination curdir l name?) := by
  cases pattern? with
  | none => rfl
  | some p =>
    have hp : compile p.raw = .ok p := compile_eq_ok_iff.2 rfl
    rw [Option.map_some, resolve, hp]
    rfl

end PullPattern

namespace Pull

/-! ## Selected pages -/

/-- An explicit pattern is for files of the extension of a page: any extension will do, or the
pattern leaves it open, or the pattern ends with it. -/
def TakesExtension (o : Options) (p : PullPattern) (page : Page) : Prop :=
  o.custom = true ∨ Placeholder.extension.token <:+ p.raw ∨
    ∃ ext?, Text.IsAfterLast '.' p.raw ext? ∧ Path.IsExtension ⟨page.url⟩ ext?

/-- The name of a page as patterns spell it: with the version tag and `_` in front, if it has a
tag. -/
def IsTagged (page : Page) (name : Text) : Prop :=
  (page.versionTag? = none ∧ name = page.name) ∨
    ∃ tag, page.versionTag? = some tag ∧ name = tag ++ ['_'] ++ page.name

theorem isTagged_iff {page : Page} {name : Text} : IsTagged page name ↔ taggedName page = name := by
  unfold IsTagged taggedName
  cases page.versionTag? <;> simp [eq_comm]

/-- An explicit pattern is for the name of a page: any name will do, or it is the last piece of the
pattern. -/
def TakesName (o : Options) (p : PullPattern) (page : Page) : Prop :=
  o.distinct = false ∨ ∃ name, IsTagged page name ∧ Text.IsLastPiece p.raw name

/-- A page that a pull is asked for. -/
def IsSelected (o : Options) (pattern? : Option PullPattern) (page : Page) : Prop :=
  page.versionTag? = o.version? ∧
    ∀ p, pattern? = some p → TakesExtension o p page ∧ TakesName o p page

theorem takesExtension_iff {o : Options} {p : PullPattern} {page : Page} :
    TakesExtension o p page ↔ (o.custom || p.endsWithExtension ||
      p.trailingExtension? = Path.extension? ⟨page.url⟩) = true := by
  have hsame : (∃ ext?, Text.IsAfterLast '.' p.raw ext? ∧ Path.IsExtension ⟨page.url⟩ ext?) ↔
      p.trailingExtension? = Path.extension? ⟨page.url⟩ := by
    simp only [Text.isAfterLast_iff, Path.isExtension_iff, exists_eq_left',
      PullPattern.trailingExtension?]
    exact eq_comm
  rw [TakesExtension, ← PullPattern.endsWithExtension_iff, hsame]
  simp [or_assoc]

theorem takesName_iff {o : Options} {p : PullPattern} {page : Page} :
    TakesName o p page ↔ (!o.distinct || taggedName page = p.fileName) = true := by
  simp only [TakesName, isTagged_iff, PullPattern.isLastPiece_iff, exists_eq_left']
  rw [eq_comm (a := p.fileName)]
  simp

/-- **Selection is a matter of texts.** -/
theorem isSelected_iff {o : Options} {pattern? : Option PullPattern} {page : Page} :
    IsSelected o pattern? page ↔
      (page.versionTag? = o.version? && accepts pattern? o page) = true := by
  cases pattern? with
  | none => simp [IsSelected, accepts]
  | some p =>
    simp only [IsSelected, accepts, Option.some.injEq, forall_eq', takesExtension_iff,
      takesName_iff, Bool.and_eq_true, decide_eq_true_eq]

instance (o : Options) (pattern? : Option PullPattern) :
    DecidablePred (IsSelected o pattern?) :=
  fun _ => decidable_of_iff _ isSelected_iff.symm

/-- The targets of an answer: its selected pages in order, each in the language and with the
destination of the pattern. -/
structure IsSelection (curdir : Path) (o : Options) (pattern? : Option PullPattern) (l : Language)
    (pages : List Page) (ts : List Target) : Prop where
  pages : ts.map (·.page) = pages.filter (fun page => IsSelected o pattern? page)
  language : ∀ t ∈ ts, t.language = l
  destination : ∀ t ∈ ts,
    PullPattern.resolve curdir l (pattern?.map (·.raw)) (some t.page.name) = .ok t.destination

/-- The targets of the pages that are selected, each with the destination that the pattern itself
leads to. -/
def selection (curdir : Path) (pattern? : Option PullPattern) (o : Options) (l : Language)
    (pages : List Page) : List Target :=
  (pages.filter fun page => page.versionTag? = o.version? && accepts pattern? o page).map
    fun page =>
      { page, language := l
        destination := (pattern?.getD .standard).destination curdir l (some page.name) }

/-- **No page fails to have a target.** -/
theorem targets_eq (curdir : Path) (pattern? : Option PullPattern) (o : Options) (l : Language)
    (pages : List Page) :
    targets curdir pattern? o l pages = .ok (selection curdir pattern? o l pages) := by
  have htarget : target curdir pattern? l = fun page => pure
      { page, language := l
        destination := (pattern?.getD .standard).destination curdir l (some page.name) } := by
    funext page
    rw [target, PullPattern.resolve_raw]
    rfl
  rw [targets, htarget, List.mapM_pure]
  rfl

theorem isSelection_selection (curdir : Path) (pattern? : Option PullPattern) (o : Options)
    (l : Language) (pages : List Page) :
    IsSelection curdir o pattern? l pages (selection curdir pattern? o l pages) := by
  refine ⟨?_, ?_, ?_⟩
  · unfold selection
    rw [List.map_map]
    refine (List.map_id _).trans (List.filter_congr fun page _ => ?_)
    rw [Bool.eq_iff_iff, decide_eq_true_eq, isSelected_iff]
  · intro t ht
    obtain ⟨page, -, rfl⟩ := List.mem_map.1 ht
    rfl
  · intro t ht
    obtain ⟨page, -, rfl⟩ := List.mem_map.1 ht
    exact PullPattern.resolve_raw pattern? curdir l (some page.name)

/-! ## Requests -/

open Session (Ends ends_bind)

/-- The call for the pages of a language. -/
def pagesCall (o : Options) (l : Language) : Call :=
  .pages l.id [if o.inProgress then .enabled else .completed]

/-- What is answered to the call for the pages of a language. -/
def pagesAnswer (service : Service) (o : Options) (history : List Call) (l : Language) :
    Except Error (List Page) :=
  service.pages history l.id [if o.inProgress then .enabled else .completed]

/-- A pattern and a language to ask for. -/
abbrev Request := Option PullPattern × Language

section

variable (service : Service) (curdir : Path) (o : Options)

/-- The calls for requests. -/
def requestCalls (requests : List Request) : List Call :=
  requests.map fun r => pagesCall o r.2

/-- The first requests were answered, each after the calls for those before it. -/
structure IsAnswered (history : List Call) (requests : List Request) (answers : List (List Page)) :
    Prop where
  length_le : answers.length ≤ requests.length
  answer : ∀ k r pages, requests[k]? = some r → answers[k]? = some pages →
    pagesAnswer service o (history ++ requestCalls o (requests.take k)) r.2 = .ok pages

/-- What planning comes to after some requests were answered: if they are all, the selected pages of
the answers one after another; if not, the error of the next request. -/
def IsPlanned (history : List Call) (requests : List Request) (answers : List (List Page)) :
    Except Error (List Target) → Prop
  | .ok ts => answers.length = requests.length ∧ ∃ parts : List (List Target), ts = parts.flatten ∧
      List.Forall₂ (fun x part => IsSelection curdir o x.1.1 x.1.2 x.2 part)
        (requests.zip answers) parts
  | .error e => ∃ r, requests[answers.length]? = some r ∧
      pagesAnswer service o
        (history ++ requestCalls o (requests.take answers.length)) r.2 = .error e

variable {service curdir o}

theorem IsAnswered.nil (history : List Call) (requests : List Request) :
    IsAnswered service o history requests [] :=
  ⟨by simp, by simp⟩

theorem IsAnswered.cons {history : List Call} {r : Request} {requests : List Request}
    {pages : List Page} {answers : List (List Page)}
    (hfirst : pagesAnswer service o history r.2 = .ok pages)
    (h : IsAnswered service o (history ++ [pagesCall o r.2]) requests answers) :
    IsAnswered service o history (r :: requests) (pages :: answers) := by
  refine ⟨by simpa using h.length_le, ?_⟩
  intro k q answer hq hanswer
  cases k with
  | zero =>
    simp only [List.getElem?_cons_zero, Option.some.injEq] at hq hanswer
    subst hq hanswer
    simpa [requestCalls] using hfirst
  | succ k =>
    simp only [List.getElem?_cons_succ] at hq hanswer
    simpa [requestCalls] using h.answer k q answer hq hanswer

theorem IsPlanned.cons {history : List Call} {r : Request} {requests : List Request}
    {answers : List (List Page)} {result : Except Error (List Target)} (pages : List Page)
    (h : IsPlanned service curdir o (history ++ [pagesCall o r.2]) requests answers result) :
    IsPlanned service curdir o history (r :: requests) (pages :: answers)
      (result.map (selection curdir r.1 o r.2 pages ++ ·)) := by
  cases result with
  | error e =>
    obtain ⟨q, hq, he⟩ := h
    exact ⟨q, by simpa using hq, by simpa [requestCalls] using he⟩
  | ok ts =>
    obtain ⟨hlength, parts, rfl, hparts⟩ := h
    refine ⟨by simpa using hlength, selection curdir r.1 o r.2 pages :: parts, rfl, ?_⟩
    exact .cons (isSelection_selection curdir r.1 o r.2 pages) hparts

end

/-- One request makes one call, and its targets are the selected pages of the answer. -/
theorem ends_planOne (service : Service) (curdir : Path) (o : Options)
    (pattern? : Option PullPattern) (l : Language) (w : World) :
    Ends (planOne service curdir o pattern? l) w fun r w' =>
      r = (pagesAnswer service o w.calls l).map (selection curdir pattern? o l) ∧
        ∃ notes, w' = { w with calls := w.calls ++ [pagesCall o l], notes } := by
  have hstatuses : o.statuses = [if o.inProgress then .enabled else .completed] := by
    unfold Options.statuses
    split <;> rfl
  simp only [planOne, hstatuses, ends_bind, Session.ends_call, pagesAnswer, pagesCall]
  cases service.pages w.calls l.id [if o.inProgress then .enabled else .completed] with
  | error e => exact ⟨rfl, _, rfl⟩
  | ok pages =>
    dsimp only
    split
    · simp only [ends_bind, Session.ends_note, targets_eq, Session.ends_ofExcept]
      exact ⟨rfl, _, rfl⟩
    · simp only [targets_eq, Session.ends_ofExcept]
      exact ⟨rfl, _, rfl⟩

/-- **Requests are made one after another until one fails.** -/
theorem ends_planAll (service : Service) (curdir : Path) (o : Options)
    (requests : List Request) (w : World) :
    Ends (planAll service curdir o requests) w fun r w' => ∃ answers,
      IsAnswered service o w.calls requests answers ∧
        IsPlanned service curdir o w.calls requests answers r ∧
        ∃ notes, w' = { w with
          calls := w.calls ++ requestCalls o (requests.take (answers.length + 1)), notes } := by
  induction requests generalizing w with
  | nil =>
    have hdone : IsPlanned service curdir o w.calls [] [] (.ok []) := ⟨rfl, [], rfl, .nil⟩
    exact Session.ends_pure.2 ⟨[], .nil _ _, hdone, w.notes, by simp [requestCalls]⟩
  | cons request requests ih =>
    obtain ⟨pattern?, l⟩ := request
    simp only [planAll, ends_bind]
    refine (ends_planOne service curdir o pattern? l w).mono ?_
    rintro r w₁ ⟨rfl, notes₁, rfl⟩
    cases hpages : pagesAnswer service o w.calls l with
    | error e =>
      exact ⟨[], .nil _ _, ⟨(pattern?, l), rfl, by simpa [requestCalls] using hpages⟩, notes₁,
        by simp [requestCalls]⟩
    | ok pages =>
      refine Ends.mono (ih _) ?_
      rintro r w₂ ⟨answers, hanswered, hplanned, notes₂, rfl⟩
      have hboth := hanswered.cons (r := (pattern?, l)) hpages
      have hresult := hplanned.cons (r := (pattern?, l)) pages
      cases r with
      | error e => exact ⟨pages :: answers, hboth, hresult, notes₂, by simp [requestCalls]⟩
      | ok ts =>
        exact Session.ends_pure.2
          ⟨pages :: answers, hboth, hresult, notes₂, by simp [requestCalls]⟩

/-- What planning comes to: the requests of all patterns in all languages, one after another. -/
theorem ends_plan (service : Service) (curdir : Path) (languages : List Language)
    (patterns : List (Option PullPattern)) (o : Options) (w : World) :
    Ends (plan service curdir languages patterns o) w fun r w' =>
      ∃ answers result notes,
        IsAnswered service o w.calls (patterns ×ˢ languages) answers ∧
        IsPlanned service curdir o w.calls (patterns ×ˢ languages) answers result ∧
        r = result.map Plan.mk ∧ w' = { w with
          calls := w.calls ++ requestCalls o ((patterns ×ˢ languages).take (answers.length + 1))
          notes } := by
  simp only [plan, ends_bind]
  refine Ends.mono (ends_planAll service curdir o (patterns ×ˢ languages) w) ?_
  rintro r w' ⟨answers, hanswered, hplanned, notes, rfl⟩
  cases r with
  | error e => exact ⟨answers, _, notes, hanswered, hplanned, rfl, rfl⟩
  | ok ts => exact ⟨answers, _, notes, hanswered, hplanned, rfl, rfl⟩

/-- **A plan is an exact selection in order.** The pages of each language are asked for once for
each pattern, patterns first, until a call fails, whose error is the only one there can be. If none
fails, the plan has the selected pages of all answers, one answer after another and each in its
order, with the destinations that the texts of the patterns lead to. Nothing else is called, and
storage and the user are left alone. -/
theorem plan_selects (service : Service) (curdir : Path) (languages : List Language)
    (patterns : List (Option PullPattern)) (o : Options) (w : World) :
    let requests := patterns ×ˢ languages
    ∃ answers result notes,
      IsAnswered service o w.calls requests answers ∧
      IsPlanned service curdir o w.calls requests answers result ∧
      (plan service curdir languages patterns o).run.run w =
        (result.map Plan.mk, { w with
          calls := w.calls ++ requestCalls o (requests.take (answers.length + 1)), notes }) := by
  intro requests
  obtain ⟨answers, result, notes, hanswered, hplanned, hr, hw'⟩ :=
    ends_plan service curdir languages patterns o w
  exact ⟨answers, result, notes, hanswered, hplanned, Prod.ext hr hw'⟩

/-! ## Destinations -/

theorem exists_of_mem_flatten {α β : Type} {R : α → List β → Prop} {xs : List α}
    {parts : List (List β)} (h : List.Forall₂ R xs parts) {b : β} (hb : b ∈ parts.flatten) :
    ∃ x ∈ xs, ∃ part, R x part ∧ b ∈ part := by
  induction h with
  | nil => cases hb
  | @cons x part xs parts hx _ ih =>
    rcases List.mem_append.1 hb with hb | hb
    · exact ⟨x, by simp, part, hx, hb⟩
    · obtain ⟨y, hy, rest⟩ := ih hb
      exact ⟨y, List.mem_cons_of_mem _ hy, rest⟩

/-- **Where the targets of a plan go**: to the destination of one of the patterns. -/
theorem destination_of_mem_plan {service : Service} {curdir : Path} {languages : List Language}
    {patterns : List (Option PullPattern)} {o : Options} {w w' : World} {p : Plan}
    (h : (plan service curdir languages patterns o).run.run w = (.ok p, w')) {t : Target}
    (ht : t ∈ p.targets) :
    ∃ pattern? ∈ patterns, t.language ∈ languages ∧
      t.destination =
        (pattern?.getD .standard).destination curdir t.language (some t.page.name) := by
  obtain ⟨answers, result, notes, -, hplanned, hr, -⟩ :=
    (ends_plan service curdir languages patterns o w).of_run h
  cases result with
  | error e => cases hr
  | ok ts =>
    obtain rfl : p = ⟨ts⟩ := Except.ok.inj hr
    obtain ⟨-, parts, rfl, hparts⟩ := hplanned
    obtain ⟨⟨⟨pattern?, l⟩, pages⟩, hx, part, hpart, htpart⟩ := exists_of_mem_flatten hparts ht
    obtain ⟨hpattern, hl⟩ := List.mem_product.1 (List.of_mem_zip hx).1
    obtain rfl := hpart.language t htpart
    have hdestination := hpart.destination t htpart
    rw [PullPattern.resolve_raw] at hdestination
    exact ⟨pattern?, hpattern, hl, (Except.ok.inj hdestination).symm⟩

end Pull

end LocaleSync
