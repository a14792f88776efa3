/-
What a regular expression matches. `ways` lists the ways to match it at the front of a text in the
order they are tried: a repetition takes as many characters as there are first and gives back one
after another. The match that is preferred is the first way from the leftmost place that has one
(`preferred?`).

The search for a match fills a table for all places at once. Each operation on tables puts a part of
the expression in front of what may follow (`table_eq`), so it finds the preferred match
(`search?_eq`).
-/
import LocaleSync.Regex
import Mathlib.Data.List.Forall2
import Mathlib.Data.List.Infix

namespace LocaleSync

namespace Regex

/-! ## Reading -/

theorem escape_cons (c : Char) (t : Text) :
    escape (c :: t) = (if isMeta c then ['\\', c] else [c]) ++ escape t :=
  rfl

theorem ne_of_isMeta {c d : Char} (hc : ¬ isMeta c = true) (hd : isMeta d = true) : c ≠ d := by
  rintro rfl
  exact hc hd

/-- Characters that have a meaning may be escaped, and `w` is none of them. -/
theorem isEscapable_of_isMeta {c : Char} (h : isMeta c = true) :
    isEscapable c = true ∧ c ≠ 'w' := by
  have hall : ("\\.+*?()|[]\x7b\x7d^$#&-~".toList.all fun d =>
      isEscapable d && d != 'w') = true := by decide
  have hc := List.all_eq_true.1 hall c (List.contains_iff_mem.1 h)
  rwa [Bool.and_eq_true, bne_iff_ne] at hc

/-- Every operator has a meaning. -/
theorem isMeta_of_isOperator {c : Char} (h : isOperator c = true) : isMeta c = true := by
  have hall : "\\.+*?()|[\x7b^$".toList.all isMeta = true := by decide
  exact List.all_eq_true.1 hall c (List.contains_iff_mem.1 h)

/-- The expression that matches a character up to its case. -/
def ofChar (c : Char) : Regex :=
  .one (.literal c)

/-- Expressions read one after another. -/
def Reader.puts (s : Reader) (rs : List Regex) : Reader :=
  { s with mode := .plain, items := rs.reverse ++ s.items }

theorem Reader.puts_puts (s : Reader) (rs ss : List Regex) :
    (s.puts rs).puts ss = s.puts (rs ++ ss) := by
  simp [puts]

/-- **Escaped text is read as its characters.** -/
theorem foldlM_escape (t : Text) {s : Reader} (hs : s.mode = .plain) :
    (escape t).foldlM Reader.step? s = some (s.puts (t.map ofChar)) := by
  induction t generalizing s with
  | nil =>
    obtain ⟨mode, items, outer, names⟩ := s
    obtain rfl : mode = .plain := hs
    rfl
  | cons c t ih =>
    have hputs : (s.put (ofChar c)).puts (t.map ofChar) = s.puts ((c :: t).map ofChar) := by
      simp [Reader.put, Reader.puts]
    rw [escape_cons, ← hputs]
    by_cases hmeta : isMeta c = true
    · obtain ⟨hescapable, hw⟩ := isEscapable_of_isMeta hmeta
      have hback : s.step? '\\' = some { s with mode := .escaped } := by
        rw [Reader.step?, hs]
        rfl
      have hstep : Reader.step? { s with mode := .escaped } c = some (s.put (ofChar c)) := by
        simp [Reader.step?, hw, hescapable, Reader.put, ofChar]
      rw [if_pos hmeta, List.cons_append, List.foldlM_cons, hback]
      simp only [List.singleton_append, Option.bind_eq_bind, Option.bind_some, List.foldlM_cons,
        hstep]
      exact ih rfl
    · have hoperator : ¬ isOperator c = true := fun h => hmeta (isMeta_of_isOperator h)
      have hstep : s.step? c = some (s.put (ofChar c)) := by
        rw [Reader.step?, hs]
        simp [hoperator, ofChar]
      rw [if_neg hmeta, List.singleton_append, List.foldlM_cons, hstep]
      exact ih rfl

/-! ## The ways to match -/

/-- The characters of a kind at the front of a text, one or more, with the text behind them: the
most first. -/
def spans (k : CharKind) : Text → List (Text × Text)
  | [] => []
  | c :: t =>
    if k.takes c then (spans k t).map (fun (x, u) => (c :: x, u)) ++ [([c], t)] else []

/-- The ways to match an expression at the front of a text that ends `whole`, as they are tried: the
marks, and the text behind what is matched. -/
def ways (whole : Text) : Regex → Text → List (List Mark × Text)
  | .empty, t => [([], t)]
  | .start, t => if t = whole then [([], t)] else []
  | .stop, t => if t = [] then [([], t)] else []
  | .one _, [] => []
  | .one k, c :: t => if k.takes c then [([.char c], t)] else []
  | .many k, t => (spans k t).map fun (x, u) => (x.map .char, u)
  | .seq r s, t =>
    (ways whole r t).flatMap fun (m, u) => (ways whole s u).map fun (n, v) => (m ++ n, v)
  | .capture name r, t =>
    (ways whole r t).map fun (m, u) => (.opens name :: m ++ [.closes], u)

/-- The match that is preferred: of those that start leftmost, the one that is tried first. -/
def preferred? (r : Regex) (t : Text) : Option (List Mark) :=
  t.tails.findSome? fun u => (ways t r u).head?.map Prod.fst

/-- The first way to match an expression after which `next` finds a match, and both together. -/
def first? (whole : Text) (r : Regex) (next : Text → Option (List Mark)) (t : Text) :
    Option (List Mark) :=
  (ways whole r t).findSome? fun (m, u) => (next u).map (m ++ ·)

/-- A suffix of what follows the first character is not the whole text. -/
theorem ne_cons_of_mem_tails {c : Char} {t u : Text} (h : u ∈ t.tails) : u ≠ c :: t := by
  have hlength := ((List.mem_tails u t).1 h).length_le
  rintro rfl
  rw [List.length_cons] at hlength
  omega

section

variable (whole : Text)

theorem ways_concat_cons (r : Regex) (rs : List Regex) (t : Text) :
    ways whole (concat (r :: rs)) t =
      (ways whole r t).flatMap fun (m, u) =>
        (ways whole (concat rs) u).map fun (n, v) => (m ++ n, v) :=
  rfl

/-- A sequence of two sequences is matched by one and then the other. -/
theorem ways_concat_append (rs ss : List Regex) (t : Text) :
    ways whole (concat (rs ++ ss)) t =
      (ways whole (concat rs) t).flatMap fun (m, u) =>
        (ways whole (concat ss) u).map fun (n, v) => (m ++ n, v) := by
  induction rs generalizing t with
  | nil => simp [concat, ways]
  | cons r rs ih =>
    rw [List.cons_append, ways_concat_cons, ways_concat_cons, List.flatMap_assoc]
    congr 1
    funext ⟨m, u⟩
    simp only [ih, List.map_flatMap, List.flatMap_map, List.map_map, Function.comp_def,
      List.append_assoc]

end

/-- An expression that is anchored at the start is matched there or nowhere. -/
theorem preferred?_start (r : Regex) (t : Text) :
    preferred? (.seq .start r) t = (ways t r t).head?.map Prod.fst := by
  have hways : ∀ u, ways t (.seq .start r) u = if u = t then ways t r u else [] := by
    intro u
    by_cases hu : u = t <;> simp [ways, hu]
  cases t with
  | nil => simp [preferred?, hways]
  | cons c t =>
    have hrest : (t.tails.findSome? fun u =>
        (ways (c :: t) (.seq .start r) u).head?.map Prod.fst) = none := by
      refine List.findSome?_eq_none_iff.2 fun u hu => ?_
      have hne : u ≠ c :: t := ne_cons_of_mem_tails hu
      simp [hways, hne]
    rw [preferred?, List.tails_cons, List.findSome?_cons, hrest, hways, if_pos rfl]
    cases (ways (c :: t) r (c :: t)).head? <;> rfl

/-! ## Runs of characters -/

theorem mem_spans_iff {k : CharKind} {t x u : Text} :
    (x, u) ∈ spans k t ↔ t = x ++ u ∧ x ≠ [] ∧ ∀ c ∈ x, k.takes c = true := by
  induction t generalizing x with
  | nil => simp +contextual [spans]
  | cons c t ih =>
    rw [spans]
    constructor
    · intro h
      split at h
      next hc =>
        rcases List.mem_append.1 h with h | h
        · obtain ⟨⟨y, v⟩, hy, he⟩ := List.mem_map.1 h
          obtain ⟨rfl, rfl⟩ := Prod.mk.inj he
          obtain ⟨rfl, -, hall⟩ := ih.1 hy
          exact ⟨rfl, by simp, List.forall_mem_cons.2 ⟨hc, hall⟩⟩
        · obtain ⟨rfl, rfl⟩ := Prod.mk.inj (List.mem_singleton.1 h)
          exact ⟨rfl, by simp, by simpa using hc⟩
      next => simp at h
    · rintro ⟨ht, hne, hall⟩
      obtain ⟨d, x, rfl⟩ := List.exists_cons_of_ne_nil hne
      obtain ⟨rfl, rfl⟩ := List.cons.inj ht
      obtain ⟨hc, hx⟩ := List.forall_mem_cons.1 hall
      rw [if_pos hc, List.mem_append]
      cases x with
      | nil => exact .inr (by simp)
      | cons e x => exact .inl (List.mem_map.2 ⟨(e :: x, u), ih.2 ⟨rfl, by simp, hx⟩, rfl⟩)

/-- **The longer runs come first.** -/
theorem pairwise_spans (k : CharKind) (t : Text) :
    (spans k t).Pairwise fun a b => b.1.length < a.1.length := by
  induction t with
  | nil => exact .nil
  | cons c t ih =>
    rw [spans]
    split
    · rw [List.pairwise_append, List.pairwise_map]
      refine ⟨ih.imp fun h => by simpa using h, List.pairwise_singleton _ _, ?_⟩
      intro a ha b hb
      obtain ⟨⟨x, u⟩, hx, rfl⟩ := List.mem_map.1 ha
      obtain rfl := List.mem_singleton.1 hb
      have hpos := List.length_pos_iff.2 (mem_spans_iff.1 hx).2.1
      simpa using hpos
    · exact .nil

/-- The characters at the front of a text that are of the given kinds, with the text behind them. -/
def fixed? : List CharKind → Text → Option (Text × Text)
  | [], t => some ([], t)
  | _ :: _, [] => none
  | k :: ks, c :: t =>
    if k.takes c then (fixed? ks t).map fun (x, u) => (c :: x, u) else none

theorem fixed?_eq_some_iff {ks : List CharKind} {t x u : Text} :
    fixed? ks t = some (x, u) ↔ t = x ++ u ∧ List.Forall₂ (fun k c => k.takes c = true) ks x := by
  induction ks generalizing t x with
  | nil =>
    constructor
    · rintro h
      obtain ⟨rfl, rfl⟩ := Prod.mk.inj (Option.some.inj h)
      exact ⟨rfl, .nil⟩
    · rintro ⟨rfl, h⟩
      cases h
      rfl
  | cons k ks ih =>
    cases t with
    | nil =>
      simp only [fixed?, reduceCtorEq, false_iff]
      rintro ⟨ht, h⟩
      cases h
      cases ht
    | cons c t =>
      rw [fixed?]
      constructor
      · intro h
        split at h
        next hc =>
          obtain ⟨⟨y, v⟩, hy, he⟩ := Option.map_eq_some_iff.1 h
          obtain ⟨rfl, rfl⟩ := Prod.mk.inj he
          obtain ⟨rfl, hall⟩ := ih.1 hy
          exact ⟨rfl, .cons hc hall⟩
        next => cases h
      · rintro ⟨ht, h⟩
        cases h with
        | cons hc hall =>
          rw [List.cons_append] at ht
          obtain ⟨rfl, rfl⟩ := List.cons.inj ht
          rw [if_pos hc, ih.2 ⟨rfl, hall⟩]
          rfl

/-- A sequence of single characters is matched in one way or in none. -/
theorem ways_concat_one (whole : Text) (ks : List CharKind) (t : Text) :
    ways whole (concat (ks.map .one)) t =
      (fixed? ks t).toList.map fun (x, u) => (x.map .char, u) := by
  induction ks generalizing t with
  | nil => rfl
  | cons k ks ih =>
    rw [List.map_cons, ways_concat_cons]
    cases t with
    | nil => rfl
    | cons c t =>
      by_cases hc : k.takes c = true
      · simp only [ways, hc, if_true, List.flatMap_cons, List.flatMap_nil, List.append_nil, ih,
          fixed?]
        cases fixed? ks t <;> rfl
      · simp [ways, hc, fixed?]

/-! ## Tables -/

theorem findSome?_flatMap {α β γ : Type} (f : α → List β) (g : β → Option γ) (l : List α) :
    (l.flatMap f).findSome? g = l.findSome? fun a => (f a).findSome? g := by
  induction l with
  | nil => rfl
  | cons a l ih =>
    rw [List.flatMap_cons, List.findSome?_append, ih, List.findSome?_cons]
    cases (f a).findSome? g <;> rfl

section

variable (whole : Text) (next : Text → Option (List Mark))

theorem first?_empty : first? whole .empty next = next := by
  funext t
  simp [first?, ways]

theorem first?_seq (r s : Regex) :
    first? whole (.seq r s) next = first? whole r (first? whole s next) := by
  funext t
  rw [first?, ways, findSome?_flatMap]
  unfold first?
  congr 1
  funext ⟨m, u⟩
  simp only [List.findSome?_map, List.map_findSome?]
  congr 1
  funext ⟨n, v⟩
  simp only [Function.comp_apply, Option.map_map, List.append_assoc]
  rfl

theorem first?_capture (name : Text) (r : Regex) :
    first? whole (.capture name r) next = fun t =>
      (first? whole r (fun u => (next u).map (.closes :: ·)) t).map (.opens name :: ·) := by
  funext t
  rw [first?, ways, List.findSome?_map]
  unfold first?
  rw [List.map_findSome?]
  congr 1
  funext ⟨m, u⟩
  simp only [Function.comp_apply, Option.map_map]
  congr 1
  funext n
  simp

/-- A repetition goes on where it can, and ends where `next` finds a match only then. -/
theorem first?_many_cons (k : CharKind) (c : Char) (t : Text) :
    first? whole (.many k) next (c :: t) =
      if k.takes c then ((first? whole (.many k) next t).or (next t)).map (.char c :: ·)
      else none := by
  by_cases hc : k.takes c = true
  · simp only [first?, ways, spans, hc, if_true, List.map_append, List.findSome?_append,
      List.findSome?_map, List.map_cons, List.map_nil, List.findSome?_singleton, Option.map_or,
      List.map_findSome?]
    congr 2
    funext ⟨x, u⟩
    simp only [Function.comp_apply, Option.map_map, List.map_cons]
    rfl
  · simp [first?, ways, spans, hc]

theorem first_map_tails (t : Text) : Table.first (t.tails.map next) = next t := by
  cases t <;> rfl

theorem done_eq (t : Text) : Table.done t = t.tails.map fun _ => some [] := by
  induction t with
  | nil => rfl
  | cons c t ih => simp [Table.done, ih]

theorem atStart_map_tails (t : Text) :
    Table.atStart (t.tails.map next) = t.tails.map (first? t .start next) := by
  cases t with
  | nil => simp [Table.atStart, first?, ways]
  | cons c t =>
    have hproper : ∀ u ∈ t.tails, first? (c :: t) .start next u = none := by
      intro u hu
      simp [first?, ways, ne_cons_of_mem_tails hu]
    rw [List.tails_cons, List.map_cons, List.map_cons, Table.atStart, List.map_map]
    congr 1
    · simp [first?, ways]
    · exact List.map_congr_left fun u hu => (hproper u hu).symm

theorem atStop_map_tails (t : Text) :
    Table.atStop (t.tails.map next) = t.tails.map (first? whole .stop next) := by
  induction t with
  | nil => simp [Table.atStop, first?, ways]
  | cons c t ih =>
    have hcons : ∀ found, Table.atStop (found :: t.tails.map next) =
        none :: Table.atStop (t.tails.map next) := by
      intro found
      cases t <;> rfl
    rw [List.tails_cons, List.map_cons, hcons, ih, List.map_cons]
    simp [first?, ways]

theorem one_map_tails (k : CharKind) (t : Text) :
    Table.one k t (t.tails.map next) = t.tails.map (first? whole (.one k) next) := by
  induction t with
  | nil => simp [Table.one, first?, ways]
  | cons c t ih =>
    rw [List.tails_cons, List.map_cons, Table.one, List.tail_cons, ih, first_map_tails,
      List.map_cons]
    congr 1
    by_cases hc : k.takes c = true <;> simp [first?, ways, hc]

theorem many_map_tails (k : CharKind) (t : Text) :
    Table.many k t (t.tails.map next) = t.tails.map (first? whole (.many k) next) := by
  induction t with
  | nil => simp [Table.many, first?, ways, spans]
  | cons c t ih =>
    rw [List.tails_cons, List.map_cons, Table.many, List.tail_cons, ih, first_map_tails,
      first_map_tails, List.map_cons, first?_many_cons]

end

/-- **A table for what follows an expression becomes the table for both.** -/
theorem table_eq (t : Text) (r : Regex) (next : Text → Option (List Mark)) :
    table t r (t.tails.map next) = t.tails.map (first? t r next) := by
  induction r generalizing next with
  | empty => rw [table, first?_empty]
  | start => rw [table, atStart_map_tails]
  | stop => rw [table, atStop_map_tails]
  | one k => rw [table, one_map_tails]
  | many k => rw [table, many_map_tails]
  | seq r s ihr ihs => rw [table, ihs, ihr, first?_seq]
  | capture name r ih =>
    rw [table, List.map_map]
    simp only [Function.comp_def]
    rw [ih, List.map_map, first?_capture]
    rfl

/-- **The search finds the match that is preferred.** -/
theorem search?_eq (r : Regex) (t : Text) : r.search? t = r.preferred? t := by
  rw [search?, done_eq, table_eq, List.findSome?_map, preferred?]
  congr 1
  funext u
  simp only [Function.comp_apply, id, first?, Option.map_some, List.append_nil]
  cases ways t r u <;> rfl

end Regex

end LocaleSync
