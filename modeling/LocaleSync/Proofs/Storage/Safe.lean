/-
Where it is safe to write. A collapsed path goes up once at most and then down by names. Joined to a
path of a directory it can only stop being there on the way down, so nothing that is there is
written over at it if it leads to nothing (`isSafe_join`).
-/
import LocaleSync.Proofs.Storage.Change
import Mathlib.Data.List.Induction

namespace LocaleSync

namespace Storage

open LocaleSync.Path (IsName IsCollapsed ofPieces dots spell trimEnd)

/-- Where a path with this first piece and more behind it starts. -/
def startAt (s : Storage) (first : Text) : Location :=
  if first = [] then [] else s.current

theorem start_eq_startAt (s : Storage) {p : Path} {first : Text}
    (h : p.isAbsolute = decide (first = [])) : s.start p = s.startAt first := by
  simp [start, startAt, h]

/-- The pieces in front of a path that is joined to a path of a directory lead to a directory. -/
theorem leads_front {s : Storage} {base : Path} (hbase : s.isDirectory base = true) (rooted : Bool)
    {pieces : List Text} (h : ∀ piece ∈ pieces, Path.IsSolid piece) :
    ∃ first front d n,
      Leads s .follow linkLimit (s.startAt first) (first :: front) (.found d .directory n) ∧
      Text.splitOn '/' (base.join (ofPieces rooted pieces)).text =
        first :: front ++ Text.splitOn '/' (Text.joinWith ['/'] pieces) := by
  have habs : (ofPieces rooted pieces).isAbsolute = rooted := Path.isAbsolute_ofPieces h
  cases rooted with
  | true =>
    refine ⟨[], [], [], linkLimit, .void rfl .done, ?_⟩
    rw [Path.join, if_pos habs, Path.splitOn_ofPieces]
    rfl
  | false =>
    obtain ⟨d, n, hd⟩ := isDirectory_iff.1 hbase
    obtain ⟨hu, hl⟩ := leads_of_locate hd (by simp) (by simp)
    obtain ⟨front, voids, hsplit, hfront, hv, hj⟩ := Path.splitOn_join hu.ne_nil
    obtain ⟨hjabs, hjoin⟩ := hj _ habs
    obtain ⟨first, front, rfl⟩ := List.exists_cons_of_ne_nil hfront
    have hstart : s.start base = s.startAt first := by
      apply s.start_eq_startAt
      rw [← hjabs]
      exact Path.isAbsolute_of_splitOn hjoin
        (List.append_ne_nil_of_right_ne_nil _ (Text.splitOn_ne_nil '/' _))
    rw [hstart] at hl
    exact ⟨first, front, d, n, hl.of_append_void rfl hsplit hv, hjoin⟩

section

variable {s : Storage} {first : Text} {front : List Text} {d : Location} {n : Nat}

theorem leads_dots
    (hl : Leads s .follow linkLimit (s.startAt first) (first :: front) (.found d .directory n))
    (odd : Bool) :
    ∃ d', Leads s .follow linkLimit (s.startAt first) (first :: (front ++ dots odd))
      (.found d' .directory n) := by
  cases odd with
  | false => exact ⟨d, by simpa [dots] using hl⟩
  | true => exact ⟨_, hl.append rfl rfl (.up .done) (by simp [dots])⟩

/-- The way to a directory, and on by one `..` or none, is settled. -/
theorem isSettled_spell
    (hl : Leads s .follow linkLimit (s.startAt first) (first :: front) (.found d .directory n))
    {odd : Bool} (hslash : ∀ piece ∈ first :: (front ++ dots odd), '/' ∉ piece) :
    (s.locate .keep (spell first (trimEnd (front ++ dots odd)))).isSettled = true := by
  have htrim : ∀ piece ∈ trimEnd (front ++ dots odd), '/' ∉ piece := fun piece hm =>
    hslash piece (List.mem_cons_of_mem _ (Path.mem_of_mem_trimEnd hm))
  obtain ⟨ends, hsplit, hends, habs⟩ := Path.splitOn_spell (hslash first (by simp)) htrim
  obtain ⟨voids, hvoids, hv⟩ := Path.eq_trimEnd_append (front ++ dots odd)
  have hpieces : first :: (front ++ dots odd) = (first :: trimEnd (front ++ dots odd)) ++ voids :=
    congrArg (first :: ·) hvoids
  obtain ⟨d', hd⟩ := leads_dots hl odd
  obtain ⟨l, e, n', hkeep⟩ := ((hd.of_append_void rfl hpieces hv).append_voids hends).keep rfl
  rw [← hsplit, ← s.start_eq_startAt habs] at hkeep
  by_cases hu : IsUsable (spell first (trimEnd (front ++ dots odd)))
  · rw [locate_of_leads hu hkeep]
    rfl
  · rw [locate_of_not_isUsable hu, if_neg Path.spell_text_ne_nil]
    rfl

/-- The way to a directory, on by one `..` or none, and down by names is anchored. -/
theorem isAnchored_spell
    (hl : Leads s .follow linkLimit (s.startAt first) (first :: front) (.found d .directory n))
    {odd : Bool} {names : List Text}
    (hslash : ∀ piece ∈ first :: (front ++ dots odd ++ names), '/' ∉ piece)
    (hnames : ∀ name ∈ names, IsName name) :
    IsAnchored s (spell first (trimEnd (front ++ dots odd ++ names))) := by
  induction names using List.reverseRecOn with
  | nil =>
    rw [List.append_nil] at hslash ⊢
    exact .settled (isSettled_spell hl hslash)
  | append_singleton names name ih =>
    rw [← List.append_assoc] at hslash ⊢
    have hname := hnames name (by simp)
    have hsplit : Text.splitOn '/' (spell first (front ++ dots odd ++ names ++ [name])).text =
        (first :: (front ++ dots odd ++ names)) ++ [name] :=
      Path.splitOn_spell_of_ne (hslash first (by simp))
        (fun piece hm => hslash piece (List.mem_cons_of_mem _ hm)) (by simp)
    rw [Path.trimEnd_concat _ hname.isVoid]
    refine .child hsplit hname (Path.parent?_eq_spell hsplit hname.isVoid) (ih ?_ ?_)
    · intro piece hm
      exact hslash piece (List.mem_append_left [name] hm)
    · intro x hx
      exact hnames x (List.mem_append_left _ hx)

end

/-- **Below a directory a collapsed path that leads to nothing is safe to write at.** -/
theorem isSafe_join {s : Storage} {base : Path} (hbase : s.isDirectory base = true) {p : Path}
    (hp : p.IsCollapsed) (habsent : s.isPresent (base.join p) = false) :
    s.IsSafe (base.join p) := by
  obtain ⟨rooted, odd, names, hnames, rfl⟩ := hp
  obtain ⟨first, front, d, n, hl, hsplit⟩ :=
    leads_front hbase rooted (Path.isSolid_dots_append hnames)
  have hslash : ∀ piece ∈ dots odd ++ names, '/' ∉ piece := fun piece hm =>
    (Path.isSolid_dots_append hnames piece hm).slash_not_mem
  rcases List.eq_nil_or_concat names with rfl | ⟨names, name, rfl⟩
  · -- A path that does not go down is there, if it can be used.
    refine .inl fun hu => ?_
    obtain ⟨d', hd⟩ : ∃ d', Leads s .follow linkLimit (s.startAt first)
        (first :: front ++ Text.splitOn '/' (Text.joinWith ['/'] (dots odd ++ [])))
        (.found d' .directory n) := by
      cases odd with
      | true => exact leads_dots hl true
      | false =>
        refine ⟨d, hl.append_voids ?_⟩
        simp [dots, Text.joinWith, Text.splitOn, Path.isVoid]
    have habs := Path.isAbsolute_of_splitOn hsplit
      (List.append_ne_nil_of_right_ne_nil _ (Text.splitOn_ne_nil '/' _))
    rw [← hsplit, ← s.start_eq_startAt habs] at hd
    exact not_found_of_isPresent habsent _ _ _ (locate_of_leads hu hd)
  · rw [List.concat_eq_append] at hsplit hslash hnames ⊢
    have hname := hnames name (by simp)
    have hpieces : first :: front ++ (dots odd ++ (names ++ [name])) =
        (first :: (front ++ dots odd ++ names)) ++ [name] := by simp
    rw [Text.splitOn_joinWith (by simp) hslash, hpieces] at hsplit
    refine .inr ⟨_, name, _, hsplit, hname, Path.parent?_eq_spell hsplit hname.isVoid, ?_⟩
    refine isAnchored_spell hl (fun piece hm => ?_) fun x hx => hnames x (List.mem_append_left _ hx)
    exact Text.not_mem_of_mem_splitOn (by rw [hsplit]; exact List.mem_append_left _ hm)

end Storage

end LocaleSync
