/-
What merging comes to. However formats are merged into a table, one by one or in batches, the table
ends up with the formats whose codes were not given and behind them, of the formats that were given,
the last one of each code (`formats_merge`). So only the order of all formats that were given
matters, and giving them again changes nothing (`merge_merge_self`).

`merge_batches` says this with what follows for extensions: the last format that was given has all
of its own, and a code that was given has no others than its last format lists.
-/
import LocaleSync.Proofs.Format.Table

namespace LocaleSync

namespace FormatTable

/-! ## The last formats of each code -/

/-- The formats that are the last ones with their code. -/
def lasts : List Format → List Format
  | [] => []
  | f :: rest => if f.code ∈ rest.map (·.code) then lasts rest else f :: lasts rest

theorem mem_of_mem_lasts {formats : List Format} {f : Format} (h : f ∈ lasts formats) :
    f ∈ formats := by
  induction formats with
  | nil => simp [lasts] at h
  | cons g rest ih =>
    unfold lasts at h
    split at h
    · exact List.mem_cons_of_mem _ (ih h)
    · rcases List.mem_cons.1 h with rfl | h
      · simp
      · exact List.mem_cons_of_mem _ (ih h)

theorem lasts_append_of_last {f : Format} {after : List Format}
    (hlast : ∀ g ∈ after, g.code ≠ f.code) (before : List Format) :
    ∃ earlier, lasts (before ++ f :: after) = earlier ++ f :: lasts after ∧
      ∀ g ∈ earlier, g.code ≠ f.code := by
  induction before with
  | nil =>
    have hcode : f.code ∉ after.map (·.code) := by simpa using hlast
    exact ⟨[], by simp [lasts, hcode], by simp⟩
  | cons g before ih =>
    obtain ⟨earlier, hlasts, hearlier⟩ := ih
    by_cases hg : g.code ∈ (before ++ f :: after).map (·.code)
    · exact ⟨earlier, by rw [List.cons_append, lasts, if_pos hg, hlasts], hearlier⟩
    · refine ⟨g :: earlier, by rw [List.cons_append, lasts, if_neg hg, hlasts]; rfl, ?_⟩
      have hne : g.code ≠ f.code := by
        intro he
        simp [he] at hg
      exact List.forall_mem_cons.2 ⟨hne, hearlier⟩

/-! ## Merging -/

/-- **A merged table has the formats that were not given again, then the last ones given.** -/
theorem formats_merge (t : FormatTable) (overrides : List Format) :
    (t.merge overrides).formats =
      t.formats.filter (fun f => f.code ∉ overrides.map (·.code)) ++ lasts overrides := by
  change overrides.foldl put t.formats = _
  generalize t.formats = formats
  induction overrides generalizing formats with
  | nil => simp [lasts]
  | cons f rest ih =>
    -- `put` leaves out the old formats with the code of `f`, and `f` itself goes if `rest` has one.
    have hold : (formats.filter (·.code != f.code)).filter (fun g => g.code ∉ rest.map (·.code)) =
        formats.filter (fun g => g.code ∉ (f :: rest).map (·.code)) := by
      rw [List.filter_filter]
      refine List.filter_congr fun g _ => ?_
      rw [Bool.eq_iff_iff]
      simp only [List.map_cons, List.mem_cons, not_or, Bool.and_eq_true, decide_eq_true_eq,
        bne_iff_ne]
      exact and_comm
    rw [List.foldl_cons, ih, put, List.filter_append, hold, List.append_assoc, lasts]
    congr 1
    by_cases hf : f.code ∈ rest.map (·.code)
    · rw [if_pos hf, List.filter_cons_of_neg (by simpa using hf)]
      rfl
    · rw [if_neg hf, List.filter_cons_of_pos (by simpa using hf)]
      rfl

theorem merge_append (t : FormatTable) (first second : List Format) :
    t.merge (first ++ second) = (t.merge first).merge second :=
  (isIndexed_merge _ _).ext (isIndexed_merge _ _) List.foldl_append

section

variable {t : FormatTable} {batches : List (List Format)} (h : batches ≠ [] ∨ t.IsIndexed)

include h

/-- The last batch that is merged leaves the index in step. -/
theorem isIndexed_foldl_merge : (batches.foldl merge t).IsIndexed := by
  induction batches generalizing t with
  | nil => exact h.resolve_left fun hne => hne rfl
  | cons batch batches ih => exact ih (.inr (isIndexed_merge t batch))

/-- Only all that is given in order matters, not how it is cut into batches. -/
theorem foldl_merge : batches.foldl merge t = t.merge batches.flatten := by
  refine (isIndexed_foldl_merge h).ext (isIndexed_merge _ _) ?_
  clear h
  induction batches generalizing t with
  | nil => rfl
  | cons batch batches ih => rw [List.foldl_cons, ih, List.flatten_cons, merge_append]

end

/-- Giving the same formats again changes nothing. -/
theorem merge_merge_self (t : FormatTable) (overrides : List Format) :
    (t.merge overrides).merge overrides = t.merge overrides := by
  have hformats : ((t.merge overrides).merge overrides).formats = (t.merge overrides).formats := by
    have hnone : (lasts overrides).filter (fun f => f.code ∉ overrides.map (·.code)) = [] := by
      refine List.filter_eq_nil_iff.2 fun f hf => ?_
      simpa using ⟨f, mem_of_mem_lasts hf, rfl⟩
    rw [formats_merge, formats_merge, List.filter_append, hnone, List.filter_filter,
      List.append_nil]
    simp only [Bool.and_self]
  exact (isIndexed_merge _ _).ext (isIndexed_merge _ _) hformats

/-- Of the formats with a code that was given, a merged table has the last one that was given. -/
theorem eq_of_mem_formats_merge {t : FormatTable} {before after : List Format} {f : Format}
    (hlast : ∀ g ∈ after, g.code ≠ f.code) {g : Format}
    (hg : g ∈ (t.merge (before ++ f :: after)).formats) (hcode : g.code = f.code) : g = f := by
  rw [formats_merge] at hg
  obtain ⟨earlier, hlasts, hearlier⟩ := lasts_append_of_last hlast before
  rcases List.mem_append.1 hg with hg | hg
  · simp [hcode] at hg
  · rw [hlasts] at hg
    rcases List.mem_append.1 hg with hg | hg
    · exact absurd hcode (hearlier g hg)
    rcases List.mem_cons.1 hg with hg | hg
    · exact hg
    · exact absurd hcode (hlast g (mem_of_mem_lasts hg))

/-- **Merging in closed form.** After batches of formats have been merged into a table, it has its
old formats whose codes were not given, in their order, and behind them the last ones of each code
that was given, in the order in which they were given. That is what merging everything at once
gives, and merging it again changes nothing; a table that nothing is merged into has to be in step
with its index for that. The extensions of the last format that was given are all its own, and a
code that was given has no extension that its last format does not list. -/
theorem merge_batches (t : FormatTable) (batches : List (List Format)) :
    let overrides := batches.flatten
    let merged := batches.foldl merge t
    merged.formats =
        t.formats.filter (fun f => f.code ∉ overrides.map (·.code)) ++ lasts overrides ∧
    (batches ≠ [] ∨ t.IsIndexed → merged = t.merge overrides ∧ merged.merge overrides = merged) ∧
    (∀ before f, overrides = before ++ [f] →
      ∀ ext ∈ f.extensions, merged.codeFor? ext = some f.code) ∧
    ∀ before f after, overrides = before ++ f :: after → (∀ g ∈ after, g.code ≠ f.code) →
      (∀ g ∈ merged.formats, g.code = f.code → g = f) ∧
      ∀ ext, merged.codeFor? ext = some f.code → ext ∈ f.extensions := by
  intro overrides merged
  have hgiven : ∀ before f after, overrides = before ++ f :: after →
      merged = t.merge overrides := by
    intro before f after hsplit
    refine foldl_merge (.inl ?_)
    rintro rfl
    simp [overrides] at hsplit
  refine ⟨?_, ?_, ?_, ?_⟩
  · cases batches with
    | nil => simp [merged, overrides, lasts]
    | cons batch batches =>
      rw [show merged = t.merge overrides from foldl_merge (.inl (by simp)), formats_merge]
  · intro h
    have hmerged : merged = t.merge overrides := foldl_merge h
    rw [hmerged]
    exact ⟨rfl, merge_merge_self t overrides⟩
  · intro before f hsplit ext hext
    have hnone : ∀ g ∈ ([] : List Format), g.code ≠ f.code := by simp
    obtain ⟨earlier, hlasts, -⟩ := lasts_append_of_last hnone before
    rw [hgiven before f [] hsplit]
    refine (codeFor?_eq_some_iff (isIndexed_merge t overrides)).2
      ⟨t.formats.filter (fun g => g.code ∉ overrides.map (·.code)) ++ earlier, f, [], ?_, rfl,
        hext, by simp⟩
    rw [formats_merge, hsplit, hlasts, List.append_assoc]
    rfl
  · intro before f after hsplit hlast
    rw [hgiven before f after hsplit]
    have hsame : ∀ g ∈ (t.merge overrides).formats, g.code = f.code → g = f := by
      intro g hg hcode
      rw [hsplit] at hg
      exact eq_of_mem_formats_merge hlast hg hcode
    refine ⟨hsame, fun ext hext => ?_⟩
    obtain ⟨earlier, g, later, hformats, hcode, hmem, -⟩ :=
      (codeFor?_eq_some_iff (isIndexed_merge t overrides)).1 hext
    obtain rfl := hsame g (by simp [hformats]) hcode
    exact hmem

/-- Two batches with one code of the table, the second time with another of its extensions. -/
def yamlTwice : List (List Format) :=
  [[.ofStrings "YAML" ["yml"], .ofStrings "resx" ["resx"]], [.ofStrings "YAML" ["yaml"]]]

theorem merge_batches_yaml_twice :
    let merged := yamlTwice.foldl merge builtin
    merged = builtin.merge yamlTwice.flatten ∧
    merged.codeFor? "yaml".toList = some "YAML".toList ∧
    merged.codeFor? "yml".toList ≠ some "YAML".toList ∧
    ∀ g ∈ merged.formats, g.code = "YAML".toList → g = .ofStrings "YAML" ["yaml"] := by
  intro merged
  obtain ⟨-, hbatches, hlast, hgiven⟩ := merge_batches builtin yamlTwice
  obtain ⟨hsame, hlisted⟩ :=
    hgiven (yamlTwice.flatten.take 2) (.ofStrings "YAML" ["yaml"]) [] rfl (by simp)
  refine ⟨(hbatches (.inr isIndexed_builtin)).1,
    hlast (yamlTwice.flatten.take 2) (.ofStrings "YAML" ["yaml"]) rfl _ (by decide), ?_, hsame⟩
  intro hyml
  exact absurd (hlisted _ hyml) (by decide)

end FormatTable

end LocaleSync
