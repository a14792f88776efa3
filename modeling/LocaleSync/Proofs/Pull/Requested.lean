/-
Which languages a pull is made for. The tokens of a request are looked up one by one, and the first
that is unknown ends it, whatever the tokens before it stand for (`mapM_get_of_unknown`). Only when
all are known are the languages compared with the destination languages, by their codes; those that
are not among them are named all at once. Without a fault each language is taken where it is first
mentioned (`isFirstMentions_distinct`), so other spellings of a token make no difference.

The destination languages leave out the code of the source language, so no request brings it back
(`selectLanguages_exact`).
-/
import LocaleSync.Proofs.Registry
import LocaleSync.Proofs.Text.Index
import LocaleSync.Pull
import Mathlib.Data.List.Forall2
import Mathlib.Data.List.Induction
import Mathlib.Data.List.Nodup

namespace LocaleSync

namespace Pull

/-! ## First mentions -/

/-- The items of a list, each once and in the order in which they are first mentioned. -/
structure IsFirstMentions {α : Type} [DecidableEq α] (mentioned items : List α) : Prop where
  mem_iff : ∀ x, x ∈ items ↔ x ∈ mentioned
  nodup : items.Nodup
  ordered : items.Pairwise fun x y => mentioned.idxOf x < mentioned.idxOf y

section

variable {α : Type} [DecidableEq α] {mentioned items : List α} {x : α}

theorem distinct_concat (xs : List α) (x : α) :
    distinct (xs ++ [x]) = if x ∈ distinct xs then distinct xs else distinct xs ++ [x] := by
  simp [distinct, List.foldl_append]

namespace IsFirstMentions

/-- Later mentions do not change the order. -/
theorem ordered_append (h : IsFirstMentions mentioned items) (more : List α) :
    items.Pairwise fun x y => (mentioned ++ more).idxOf x < (mentioned ++ more).idxOf y := by
  refine h.ordered.imp_of_mem fun {x y} hx hy hxy => ?_
  rwa [List.idxOf_append_of_mem ((h.mem_iff x).1 hx), List.idxOf_append_of_mem ((h.mem_iff y).1 hy)]

theorem concat_mem (h : IsFirstMentions mentioned items) (hx : x ∈ items) :
    IsFirstMentions (mentioned ++ [x]) items := by
  refine ⟨fun y => ?_, h.nodup, h.ordered_append [x]⟩
  rw [h.mem_iff y, List.mem_append, List.mem_singleton]
  constructor
  · exact .inl
  · intro hy
    obtain hy | rfl := hy
    · exact hy
    · exact (h.mem_iff y).1 hx

theorem concat_not_mem (h : IsFirstMentions mentioned items) (hx : x ∉ items) :
    IsFirstMentions (mentioned ++ [x]) (items ++ [x]) := by
  have hnew : x ∉ mentioned := fun hm => hx ((h.mem_iff x).2 hm)
  refine ⟨fun y => ?_, ?_, List.pairwise_append.2 ⟨h.ordered_append [x], by simp, ?_⟩⟩
  · rw [List.mem_append, List.mem_append, h.mem_iff y]
  · rw [← List.concat_eq_append]
    exact h.nodup.concat hx
  · intro y hy z hz
    obtain rfl := List.mem_singleton.1 hz
    have hy := (h.mem_iff y).1 hy
    have hlt := List.idxOf_lt_length_of_mem hy
    rw [List.idxOf_append_of_mem hy, List.idxOf_append_of_notMem hnew]
    omega

end IsFirstMentions

/-- **Keeping first occurrences keeps the order of first mention.** -/
theorem isFirstMentions_distinct (xs : List α) : IsFirstMentions xs (distinct xs) := by
  induction xs using List.reverseRecOn with
  | nil => exact ⟨fun x => Iff.rfl, .nil, .nil⟩
  | append_singleton xs x ih =>
    rw [distinct_concat]
    split
    next hx => exact ih.concat_mem hx
    next hx => exact ih.concat_not_mem hx

end

/-! ## Looking tokens up -/

/-- The token stands for a language. -/
def IsKnown (r : Registry) (token : Text) : Prop :=
  ∃ l, r.get token = .ok l

/-- The languages that tokens stand for, one for each. -/
def Resolves (r : Registry) (tokens : List Text) (found : List Language) : Prop :=
  List.Forall₂ (fun token l => r.get token = .ok l) tokens found

section

variable {r : Registry} {tokens : List Text} {token : Text} {found : List Language}

/-- Either all tokens are known or there is a first one that is not. -/
theorem resolves_or_unknown (r : Registry) (tokens : List Text) :
    (∃ found, Resolves r tokens found) ∨
      ∃ before token after, tokens = before ++ token :: after ∧ (∀ t ∈ before, IsKnown r t) ∧
        ¬ IsKnown r token := by
  induction tokens with
  | nil => exact .inl ⟨[], .nil⟩
  | cons t tokens ih =>
    by_cases ht : IsKnown r t
    · obtain ⟨found, hfound⟩ | ⟨before, token, after, rfl, hbefore, htoken⟩ := ih
      · obtain ⟨l, hl⟩ := ht
        exact .inl ⟨l :: found, .cons hl hfound⟩
      · exact .inr ⟨t :: before, token, after, rfl, List.forall_mem_cons.2 ⟨ht, hbefore⟩, htoken⟩
    · exact .inr ⟨[], t, tokens, rfl, by simp, ht⟩

theorem mapM_get_of_resolves (h : Resolves r tokens found) : tokens.mapM r.get = .ok found := by
  induction h with
  | nil => rfl
  | cons hl _ ih =>
    rw [List.mapM_cons, hl, ih]
    rfl

theorem Resolves.unique {others : List Language} (h : Resolves r tokens found)
    (h' : Resolves r tokens others) : found = others :=
  Except.ok.inj ((mapM_get_of_resolves h).symm.trans (mapM_get_of_resolves h'))

/-- **The first unknown token ends a request.** -/
theorem mapM_get_of_unknown {before : List Text} (hbefore : ∀ t ∈ before, IsKnown r t)
    (htoken : ¬ IsKnown r token) (after : List Text) :
    (before ++ token :: after).mapM r.get = .error (.languageNotFound token) := by
  induction before with
  | nil =>
    have hget : r.get token = .error (.languageNotFound token) := by
      unfold IsKnown Registry.get at *
      cases hfind : r.find? token with
      | none => rfl
      | some l => exact absurd ⟨l, by rw [hfind]⟩ htoken
    rw [List.nil_append, List.mapM_cons, hget]
    rfl
  | cons t before ih =>
    obtain ⟨l, hl⟩ := hbefore t (by simp)
    rw [List.cons_append, List.mapM_cons, hl, ih fun t hm => hbefore t (by simp [hm])]
    rfl

theorem Resolves.mem_of_get (h : Resolves r tokens found) (hm : token ∈ tokens) {l : Language}
    (hl : r.get token = .ok l) : l ∈ found := by
  induction h with
  | nil => cases hm
  | @cons t m tokens found hm' _ ih =>
    obtain rfl | hm := List.mem_cons.1 hm
    · obtain rfl := Except.ok.inj (hl.symm.trans hm')
      exact List.mem_cons_self
    · exact List.mem_cons_of_mem m (ih hm)

end

/-! ## What a request comes to -/

/-- A destination language has the code. -/
def IsConfigured (destination : List Language) (code : Text) : Prop :=
  ∃ l ∈ destination, l.code = code

instance (destination : List Language) (code : Text) :
    Decidable (IsConfigured destination code) :=
  inferInstanceAs (Decidable (∃ l ∈ destination, l.code = code))

/-- The languages whose codes no destination language has. -/
def unconfigured (destination found : List Language) : List Language :=
  found.filter fun l => !destination.any (·.code = l.code)

section

variable {r : Registry} {requested : List Text} {found destination : List Language}

theorem mem_unconfigured_iff {l : Language} :
    l ∈ unconfigured destination found ↔ l ∈ found ∧ ¬ IsConfigured destination l.code := by
  simp [unconfigured, IsConfigured]

theorem selectLanguages_of_unknown {before : List Text} {token : Text}
    (hbefore : ∀ t ∈ before, IsKnown r t) (htoken : ¬ IsKnown r token) (after : List Text) :
    selectLanguages r (before ++ token :: after) destination =
      .error (.languageNotFound token) := by
  unfold selectLanguages
  rw [if_neg (by simp), mapM_get_of_unknown hbefore htoken]
  rfl

theorem selectLanguages_of_resolves (hne : requested ≠ []) (h : Resolves r requested found) :
    selectLanguages r requested destination =
      if (unconfigured destination found).isEmpty then .ok (distinct found)
      else .error (.languagesNotConfigured
        (Text.sort (distinct ((unconfigured destination found).map (·.code))))) := by
  unfold selectLanguages
  rw [if_neg (by simpa using hne), mapM_get_of_resolves h]
  rfl

theorem selectLanguages_of_configured (hne : requested ≠ []) (h : Resolves r requested found)
    (hall : ∀ l ∈ found, IsConfigured destination l.code) :
    selectLanguages r requested destination = .ok (distinct found) := by
  have hnone : unconfigured destination found = [] := by
    refine List.eq_nil_iff_forall_not_mem.2 fun l hl => ?_
    obtain ⟨hfound, hl⟩ := mem_unconfigured_iff.1 hl
    exact hl (hall l hfound)
  rw [selectLanguages_of_resolves hne h, hnone]
  rfl

/-- **Languages that are not configured are named by their codes**, each once and in byte order. -/
theorem selectLanguages_of_unconfigured (hne : requested ≠ []) (h : Resolves r requested found)
    (hsome : ∃ l ∈ found, ¬ IsConfigured destination l.code) :
    ∃ codes, selectLanguages r requested destination = .error (.languagesNotConfigured codes) ∧
      (codes.map Bytes.ofText).Pairwise (· < ·) ∧
      ∀ code, code ∈ codes ↔ (∃ l ∈ found, l.code = code) ∧ ¬ IsConfigured destination code := by
  have hmentions := isFirstMentions_distinct ((unconfigured destination found).map (·.code))
  obtain ⟨l, hl, hlcode⟩ := hsome
  have hmem : (unconfigured destination found).isEmpty = false :=
    List.isEmpty_eq_false_iff_exists_mem.2 ⟨l, mem_unconfigured_iff.2 ⟨hl, hlcode⟩⟩
  refine ⟨_, by rw [selectLanguages_of_resolves hne h, hmem]; rfl, ?_, fun code => ?_⟩
  · exact List.pairwise_map.2 ((Text.sorted_sort hmentions.nodup).imp Bytes.ofText_lt_ofText)
  · rw [Text.mem_sort, hmentions.mem_iff, List.mem_map]
    simp only [mem_unconfigured_iff]
    constructor
    · intro h
      obtain ⟨m, ⟨hm, hcode⟩, rfl⟩ := h
      exact ⟨⟨m, hm, rfl⟩, hcode⟩
    · intro h
      obtain ⟨⟨m, hm, rfl⟩, hcode⟩ := h
      exact ⟨m, ⟨hm, hcode⟩, rfl⟩

/-- A request that succeeds has known tokens and configured languages only. -/
theorem configured_of_selectLanguages {ls : List Language} (hne : requested ≠ [])
    (hok : selectLanguages r requested destination = .ok ls) :
    ∃ found, Resolves r requested found ∧ (∀ l ∈ found, IsConfigured destination l.code) ∧
      ls = distinct found := by
  obtain ⟨found, hfound⟩ | ⟨before, token, after, rfl, hbefore, htoken⟩ :=
    resolves_or_unknown r requested
  · by_cases hall : ∀ l ∈ found, IsConfigured destination l.code
    · rw [selectLanguages_of_configured hne hfound hall] at hok
      exact ⟨found, hfound, hall, (Except.ok.inj hok).symm⟩
    · have hsome : ∃ l ∈ found, ¬ IsConfigured destination l.code := by simpa using hall
      obtain ⟨codes, hcodes, -⟩ := selectLanguages_of_unconfigured hne hfound hsome
      rw [hcodes] at hok
      cases hok
  · rw [selectLanguages_of_unknown hbefore htoken] at hok
    cases hok

end

/-- The destination languages are there if the source language is, and none has its code. -/
theorem exists_source_of_destinationLanguages {c : Config} {r : Registry}
    {destination : List Language} (h : c.destinationLanguages r = .ok destination) :
    ∃ source, c.sourceLanguage r = .ok source ∧ ¬ IsConfigured destination source.code := by
  unfold Config.destinationLanguages at h
  cases hsource : c.sourceLanguage r with
  | error e =>
    rw [hsource] at h
    cases h
  | ok source =>
    rw [hsource] at h
    obtain rfl : r.languages.filter (·.code ≠ source.code) = destination := Except.ok.inj h
    refine ⟨source, rfl, fun hconf => ?_⟩
    obtain ⟨l, hl, hcode⟩ := hconf
    simp [hcode] at hl

/-- **What a request for languages comes to.** The first token that is unknown is the error, if there
is one. Otherwise, if there are languages with codes that no destination language has, the error
lists these codes, each once and in byte order. Otherwise the answer is the languages that the tokens
stand for, each once and in the order of first mention. Without a request it is the destination
languages. The source language is in no answer, and a request that names it in any way has none. -/
theorem selectLanguages_exact {c : Config} {r : Registry} {destination : List Language}
    (hdest : c.destinationLanguages r = .ok destination) (requested : List Text) :
    let answer := selectLanguages r requested destination
    (∀ before token after, requested = before ++ token :: after → (∀ t ∈ before, IsKnown r t) →
      ¬ IsKnown r token → answer = .error (.languageNotFound token)) ∧
    (requested ≠ [] → (∀ token ∈ requested, IsKnown r token) →
      ∃ found, Resolves r requested found ∧
        ((∃ l ∈ found, ¬ IsConfigured destination l.code) →
          ∃ codes, answer = .error (.languagesNotConfigured codes) ∧
            (codes.map Bytes.ofText).Pairwise (· < ·) ∧
            ∀ code, code ∈ codes ↔
              (∃ l ∈ found, l.code = code) ∧ ¬ IsConfigured destination code) ∧
        ((∀ l ∈ found, IsConfigured destination l.code) →
          ∃ ls, answer = .ok ls ∧ IsFirstMentions found ls ∧
            ∀ l ∈ ls, IsConfigured destination l.code)) ∧
    (requested = [] → answer = .ok destination) ∧
    ∃ source, c.sourceLanguage r = .ok source ∧
      (∀ ls, answer = .ok ls → ∀ l ∈ ls, l.code ≠ source.code) ∧
      ∀ token ∈ requested, ∀ l, r.get token = .ok l → l.code = source.code →
        ∀ ls, answer ≠ .ok ls := by
  intro answer
  obtain ⟨source, hsource, hout⟩ := exists_source_of_destinationLanguages hdest
  refine ⟨?_, ?_, ?_, source, hsource, ?_, ?_⟩
  · intro before token after hsplit hbefore htoken
    subst hsplit
    exact selectLanguages_of_unknown hbefore htoken after
  · intro hne hknown
    obtain ⟨found, hfound⟩ | ⟨before, token, after, rfl, -, htoken⟩ :=
      resolves_or_unknown r requested
    · refine ⟨found, hfound, selectLanguages_of_unconfigured hne hfound, fun hall => ?_⟩
      have hmentions := isFirstMentions_distinct found
      exact ⟨_, selectLanguages_of_configured hne hfound hall, hmentions,
        fun l hl => hall l ((hmentions.mem_iff l).1 hl)⟩
    · exact absurd (hknown token (by simp)) htoken
  · intro hnil
    subst hnil
    rfl
  · intro ls hok l hl hcode
    by_cases hne : requested = []
    · subst hne
      obtain rfl : destination = ls := Except.ok.inj hok
      exact hout ⟨l, hl, hcode⟩
    · obtain ⟨found, -, hall, rfl⟩ := configured_of_selectLanguages hne hok
      exact hout (hcode ▸ hall l (((isFirstMentions_distinct found).mem_iff l).1 hl))
  · intro token hm l hl hcode ls hok
    obtain ⟨found, hfound, hall, -⟩ :=
      configured_of_selectLanguages (List.ne_nil_of_mem hm) hok
    exact hout (hcode ▸ hall l (hfound.mem_of_get hm hl))

open LocaleSync.Language (english french german)

def fromEnglish : Config where
  organizationId := 1
  projectId := 2
  sourceLanguage? := some "English".toList
  languages := [english, french, german]

/-- Languages by code, name and short code; the source language before an unknown token; the source
language under two spellings. -/
theorem selectLanguages_exact_aliases :
    fromEnglish.destinationLanguages fromEnglish.registry = .ok [french, german] ∧
    selectLanguages fromEnglish.registry ["en".toList, "xx".toList, "yy".toList]
      [french, german] = .error (.languageNotFound "xx".toList) ∧
    (∃ codes, selectLanguages fromEnglish.registry
        ["de".toList, "ENGLISH".toList, "en_US".toList] [french, german] =
          .error (.languagesNotConfigured codes) ∧
        "en-us".toList ∈ codes ∧ "de-de".toList ∉ codes) ∧
    ∃ ls, selectLanguages fromEnglish.registry ["de".toList, "FR_fr".toList, "german".toList]
      [french, german] = .ok ls ∧ IsFirstMentions [german, french, german] ls := by
  have hdest : fromEnglish.destinationLanguages fromEnglish.registry = .ok [french, german] := by
    decide +kernel
  have hget : ["en", "xx", "ENGLISH", "en_US", "FR_fr", "de", "german"].map
      (fun token => fromEnglish.registry.get token.toList) =
        [.ok english, .error (.languageNotFound "xx".toList), .ok english, .ok english, .ok french,
          .ok german, .ok german] := by
    decide +kernel
  simp only [List.map_cons, List.map_nil, List.cons.injEq, and_true] at hget
  obtain ⟨hen, hxx, hname, hspelled, hfr, hde, hgerman⟩ := hget
  have hunknown : ¬ IsKnown fromEnglish.registry "xx".toList := by
    intro h
    obtain ⟨l, hl⟩ := h
    rw [hxx] at hl
    cases hl
  refine ⟨hdest, ?_, ?_, ?_⟩
  · exact (selectLanguages_exact hdest _).1 ["en".toList] "xx".toList ["yy".toList] rfl
      (by simpa using ⟨_, hen⟩) hunknown
  · obtain ⟨found, hfound, hunconfigured, -⟩ := (selectLanguages_exact hdest
      ["de".toList, "ENGLISH".toList, "en_US".toList]).2.1 (by simp)
        (by simpa using ⟨⟨_, hde⟩, ⟨_, hname⟩, ⟨_, hspelled⟩⟩)
    obtain rfl := hfound.unique (.cons hde (.cons hname (.cons hspelled .nil)))
    obtain ⟨codes, hcodes, -, hmem⟩ := hunconfigured ⟨english, by simp, by decide⟩
    refine ⟨codes, hcodes, (hmem _).2 ⟨⟨english, by simp, rfl⟩, by decide⟩, fun h => ?_⟩
    exact ((hmem _).1 h).2 ⟨german, by simp, rfl⟩
  · obtain ⟨found, hfound, -, hconfigured⟩ := (selectLanguages_exact hdest
      ["de".toList, "FR_fr".toList, "german".toList]).2.1 (by simp)
        (by simpa using ⟨⟨_, hde⟩, ⟨_, hfr⟩, ⟨_, hgerman⟩⟩)
    obtain rfl := hfound.unique (.cons hde (.cons hfr (.cons hgerman .nil)))
    obtain ⟨ls, hls, hmentions, -⟩ := hconfigured (by decide)
    exact ⟨ls, hls, hmentions⟩

end Pull

end LocaleSync
