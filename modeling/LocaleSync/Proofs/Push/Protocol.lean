/-
The calls of a push, for everything that the remote project and the user can answer. For each item
a page is looked up, and either the page is updated (`Exchange`), or the file is uploaded, a version
tag is asked for if there are some already, and the upload is added to the project (`Uploads`).
`Exchanges` says this of the items of a plan, one after another, up to the first that fails.

The calls of a push are these, and its report names each item once, where it belongs
(`execute_protocol`).
-/
import LocaleSync.Proofs.Session
import LocaleSync.Push

namespace LocaleSync

namespace Push

/-! ## What is exchanged -/

/-- The user's answers up to the first one that is no existing tag: how often the user is asked, the
answers that are left, and what comes of it. -/
inductive Prompts (existing : List Text) (answers : List (Except Error Text)) :
    Nat → List (Except Error Text) → Except Error Text → Prop where
  | chosen {taken : List Text} {tag left} : answers = taken.map .ok ++ .ok tag :: left →
      (∀ t ∈ taken, t ∈ existing) → tag ∉ existing →
      Prompts existing answers (taken.length + 1) left (.ok tag)
  | refused {taken : List Text} {e left} : answers = taken.map .ok ++ .error e :: left →
      (∀ t ∈ taken, t ∈ existing) → Prompts existing answers (taken.length + 1) left (.error e)
  | cancelled {taken : List Text} : answers = taken.map .ok → (∀ t ∈ taken, t ∈ existing) →
      Prompts existing answers (taken.length + 1) [] (.error .promptCancelled)

section

variable (service : Service) (item : Item) (content : Bytes) (history : List Call)
  (answers : List (Except Error Text))

/-- The calls that upload an item, after a history of calls and with answers of the user to come:
what is called, the answers that are left, and what comes of it. -/
inductive Uploads : List Call → List (Except Error Text) → Except Error Unit → Prop where
  | fails {e} : service.upload history item.uniqueName item.format content = .error e →
      Uploads [.upload item.uniqueName item.format content] answers (.error e)
  | untagged {receipt r} :
      service.upload history item.uniqueName item.format content = .ok receipt →
      receipt.versionTags = [] →
      service.append (history ++ [.upload item.uniqueName item.format content])
        receipt.uploadId item.uniqueName none = r →
      Uploads [.upload item.uniqueName item.format content,
        .append receipt.uploadId item.uniqueName none] answers r
  | promptFails {receipt n left e} :
      service.upload history item.uniqueName item.format content = .ok receipt →
      receipt.versionTags ≠ [] → Prompts receipt.versionTags answers n left (.error e) →
      Uploads (.upload item.uniqueName item.format content ::
        List.replicate n (.versionTag item.uniqueName receipt.versionTags)) left (.error e)
  | tagged {receipt n left tag r} :
      service.upload history item.uniqueName item.format content = .ok receipt →
      receipt.versionTags ≠ [] → Prompts receipt.versionTags answers n left (.ok tag) →
      service.append (history ++ .upload item.uniqueName item.format content ::
          List.replicate n (.versionTag item.uniqueName receipt.versionTags))
        receipt.uploadId item.uniqueName (some tag) = r →
      Uploads (.upload item.uniqueName item.format content ::
        List.replicate n (.versionTag item.uniqueName receipt.versionTags) ++
          [.append receipt.uploadId item.uniqueName (some tag)]) left r

variable (target : Language) (updates : Bool)

/-- The calls for an item, and whether its page was updated. -/
inductive Exchange : List Call → List (Except Error Text) → Except Error Bool → Prop where
  | lookupFails {e} : service.findPage history target.id item.uniqueName = .error e →
      Exchange [.findPage target.id item.uniqueName] answers (.error e)
  | update {page r} : service.findPage history target.id item.uniqueName = .ok (some page) →
      updates = true →
      service.update (history ++ [.findPage target.id item.uniqueName]) page item.uniqueName
        content = r →
      Exchange [.findPage target.id item.uniqueName, .update page item.uniqueName content] answers
        (r.map fun _ => true)
  | upload {page? calls left r} :
      service.findPage history target.id item.uniqueName = .ok page? →
      (updates = true → page? = none) →
      Uploads service item content (history ++ [.findPage target.id item.uniqueName]) answers calls
        left r →
      Exchange (.findPage target.id item.uniqueName :: calls) left (r.map fun _ => false)

end

/-- The calls for items, one after another: what is called, for each item that is done whether its
page was updated, and the error of the first that fails. -/
inductive Exchanges (service : Service) (target : Language) (updates : Bool) (s : Storage) :
    List Call → List (Except Error Text) → List Item → List Call → List Bool → Option Error →
      Prop where
  | done {history answers} : Exchanges service target updates s history answers [] [] [] none
  | unreadable {history answers item rest} : s.read? item.file.fullPath = none →
      Exchanges service target updates s history answers (item :: rest) [] []
        (some (.storage .reading item.file.fullPath))
  | fails {history answers item rest content calls left e} :
      s.read? item.file.fullPath = some content →
      Exchange service item content history answers target updates calls left (.error e) →
      Exchanges service target updates s history answers (item :: rest) calls [] (some e)
  | next {history answers item rest content calls left updated calls' flags e?} :
      s.read? item.file.fullPath = some content →
      Exchange service item content history answers target updates calls left (.ok updated) →
      Exchanges service target updates s (history ++ calls) left rest calls' flags e? →
      Exchanges service target updates s history answers (item :: rest) (calls ++ calls')
        (updated :: flags) e?

/-- Without an error every item is done. -/
theorem Exchanges.length_eq {service : Service} {target : Language} {updates : Bool} {s : Storage}
    {history : List Call} {answers : List (Except Error Text)} {items : List Item}
    {calls : List Call} {flags : List Bool} {e? : Option Error}
    (h : Exchanges service target updates s history answers items calls flags e?)
    (he : e? = none) : flags.length = items.length := by
  induction h with
  | done => rfl
  | unreadable | fails => cases he
  | next _ _ _ ih => rw [List.length_cons, List.length_cons, ih he]

/-- The names of items as a report lists them, by whether their pages were updated. -/
def reportOf (items : List Item) (flags : List Bool) : Report where
  uploaded := ((items.zip flags).filter fun x => !x.2).map (·.1.uniqueName)
  updated := ((items.zip flags).filter (·.2)).map (·.1.uniqueName)

/-! ## What a session has called -/

/-- The world after calls, with answers of the user left. -/
structure Called (w : World) (calls : List Call) (left : List (Except Error Text)) (w' : World) :
    Prop where
  storage : w'.storage = w.storage
  calls : w'.calls = w.calls ++ calls
  answers : w'.answers = { w.answers with tags := left }

theorem Called.refl (w : World) : Called w [] w.answers.tags w :=
  ⟨rfl, by simp, rfl⟩

theorem Called.tags {w w' : World} {calls : List Call} {left : List (Except Error Text)}
    (h : Called w calls left w') : w'.answers.tags = left := by
  rw [h.answers]

theorem Called.trans {w w₁ w₂ : World} {calls calls' : List Call}
    {left left' : List (Except Error Text)} (h : Called w calls left w₁)
    (h' : Called w₁ calls' left' w₂) : Called w (calls ++ calls') left' w₂ := by
  refine ⟨h'.storage.trans h.storage, ?_, ?_⟩
  · rw [h'.calls, h.calls, List.append_assoc]
  · rw [h'.answers, h.answers]

open Session

theorem ends_read {f : LocaleFile} {w : World} {post : Except Error Bytes → World → Prop} :
    Ends (Session.read f) w post ↔
      match w.storage.read? f.fullPath with
      | some content => post (.ok content) w
      | none => post (.error (.storage .reading f.fullPath)) w := by
  simp only [Session.read, ends_bind, ends_get]
  cases w.storage.read? f.fullPath <;> rfl

/-- A call that is told of afterwards. -/
theorem ends_call_note (c : Call) (answer : List Call → Except Error Unit) (n : Note) (w : World) :
    Ends (do Session.call c answer; Session.note n) w fun r w' =>
      r = answer w.calls ∧ Called w [c] w.answers.tags w' := by
  simp only [ends_bind, ends_call, ends_note]
  cases answer w.calls <;> exact ⟨rfl, rfl, rfl, rfl⟩

theorem Prompts.cons {existing : List Text} {answers left : List (Except Error Text)} {n : Nat}
    {r : Except Error Text} {tag : Text} (htag : tag ∈ existing)
    (h : Prompts existing answers n left r) :
    Prompts existing (.ok tag :: answers) (n + 1) left r := by
  have hmem : ∀ {taken : List Text}, (∀ t ∈ taken, t ∈ existing) → ∀ t ∈ tag :: taken, t ∈ existing :=
    fun htaken => List.forall_mem_cons.2 ⟨htag, htaken⟩
  cases h with
  | chosen he htaken hnew => exact .chosen (by rw [he]; rfl) (hmem htaken) hnew
  | refused he htaken => exact .refused (by rw [he]; rfl) (hmem htaken)
  | cancelled he htaken => exact .cancelled (by rw [he]; rfl) (hmem htaken)

/-- **The user is asked until an answer is no existing tag.** -/
theorem ends_chooseTag (name : Text) (existing : List Text) {answers : List (Except Error Text)}
    {w : World} (hw : w.answers.tags = answers) :
    Ends (chooseTag name existing answers) w fun r w' => ∃ n left,
      Prompts existing answers n left r ∧
        Called w (List.replicate n (.versionTag name existing)) left w' := by
  have hnone : ∀ t ∈ ([] : List Text), t ∈ existing := fun _ ht => absurd ht List.not_mem_nil
  induction answers generalizing w with
  | nil =>
    simp only [chooseTag, ends_call]
    exact ⟨1, [], .cancelled rfl hnone, rfl, rfl, by rw [← hw]⟩
  | cons answer rest ih =>
    simp only [chooseTag, ends_bind, ends_modify, ends_call]
    cases answer with
    | error e => exact ⟨1, rest, .refused rfl hnone, rfl, rfl, rfl⟩
    | ok tag =>
      by_cases hmem : tag ∈ existing
      · simp only [List.contains_iff_mem, hmem, if_true]
        refine (ih ?_).mono ?_
        · rfl
        rintro r w' ⟨n, left, hp, hw'⟩
        refine ⟨n + 1, left, hp.cons hmem, hw'.storage, ?_, hw'.answers⟩
        rw [hw'.calls, List.replicate_succ, List.append_assoc]
        rfl
      · simp only [List.contains_iff_mem, hmem, if_false]
        exact ⟨1, rest, .chosen rfl hnone hmem, rfl, rfl, rfl⟩

/-- A tag is asked for exactly if there are some already. -/
theorem ends_versionTag (name : Text) (existing : List Text) (w : World) :
    Ends (versionTag name existing) w fun r w' =>
      (existing = [] ∧ r = .ok none ∧ Called w [] w.answers.tags w') ∨
      (existing ≠ [] ∧ ∃ n left r', Prompts existing w.answers.tags n left r' ∧ r = r'.map some ∧
        Called w (List.replicate n (.versionTag name existing)) left w') := by
  by_cases he : existing = []
  · subst he
    exact .inl ⟨rfl, rfl, Called.refl w⟩
  · simp only [versionTag, List.isEmpty_iff, he, if_false, ends_bind, ends_note, ends_get]
    refine (ends_chooseTag name existing ?_).mono ?_
    · rfl
    rintro r w' ⟨n, left, hp, hw'⟩
    have hw : Called w (List.replicate n (.versionTag name existing)) left w' :=
      ⟨hw'.storage, hw'.calls, hw'.answers⟩
    cases r with
    | ok tag => exact .inr ⟨he, n, left, _, hp, rfl, hw⟩
    | error e => exact .inr ⟨he, n, left, _, hp, rfl, hw⟩

/-- **An upload makes the calls of an upload.** -/
theorem ends_upload (service : Service) (item : Item) (content : Bytes) (w : World) :
    Ends (upload service item content) w fun r w' => ∃ calls left,
      Uploads service item content w.calls w.answers.tags calls left r ∧ Called w calls left w' := by
  rw [upload, ends_bind, ends_note]
  dsimp only
  rw [ends_bind, ends_call]
  cases hupload : service.upload w.calls item.uniqueName item.format content with
  | error e => exact ⟨_, _, .fails hupload, rfl, rfl, rfl⟩
  | ok receipt =>
    dsimp only
    rw [ends_bind]
    have hsent : Called w [.upload item.uniqueName item.format content] w.answers.tags
        { w with
          calls := w.calls ++ [.upload item.uniqueName item.format content]
          notes := w.notes ++ [.info ("Uploading ".toList ++ item.file.posix)] } := ⟨rfl, rfl, rfl⟩
    refine (ends_versionTag item.uniqueName receipt.versionTags _).mono ?_
    rintro r w₂ (⟨htags, rfl, hw₂⟩ | ⟨htags, n, left, r', hp, rfl, hw₂⟩)
    · refine (ends_call_note _ _ _ w₂).mono ?_
      rintro r w₃ ⟨hr, hw₃⟩
      rw [hw₂.calls, List.append_nil] at hr
      refine ⟨_, _, .untagged hupload htags hr.symm, ?_⟩
      have hw := (hsent.trans hw₂).trans hw₃
      rwa [hw₂.tags] at hw
    · cases r' with
      | error e => exact ⟨_, left, .promptFails hupload htags hp, hsent.trans hw₂⟩
      | ok tag =>
        refine (ends_call_note _ _ _ w₂).mono ?_
        rintro r w₃ ⟨hr, hw₃⟩
        rw [hw₂.calls, List.append_assoc] at hr
        refine ⟨_, _, .tagged hupload htags hp hr.symm, ?_⟩
        have hw := (hsent.trans hw₂).trans hw₃
        rwa [hw₂.tags] at hw

theorem ends_update (service : Service) (item : Item) (page : Page) (content : Bytes) (w : World) :
    Ends (update service item page content) w fun r w' =>
      r = service.update w.calls page item.uniqueName content ∧
        Called w [.update page item.uniqueName content] w.answers.tags w' := by
  rw [update, ends_bind, ends_note]
  refine (ends_call_note _ _ _ _).mono ?_
  rintro r w' ⟨hr, hw'⟩
  exact ⟨hr, hw'.storage, hw'.calls, hw'.answers⟩

/-- **An item makes its exchange.** -/
theorem ends_executeItem (service : Service) (target : Language) (updates : Bool) (item : Item)
    (w : World) :
    Ends (executeItem service target updates item) w fun r w' =>
      (w.storage.read? item.file.fullPath = none ∧
        r = .error (.storage .reading item.file.fullPath) ∧ Called w [] w.answers.tags w') ∨
      ∃ content calls left, w.storage.read? item.file.fullPath = some content ∧
        Exchange service item content w.calls w.answers.tags target updates calls left r ∧
        Called w calls left w' := by
  rw [executeItem, ends_bind, ends_read]
  cases hread : w.storage.read? item.file.fullPath with
  | none => exact .inl ⟨rfl, rfl, Called.refl w⟩
  | some content =>
    dsimp only
    rw [ends_bind, ends_call]
    have hfound : Called w [.findPage target.id item.uniqueName] w.answers.tags
        { w with calls := w.calls ++ [.findPage target.id item.uniqueName] } := ⟨rfl, rfl, rfl⟩
    cases hpage : service.findPage w.calls target.id item.uniqueName with
    | error e => exact .inr ⟨content, _, _, rfl, .lookupFails hpage, hfound⟩
    | ok page? =>
      have hupload : (updates = true → page? = none) →
          Ends (do upload service item content; return false)
            { w with calls := w.calls ++ [.findPage target.id item.uniqueName] } fun r w' =>
            ∃ calls left, Exchange service item content w.calls w.answers.tags target updates calls
              left r ∧ Called w calls left w' := by
        intro hnew
        rw [ends_bind]
        refine (ends_upload service item content _).mono ?_
        rintro r w₂ ⟨calls, left, hcalls, hw₂⟩
        have hdone := Exchange.upload hpage hnew hcalls
        cases r with
        | error e => exact ⟨_, left, hdone, hfound.trans hw₂⟩
        | ok u => exact ⟨_, left, hdone, hfound.trans hw₂⟩
      cases page? with
      | none =>
        refine (hupload fun _ => rfl).mono ?_
        rintro r w' ⟨calls, left, h⟩
        exact .inr ⟨content, calls, left, rfl, h⟩
      | some page =>
        cases updates with
        | false =>
          refine (hupload nofun).mono ?_
          rintro r w' ⟨calls, left, h⟩
          exact .inr ⟨content, calls, left, rfl, h⟩
        | true =>
          dsimp only
          rw [ends_bind]
          refine (ends_update service item page content _).mono ?_
          rintro r w₂ ⟨hr, hw₂⟩
          have hdone : Exchange service item content w.calls w.answers.tags target true _ _ _ :=
            .update hpage rfl hr.symm
          cases r with
          | error e => exact .inr ⟨content, _, _, rfl, hdone, hfound.trans hw₂⟩
          | ok u => exact .inr ⟨content, _, _, rfl, hdone, hfound.trans hw₂⟩

/-- **Items make their exchanges one after another**, and the report tells what became of them. -/
theorem ends_executeItems (service : Service) (target : Language) (updates : Bool)
    (items : List Item) (w : World) :
    Ends (executeItems service target updates items) w fun r w' => ∃ calls flags e? left,
      Exchanges service target updates w.storage w.calls w.answers.tags items calls flags e? ∧
        Called w calls left w' ∧
        r = match e? with
          | none => .ok (reportOf items flags)
          | some e => .error e := by
  induction items generalizing w with
  | nil => exact ⟨[], [], none, _, .done, Called.refl w, rfl⟩
  | cons item rest ih =>
    rw [executeItems, ends_bind]
    refine (ends_executeItem service target updates item w).mono ?_
    rintro r w₁ (⟨hread, rfl, hw₁⟩ | ⟨content, calls, left, hread, hcalls, hw₁⟩)
    · exact ⟨[], [], _, _, .unreadable hread, hw₁, rfl⟩
    · cases r with
      | error e => exact ⟨calls, [], _, left, .fails hread hcalls, hw₁, rfl⟩
      | ok updated =>
        dsimp only
        rw [ends_bind]
        refine (ih w₁).mono ?_
        rintro r w₂ ⟨calls', flags, e?, left', hrest, hw₂, rfl⟩
        rw [hw₁.storage, hw₁.calls, hw₁.tags] at hrest
        have hall := Exchanges.next hread hcalls hrest
        cases e? with
        | some e => exact ⟨_, _, _, left', hall, hw₁.trans hw₂, rfl⟩
        | none =>
          dsimp only
          cases updated with
          | true => exact ⟨_, _, _, left', hall, hw₁.trans hw₂, rfl⟩
          | false => exact ⟨_, _, _, left', hall, hw₁.trans hw₂, rfl⟩

/-- **The calls of a push are those of its items, in order, up to the first failure**, and the
report of a push that succeeds names every item once, by what became of it. -/
theorem execute_protocol (service : Service) (p : Plan) (target : Language) (updates : Bool)
    (w : World) :
    ∃ calls flags e? w',
      Exchanges service target updates w.storage w.calls w.answers.tags p.items calls flags e? ∧
      w'.calls = w.calls ++ calls ∧ w'.storage = w.storage ∧
      (∀ e, e? = some e → (execute service p target updates).run.run w = (.error e, w')) ∧
      (e? = none → flags.length = p.items.length ∧
        (execute service p target updates).run.run w = (.ok (reportOf p.items flags), w')) := by
  obtain ⟨calls, flags, e?, left, hcalls, hw', hr⟩ :=
    ends_executeItems service target updates p.items w
  refine ⟨calls, flags, e?, _, hcalls, hw'.calls, hw'.storage, fun e he => ?_, fun he => ?_⟩
  · subst he
    exact Prod.ext hr rfl
  · refine ⟨hcalls.length_eq he, ?_⟩
    subst he
    exact Prod.ext hr rfl

end Push

end LocaleSync
