import CobolFlow.Proofs.Division.Body
import CobolFlow.Proofs.Steps.Division

/-!
# Where control does not fall on

Control falls on from every passage of a division but the last, with one exception: it does not
fall into a USE procedure, and so not from the end of the sentence before. When the DECLARATIVES
are left, control goes on from the passage that stands before them, so that what does not fall on
is a sentence of the DECLARATIVES.

## Main definitions

* `Plan.GoesOn` — what is true of a plan in the making

## Main results

* `DivisionText.exempts_of_plan` — control falls on from every passage that is not excepted
-/

namespace CobolFlow

/-! ### Sentences of the DECLARATIVES -/

namespace Procedures

variable {c c' : Procedures} {sentence : Option SentenceId}

/-- There is a sentence, and it is one of the DECLARATIVES. -/
def Exempts (c : Procedures) (sentence : Option SentenceId) : Prop :=
  ∃ j ∈ sentence, ∃ t, c.sentences[j]? = some t ∧ t.declaratives = true

/-- The sentences there were are still there. -/
def KeepsSentences (c c' : Procedures) : Prop :=
  ∀ (j : SentenceId) (t : Sentence), c.sentences[j]? = some t → c'.sentences[j]? = some t

theorem KeepsSentences.of_eq (h : c'.sentences = c.sentences) : c.KeepsSentences c' :=
  fun _ _ hj => by rwa [h]

theorem KeepsSentences.of_push {t : Sentence} (h : c'.sentences = c.sentences.push t) :
    c.KeepsSentences c' := fun j t' hj => by
  rw [h, Array.getElem?_push_lt (Array.getElem?_eq_some_iff.1 hj).1]
  rw [Array.getElem?_eq_some_iff] at hj
  exact congrArg some hj.2

theorem Exempts.mono (h : c.Exempts sentence) (hkeep : c.KeepsSentences c') :
    c'.Exempts sentence := by
  obtain ⟨j, hj, t, ht, hdeclaratives⟩ := h
  exact ⟨j, hj, t, hkeep j t ht, hdeclaratives⟩

/-- The implicit section is always found. -/
theorem exists_rootSection_eq_ok (c : Procedures) : ∃ r, rootSection c = .ok r := by
  rw [rootSection, run_bind (a := c) (t := c) rfl]
  cases c.procedures[0]? <;> exact ⟨_, rfl⟩

end Procedures

namespace Plan

variable {p : Plan} {item : Item} {items : List Item}

/-- A change of the catalog of which something is known if it is made. -/
theorem edit_cases_of_ensures {P : Plan → Prop} {α : Type} {e : Procedures.Edit α}
    {Q : α → Procedures → Prop} {go : α → Procedures → Plan} (he : Ensures e p.catalog Q)
    (hgo : ∀ a c, Q a c → P (go a c)) (hp : P p) : P (p.edit e go) := by
  rw [edit]
  split
  · next a c h => exact hgo a c (he a c h)
  · exact hp

/-- The sentences of the passages. -/
def sentences (p : Plan) : List (Option SentenceId) := p.passages.map (·.sentence)

theorem length_sentences (p : Plan) : p.sentences.length = p.passages.length := List.length_map _

theorem sentences_readSentence (p : Plan) (id : NodeId) (text : SentenceText) :
    (p.readSentence id text).sentences = p.sentences := by
  rw [sentences, sentences, readSentence]
  obtain h | ⟨pre, q, h⟩ := List.eq_nil_or_concat p.passages
  · simp [h]
  · simp [h]

theorem sentences_add (p : Plan) (origin : Option ℕ) (q : Passage) :
    (p.add origin q).sentences = p.sentences ++ [q.sentence] := List.map_append

/-- Control falls on from every passage but the last, except from the one that stands before
DECLARATIVES and from their sentences. -/
structure GoesOn (p : Plan) : Prop where
  falls : ∀ {i : ℕ} {o : Option SentenceId}, p.sentences[i]? = some o →
    i + 1 < p.sentences.length →
      (∃ k, (i, k) ∈ p.falls) ∨ p.declaratives = some i ∨ p.catalog.Exempts o
  within : ∀ k ∈ p.declaratives, k < p.sentences.length ∧
    ∀ {i : ℕ} {o : Option SentenceId}, p.sentences[i]? = some o → i ≤ k ∨ p.catalog.Exempts o
  entry : p.declarativeEntry = true → p.declaratives.isSome

namespace GoesOn

theorem start (program : Option String) : (Plan.start program).GoesOn := by
  rw [start_eq]
  exact ⟨fun _ h => by simp [sentences] at h, by simp, nofun⟩

/-- What stands in the catalog beside its sentences does not matter, nor where the plan stands. -/
theorem congr (h : p.GoesOn) {p' : Plan} (hsentences : p'.sentences = p.sentences)
    (hfalls : p'.falls = p.falls) (hdeclaratives : p'.declaratives = p.declaratives)
    (hcatalog : p.catalog.KeepsSentences p'.catalog)
    (hentry : p'.declarativeEntry = true → p.declaratives.isSome) : p'.GoesOn where
  falls hi hlt := by
    rw [hsentences] at hi hlt
    rw [hfalls, hdeclaratives]
    exact (h.falls hi hlt).imp_right (·.imp_right (·.mono hcatalog))
  within k hk := by
    rw [hdeclaratives] at hk
    rw [hsentences]
    obtain ⟨hlt, hwithin⟩ := h.within k hk
    exact ⟨hlt, fun hi => (hwithin hi).imp_right (·.mono hcatalog)⟩
  entry := hdeclaratives ▸ hentry

theorem readSentence (h : p.GoesOn) (id : NodeId) (text : SentenceText) :
    (p.readSentence id text).GoesOn :=
  h.congr (p.sentences_readSentence id text) rfl rfl (.of_eq rfl) h.entry

/-- Where a passage is added, control falls on from the one before it if `origin` is the one. -/
theorem falls_add (h : p.GoesOn) {origin : Option ℕ} {q : Passage}
    (hlast : ∀ {i : ℕ} {o : Option SentenceId}, p.sentences[i]? = some o →
      i + 1 = p.sentences.length →
        origin = some i ∨ p.declaratives = some i ∨ p.catalog.Exempts o)
    {i : ℕ} {o : Option SentenceId} (hi : (p.add origin q).sentences[i]? = some o)
    (hlt : i + 1 < (p.add origin q).sentences.length) :
    (∃ k, (i, k) ∈ (p.add origin q).falls) ∨ p.declaratives = some i ∨ p.catalog.Exempts o := by
  rw [sentences_add] at hi hlt
  rw [List.length_append, List.length_singleton, Nat.add_lt_add_iff_right] at hlt
  rw [List.getElem?_append_left hlt] at hi
  obtain hlt | heq := Nat.lt_or_eq_of_le (Nat.succ_le_iff.2 hlt)
  · exact (h.falls hi hlt).imp_left fun ⟨k, hk⟩ => ⟨k, List.mem_append_left _ hk⟩
  · refine (hlast hi heq).imp_left fun horigin => ?_
    exact ⟨_, List.mem_append_right _ (by rw [horigin]; exact List.mem_singleton_self _)⟩

/-- A passage is added into which control falls from the last, unless this one need not go on. -/
theorem add (h : p.GoesOn) (origin : Option ℕ) {q : Passage}
    (hlast : ∀ {i : ℕ} {o : Option SentenceId}, p.sentences[i]? = some o →
      i + 1 = p.sentences.length →
        origin = some i ∨ p.declaratives = some i ∨ p.catalog.Exempts o)
    (hwithin : p.declaratives.isSome → p.catalog.Exempts q.sentence) : (p.add origin q).GoesOn where
  falls hi hlt := h.falls_add hlast hi hlt
  within k hk := by
    obtain ⟨hlt, hold⟩ := h.within k hk
    rw [sentences_add]
    refine ⟨hlt.trans_le (by simp), fun {i o} hi => ?_⟩
    obtain hlt | hge := Nat.lt_or_ge i p.sentences.length
    · rw [List.getElem?_append_left hlt] at hi
      exact hold hi
    · rw [List.getElem?_append_right hge] at hi
      obtain rfl := List.mem_singleton.1 (List.mem_of_getElem? hi)
      exact .inr (hwithin (Option.isSome_of_mem hk))
  entry := h.entry

theorem add_last_eq {i : ℕ} (h : i + 1 = p.sentences.length) : p.last? = some i := by
  rw [length_sentences] at h
  rw [last?, if_neg (by simpa using List.ne_nil_of_length_eq_add_one h.symm), ← h]
  rfl

/-- A passage is added that is a sentence of the DECLARATIVES if these are open. -/
theorem openSentence (h : p.GoesOn) (id : NodeId) : (p.openSentence id).GoesOn := by
  refine edit_cases_of_ensures (Build.addSentence_sentences _ _ _) (fun j c ⟨hj, hc⟩ => ?_) h
  have hcatalog : GoesOn { p with catalog := c, begun := true } :=
    h.congr rfl rfl rfl (.of_push hc) h.entry
  refine (hcatalog.add (if p.declarativeEntry then none else p.last?) ?_ ?_).congr rfl rfl rfl
    (.of_eq rfl) nofun
  · intro i o hi hlast
    split
    · next hentry =>
      obtain ⟨k, hk⟩ := Option.isSome_iff_exists.1 (h.entry hentry)
      obtain ⟨hlt, hwithin⟩ := hcatalog.within k hk
      obtain hle | hexempts := hwithin hi
      · obtain rfl : i = k := by omega
        exact .inr (.inl hk)
      · exact .inr (.inr hexempts)
    · exact .inl (add_last_eq hlast)
  · intro hopen
    refine ⟨j, rfl, { id := j, owner := p.currentParagraph.or p.currentSection
                      declaratives := p.declaratives.isSome }, ?_, hopen⟩
    rw [hj, hc, Array.getElem?_push_size]

theorem step (h : p.GoesOn) (hitem : item.IsPlain) : (p.step item).GoesOn := by
  cases item with
  | sentence id text =>
    rw [Plan.step]
    split
    · exact h.readSentence id text
    · exact (h.openSentence id).readSentence id text
  | enter heading id =>
    cases heading with
    | declaratives => exact hitem.elim
    | sectionHeader name span =>
      rw [Plan.step]
      refine edit_cases_of_ensures (Build.addSection_sentences _ _ _ _) (fun j c hc => ?_) h
      refine h.congr rfl rfl rfl (.of_eq hc) fun hentry => ?_
      exact (Bool.or_eq_true_iff.1 hentry).elim h.entry fun hsome => hsome
    | paragraphHeader name span =>
      exact edit_cases_of_ensures (Build.addParagraph_sentences _ _ _ _ _)
        (fun j c hc => h.congr rfl rfl rfl (.of_eq hc) h.entry) h
  | leave heading id =>
    cases heading with
    | declaratives => exact hitem.elim
    | sectionHeader name span => exact h
    | paragraphHeader name span => exact h

theorem read (h : p.GoesOn) (hitems : ∀ item ∈ items, item.IsPlain) : (p.read items).GoesOn := by
  induction items generalizing p with
  | nil => exact h
  | cons item rest ih =>
    obtain ⟨hitem, hrest⟩ := List.forall_mem_cons.1 hitems
    exact ih (h.step hitem) hrest

/-- The last passage is the one that stands before the DECLARATIVES. -/
theorem enterDeclaratives (h : p.GoesOn) (hp : p.declaratives = none) (id : NodeId) :
    (p.step (.enter .declaratives id)).GoesOn where
  falls hi hlt := (h.falls hi hlt).imp_right fun hrest =>
    .inr (hrest.resolve_left (by simp [hp]))
  within k hk := by
    change k < p.sentences.length ∧ ∀ {i : ℕ} {o : Option SentenceId}, p.sentences[i]? = some o →
      i ≤ k ∨ p.catalog.Exempts o
    change k ∈ p.last? at hk
    rw [length_sentences]
    rw [last?] at hk
    split at hk
    · cases hk
    · next hne =>
      obtain rfl := Option.some.inj hk
      have hpos : 0 < p.passages.length := List.length_pos_iff.2 (by simpa using hne)
      refine ⟨Nat.sub_lt hpos one_pos, fun hi => .inl (Nat.le_sub_one_of_lt ?_)⟩
      exact p.length_sentences ▸ (List.getElem?_eq_some_iff.1 hi).1
  entry hentry := absurd (h.entry hentry) (by simp [hp])

/-- Control goes on from the passage that stands before them. -/
theorem leaveDeclaratives (h : p.GoesOn) (id : NodeId) :
    (p.step (.leave .declaratives id)).GoesOn ∧
      (p.step (.leave .declaratives id)).declaratives = none := by
  obtain ⟨⟨root, c⟩, hroot⟩ := p.catalog.exists_rootSection_eq_ok
  have hc := Build.rootSection_sentences p.catalog root c hroot
  have hcatalog : GoesOn { p with catalog := c } := h.congr rfl rfl rfl (.of_eq hc) h.entry
  rw [Plan.step, edit, hroot]
  dsimp only
  split
  · next origin hp =>
    refine ⟨⟨fun hi hlt => ?_, fun _ hk => (by cases hk), fun hentry => (by cases hentry)⟩, rfl⟩
    have hlast : ∀ {i : ℕ} {o : Option SentenceId}, p.sentences[i]? = some o →
        i + 1 = p.sentences.length →
          some origin = some i ∨ p.declaratives = some i ∨ c.Exempts o := by
      intro i o hi hlast
      obtain ⟨hlt, hwithin⟩ := hcatalog.within origin hp
      refine ((hwithin hi).imp_left fun hle => ?_).imp_right .inr
      have hlt : origin < p.sentences.length := hlt
      exact congrArg some (by omega)
    refine (hcatalog.falls_add hlast hi hlt).elim .inl fun hrest => hrest.elim (fun hi => .inl ?_)
      fun hexempts => .inr (.inr hexempts)
    have horigin : origin = _ := Option.some.inj (hp.symm.trans hi)
    exact ⟨p.passages.length, List.mem_append_right _ (by rw [horigin]; exact .head _)⟩
  · next hp =>
    exact ⟨⟨fun hi hlt => (hcatalog.falls hi hlt).imp_right fun hrest =>
      .inr (hrest.resolve_left (by simp [hp])), fun _ hk => (by cases hk),
      fun hentry => (by cases hentry)⟩, rfl⟩

end GoesOn

end Plan

/-- **Control falls on** from every passage but the last and the sentences of the DECLARATIVES. -/
theorem DivisionText.exempts_of_plan (d : DivisionText) (program : Option String) (id : NodeId)
    {i : ℕ} {q : Passage} (hi : (d.plan program id).passages[i]? = some q)
    (hlt : i + 1 < (d.plan program id).passages.length) :
    (∃ k, (i, k) ∈ (d.plan program id).falls) ∨
      (d.plan program id).catalog.Exempts q.sentence := by
  obtain ⟨hgoesOn, hdeclaratives⟩ : (d.plan program id).GoesOn ∧
      (d.plan program id).declaratives = none := by
    have hstart := Plan.GoesOn.start program
    have hnone : (Plan.start program).declaratives = none := by
      rw [Plan.start_eq]
    rw [plan]
    obtain ⟨-, hplain⟩ | ⟨-, name, span, inside, rest, hitems, hinside, hrest⟩ := d.exists_items id
    · exact ⟨hstart.read hplain, (Plan.declaratives_read _ hplain).trans hnone⟩
    · rw [hitems, Plan.read, List.foldl_append, List.foldl_append, List.foldl_cons]
      obtain ⟨hleft, hclosed⟩ :=
        ((hstart.enterDeclaratives hnone id).read hinside).leaveDeclaratives id
      exact ⟨hleft.read hrest, (Plan.declaratives_read _ hrest).trans hclosed⟩
  have hi' : (d.plan program id).sentences[i]? = some q.sentence := by
    rw [Plan.sentences, List.getElem?_map, hi]
    rfl
  refine (hgoesOn.falls hi' (by rwa [Plan.length_sentences])).imp_right fun h => ?_
  exact h.resolve_left (hdeclaratives ▸ nofun)

end CobolFlow
