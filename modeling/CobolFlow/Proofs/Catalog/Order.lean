import CobolFlow.Proofs.Calls.Filing

/-!
# The order of a catalog

A catalog is filled in source order: what is declared later is filed behind what is there. So the
sentences of a procedure are listed in their own order, those of its paragraphs included, and later
sentences belong to later procedures. Only the implicit section is taken up again, where the
DECLARATIVES are left.

## Main definitions

* `Procedures.Shelved` — everything is filed, and in order
* `Plan.Shelved` — this, and the place where a plan goes on

## Main results

* `DivisionText.shelved_plan` — the catalog of a division is in order
* `Procedures.Shelved.pairwise_sentencesOf`, `Procedures.Shelved.mem_sentencesOf` — a procedure
  lists its sentences, in increasing order
-/

namespace CobolFlow

/-- What relates the elements of a list in order still does if it changes for the last one only. -/
theorem pairwise_of_last {α : Type} {R S : α → α → Prop} {l : List α} {x : α} (hl : l.Nodup)
    (hlast : x ∈ l → l.getLast? = some x) (h : l.Pairwise R)
    (hRS : ∀ a ∈ l, ∀ b, a ≠ x → R a b → S a b) : l.Pairwise S := by
  induction l with
  | nil => exact .nil
  | cons a rest ih =>
    obtain ⟨ha, hrest⟩ := List.pairwise_cons.1 h
    obtain ⟨hmem, hnodup⟩ := List.nodup_cons.1 hl
    have hsame : ∀ b ∈ rest, (a :: rest).getLast? = rest.getLast? := fun b hb => by
      rw [List.getLast?_cons_of_ne_nil (List.ne_nil_of_mem hb)]
    refine List.pairwise_cons.2 ⟨fun b hb => hRS a (by simp) b ?_ (ha b hb),
      ih hnodup (fun hx => hsame x hx ▸ hlast (by simp [hx])) hrest
        fun a' ha' => hRS a' (by simp [ha'])⟩
    rintro rfl
    exact hmem (List.mem_of_getLast? ((hsame b hb).symm.trans (hlast (by simp))))

namespace Procedures

variable {c c' : Procedures} {p q : ProcedureId} {P Q : Procedure} {j : SentenceId}

/-- The sentences that stand behind a part: itself, or those of the paragraph. -/
def Holds (c : Procedures) : Part → SentenceId → Prop
  | .sentence i, j => j = i
  | .paragraphPart q, j => ∃ t, c.sentences[j]? = some t ∧ t.owner = some q

/-- Everything is filed where it belongs, and in the order of the source. -/
structure Shelved (c : Procedures) : Prop extends Filed c where
  sentence : ∀ {j : SentenceId} {t : Sentence}, c.sentences[j]? = some t →
    ∃ p P, t.owner = some p ∧ c.procedures[p]? = some P ∧ .sentence j ∈ P.parts
  paragraph : ∀ {q : ProcedureId} {Q : Procedure}, c.procedures[q]? = some Q →
    Q.kind = .paragraphProcedure → ∃ p P, Q.owner = some p ∧ p < q ∧
      c.procedures[p]? = some P ∧ P.kind = .sectionProcedure ∧ .paragraphPart q ∈ P.parts
  ordered : ∀ {p : ProcedureId} {P : Procedure}, c.procedures[p]? = some P →
    P.parts.Pairwise fun a b => ∀ i j, c.Holds a i → c.Holds b j → i < j
  /-- The paragraphs of a section follow it one after another. -/
  contiguous : ∀ {q : ProcedureId} {Q : Procedure}, c.procedures[q]? = some Q →
    Q.kind = .paragraphProcedure → ∀ p ∈ Q.owner, p ≠ 0 → ∀ r, p < r → r < q →
      ∃ R, c.procedures[r]? = some R ∧ R.kind = .paragraphProcedure ∧ R.owner = some p
  /-- Later sentences belong to later procedures, but for those of the implicit section. -/
  rising : ∀ {i j : SentenceId} {t t' : Sentence}, c.sentences[i]? = some t →
    c.sentences[j]? = some t' → i < j → ∀ p ∈ t.owner, ∀ q ∈ t'.owner, p ≤ q ∨ q = 0

/-- A part is filed under a procedure, behind what is filed there. -/
def file (c : Procedures) (p : ProcedureId) (part : Part) : Procedures :=
  { c with procedures := c.procedures.modify p fun P => { P with parts := P.parts ++ [part] } }

theorem eq_of_addPart_eq_ok {part : Part} (h : addPart p part c = .ok ((), c')) :
    p < c.procedures.size ∧ c' = c.file p part := by
  rw [addPart, modifyProcedure] at h
  split at h
  · next hp => exact ⟨hp, (congrArg Prod.snd (Except.ok.inj h)).symm⟩
  · cases h

theorem getElem?_file (c : Procedures) (p q : ProcedureId) (part : Part) :
    (c.file p part).procedures[q]? = c.procedures[q]?.map fun Q =>
      { Q with parts := Q.parts ++ if p = q then [part] else [] } := by
  rw [file, Array.getElem?_modify]
  split
  · rfl
  · cases c.procedures[q]? <;> simp

theorem size_file (c : Procedures) (p : ProcedureId) (part : Part) :
    (c.file p part).procedures.size = c.procedures.size := Array.size_modify

/-- The catalog with a new sentence of `p`. -/
def withSentence (c : Procedures) (p : ProcedureId) (declaratives : Bool) : Procedures :=
  let t : Sentence := { id := c.sentences.size, owner := some p, declaratives }
  ({ c with sentences := c.sentences.push t } : Procedures).file p (.sentence c.sentences.size)

theorem eq_of_addSentence_eq_ok {declaratives : Bool}
    (h : addSentence (some p) declaratives c = .ok (j, c')) :
    j = c.sentences.size ∧ p < c.procedures.size ∧ c' = c.withSentence p declaratives := by
  rw [addSentence, run_bind (a := c.sentences.size) (t := { c with sentences := _ }) rfl] at h
  obtain ⟨⟨⟩, c₁, hpart, hrest⟩ := exists_of_run_bind_eq_ok h
  obtain ⟨rfl, rfl⟩ := Prod.mk.inj (Except.ok.inj hrest)
  obtain ⟨hp, rfl⟩ := eq_of_addPart_eq_ok hpart
  exact ⟨rfl, hp, rfl⟩

/-- The catalog with a new paragraph of `s`. -/
def withParagraph (c : Procedures) (name : String) (s : ProcedureId) (declaratives : Bool)
    (span : Span) : Procedures :=
  let Q : Procedure :=
    { id := c.procedures.size, name, kind := .paragraphProcedure, owner := some s, declaratives,
      span }
  { ({ c with procedures := c.procedures.push Q } : Procedures).file s
      (.paragraphPart c.procedures.size) with
    index := c.index.insert (foldCase name) c.procedures.size }

theorem eq_of_addParagraph_eq_ok {name : String} {declaratives : Bool} {span : Span}
    {s : ProcedureId} (h : addParagraph name (some s) declaratives span c = .ok (q, c')) :
    q = c.procedures.size ∧ c' = c.withParagraph name s declaratives span := by
  rw [addParagraph, run_bind (a := c.procedures.size) (t := { c with procedures := _ }) rfl] at h
  obtain ⟨⟨⟩, c₁, hpart, hrest⟩ := exists_of_run_bind_eq_ok h
  obtain ⟨rfl, rfl⟩ := Prod.mk.inj (Except.ok.inj hrest)
  obtain ⟨-, rfl⟩ := eq_of_addPart_eq_ok hpart
  exact ⟨rfl, rfl⟩

namespace Shelved

/-- What a procedure lists is declared. -/
theorem lt_of_holds (h : c.Shelved) (hP : c.procedures[p]? = some P) {a : Part} (ha : a ∈ P.parts)
    (hj : c.Holds a j) : j < c.sentences.size := by
  cases a with
  | sentence i =>
    obtain ⟨t, ht, -⟩ := h.owns hP _ ha
    exact hj ▸ (Array.getElem?_eq_some_iff.1 ht).1
  | paragraphPart q =>
    obtain ⟨t, ht, -⟩ := hj
    exact (Array.getElem?_eq_some_iff.1 ht).1

/-- A sentence belongs to a procedure that is declared. -/
theorem owner_lt (h : c.Shelved) {t : Sentence} (ht : c.sentences[j]? = some t) :
    ∀ p ∈ t.owner, p < c.procedures.size := by
  intro p hp
  obtain ⟨p', P, howner, hP, -⟩ := h.sentence ht
  obtain rfl : p' = p := Option.some.inj (howner.symm.trans hp)
  exact (Array.getElem?_eq_some_iff.1 hP).1

/-- What is there stays there when a part is filed. -/
theorem exists_file (hP : c.procedures[q]? = some P) (p : ProcedureId) (part : Part) :
    ∃ P', (c.file p part).procedures[q]? = some P' ∧ P'.kind = P.kind ∧ P'.owner = P.owner ∧
      P'.declaratives = P.declaratives ∧ P'.parts = P.parts ++ if p = q then [part] else [] := by
  rw [getElem?_file, hP]
  exact ⟨_, rfl, rfl, rfl, rfl, rfl⟩

theorem exists_of_file {part : Part} {P' : Procedure}
    (hP' : (c.file p part).procedures[q]? = some P') : ∃ P, c.procedures[q]? = some P ∧
      P'.kind = P.kind ∧ P'.owner = P.owner ∧ P'.declaratives = P.declaratives ∧
      P'.parts = P.parts ++ if p = q then [part] else [] := by
  rw [getElem?_file] at hP'
  obtain ⟨P, hP, rfl⟩ := Option.map_eq_some_iff.1 hP'
  exact ⟨P, hP, rfl, rfl, rfl, rfl⟩

/-- The order depends on procedures and on the owners of sentences alone. -/
theorem congr (h : c.Shelved) (hprocedures : c'.procedures = c.procedures)
    (howners : ∀ j : SentenceId, c'.sentences[j]?.map (·.owner) = c.sentences[j]?.map (·.owner)) :
    c'.Shelved := by
  have hback : ∀ {j : SentenceId} {t' : Sentence}, c'.sentences[j]? = some t' →
      ∃ t, c.sentences[j]? = some t ∧ t.owner = t'.owner := fun {j t'} ht' =>
    Option.map_eq_some_iff.1 ((howners j).symm.trans (congrArg (Option.map _) ht'))
  have hforth : ∀ (j : SentenceId) t, c.sentences[j]? = some t →
      ∃ t', c'.sentences[j]? = some t' ∧ t'.owner = t.owner := fun j t ht =>
    Option.map_eq_some_iff.1 ((howners j).trans (congrArg (Option.map _) ht))
  have hholds : ∀ {a : Part} {j : SentenceId}, c'.Holds a j → c.Holds a j := fun {a j} ha => by
    cases a with
    | sentence i => exact ha
    | paragraphPart q =>
      obtain ⟨t', ht', hq⟩ := ha
      obtain ⟨t, ht, howner⟩ := hback ht'
      exact ⟨t, ht, howner.trans hq⟩
  exact
    { toFiled := h.toFiled.congr hprocedures hforth
      sentence := fun {j t'} ht' => by
        obtain ⟨t, ht, howner⟩ := hback ht'
        obtain ⟨p, P, hp, hP, hmem⟩ := h.sentence ht
        exact ⟨p, P, howner ▸ hp, hprocedures ▸ hP, hmem⟩
      paragraph := hprocedures ▸ h.paragraph
      ordered := fun {p P} hP => (h.ordered (hprocedures ▸ hP)).imp
        fun hab i j hi hj => hab i j (hholds hi) (hholds hj)
      contiguous := hprocedures ▸ h.contiguous
      rising := fun {i j t t'} ht ht' hij => by
        obtain ⟨t₀, ht₀, howner⟩ := hback ht
        obtain ⟨t₀', ht₀', howner'⟩ := hback ht'
        rw [← howner, ← howner']
        exact h.rising ht₀ ht₀' hij }

theorem of_erase (h : c.erase.Shelved) : c.Shelved :=
  h.congr rfl fun j => by simp [erase, Function.comp_def]

/-- A new section lists nothing. -/
theorem push (h : c.Shelved) {S : Procedure} (hkind : S.kind = .sectionProcedure)
    (hparts : S.parts = []) {index : NameIndex} :
    ({ c with procedures := c.procedures.push S, index } : Procedures).Shelved := by
  have hold : ∀ {q : ProcedureId} {Q : Procedure}, c.procedures[q]? = some Q →
      (c.procedures.push S)[q]? = some Q := fun hQ => by
    rw [Array.getElem?_push, if_neg (Array.getElem?_eq_some_iff.1 hQ).1.ne, hQ]
  have hcases : ∀ {q : ProcedureId} {Q : Procedure}, (c.procedures.push S)[q]? = some Q →
      c.procedures[q]? = some Q ∨ Q = S := fun {q Q} hQ => by
    rw [Array.getElem?_push] at hQ
    split at hQ
    · exact .inr (Option.some.inj hQ).symm
    · exact .inl hQ
  refine ⟨(h.toFiled.push hparts).congr rfl fun _ t ht => ⟨t, ht, rfl⟩, fun ht => ?_,
    fun hQ hk => ?_, fun hP => ?_, fun hQ hk p hp hne r hr hrq => ?_, h.rising⟩
  · obtain ⟨p, P, howner, hP, hmem⟩ := h.sentence ht
    exact ⟨p, P, howner, hold hP, hmem⟩
  · obtain hQ | rfl := hcases hQ
    · obtain ⟨p, P, howner, hlt, hP, hsection, hmem⟩ := h.paragraph hQ hk
      exact ⟨p, P, howner, hlt, hold hP, hsection, hmem⟩
    · exact nomatch hkind.symm.trans hk
  · obtain hP | rfl := hcases hP
    · exact h.ordered hP
    · exact hparts ▸ .nil
  · obtain hQ | rfl := hcases hQ
    · obtain ⟨R, hR, hRk, hRo⟩ := h.contiguous hQ hk p hp hne r hr hrq
      exact ⟨R, hold hR, hRk, hRo⟩
    · exact nomatch hkind.symm.trans hk

/-- A new paragraph is filed behind what its section lists. -/
theorem addParagraph (h : c.Shelved) {name : String} {declaratives : Bool} {span : Span}
    {s : ProcedureId} {S : Procedure} (hS : c.procedures[s]? = some S)
    (hkind : S.kind = .sectionProcedure)
    (hnewest : s ≠ 0 → ∀ r, s < r → r < c.procedures.size →
      ∃ R, c.procedures[r]? = some R ∧ R.kind = .paragraphProcedure ∧ R.owner = some s)
    (hadd : addParagraph name (some s) declaratives span c = .ok (q, c')) : c'.Shelved := by
  have hfiled := (h.toFiled.addParagraph (fun p hp => Option.some.inj hp ▸ ⟨S, hS, hkind⟩) hadd).1
  obtain ⟨rfl, rfl⟩ := eq_of_addParagraph_eq_ok hadd
  set Q : Procedure :=
    { id := c.procedures.size, name, kind := .paragraphProcedure, owner := some s, declaratives,
      span }
    with hQ
  set c₁ : Procedures := { c with procedures := c.procedures.push Q } with hc₁
  have hs : s < c.procedures.size := (Array.getElem?_eq_some_iff.1 hS).1
  have hold : ∀ {q : ProcedureId} {P : Procedure}, c.procedures[q]? = some P →
      c₁.procedures[q]? = some P := fun hP => by
    rw [hc₁, Array.getElem?_push, if_neg (Array.getElem?_eq_some_iff.1 hP).1.ne, hP]
  have hcases : ∀ {q : ProcedureId} {P : Procedure}, c₁.procedures[q]? = some P →
      c.procedures[q]? = some P ∨ q = c.procedures.size ∧ P = Q := fun {q P} hP => by
    rw [hc₁, Array.getElem?_push] at hP
    split at hP
    · next heq => exact .inr ⟨heq, (Option.some.inj hP).symm⟩
    · exact .inl hP
  have hlook : ∀ q : ℕ, (c.withParagraph name s declaratives span).procedures[q]? =
      (c₁.file s (.paragraphPart c.procedures.size)).procedures[q]? := fun q => rfl
  refine ⟨hfiled, fun ht => ?_, fun {q' Q'} hQ' hk => ?_, fun {p' P'} hP' => ?_,
    fun {q' Q'} hQ' hk p hp hne r hr hrq => ?_, h.rising⟩
  · obtain ⟨p, P, howner, hP, hmem⟩ := h.sentence ht
    obtain ⟨P', hP', -, -, -, hparts⟩ := exists_file (hold hP) s (.paragraphPart c.procedures.size)
    exact ⟨p, P', howner, hP', hparts ▸ List.mem_append_left _ hmem⟩
  · obtain ⟨Q₁, hQ₁, hk₁, howner₁, -, -⟩ := exists_of_file ((hlook q').symm.trans hQ')
    obtain hQ₁ | ⟨rfl, rfl⟩ := hcases hQ₁
    · obtain ⟨p, P, howner, hlt, hP, hsection, hmem⟩ := h.paragraph hQ₁ (hk₁.symm.trans hk)
      obtain ⟨P', hP', hk', -, -, hparts⟩ :=
        exists_file (hold hP) s (.paragraphPart c.procedures.size)
      exact ⟨p, P', howner₁.trans howner, hlt, hP', hk'.trans hsection,
        hparts ▸ List.mem_append_left _ hmem⟩
    · obtain ⟨S', hS', hk', -, -, hparts⟩ :=
        exists_file (hold hS) s (.paragraphPart c.procedures.size)
      exact ⟨s, S', howner₁, hs, hS', hk'.trans hkind,
        hparts ▸ List.mem_append_right _ (by rw [if_pos rfl]; exact List.mem_singleton_self _)⟩
  · obtain ⟨P₁, hP₁, -, -, -, hparts⟩ := exists_of_file ((hlook p').symm.trans hP')
    have hpairs : P₁.parts.Pairwise fun a b => ∀ i j, c.Holds a i → c.Holds b j → i < j := by
      obtain hP₁ | ⟨-, rfl⟩ := hcases hP₁
      · exact h.ordered hP₁
      · exact .nil
    rw [hparts]
    refine List.pairwise_append.2 ⟨hpairs, by split <;> simp, fun a _ b hb i j _ hj => ?_⟩
    -- No sentence belongs to the new paragraph yet.
    split at hb
    · obtain rfl := List.mem_singleton.1 hb
      obtain ⟨t, ht, howner⟩ := hj
      exact absurd (h.owner_lt ht _ howner) (lt_irrefl _)
    · exact absurd hb (by simp)
  · have hkeep : ∀ {r : ProcedureId} {R : Procedure}, c.procedures[r]? = some R →
        R.kind = .paragraphProcedure → R.owner = some p →
          ∃ R', (c.withParagraph name s declaratives span).procedures[r]? = some R' ∧
            R'.kind = .paragraphProcedure ∧ R'.owner = some p := fun hR hRk hRo => by
      obtain ⟨R', hR', hk', ho', -⟩ := exists_file (hold hR) s (.paragraphPart c.procedures.size)
      exact ⟨R', hR', hk'.trans hRk, ho'.trans hRo⟩
    obtain ⟨Q₁, hQ₁, hk₁, howner₁, -, -⟩ := exists_of_file ((hlook q').symm.trans hQ')
    obtain hQ₁ | ⟨rfl, rfl⟩ := hcases hQ₁
    · obtain ⟨R, hR, hRk, hRo⟩ := h.contiguous hQ₁ (hk₁.symm.trans hk) p (howner₁ ▸ hp) hne r hr hrq
      exact hkeep hR hRk hRo
    · obtain rfl : s = p := Option.some.inj (howner₁.symm.trans hp)
      obtain ⟨R, hR, hRk, hRo⟩ := hnewest hne r hr hrq
      exact hkeep hR hRk hRo

theorem holds_withSentence {declaratives : Bool} {a : Part} :
    (c.withSentence p declaratives).Holds a j ↔
      c.Holds a j ∨ a = .paragraphPart p ∧ j = c.sentences.size := by
  cases a with
  | sentence i => simp [Holds]
  | paragraphPart q =>
    change (∃ t, (c.sentences.push _)[j]? = some t ∧ t.owner = some q) ↔
      (∃ t, c.sentences[j]? = some t ∧ t.owner = some q) ∨ _
    rw [Array.getElem?_push]
    split
    · next heq =>
      subst heq
      rw [Array.getElem?_eq_none le_rfl]
      simp [eq_comm]
    · next hne => simp [hne]

/-- A new sentence is the last one, and belongs to the newest procedure or to the implicit
section. -/
theorem addSentence (h : c.Shelved) {declaratives : Bool}
    (hlast : p = 0 ∨ p + 1 = c.procedures.size)
    (hopen : ∀ {s : ProcedureId} {S : Procedure}, c.procedures[s]? = some S →
      .paragraphPart p ∈ S.parts → S.parts.getLast? = some (.paragraphPart p))
    (hadd : addSentence (some p) declaratives c = .ok (j, c')) : c'.Shelved := by
  have hfiled := (h.toFiled.addSentence hadd).1
  obtain ⟨rfl, hp, rfl⟩ := eq_of_addSentence_eq_ok hadd
  set t₀ : Sentence := { id := c.sentences.size, owner := some p, declaratives } with ht₀
  set c₁ : Procedures := { c with sentences := c.sentences.push t₀ } with hc₁
  have hsentences : (c.withSentence p declaratives).sentences = c.sentences.push t₀ := rfl
  have hcases : ∀ {j : SentenceId} {t : Sentence}, (c.sentences.push t₀)[j]? = some t →
      c.sentences[j]? = some t ∨ j = c.sentences.size ∧ t = t₀ := fun {j t} ht => by
    rw [Array.getElem?_push] at ht
    split at ht
    · next heq => exact .inr ⟨heq, (Option.some.inj ht).symm⟩
    · exact .inl ht
  refine ⟨hfiled, fun {j t} ht => ?_, fun {q Q} hQ hk => ?_, fun {q Q} hQ => ?_,
    fun {q Q} hQ hk r hr hne u hru huq => ?_, fun {i j t t'} hi hj hij q hq r hr => ?_⟩
  · obtain ht | ⟨rfl, rfl⟩ := hcases (hsentences ▸ ht)
    · obtain ⟨q, Q, howner, hQ, hmem⟩ := h.sentence ht
      obtain ⟨Q', hQ', -, -, -, hparts⟩ := exists_file (c := c₁) hQ p (.sentence c.sentences.size)
      exact ⟨q, Q', howner, hQ', hparts ▸ List.mem_append_left _ hmem⟩
    · obtain ⟨P', hP', -, -, -, hparts⟩ := exists_file (c := c₁)
        (Array.getElem?_eq_getElem hp) p (.sentence c.sentences.size)
      exact ⟨p, P', rfl, hP',
        hparts ▸ List.mem_append_right _ (by rw [if_pos rfl]; exact List.mem_singleton_self _)⟩
  · obtain ⟨Q₁, hQ₁, hk₁, howner₁, -, -⟩ := exists_of_file (c := c₁) hQ
    obtain ⟨r, R, howner, hlt, hR, hsection, hmem⟩ := h.paragraph hQ₁ (hk₁.symm.trans hk)
    obtain ⟨R', hR', hk', -, -, hparts⟩ := exists_file (c := c₁) hR p (.sentence c.sentences.size)
    exact ⟨r, R', howner₁.trans howner, hlt, hR', hk'.trans hsection,
      hparts ▸ List.mem_append_left _ hmem⟩
  · obtain ⟨Q₁, hQ₁, -, -, -, hparts⟩ := exists_of_file (c := c₁) hQ
    have hlt : ∀ a ∈ Q₁.parts, ∀ i, c.Holds a i → i < c.sentences.size :=
      fun a ha i hi => h.lt_of_holds hQ₁ ha hi
    rw [hparts]
    refine List.pairwise_append.2 ⟨?_, by split <;> simp, fun a ha b hb i j hi hj => ?_⟩
    · -- What the newest paragraph holds comes last, and so does the paragraph.
      refine pairwise_of_last (h.nodup hQ₁) (hopen hQ₁) (h.ordered hQ₁)
        fun a ha b hne hab i j hi hj => ?_
      have hi := (holds_withSentence.1 hi).resolve_right fun heq => hne heq.1
      obtain hj | ⟨-, rfl⟩ := holds_withSentence.1 hj
      · exact hab i j hi hj
      · exact hlt a ha i hi
    · split at hb
      · next heq =>
        subst heq
        obtain rfl := List.mem_singleton.1 hb
        obtain rfl : j = c.sentences.size := hj
        refine hlt a ha i ((holds_withSentence.1 hi).resolve_right ?_)
        rintro ⟨rfl, -⟩
        obtain ⟨Q', hQ', hk', howner⟩ := h.owns hQ₁ _ ha
        obtain ⟨r, -, howner', hlt', -⟩ := h.paragraph hQ' hk'
        exact hlt'.ne (Option.some.inj (howner'.symm.trans howner))
      · exact absurd hb (by simp)
  · obtain ⟨Q₁, hQ₁, hk₁, howner₁, -, -⟩ := exists_of_file (c := c₁) hQ
    obtain ⟨U, hU, hUk, hUo⟩ := h.contiguous hQ₁ (hk₁.symm.trans hk) r (howner₁ ▸ hr) hne u hru huq
    obtain ⟨U', hU', hk', ho', -⟩ := exists_file (c := c₁) hU p (.sentence c.sentences.size)
    exact ⟨U', hU', hk'.trans hUk, ho'.trans hUo⟩
  · obtain hi | ⟨rfl, rfl⟩ := hcases (hsentences ▸ hi)
    · obtain hj | ⟨rfl, rfl⟩ := hcases (hsentences ▸ hj)
      · exact h.rising hi hj hij q hq r hr
      · obtain rfl : p = r := Option.some.inj hr
        have hlt := h.owner_lt hi q hq
        exact hlast.symm.imp_left fun heq => Nat.le_of_lt_succ (hlt.trans_eq heq.symm)
    · obtain ⟨hlt, -⟩ := Array.getElem?_eq_some_iff.1 (hsentences ▸ hj)
      rw [Array.size_push] at hlt
      exact absurd hij (Nat.not_lt.2 (Nat.le_of_lt_succ hlt))

end Shelved

end Procedures

/-- The catalog of a plan is in order, and the plan goes on at the newest procedure or in the
implicit section. -/
structure Plan.Shelved (p : Plan) : Prop extends p.Filed where
  shelved : p.catalog.Shelved
  /-- What follows the current section are its paragraphs. -/
  newest : ∀ s ∈ p.currentSection, s ≠ 0 → ∀ r, s < r → r < p.catalog.procedures.size →
    ∃ R, p.catalog.procedures[r]? = some R ∧ R.kind = .paragraphProcedure ∧ R.owner = some s
  isOpen : p.currentSection.isSome
  bare : p.currentParagraph = none → ∀ s ∈ p.currentSection,
    s = 0 ∨ s + 1 = p.catalog.procedures.size
  within : ∀ q ∈ p.currentParagraph, q + 1 = p.catalog.procedures.size ∧ ∃ s S,
    p.currentSection = some s ∧ p.catalog.procedures[s]? = some S ∧
      S.parts.getLast? = some (.paragraphPart q)

namespace Plan.Shelved

variable {p p' : Plan}

theorem edit (h : p.Shelved) {α : Type} {e : Procedures.Edit α} {go : α → Procedures → Plan}
    (hgo : ∀ a c, e p.catalog = .ok (a, c) → (go a c).Shelved) : (p.edit e go).Shelved := by
  rw [Plan.edit]
  split
  · next a c hok => exact hgo a c hok
  · exact h

/-- What is in the catalog and where the plan goes on there. -/
theorem congr (h : p.Shelved) (hcatalog : p'.catalog = p.catalog)
    (hsection : p'.currentSection = p.currentSection)
    (hparagraph : p'.currentParagraph = p.currentParagraph) : p'.Shelved where
  catalog := hcatalog ▸ h.catalog
  root := hcatalog ▸ h.root
  currentSection := hcatalog ▸ hsection ▸ h.currentSection
  shelved := hcatalog ▸ h.shelved
  newest := hcatalog ▸ hsection ▸ h.newest
  isOpen := hsection ▸ h.isOpen
  bare := hcatalog ▸ hsection ▸ hparagraph ▸ h.bare
  within := hcatalog ▸ hsection ▸ hparagraph ▸ h.within

/-- The procedure that the next sentence belongs to is the newest or the implicit section, and no
section lists anything behind it. -/
theorem exists_owner (h : p.Shelved) : ∃ q, p.currentParagraph.or p.currentSection = some q ∧
    (q = 0 ∨ q + 1 = p.catalog.procedures.size) ∧
    ∀ {s : ProcedureId} {S : Procedure}, p.catalog.procedures[s]? = some S →
      .paragraphPart q ∈ S.parts → S.parts.getLast? = some (.paragraphPart q) := by
  cases hparagraph : p.currentParagraph with
  | none =>
    obtain ⟨s, hs⟩ := Option.isSome_iff_exists.1 h.isOpen
    refine ⟨s, by rw [Option.none_or, hs], h.bare hparagraph s hs, fun hS' hmem => ?_⟩
    obtain ⟨S, hS, hkind⟩ := h.currentSection s hs
    obtain ⟨S', hS', hkind', -⟩ := h.shelved.owns hS' _ hmem
    obtain rfl : S = S' := Option.some.inj (hS.symm.trans hS')
    exact nomatch hkind.symm.trans hkind'
  | some q =>
    obtain ⟨hnew, s, S, hs, hS, hlast⟩ := h.within q hparagraph
    refine ⟨q, rfl, .inr hnew, fun {s' S'} hS' hmem => ?_⟩
    obtain ⟨Q, hQ, -, howner⟩ := h.shelved.owns hS _ (List.mem_of_getLast? hlast)
    obtain ⟨Q', hQ', -, howner'⟩ := h.shelved.owns hS' _ hmem
    obtain rfl : Q = Q' := Option.some.inj (hQ.symm.trans hQ')
    obtain rfl : s = s' := Option.some.inj (howner.symm.trans howner')
    obtain rfl : S = S' := Option.some.inj (hS.symm.trans hS')
    exact hlast

theorem openSentence (h : p.Shelved) (id : NodeId) : (p.openSentence id).Shelved := by
  refine h.edit fun j c hadd => ?_
  have hfiled := h.catalog.addSentence hadd
  obtain ⟨q, hq, hlast, hopen⟩ := h.exists_owner
  rw [hq] at hadd
  have hshelved := h.shelved.addSentence hlast hopen hadd
  obtain ⟨-, -, rfl⟩ := Procedures.eq_of_addSentence_eq_ok hadd
  have hsize : (p.catalog.withSentence q p.declaratives.isSome).procedures.size =
      p.catalog.procedures.size := Procedures.size_file _ _ _
  set j := p.catalog.sentences.size
  refine
    { toFiled := h.toFiled.enlarge hfiled.1 hfiled.2 fun s hs => .inl hs
      shelved := hshelved
      newest := fun s hs hne r hr hlt => ?_
      isOpen := h.isOpen
      bare := fun hnone s hs => hsize.symm ▸ h.bare hnone s hs
      within := fun q' hq' => ?_ }
  · obtain ⟨R, hR, hk, ho⟩ := h.newest s hs hne r hr (hlt.trans_eq hsize)
    obtain ⟨R', hR', hk', ho', -⟩ := Procedures.Shelved.exists_file
      (c := { p.catalog with sentences := _ }) hR q (.sentence j)
    exact ⟨R', hR', hk'.trans hk, ho'.trans ho⟩
  · obtain ⟨hnew, s, S, hs, hS, hgetLast⟩ := h.within q' hq'
    obtain ⟨S', hS', -, -, -, hparts⟩ := Procedures.Shelved.exists_file
      (c := { p.catalog with sentences := _ }) hS q (.sentence j)
    refine ⟨hnew.trans hsize.symm, s, S', hs, hS', ?_⟩
    obtain rfl : q' = q := by
      have hparagraph : p.currentParagraph = some q' := hq'
      rw [hparagraph] at hq
      exact Option.some.inj hq
    obtain ⟨Q, hQ, hk, howner⟩ := h.shelved.owns hS _ (List.mem_of_getLast? hgetLast)
    obtain ⟨r, -, howner', hlt, -⟩ := h.shelved.paragraph hQ hk
    obtain rfl : r = s := Option.some.inj (howner'.symm.trans howner)
    rw [hparts, if_neg hlt.ne', List.append_nil, hgetLast]

theorem enterSection (h : p.Shelved) (name : String) (span : Span) (id : NodeId) :
    (p.step (.enter (.sectionHeader name span) id)).Shelved := by
  have hfiled := h.toFiled.step (.enter (.sectionHeader name span) id)
  rw [Plan.step]
  refine h.edit fun s c hadd => ?_
  obtain ⟨rfl, rfl⟩ := Prod.mk.inj (Except.ok.inj hadd)
  have hsize : ∀ P : Procedure, (p.catalog.procedures.push P).size =
      p.catalog.procedures.size + 1 := fun P => Array.size_push _
  refine
    { toFiled := hfiled
      shelved := h.shelved.push rfl rfl
      newest := fun s hs hne r hr hlt => ?_
      isOpen := rfl
      bare := fun _ s hs => .inr ?_
      within := by simp }
  · obtain rfl := Option.some.inj hs
    exact absurd hlt (Nat.not_lt.2 ((hsize _).trans_le hr))
  · obtain rfl := Option.some.inj hs
    exact (hsize _).symm

theorem enterParagraph (h : p.Shelved) (name : String) (span : Span) (id : NodeId) :
    (p.step (.enter (.paragraphHeader name span) id)).Shelved := by
  rw [Plan.step]
  refine h.edit fun q c hadd => ?_
  obtain ⟨hc, henlarges⟩ := h.catalog.addParagraph h.currentSection hadd
  obtain ⟨s, hs⟩ := Option.isSome_iff_exists.1 h.isOpen
  obtain ⟨S, hS, hkind⟩ := h.currentSection s hs
  rw [hs] at hadd
  have hshelved := h.shelved.addParagraph hS hkind (h.newest s hs) hadd
  obtain ⟨rfl, rfl⟩ := Procedures.eq_of_addParagraph_eq_ok hadd
  set q := p.catalog.procedures.size
  set Q : Procedure :=
    { id := q, name, kind := .paragraphProcedure, owner := some s
      declaratives := p.declaratives.isSome, span }
  set c₁ : Procedures := { p.catalog with procedures := p.catalog.procedures.push Q } with hc₁
  have hsize : (p.catalog.withParagraph name s p.declaratives.isSome span).procedures.size =
      q + 1 := (Procedures.size_file c₁ _ _).trans (Array.size_push _)
  have hold : ∀ {r : ProcedureId} {R : Procedure}, p.catalog.procedures[r]? = some R →
      c₁.procedures[r]? = some R := fun hR => by
    rw [hc₁, Array.getElem?_push, if_neg (Array.getElem?_eq_some_iff.1 hR).1.ne, hR]
  have hfile : ∀ {r : ProcedureId} {R : Procedure}, c₁.procedures[r]? = some R →
      ∃ R', (p.catalog.withParagraph name s p.declaratives.isSome span).procedures[r]? = some R' ∧
        R'.kind = R.kind ∧ R'.owner = R.owner ∧ R'.declaratives = R.declaratives ∧
        R'.parts = R.parts ++ if s = r then [.paragraphPart q] else [] := fun hR =>
    Procedures.Shelved.exists_file hR s (.paragraphPart q)
  refine
    { toFiled := h.toFiled.enlarge hc henlarges fun r hr => .inl hr
      shelved := hshelved
      newest := fun s' hs' hne r hr hlt => ?_
      isOpen := h.isOpen
      bare := by simp
      within := fun q' hq' => ?_ }
  · obtain rfl : s = s' := Option.some.inj (hs.symm.trans hs')
    obtain hlt | rfl := Nat.lt_or_eq_of_le (Nat.le_of_lt_succ (hlt.trans_eq hsize))
    · obtain ⟨R, hR, hk, ho⟩ := h.newest s hs hne r hr hlt
      obtain ⟨R', hR', hk', ho', -⟩ := hfile (hold hR)
      exact ⟨R', hR', hk'.trans hk, ho'.trans ho⟩
    · obtain ⟨Q', hQ', hk', ho', -⟩ := hfile (r := q) (R := Q) Array.getElem?_push_size
      exact ⟨Q', hQ', hk', ho'⟩
  · obtain rfl : q = q' := Option.some.inj hq'
    obtain ⟨S', hS', -, -, -, hparts⟩ := hfile (hold hS)
    exact ⟨hsize.symm, s, S', hs, hS', by rw [hparts, if_pos rfl, List.getLast?_concat]⟩

theorem leaveDeclaratives (h : p.Shelved) (id : NodeId) :
    (p.step (.leave .declaratives id)).Shelved := by
  have hfiled := h.toFiled.step (.leave .declaratives id)
  rw [Plan.step, Plan.edit, h.rootSection_eq_ok] at hfiled ⊢
  have hgoes : ∀ p' : Plan, p'.Filed → p'.catalog = p.catalog → p'.currentSection = some 0 →
      p'.currentParagraph = none → p'.Shelved := fun p' hp' hcatalog hsection hparagraph =>
    { toFiled := hp'
      shelved := hcatalog ▸ h.shelved
      newest := fun s hs hne => absurd (Option.some.inj (hsection.symm.trans hs)).symm hne
      isOpen := by rw [hsection]; rfl
      bare := fun _ s hs => .inl (Option.some.inj (hsection.symm.trans hs)).symm
      within := by simp [hparagraph] }
  refine hgoes _ hfiled ?_ ?_ ?_ <;> dsimp only <;> split <;> rfl

theorem step (h : p.Shelved) (item : Item) : (p.step item).Shelved := by
  cases item with
  | sentence id text =>
    rw [Plan.step]
    split
    · exact h.congr rfl rfl rfl
    · exact (h.openSentence id).congr rfl rfl rfl
  | enter heading id =>
    cases heading with
    | declaratives => exact h.congr rfl rfl rfl
    | sectionHeader name span => exact h.enterSection name span id
    | paragraphHeader name span => exact h.enterParagraph name span id
  | leave heading id =>
    cases heading with
    | declaratives => exact h.leaveDeclaratives id
    | sectionHeader name span => exact h
    | paragraphHeader name span => exact h

theorem read (h : p.Shelved) (items : List Item) : (p.read items).Shelved := by
  induction items generalizing p with
  | nil => exact h
  | cons item rest ih => exact ih (h.step item)

theorem start (program : Option String) : (Plan.start program).Shelved := by
  have hfiled := Plan.Filed.start program
  rw [Plan.start_eq] at hfiled ⊢
  have hsentence : ∀ {j : SentenceId} {t t₀ : Sentence}, #[t₀][j]? = some t → j = 0 ∧ t₀ = t :=
    fun {j t t₀} ht => by
      cases j with
      | zero => exact ⟨rfl, Option.some.inj ht⟩
      | succ j => simp at ht
  have hprocedure : ∀ {p : ProcedureId} {P root : Procedure}, #[root][p]? = some P → root = P :=
    fun {p P root} hP => by
      cases p with
      | zero => exact Option.some.inj hP
      | succ p => simp at hP
  refine
    { toFiled := hfiled
      shelved := ⟨hfiled.catalog, fun ht => ?_, fun hQ hk => ?_, fun hP => ?_, fun hQ hk => ?_,
        fun hi hj hij => ?_⟩
      newest := fun s hs hne => absurd (Option.some.inj hs).symm hne
      isOpen := rfl
      bare := fun _ s hs => .inl (Option.some.inj hs).symm
      within := nofun }
  · obtain ⟨rfl, rfl⟩ := hsentence ht
    exact ⟨0, _, rfl, rfl, List.mem_singleton_self _⟩
  · obtain rfl := hprocedure hQ
    exact nomatch hk
  · obtain rfl := hprocedure hP
    exact List.pairwise_singleton _ _
  · obtain rfl := hprocedure hQ
    exact nomatch hk
  · obtain ⟨rfl, -⟩ := hsentence hi
    obtain ⟨rfl, -⟩ := hsentence hj
    exact absurd hij (lt_irrefl _)

end Plan.Shelved

/-- The catalog of a division is in order. -/
theorem DivisionText.shelved_plan (d : DivisionText) (program : Option String) (id : NodeId) :
    (d.plan program id).Shelved := (Plan.Shelved.start program).read _

/-! ### The sentences of a procedure -/

theorem pairwise_flatten_of_forall₂ {α β : Type} {l : List α} {found : List (List β)}
    {R : α → β → Prop} {S : β → β → Prop}
    (h : List.Forall₂ (fun a m => m.Pairwise S ∧ ∀ x ∈ m, R a x) l found)
    (hl : l.Pairwise fun a b => ∀ x y, R a x → R b y → S x y) : found.flatten.Pairwise S := by
  induction h with
  | nil => exact .nil
  | @cons a m l found ham hrest ih =>
    obtain ⟨hm, hmR⟩ := ham
    obtain ⟨ha, hl⟩ := List.pairwise_cons.1 hl
    refine List.pairwise_append.2 ⟨hm, ih hl, fun x hx y hy => ?_⟩
    obtain ⟨m', hm', hy⟩ := List.mem_flatten.1 hy
    obtain ⟨b, hb, -, hbm⟩ := exists_of_forall₂_of_mem hrest hm'
    exact ha b hb x y (hmR x hx) (hbm y hy)

/-- The first answer is the first element of all that is found. -/
theorem findSomeM?_eq_ok_head? {ε α β : Type} {f : α → Except ε (Option β)} {l : List α}
    {found : List (List β)} (h : List.Forall₂ (fun a m => f a = .ok m.head?) l found) :
    l.findSomeM? f = .ok found.flatten.head? := by
  induction h with
  | nil => rfl
  | @cons a m l found ham _ ih =>
    rw [List.findSomeM?, ham, ok_bind]
    cases m with
    | nil => exact ih
    | cons b rest => rfl

namespace Procedures

variable {c : Procedures} {p : ProcedureId} {l : List SentenceId}

/-- Where the first sentence of a procedure is looked for. -/
theorem firstSentence_eq (c : Procedures) (p : ProcedureId) : c.firstSentence p =
    match c.procedures[p]? with
    | some P => P.parts.findSomeM? fun part =>
      match part with
      | .sentence j => pure (some j)
      | .paragraphPart q => if p < q then c.firstSentence q else pure none
    | none => .error (.missingProcedure p) := by
  rw [firstSentence]
  by_cases hp : p < c.procedures.size
  · rw [dif_pos hp, Array.getElem?_eq_getElem hp]
    refine congrArg (fun f => List.findSomeM? f c.procedures[p].parts) (funext fun part => ?_)
    cases part with
    | sentence j => rfl
    | paragraphPart q => simp only [dite_eq_ite]
  · rw [dif_neg hp, Array.getElem?_eq_none (not_lt.1 hp)]

/-- The first sentence of a procedure is the first of its sentences. -/
theorem firstSentence_eq_ok_head? (h : c.sentencesOf p = .ok l) :
    c.firstSentence p = .ok l.head? := by
  induction hk : c.procedures.size - p using Nat.strong_induction_on generalizing p l with
  | _ k ih =>
    obtain ⟨P, found, hP, hfound, rfl⟩ := exists_of_sentencesOf_eq_ok h
    have hp := (Array.getElem?_eq_some_iff.1 hP).1
    rw [firstSentence_eq, hP]
    refine findSomeM?_eq_ok_head? (hfound.imp fun part m ⟨_, hm⟩ => ?_)
    cases part with
    | sentence j =>
      obtain rfl : [j] = m := Except.ok.inj hm
      rfl
    | paragraphPart q =>
      rw [partSentences] at hm
      dsimp only
      split at hm
      · next hlt =>
        rw [if_pos hlt]
        exact ih _ (hk ▸ Nat.sub_lt_sub_left hp hlt) hm rfl
      · next hlt =>
        obtain rfl : [] = m := Except.ok.inj hm
        rw [if_neg hlt]
        rfl

namespace Shelved

theorem holds_of_partSentences (h : c.Shelved) {P : Procedure} (hP : c.procedures[p]? = some P)
    {part : Part} (hpart : part ∈ P.parts) {m : List SentenceId}
    (hm : c.partSentences p part = .ok m) : ∀ j ∈ m, c.Holds part j := by
  cases part with
  | sentence i =>
    obtain rfl : [i] = m := Except.ok.inj hm
    exact fun j hj => List.mem_singleton.1 hj
  | paragraphPart q =>
    obtain ⟨Q, hQ, hk, -⟩ := h.owns hP _ hpart
    rw [partSentences] at hm
    split at hm
    · exact (h.sentencesOf_paragraph hQ hk hm).2
    · obtain rfl : [] = m := Except.ok.inj hm
      simp

/-- The sentences of a procedure stand in order. -/
theorem pairwise_sentencesOf (h : c.Shelved) (hl : c.sentencesOf p = .ok l) :
    l.Pairwise (· < ·) := by
  induction hk : c.procedures.size - p using Nat.strong_induction_on generalizing p l with
  | _ k ih =>
    obtain ⟨P, found, hP, hfound, rfl⟩ := exists_of_sentencesOf_eq_ok hl
    have hp := (Array.getElem?_eq_some_iff.1 hP).1
    refine pairwise_flatten_of_forall₂ (hfound.imp fun part m ⟨hpart, hm⟩ =>
      ⟨?_, h.holds_of_partSentences hP hpart hm⟩) (h.ordered hP)
    cases part with
    | sentence j =>
      obtain rfl : [j] = m := Except.ok.inj hm
      exact List.pairwise_singleton _ _
    | paragraphPart q =>
      rw [partSentences] at hm
      split at hm
      · next hlt => exact ih _ (hk ▸ Nat.sub_lt_sub_left hp hlt) hm rfl
      · obtain rfl : [] = m := Except.ok.inj hm
        exact .nil

/-- A procedure lists what its parts contribute. -/
theorem exists_of_mem_parts (hl : c.sentencesOf p = .ok l) {P : Procedure}
    (hP : c.procedures[p]? = some P) {part : Part} (hpart : part ∈ P.parts) :
    ∃ m, c.partSentences p part = .ok m ∧ ∀ j ∈ m, j ∈ l := by
  obtain ⟨P', found, hP', hfound, rfl⟩ := exists_of_sentencesOf_eq_ok hl
  obtain rfl : P = P' := Option.some.inj (hP.symm.trans hP')
  obtain ⟨m, hm, -, hok⟩ := exists_of_forall₂_of_mem hfound.flip hpart
  exact ⟨m, hok, fun j hj => List.mem_flatten_of_mem hm hj⟩

/-- A procedure lists its own sentences and those of its paragraphs. -/
theorem mem_sentencesOf (h : c.Shelved) (hl : c.sentencesOf p = .ok l) {j : SentenceId} :
    j ∈ l ↔ c.Under p j := by
  refine ⟨(h.toFiled.sentencesOf hl).2 j, fun ⟨t, ht, q, howner, hq⟩ => ?_⟩
  obtain ⟨q', Q', howner', hQ', hmem⟩ := h.sentence ht
  obtain rfl : q' = q := Option.some.inj (howner'.symm.trans howner)
  have hown : ∀ {m : List SentenceId}, c.sentencesOf q' = .ok m → j ∈ m := fun hm => by
    obtain ⟨_, hj, hsub⟩ := exists_of_mem_parts hm hQ' hmem
    exact hsub j (Except.ok.inj hj ▸ List.mem_singleton_self j)
  obtain rfl | ⟨Q, hQ, hk, hQowner⟩ := hq
  · exact hown hl
  · obtain ⟨p', P, hp', hlt, hP, -, hpart⟩ := h.paragraph hQ hk
    obtain rfl : p' = p := Option.some.inj (hp'.symm.trans hQowner)
    obtain ⟨m, hm, hsub⟩ := exists_of_mem_parts hl hP hpart
    rw [partSentences, if_pos hlt] at hm
    exact hsub j (hown hm)

end Shelved

end Procedures

end CobolFlow
