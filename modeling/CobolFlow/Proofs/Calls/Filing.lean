import CobolFlow.Proofs.Calls.Copies

/-!
# Where a sentence is filed

A sentence is filed under one procedure, a paragraph under one section, and each under the procedure
it belongs to. A range leaves out the paragraphs of sections that it contains, so it lists every
sentence once, and every block once.

## Main definitions

* `Procedures.Filed` — what is filed under a procedure belongs to it

## Main results

* `DivisionText.filed_plan` — the catalog of a division is filed
* `Draft.nodup_capturedBlocks` — a range lists every block once
-/

namespace CobolFlow

/-- What is made of different things has nothing in common. -/
theorem nodup_flatten_of_forall₂ {α β : Type} {l : List α} {found : List (List β)}
    {R : α → β → Prop} (h : List.Forall₂ (fun a m => m.Nodup ∧ ∀ x ∈ m, R a x) l found)
    (hl : l.Nodup) (hR : ∀ a ∈ l, ∀ a' ∈ l, ∀ x, R a x → R a' x → a = a') :
    found.flatten.Nodup := by
  induction h with
  | nil => exact .nil
  | @cons a m l found ham hrest ih =>
    obtain ⟨hm, hmR⟩ := ham
    obtain ⟨ha, hl⟩ := List.nodup_cons.1 hl
    rw [List.flatten_cons, List.nodup_append]
    refine ⟨hm, ih hl fun b hb b' hb' => hR b (by simp [hb]) b' (by simp [hb']), ?_⟩
    rintro x hx y hy rfl
    obtain ⟨m', hm', hx'⟩ := List.mem_flatten.1 hy
    obtain ⟨b, hb, -, hbm⟩ := exists_of_forall₂_of_mem hrest hm'
    obtain rfl := hR a (by simp) b (by simp [hb]) x (hmR x hx) (hbm x hx')
    exact ha hb

theorem toOption_eq_some_iff {ε α : Type} {x : Except ε α} {a : α} :
    x.toOption = some a ↔ x = .ok a := by
  cases x <;> simp [Except.toOption]

namespace Procedures

/-- What may be filed under a procedure: its own sentences and its paragraphs. -/
def Owns (c : Procedures) (p : ProcedureId) : Part → Prop
  | .sentence j => ∃ t, c.sentences[j]? = some t ∧ t.owner = some p
  | .paragraphPart q => ∃ Q, c.procedures[q]? = some Q ∧ Q.kind = .paragraphProcedure ∧
    Q.owner = some p

/-- Everything is filed once, and where it belongs. -/
structure Filed (c : Procedures) : Prop where
  nodup : ∀ {p : ProcedureId} {P : Procedure}, c.procedures[p]? = some P → P.parts.Nodup
  owns : ∀ {p : ProcedureId} {P : Procedure}, c.procedures[p]? = some P →
    ∀ part ∈ P.parts, c.Owns p part
  plain : ∀ {p : ProcedureId} {P : Procedure}, c.procedures[p]? = some P →
    P.kind = .paragraphProcedure → ∀ q, .paragraphPart q ∉ P.parts

/-- A sentence is filed under a procedure, or under one of its paragraphs. -/
def Under (c : Procedures) (p : ProcedureId) (j : SentenceId) : Prop :=
  ∃ t, c.sentences[j]? = some t ∧ ∃ q, t.owner = some q ∧
    (q = p ∨ ∃ Q, c.procedures[q]? = some Q ∧ Q.kind = .paragraphProcedure ∧ Q.owner = some p)

variable {c : Procedures} {p : ProcedureId} {l : List SentenceId}

/-- What a part of a procedure contributes to its sentences. -/
def partSentences (c : Procedures) (p : ProcedureId) : Part → Except Fault (List SentenceId)
  | .sentence j => pure [j]
  | .paragraphPart q => if p < q then c.sentencesOf q else pure []

theorem sentencesOf_eq (c : Procedures) (p : ProcedureId) : c.sentencesOf p =
    match c.procedures[p]? with
    | some P => do return (← P.parts.mapM (c.partSentences p)).flatten
    | none => .error (.missingProcedure p) := by
  rw [sentencesOf]
  by_cases hp : p < c.procedures.size
  · rw [dif_pos hp, Array.getElem?_eq_getElem hp]
    refine congrArg (fun f => List.mapM f c.procedures[p].parts >>= fun found =>
      pure found.flatten) (funext fun part => ?_)
    cases part with
    | sentence j => rfl
    | paragraphPart q => simp only [partSentences, dite_eq_ite]
  · rw [dif_neg hp, Array.getElem?_eq_none (not_lt.1 hp)]

theorem exists_of_sentencesOf_eq_ok (h : c.sentencesOf p = .ok l) :
    ∃ P found, c.procedures[p]? = some P ∧
      List.Forall₂ (fun part m => part ∈ P.parts ∧ c.partSentences p part = .ok m) P.parts found ∧
      l = found.flatten := by
  rw [sentencesOf_eq] at h
  cases hP : c.procedures[p]? with
  | none => rw [hP] at h; exact nomatch h
  | some P =>
    rw [hP] at h
    dsimp only at h
    cases hfound : P.parts.mapM (c.partSentences p) with
    | error e => rw [hfound] at h; exact nomatch h
    | ok found =>
      rw [hfound, ok_bind] at h
      exact ⟨P, found, rfl, forall₂_of_mapM_eq_ok hfound, (Except.ok.inj h).symm⟩

theorem mem_getD_blocks {j : SentenceId} {b : BlockId} :
    b ∈ (c.sentences[j]?.map (·.blocks)).getD [] ↔
      ∃ t, c.sentences[j]? = some t ∧ b ∈ t.blocks := by
  cases c.sentences[j]? <;> simp

/-- The blocks of a range are those of its sentences. -/
theorem exists_of_capturedBlocks_eq_ok {first last : ProcedureId} {blocks : List BlockId}
    (h : Build.capturedBlocks c first last = .ok blocks) : ∃ found : List (List SentenceId),
      (Build.proceduresBetween c first last).mapM c.sentencesOf = .ok found ∧
      blocks = found.flatten.flatMap fun j => (c.sentences[j]?.map (·.blocks)).getD [] := by
  obtain ⟨found, hfound, h⟩ := exists_of_bind_eq_ok h
  obtain ⟨lists, hlists, h⟩ := exists_of_bind_eq_ok h
  obtain rfl : lists.flatten = blocks := Except.ok.inj h
  refine ⟨found, hfound, congrArg List.flatten ?_⟩
  refine (List.forall₂_eq_eq_eq ▸ List.forall₂_map_left_iff.2 ?_ : _ = lists).symm
  refine (forall₂_of_mapM_eq_ok hlists).imp fun j m ⟨_, hm⟩ => ?_
  obtain ⟨t, ht, hm⟩ := exists_of_bind_eq_ok hm
  rw [sentence_eq_ok_iff.1 ht]
  exact Except.ok.inj hm

namespace Filed

/-- What a paragraph lists is its own. -/
theorem sentencesOf_paragraph (hc : c.Filed) {Q : Procedure} (hQ : c.procedures[p]? = some Q)
    (hkind : Q.kind = .paragraphProcedure) (h : c.sentencesOf p = .ok l) :
    l.Nodup ∧ ∀ j ∈ l, ∃ t, c.sentences[j]? = some t ∧ t.owner = some p := by
  obtain ⟨P, found, hP, hfound, rfl⟩ := exists_of_sentencesOf_eq_ok h
  obtain rfl : Q = P := Option.some.inj (hQ.symm.trans hP)
  have heach :
      List.Forall₂ (fun part m => m.Nodup ∧ ∀ j ∈ m, part = .sentence j) Q.parts found := by
    refine hfound.imp fun part m ⟨hpart, hm⟩ => ?_
    cases part with
    | paragraphPart q => exact absurd hpart (hc.plain hQ hkind q)
    | sentence j =>
      obtain rfl : [j] = m := Except.ok.inj hm
      simp
  refine ⟨nodup_flatten_of_forall₂ heach (hc.nodup hQ) fun _ _ _ _ _ h h' => h.trans h'.symm,
    fun j hj => ?_⟩
  obtain ⟨m, hm, hj⟩ := List.mem_flatten.1 hj
  obtain ⟨part, hpart, -, hsentence⟩ := exists_of_forall₂_of_mem heach hm
  have howns := hc.owns hQ part hpart
  rwa [hsentence j hj] at howns

/-- The part of a procedure through which it lists a sentence. -/
def Through (c : Procedures) (p : ProcedureId) (part : Part) (j : SentenceId) : Prop :=
  ∃ t, c.sentences[j]? = some t ∧
    (part = .sentence j ∧ t.owner = some p ∨ ∃ q, part = .paragraphPart q ∧ q ≠ p ∧
      t.owner = some q ∧ ∃ Q, c.procedures[q]? = some Q ∧ Q.kind = .paragraphProcedure ∧
        Q.owner = some p)

theorem Through.unique {part part' : Part} {j : SentenceId} (h : Through c p part j)
    (h' : Through c p part' j) : part = part' := by
  obtain ⟨t, ht, h⟩ := h
  obtain ⟨t', ht', h'⟩ := h'
  obtain rfl : t = t' := Option.some.inj (ht.symm.trans ht')
  obtain ⟨rfl, howner⟩ | ⟨q, rfl, hne, howner, -⟩ := h <;>
    obtain ⟨rfl, howner'⟩ | ⟨q', rfl, hne', howner', -⟩ := h'
  · rfl
  · exact absurd (Option.some.inj (howner'.symm.trans howner)) hne'
  · exact absurd (Option.some.inj (howner.symm.trans howner')) hne
  · rw [Option.some.inj (howner.symm.trans howner')]

/-- What a procedure lists is its own, or that of one of its paragraphs. -/
theorem sentencesOf (hc : c.Filed) (h : c.sentencesOf p = .ok l) :
    l.Nodup ∧ ∀ j ∈ l, c.Under p j := by
  obtain ⟨P, found, hP, hfound, rfl⟩ := exists_of_sentencesOf_eq_ok h
  have heach : List.Forall₂ (fun part m => m.Nodup ∧ ∀ j ∈ m, Through c p part j)
      P.parts found := by
    refine hfound.imp fun part m ⟨hpart, hm⟩ => ?_
    have howns := hc.owns hP part hpart
    cases part with
    | sentence j =>
      obtain rfl : [j] = m := Except.ok.inj hm
      obtain ⟨t, ht, howner⟩ := howns
      exact ⟨by simp, fun j' hj' => ⟨t, by rwa [List.mem_singleton.1 hj'],
        .inl ⟨by rw [List.mem_singleton.1 hj'], howner⟩⟩⟩
    | paragraphPart q =>
      rw [partSentences] at hm
      split at hm
      · obtain ⟨Q, hQ, hkind, howner⟩ := howns
        obtain ⟨hnodup, hown⟩ := hc.sentencesOf_paragraph hQ hkind hm
        refine ⟨hnodup, fun j hj => ?_⟩
        obtain ⟨t, ht, htowner⟩ := hown j hj
        refine ⟨t, ht, .inr ⟨q, rfl, ?_, htowner, Q, hQ, hkind, howner⟩⟩
        rintro rfl
        obtain rfl : P = Q := Option.some.inj (hP.symm.trans hQ)
        exact hc.plain hP hkind q hpart
      · obtain rfl : [] = m := Except.ok.inj hm
        simp
  refine ⟨nodup_flatten_of_forall₂ heach (hc.nodup hP) fun _ _ _ _ _ h h' => h.unique h',
    fun j hj => ?_⟩
  obtain ⟨m, hm, hj⟩ := List.mem_flatten.1 hj
  obtain ⟨part, -, -, hthrough⟩ := exists_of_forall₂_of_mem heach hm
  obtain ⟨t, ht, ⟨-, howner⟩ | ⟨q, -, -, howner, hq⟩⟩ := hthrough j hj
  · exact ⟨t, ht, p, howner, .inl rfl⟩
  · exact ⟨t, ht, q, howner, .inr hq⟩

/-- A range that contains a section leaves out its paragraphs. -/
theorem not_mem_of_owner {first last p q : ProcedureId} {Q : Procedure}
    (hq : q ∈ Build.proceduresBetween c first last) (hp : p ∈ Build.proceduresBetween c first last)
    (hQ : c.procedures[q]? = some Q) (hkind : Q.kind = .paragraphProcedure)
    (howner : Q.owner = some p) : False := by
  have hp' := List.mem_range'_1.1 (List.mem_filter.1 hp).1
  have hkept := (List.mem_filter.1 hq).2
  simp only [hQ, hkind, howner, Option.any_some, bne_self_eq_false, Bool.false_or,
    Bool.not_eq_true', Bool.and_eq_false_iff, decide_eq_false_iff_not] at hkept
  lia

/-- A range lists every sentence once. -/
theorem nodup_sentences_proceduresBetween (hc : c.Filed) {first last : ProcedureId}
    {found : List (List SentenceId)}
    (h : (Build.proceduresBetween c first last).mapM c.sentencesOf = .ok found) :
    found.flatten.Nodup := by
  have heach := (forall₂_of_mapM_eq_ok h).imp fun p m ⟨_, hm⟩ => hc.sentencesOf hm
  refine nodup_flatten_of_forall₂ heach (List.Nodup.filter _ List.nodup_range')
    fun p hp p' hp' j hj hj' => ?_
  obtain ⟨t, ht, q, howner, hq⟩ := hj
  obtain ⟨t', ht', q', howner', hq'⟩ := hj'
  obtain rfl : t = t' := Option.some.inj (ht.symm.trans ht')
  obtain rfl : q = q' := Option.some.inj (howner.symm.trans howner')
  obtain rfl | ⟨Q, hQ, hkind, hQp⟩ := hq <;> obtain rfl | ⟨Q', hQ', hkind', hQp'⟩ := hq'
  · rfl
  · exact (not_mem_of_owner hp hp' hQ' hkind' hQp').elim
  · exact (not_mem_of_owner hp' hp hQ hkind hQp).elim
  · obtain rfl : Q = Q' := Option.some.inj (hQ.symm.trans hQ')
    exact Option.some.inj (hQp.symm.trans hQp')

end Filed

end Procedures

/-! ### The catalog of a division -/

namespace Procedures

variable {c c' : Procedures}

/-- What is filed depends on procedures and on the owners of sentences alone. -/
theorem Filed.congr (hc : c.Filed) (hprocedures : c'.procedures = c.procedures)
    (hsentences : ∀ (j : SentenceId) t, c.sentences[j]? = some t →
      ∃ t', c'.sentences[j]? = some t' ∧ t'.owner = t.owner) : c'.Filed where
  nodup hP := hc.nodup (hprocedures ▸ hP)
  owns {p P} hP part hpart := by
    rw [hprocedures] at hP
    have howns := hc.owns hP part hpart
    cases part with
    | sentence j =>
      obtain ⟨t, ht, howner⟩ := howns
      obtain ⟨t', ht', heq⟩ := hsentences j t ht
      exact ⟨t', ht', heq.trans howner⟩
    | paragraphPart q => simpa only [Owns, hprocedures] using howns
  plain hP := hc.plain (hprocedures ▸ hP)

/-- A procedure is declared under which nothing is filed yet. -/
theorem Filed.push (hc : c.Filed) {P : Procedure} (hP : P.parts = []) :
    ({ c with procedures := c.procedures.push P } : Procedures).Filed := by
  have hcases : ∀ {p : ProcedureId} {P' : Procedure}, (c.procedures.push P)[p]? = some P' →
      c.procedures[p]? = some P' ∨ P'.parts = [] := fun {p P'} h => by
    rw [Array.getElem?_push] at h
    split at h
    · exact .inr (Option.some.inj h ▸ hP)
    · exact .inl h
  refine ⟨fun h => ?_, fun h part hpart => ?_, fun h hkind q hq => ?_⟩
  · obtain h | h := hcases h
    · exact hc.nodup h
    · exact h ▸ .nil
  · obtain h | h := hcases h
    · have howns := hc.owns h part hpart
      cases part with
      | sentence j => exact howns
      | paragraphPart q =>
        obtain ⟨Q, hQ, hrest⟩ := howns
        exact ⟨Q, by rw [Array.getElem?_push, if_neg (Array.getElem?_eq_some_iff.1 hQ).1.ne, hQ],
          hrest⟩
    · simp [h] at hpart
  · obtain h | h := hcases h
    · exact hc.plain h hkind q hq
    · simp [h] at hq

/-- A part is filed under the procedure it belongs to. -/
theorem Filed.addPart (hc : c.Filed) {p : ProcedureId} {part : Part}
    (h : addPart p part c = .ok ((), c')) (howns : c.Owns p part)
    (hnew : ∀ P, c.procedures[p]? = some P → part ∉ P.parts)
    (hkind : ∀ q, part = .paragraphPart q → ∀ P, c.procedures[p]? = some P →
      P.kind = .sectionProcedure) : c'.Filed := by
  rw [Procedures.addPart, modifyProcedure] at h
  split at h
  case isFalse => cases h
  obtain rfl : { c with procedures := c.procedures.modify p fun P =>
    { P with parts := P.parts ++ [part] } } = c' := congrArg Prod.snd (Except.ok.inj h)
  have hcases : ∀ {q : ProcedureId} {P' : Procedure}, (c.procedures.modify p fun P =>
      { P with parts := P.parts ++ [part] })[q]? = some P' → ∃ P, c.procedures[q]? = some P ∧
        P' = if p = q then { P with parts := P.parts ++ [part] } else P := fun {q P'} h => by
    rw [Array.getElem?_modify] at h
    split at h
    · next hpq =>
      obtain ⟨P, hP, rfl⟩ := Option.map_eq_some_iff.1 h
      exact ⟨P, hP, by rw [if_pos hpq]⟩
    · next hpq => exact ⟨P', h, by rw [if_neg hpq]⟩
  have hkeep : ∀ {q : ProcedureId} {part' : Part}, c.Owns q part' → Owns { c with
      procedures := c.procedures.modify p fun P => { P with parts := P.parts ++ [part] } }
        q part' := by
    intro q part' howns
    cases part' with
    | sentence j => exact howns
    | paragraphPart q' =>
      obtain ⟨Q, hQ, hQkind, hQowner⟩ := howns
      rw [Owns, Array.getElem?_modify, hQ]
      split
      · exact ⟨_, rfl, hQkind, hQowner⟩
      · exact ⟨Q, rfl, hQkind, hQowner⟩
  refine ⟨fun h => ?_, fun h part' hpart => ?_, fun {p'} P' h hk q hq => ?_⟩
  · obtain ⟨P, hP, rfl⟩ := hcases h
    split
    · next hpq =>
      refine List.nodup_append.2 ⟨hc.nodup hP, List.nodup_singleton _, fun a ha b hb => ?_⟩
      rw [List.mem_singleton.1 hb]
      rintro rfl
      exact hnew P (hpq ▸ hP) ha
    · exact hc.nodup hP
  · obtain ⟨P, hP, rfl⟩ := hcases h
    split at hpart
    · next hpq =>
      subst hpq
      obtain hpart | hpart := List.mem_append.1 hpart
      · exact hkeep (hc.owns hP part' hpart)
      · exact List.mem_singleton.1 hpart ▸ hkeep howns
    · exact hkeep (hc.owns hP part' hpart)
  · obtain ⟨P, hP, rfl⟩ := hcases h
    by_cases hpq : p = p'
    · rw [if_pos hpq] at hk hq
      obtain hq | hq := List.mem_append.1 hq
      · exact hc.plain hP hk q hq
      · have hsection := hkind q (List.mem_singleton.1 hq).symm P (hpq ▸ hP)
        cases hk.symm.trans hsection
    · rw [if_neg hpq] at hk hq
      exact hc.plain hP hk q hq

/-- The procedures that there were are still there. -/
def Enlarges (c c' : Procedures) : Prop := ∀ {q : ProcedureId} {Q : Procedure},
  c.procedures[q]? = some Q → ∃ Q', c'.procedures[q]? = some Q' ∧ Q'.id = Q.id ∧ Q'.kind = Q.kind

theorem enlarges_push (c : Procedures) (P : Procedure) (index : NameIndex) :
    Enlarges c { c with procedures := c.procedures.push P, index } := fun {q Q} hQ =>
  ⟨Q, by rw [Array.getElem?_push, if_neg (Array.getElem?_eq_some_iff.1 hQ).1.ne, hQ], rfl, rfl⟩

theorem enlarges_addPart {p : ProcedureId} {part : Part} (h : addPart p part c = .ok ((), c')) :
    Enlarges c c' ∧ c'.sentences = c.sentences := by
  rw [Procedures.addPart, modifyProcedure] at h
  split at h
  case isFalse => cases h
  obtain rfl : { c with procedures := c.procedures.modify p fun P =>
    { P with parts := P.parts ++ [part] } } = c' := congrArg Prod.snd (Except.ok.inj h)
  refine ⟨fun {q Q} hQ => ?_, rfl⟩
  rw [Array.getElem?_modify, hQ]
  split
  · exact ⟨_, rfl, rfl, rfl⟩
  · exact ⟨Q, rfl, rfl, rfl⟩

/-- Nothing is filed yet under what is not declared. -/
theorem Filed.not_mem (hc : c.Filed) {p : ProcedureId} {P : Procedure}
    (hP : c.procedures[p]? = some P) :
    .sentence c.sentences.size ∉ P.parts ∧ .paragraphPart c.procedures.size ∉ P.parts := by
  constructor
  · intro hmem
    obtain ⟨t, ht, -⟩ := hc.owns hP _ hmem
    exact (Array.getElem?_eq_some_iff.1 ht).1.false
  · intro hmem
    obtain ⟨Q, hQ, -⟩ := hc.owns hP _ hmem
    exact (Array.getElem?_eq_some_iff.1 hQ).1.false

theorem Filed.addSentence (hc : c.Filed) {owner : Option ProcedureId} {declaratives : Bool}
    {j : SentenceId} (h : addSentence owner declaratives c = .ok (j, c')) :
    c'.Filed ∧ Enlarges c c' := by
  set c₁ : Procedures := { c with
    sentences := c.sentences.push { id := c.sentences.size, owner, declaratives } } with hc₁
  have hfiled : c₁.Filed := hc.congr rfl fun j t ht =>
    ⟨t, by rw [hc₁, Array.getElem?_push, if_neg (Array.getElem?_eq_some_iff.1 ht).1.ne, ht], rfl⟩
  rw [Procedures.addSentence, run_bind (a := c.sentences.size) (t := c₁) rfl] at h
  cases owner with
  | none =>
    obtain rfl : c₁ = c' := congrArg Prod.snd (Except.ok.inj h)
    exact ⟨hfiled, fun {_ Q} hQ => ⟨Q, hQ, rfl, rfl⟩⟩
  | some p =>
    obtain ⟨⟨⟩, c₂, hpart, hrest⟩ := exists_of_run_bind_eq_ok h
    obtain rfl : c₂ = c' := congrArg Prod.snd (Except.ok.inj hrest)
    refine ⟨hfiled.addPart hpart ⟨_, by rw [hc₁]; exact Array.getElem?_push_size, rfl⟩
      (fun P hP => (hc.not_mem hP).1) (by simp), fun hQ => (enlarges_addPart hpart).1 hQ⟩

theorem Filed.addParagraph (hc : c.Filed) {name : String} {owner : Option ProcedureId}
    {declaratives : Bool} {span : Span} {p : ProcedureId}
    (howner : ∀ q ∈ owner, ∃ P, c.procedures[q]? = some P ∧ P.kind = .sectionProcedure)
    (h : addParagraph name owner declaratives span c = .ok (p, c')) :
    c'.Filed ∧ Enlarges c c' := by
  set Q : Procedure :=
    { id := c.procedures.size, name, kind := .paragraphProcedure, owner, declaratives, span }
  set c₁ : Procedures := { c with procedures := c.procedures.push Q } with hc₁
  have hfiled : c₁.Filed := hc.push rfl
  have henlarges : Enlarges c c₁ := enlarges_push c Q c.index
  rw [Procedures.addParagraph, run_bind (a := c.procedures.size) (t := c₁) rfl] at h
  cases owner with
  | none =>
    obtain rfl : { c₁ with index := _ } = c' := congrArg Prod.snd (Except.ok.inj h)
    exact ⟨hfiled.congr rfl fun _ t ht => ⟨t, ht, rfl⟩, henlarges⟩
  | some q =>
    obtain ⟨⟨⟩, c₂, hpart, hrest⟩ := exists_of_run_bind_eq_ok h
    obtain rfl : { c₂ with index := _ } = c' := congrArg Prod.snd (Except.ok.inj hrest)
    obtain ⟨P, hP, hkind⟩ := howner q rfl
    have hold : ∀ P', c₁.procedures[q]? = some P' → P = P' := fun P' hP' => by
      rw [hc₁, Array.getElem?_push, if_neg (Array.getElem?_eq_some_iff.1 hP).1.ne, hP] at hP'
      exact Option.some.inj hP'
    refine ⟨(hfiled.addPart hpart ⟨Q, Array.getElem?_push_size, rfl, rfl⟩
      (fun P' hP' => hold P' hP' ▸ (hc.not_mem hP).2) fun _ _ P' hP' => hold P' hP' ▸ hkind).congr
        rfl fun _ t ht => ⟨t, ht, rfl⟩, fun hq => ?_⟩
    obtain ⟨Q₁, hQ₁, hid₁, hkind₁⟩ := henlarges hq
    obtain ⟨Q₂, hQ₂, hid₂, hkind₂⟩ := (enlarges_addPart hpart).1 hQ₁
    exact ⟨Q₂, hQ₂, hid₂.trans hid₁, hkind₂.trans hkind₁⟩

end Procedures

/-- The catalog of a plan is filed, and what is open is a section. -/
structure Plan.Filed (p : Plan) : Prop where
  catalog : p.catalog.Filed
  root : ∃ P, p.catalog.procedures[0]? = some P ∧ P.id = 0 ∧ P.kind = .sectionProcedure
  currentSection : ∀ q ∈ p.currentSection, ∃ P, p.catalog.procedures[q]? = some P ∧
    P.kind = .sectionProcedure

namespace Plan.Filed

variable {p p' : Plan}

/-- A step on the catalog that opens no procedure but a section. -/
theorem enlarge (h : p.Filed) (hcatalog : p'.catalog.Filed)
    (henlarges : Procedures.Enlarges p.catalog p'.catalog)
    (hsection : ∀ q ∈ p'.currentSection, q ∈ p.currentSection ∨ ∃ P,
      p'.catalog.procedures[q]? = some P ∧ P.kind = .sectionProcedure) : p'.Filed where
  catalog := hcatalog
  root := by
    obtain ⟨P, hP, hid, hkind⟩ := h.root
    obtain ⟨P', hP', hid', hkind'⟩ := henlarges hP
    exact ⟨P', hP', hid'.trans hid, hkind'.trans hkind⟩
  currentSection q hq := by
    obtain hq | hq := hsection q hq
    · obtain ⟨P, hP, hkind⟩ := h.currentSection q hq
      obtain ⟨P', hP', -, hkind'⟩ := henlarges hP
      exact ⟨P', hP', hkind'.trans hkind⟩
    · exact hq

theorem edit (h : p.Filed) {α : Type} {e : Procedures.Edit α} {go : α → Procedures → Plan}
    (hgo : ∀ a c, e p.catalog = .ok (a, c) → (go a c).Filed) : (p.edit e go).Filed := by
  rw [Plan.edit]
  split
  · next a c hok => exact hgo a c hok
  · exact h

/-- The implicit section is found, and stays as it is. -/
theorem rootSection_eq_ok (h : p.Filed) :
    Procedures.rootSection p.catalog = .ok (0, p.catalog) := by
  obtain ⟨P, hP, hid, -⟩ := h.root
  rw [Procedures.rootSection, run_bind (a := p.catalog) (t := p.catalog) rfl, hP, ← hid]
  rfl

theorem openSentence (h : p.Filed) (id : NodeId) : (p.openSentence id).Filed := by
  refine h.edit fun i c hok => ?_
  obtain ⟨hc, henlarges⟩ := h.catalog.addSentence hok
  exact h.enlarge hc henlarges fun q hq => .inl hq

theorem step (h : p.Filed) (item : Item) : (p.step item).Filed := by
  cases item with
  | sentence id text =>
    rw [Plan.step]
    split
    · exact h.enlarge h.catalog (fun {_ Q} hQ => ⟨Q, hQ, rfl, rfl⟩) fun q hq => .inl hq
    · have hopen := h.openSentence id
      exact hopen.enlarge hopen.catalog (fun {_ Q} hQ => ⟨Q, hQ, rfl, rfl⟩) fun q hq => .inl hq
  | enter heading id =>
    cases heading with
    | declaratives =>
      exact h.enlarge h.catalog (fun {_ Q} hQ => ⟨Q, hQ, rfl, rfl⟩) fun q hq => .inl hq
    | sectionHeader name span =>
      rw [Plan.step]
      refine h.edit fun i c hok => ?_
      obtain ⟨rfl, rfl⟩ := Prod.mk.inj (Except.ok.inj hok)
      refine h.enlarge ((h.catalog.push rfl).congr rfl fun _ t ht => ⟨t, ht, rfl⟩)
        (Procedures.enlarges_push _ _ _) fun q hq => .inr ?_
      obtain rfl := Option.some.inj hq
      exact ⟨_, Array.getElem?_push_size, rfl⟩
    | paragraphHeader name span =>
      refine h.edit fun i c hok => ?_
      obtain ⟨hc, henlarges⟩ := h.catalog.addParagraph h.currentSection hok
      exact h.enlarge hc henlarges fun q hq => .inl hq
  | leave heading id =>
    cases heading with
    | declaratives =>
      refine h.edit fun root c hok => ?_
      obtain ⟨rfl, rfl⟩ := Prod.mk.inj (Except.ok.inj (h.rootSection_eq_ok.symm.trans hok))
      obtain ⟨P, hP, -, hkind⟩ := h.root
      have hfiled : ∀ p' : Plan, p'.catalog = p.catalog → p'.currentSection = some 0 →
          p'.Filed := fun p' hcatalog hsection => by
        refine h.enlarge (hcatalog ▸ h.catalog) (fun {_ Q} hQ => ⟨Q, hcatalog ▸ hQ, rfl, rfl⟩)
          fun q hq => .inr ⟨P, ?_, hkind⟩
        rw [hsection] at hq
        rw [hcatalog, ← Option.some.inj hq, hP]
      dsimp only
      split
      · exact hfiled _ rfl rfl
      · exact hfiled _ rfl rfl
    | sectionHeader name span => exact h
    | paragraphHeader name span => exact h

end Plan.Filed

theorem Plan.Filed.start (program : Option String) : (Plan.start program).Filed := by
  rw [Plan.start_eq]
  have hzero : ∀ {p : ProcedureId} {P root : Procedure}, #[root][p]? = some P → p = 0 ∧ root = P :=
    fun {p P root} hP => by
      cases p with
      | zero => exact ⟨rfl, Option.some.inj hP⟩
      | succ p => simp at hP
  refine ⟨⟨fun hP => ?_, fun hP part hpart => ?_, fun hP hkind => ?_⟩, ⟨_, rfl, rfl, rfl⟩,
    fun q hq => ?_⟩
  · obtain ⟨rfl, rfl⟩ := hzero hP
    exact List.nodup_singleton _
  · obtain ⟨rfl, rfl⟩ := hzero hP
    obtain rfl := List.mem_singleton.1 hpart
    exact ⟨_, rfl, rfl⟩
  · obtain ⟨rfl, rfl⟩ := hzero hP
    exact nomatch hkind
  · obtain rfl : 0 = q := Option.some.inj hq
    exact ⟨_, rfl, rfl⟩

/-- The catalog of a division is filed. -/
theorem DivisionText.filed_plan (d : DivisionText) (program : Option String) (id : NodeId) :
    (d.plan program id).catalog.Filed := by
  have hread : ∀ (items : List Item) (p : Plan), p.Filed → (p.read items).Filed := by
    intro items
    induction items with
    | nil => exact fun p hp => hp
    | cons item rest ih => exact fun p hp => ih _ (hp.step item)
  exact (hread _ _ (.start program)).catalog

namespace Draft

variable {o : Options} {s : Scope} {p : Plan} {chs : List Chapter}

theorem filed (h : Draft o s p chs) (hp : p.catalog.Filed) : s.procedures.Filed := by
  rw [← h.catalog] at hp
  refine hp.congr rfl fun j t ht => ?_
  obtain ⟨t', ht', rfl⟩ := Option.map_eq_some_iff.1 (Array.getElem?_map ▸ ht)
  exact ⟨t', ht', rfl⟩

/-- No block is in two sentences. -/
theorem eq_of_mem_blocks (h : Draft o s p chs) {j j' : SentenceId} {t t' : Sentence} {b : BlockId}
    (ht : s.procedures.sentences[j]? = some t) (ht' : s.procedures.sentences[j']? = some t')
    (hb : b ∈ t.blocks) (hb' : b ∈ t'.blocks) : j = j' := by
  obtain ⟨c, hc, hj, hblocks, -⟩ := h.exists_chapter ht
  obtain ⟨c', hc', hj', hblocks', -⟩ := h.exists_chapter ht'
  rw [hblocks, (h.drawn c hc).mem_blocks] at hb
  rw [hblocks', (h.drawn c' hc').mem_blocks] at hb'
  obtain rfl := h.eq_of_mem_of_has hc hc' hb hb'
  exact Option.some.inj (hj.symm.trans hj')

/-- A range lists every block once. -/
theorem nodup_capturedBlocks (h : Draft o s p chs) (hp : p.catalog.Filed) {first last : ProcedureId}
    {blocks : List BlockId} (hblocks : Build.capturedBlocks s.procedures first last = .ok blocks) :
    blocks.Nodup := by
  obtain ⟨found, hfound, rfl⟩ := Procedures.exists_of_capturedBlocks_eq_ok hblocks
  refine List.nodup_flatMap.2 ⟨fun j _ => ?_, ?_⟩
  · cases ht : s.procedures.sentences[j]? with
    | none => exact .nil
    | some t =>
      obtain ⟨c, -, -, hblocks, -⟩ := h.exists_chapter ht
      exact (show t.blocks.Nodup from hblocks ▸ List.nodup_range')
  · refine ((h.filed hp).nodup_sentences_proceduresBetween hfound).imp fun hne b hb hb' => hne ?_
    obtain ⟨_, ht, hb⟩ := Procedures.mem_getD_blocks.1 hb
    obtain ⟨_, ht', hb'⟩ := Procedures.mem_getD_blocks.1 hb'
    exact h.eq_of_mem_blocks ht ht' hb hb'

end Draft

end CobolFlow
