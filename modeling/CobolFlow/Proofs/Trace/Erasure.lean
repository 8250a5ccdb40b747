import CobolFlow.Proofs.Trace.Meaning

/-!
# Not listening to the phrases of EVALUATE

The lowerings of EVALUATE differ in the phrases that are said on the way to a clause. In the cascade
these are the phrases of all clauses up to the chosen one, and else its own. To who does not listen
to them a statement does the same whatever the lowering.

Where a statement leaves for another sentence it says something that is heard, namely the statement
by which it leaves. So what is heard from sentence to sentence is never settled by itself.

## Main definitions

* `erase` — the words of a language without the phrases of EVALUATE
* `Behaviour.Alike` — two behaviours that sound alike

## Main results

* `Meaning.alike_statements` — what statements do sounds alike in both lowerings
-/

namespace CobolFlow

open scoped Computability

/-- What is heard of what is said: all but the phrases of EVALUATE. -/
def withoutPhrases (w : List Instruction) : List Instruction := w.filter (·.tag != .whenPhrase)

/-- What is heard of the words of a language. -/
def erase : Language Instruction →+* Language Instruction where
  toFun L := {w | ∃ v ∈ L, withoutPhrases v = w}
  map_zero' := Set.image_empty _
  map_one' := Set.image_singleton
  map_add' := Set.image_union _
  map_mul' _ _ := Set.image_image2_distrib fun _ _ => List.filter_append ..

section Erase

variable {L : Language Instruction} {w : List Instruction} {ι : Sort*}

theorem mem_erase : w ∈ erase L ↔ ∃ v ∈ L, withoutPhrases v = w := Iff.rfl

@[simp] theorem erase_just (w : List Instruction) : erase (just w) = just (withoutPhrases w) :=
  Set.image_singleton

@[simp] theorem erase_iSup (f : ι → Language Instruction) : erase (⨆ i, f i) = ⨆ i, erase (f i) :=
  Set.image_iUnion

@[simp] theorem erase_kstar (L : Language Instruction) : erase L∗ = (erase L)∗ := by
  simp only [Language.kstar_eq_iSup_pow, erase_iSup, map_pow]

theorem withoutPhrases_of_phrases (h : ∀ i ∈ w, i.tag = .whenPhrase) : withoutPhrases w = [] :=
  List.filter_eq_nil_iff.2 fun i hi => by simp [h i hi]

end Erase

namespace Behaviour

variable {A A' B B' D D' : Behaviour} {X : Language Instruction} {K : Exit → Language Instruction}

/-- What is heard of a behaviour. -/
def erased (B : Behaviour) : Behaviour := ⟨erase B.falls, fun e => erase (B.exits e)⟩

@[simp] theorem erased_zero : (0 : Behaviour).erased = 0 := by
  ext1 <;> simp [erased]
  rfl

@[simp] theorem erased_skip : skip.erased = skip := by
  ext1
  · exact map_one erase
  · exact funext fun _ => map_zero erase

@[simp] theorem erased_leave (e : Exit) : (leave e).erased = leave e := by
  ext1
  · exact map_zero erase
  · funext e'
    simp only [erased, leave, apply_ite erase, map_one, map_zero]

@[simp] theorem erased_after (L : Language Instruction) :
    (B.after L).erased = B.erased.after (erase L) := by
  simp [erased, after]

@[simp] theorem erased_saying (w : List Instruction) :
    (B.saying w).erased = B.erased.saying (withoutPhrases w) := by
  rw [saying, erased_after, erase_just, saying]

@[simp] theorem erased_seq : (A.seq B).erased = A.erased.seq B.erased := by
  simp only [erased, seq, map_mul, map_add]

@[simp] theorem erased_add : (A + B).erased = A.erased + B.erased := by
  ext1
  · exact map_add erase ..
  · exact funext fun _ => map_add erase ..

@[simp] theorem erased_leaving : B.leaving.erased = B.erased.leaving := by
  simp [erased, leaving]

theorem erase_into : erase (B.into X K) = B.erased.into (erase X) fun e => erase (K e) := by
  simp only [into, erased, map_add, map_mul, erase_iSup]

/-! ### EVALUATE -/

theorem direct_cons (D : Behaviour) (c : List Instruction × Behaviour)
    (cs : List (List Instruction × Behaviour)) :
    direct D (c :: cs) = c.2.saying c.1 + direct D cs := by
  rw [direct, direct, List.map_cons, List.sum_cons, add_assoc]

/-- **The lowerings of EVALUATE** differ in what is not heard. -/
theorem erased_cascade (D : Behaviour) {cs : List (List Instruction × Behaviour)}
    (h : ∀ c ∈ cs, ∀ i ∈ c.1, i.tag = .whenPhrase) :
    (cascade D cs).erased = (direct D cs).erased := by
  induction cs with
  | nil => simp [cascade, direct]
  | cons c rest ih =>
    have hsilent : withoutPhrases c.1 = [] := withoutPhrases_of_phrases (h c (by simp))
    rw [cascade, direct_cons, erased_saying, erased_add, erased_add, erased_saying, hsilent,
      saying_nil, saying_nil, ih fun c hc => h c (by simp [hc])]

theorem erased_evaluation (o : Options) (D : Behaviour) {cs : List (List Instruction × Behaviour)}
    (h : ∀ c ∈ cs, ∀ i ∈ c.1, i.tag = .whenPhrase) :
    (Meaning.evaluation o cs D).erased = (direct D cs).erased := by
  rw [Meaning.evaluation]
  split
  · exact erased_cascade D h
  · rfl

/-! ### Sounding alike -/

/-- Whoever leaves for another sentence is heard. -/
def IsHeard (B : Behaviour) : Prop := ∀ e, e ≠ .halt → [] ∉ B.exits e

/-- Two behaviours that sound alike, in which whoever leaves for another sentence is heard. -/
structure Alike (B B' : Behaviour) : Prop where
  erased : B.erased = B'.erased
  heard : B.erased.IsHeard

namespace IsHeard

theorem after (h : B.IsHeard) (L : Language Instruction) : (B.after L).IsHeard := by
  rintro e he ⟨u, -, v, hv, huv⟩
  obtain ⟨-, rfl⟩ := List.append_eq_nil_iff.1 huv
  exact h e he hv

theorem seq (hA : A.IsHeard) (hB : B.IsHeard) : (A.seq B).IsHeard := by
  rintro e he (hnil | ⟨u, -, v, hv, huv⟩)
  · exact hA e he hnil
  · obtain ⟨-, rfl⟩ := List.append_eq_nil_iff.1 huv
    exact hB e he hv

theorem add (hA : A.IsHeard) (hB : B.IsHeard) : (A + B).IsHeard :=
  fun e he hnil => hnil.elim (hA e he) (hB e he)

theorem saying_cons (B : Behaviour) (i : Instruction) (w : List Instruction) :
    (B.saying (i :: w)).IsHeard := by
  rintro e - hnil
  exact nil_notMem_just_mul (List.cons_ne_nil i w) _ hnil

theorem zero : IsHeard 0 := fun _ _ => Set.notMem_empty _

theorem skip : skip.IsHeard := fun _ _ => Set.notMem_empty _

end IsHeard

namespace Alike

theorem zero : Alike 0 0 where
  erased := rfl
  heard := by
    rw [erased_zero]
    exact .zero

theorem skip : Alike skip skip where
  erased := rfl
  heard := by
    rw [erased_skip]
    exact .skip

theorem after (h : Alike B B') {L L' : Language Instruction} (hL : erase L = erase L') :
    Alike (B.after L) (B'.after L') where
  erased := by rw [erased_after, erased_after, h.erased, hL]
  heard := by
    rw [erased_after]
    exact h.heard.after _

theorem saying (h : Alike B B') (w : List Instruction) : Alike (B.saying w) (B'.saying w) :=
  h.after rfl

/-- A statement that is heard itself. -/
theorem saying_heard (h : B.erased = B'.erased) {i : Instruction} (hi : i.tag ≠ .whenPhrase) :
    Alike (B.saying [i]) (B'.saying [i]) where
  erased := by rw [erased_saying, erased_saying, h]
  heard := by
    have hheard : withoutPhrases [i] = [i] := by simp [withoutPhrases, hi]
    rw [erased_saying, hheard]
    exact .saying_cons _ _ _

theorem seq (hA : Alike A A') (hB : Alike B B') : Alike (A.seq B) (A'.seq B') where
  erased := by rw [erased_seq, erased_seq, hA.erased, hB.erased]
  heard := by
    rw [erased_seq]
    exact hA.heard.seq hB.heard

theorem add (hA : Alike A A') (hB : Alike B B') : Alike (A + B) (A' + B') where
  erased := by rw [erased_add, erased_add, hA.erased, hB.erased]
  heard := by
    rw [erased_add]
    exact hA.heard.add hB.heard

theorem leaving (h : Alike B B') : Alike B.leaving B'.leaving where
  erased := by rw [erased_leaving, erased_leaving, h.erased]
  heard := h.heard

theorem erase_falls (h : Alike B B') : erase B.falls = erase B'.falls :=
  congrArg Behaviour.falls h.erased

theorem loop (h : Alike B B') (i : Instruction) (isIterative testAfter : Bool) :
    Alike (B.loop i isIterative testAfter) (B'.loop i isIterative testAfter) := by
  match isIterative, testAfter with
  | true, false =>
    exact (skip.add h.leaving).after (by simp only [map_mul, erase_kstar, h.erase_falls])
  | true, true =>
    exact (h.seq (skip.saying [i])).after (by simp only [map_mul, erase_kstar, h.erase_falls])
  | false, false => exact h.saying [i]
  | false, true => exact h

/-! ### Clauses -/

/-- The clauses of two statements: they test the same phrases, of the given kind, and what is done
in them sounds alike. -/
abbrev Clauses (t : NodeTag) : List (List Instruction × Behaviour) →
    List (List Instruction × Behaviour) → Prop :=
  List.Forall₂ fun c c' => c.1 = c'.1 ∧ (∀ i ∈ c.1, i.tag = t) ∧ Alike c.2 c'.2

variable {t : NodeTag} {cs cs' : List (List Instruction × Behaviour)}

theorem tests (h : Clauses t cs cs') : Alike (tests cs) (tests cs') := by
  induction h with
  | nil => exact zero
  | cons hc _ ih =>
    obtain ⟨hsaid, -, hbody⟩ := hc
    rw [Behaviour.tests, Behaviour.tests, hsaid]
    exact (hbody.add ih).saying _

theorem phrases_eq (h : Clauses t cs cs') : cs.map Prod.fst = cs'.map Prod.fst := by
  induction h with
  | nil => rfl
  | cons hc _ ih => rw [List.map_cons, List.map_cons, hc.1, ih]

theorem search (h : Clauses t cs cs') (i : Instruction) (hD : Alike D D') :
    Alike (Behaviour.search i D cs) (Behaviour.search i D' cs') := by
  cases h with
  | nil => exact hD
  | cons hc hrest =>
    obtain ⟨hsaid, -, hbody⟩ := hc
    rw [Behaviour.search, Behaviour.search, hsaid, phrases_eq hrest]
    exact (((hD.add hbody).add (tests hrest)).saying _).after rfl

theorem direct (h : Clauses t cs cs') (hD : Alike D D') :
    Alike (Behaviour.direct D cs) (Behaviour.direct D' cs') := by
  induction h with
  | nil => simpa [Behaviour.direct] using hD
  | cons hc _ ih =>
    obtain ⟨hsaid, -, hbody⟩ := hc
    rw [direct_cons, direct_cons, hsaid]
    exact (hbody.saying _).add ih

theorem silent (h : Clauses t cs cs') :
    (∀ c ∈ cs, ∀ i ∈ c.1, i.tag = t) ∧ ∀ c ∈ cs', ∀ i ∈ c.1, i.tag = t := by
  induction h with
  | nil => simp
  | cons hc _ ih =>
    obtain ⟨hsaid, htag, -⟩ := hc
    exact ⟨List.forall_mem_cons.2 ⟨htag, ih.1⟩, List.forall_mem_cons.2 ⟨hsaid ▸ htag, ih.2⟩⟩

/-- The lowerings of EVALUATE sound alike. -/
theorem evaluation {o o' : Options} (h : Clauses .whenPhrase cs cs') (hD : Alike D D') :
    Alike (Meaning.evaluation o cs D) (Meaning.evaluation o' cs' D') := by
  have hdirect := direct h hD
  have herased := erased_evaluation o D (silent h).1
  refine ⟨?_, herased ▸ hdirect.heard⟩
  rw [herased, erased_evaluation o' D' (silent h).2, hdirect.erased]

theorem searching {o o' : Options} (ho : o.searchCascade = o'.searchCascade)
    (h : Clauses t cs cs') (i : Instruction) (hD : Alike D D') :
    Alike (Meaning.searching o i D cs) (Meaning.searching o' i D' cs') := by
  rw [Meaning.searching, Meaning.searching, ho]
  split
  · exact search h i hD
  · exact direct h hD

end Alike

end Behaviour

/-! ### Statements -/

namespace Meaning

/-- Two meanings of one piece: they use up as many nodes and sound alike. -/
def AreAlike (meaning meaning' : Numbered Behaviour) : Prop :=
  ∀ id, (meaning.run id).2 = (meaning'.run id).2 ∧ (meaning.run id).1.Alike (meaning'.run id).1

/-- The meanings of some clauses of one statement. -/
def AreAlikeClauses (t : NodeTag)
    (meaning meaning' : Numbered (List (List Instruction × Behaviour))) : Prop :=
  ∀ id, (meaning.run id).2 = (meaning'.run id).2 ∧
    Behaviour.Alike.Clauses t (meaning.run id).1 (meaning'.run id).1

namespace AreAlike

variable {m m' n n' : Numbered Behaviour}

theorem skip : AreAlike (pure .skip) (pure .skip) := fun _ => ⟨rfl, .skip⟩

/-- Two pieces of which both are used. -/
theorem bind {f f' : Behaviour → Behaviour → Behaviour} (h : AreAlike m m') (h' : AreAlike n n')
    (hf : ∀ {A A' B B' : Behaviour}, A.Alike A' → B.Alike B' → (f A B).Alike (f' A' B')) :
    AreAlike (do return f (← m) (← n)) (do return f' (← m') (← n')) := by
  intro id
  obtain ⟨hid, halike⟩ := h id
  obtain ⟨hid', halike'⟩ := h' (m'.run id).2
  refine ⟨?_, ?_⟩
  · change (n.run (m.run id).2).2 = _
    rw [hid, hid']
    rfl
  · change (f (m.run id).1 (n.run (m.run id).2).1).Alike _
    rw [hid]
    exact hf halike halike'

/-- A node and what is inside. -/
theorem said (kind : NodeKind) {f g : Instruction → Behaviour → Behaviour} (h : AreAlike m m')
    (hf : ∀ {i : Instruction} {B B' : Behaviour}, i.tag = kind.tag → B.Alike B' →
      (f i B).Alike (g i B')) :
    AreAlike (do let i ← Meaning.said kind; return f i (← m))
      (do let i ← Meaning.said kind; return g i (← m')) := by
  intro id
  obtain ⟨hid, halike⟩ := h (id + 1)
  exact ⟨hid, hf (i := ⟨id, kind.tag⟩) rfl halike⟩

theorem within (kind : NodeKind) (h : AreAlike m m') :
    AreAlike (Meaning.within kind m) (Meaning.within kind m') :=
  said kind h fun _ hB => hB.saying _

/-- A node by which control leaves, which is heard. -/
theorem leaving (kind : NodeKind) (hkind : kind.tag ≠ .whenPhrase) (f : Instruction → Behaviour) :
    AreAlike (do let i ← Meaning.said kind; return (f i).saying [i])
      (do let i ← Meaning.said kind; return (f i).saying [i]) :=
  fun id => ⟨rfl, .saying_heard (i := ⟨id, kind.tag⟩) rfl hkind⟩

end AreAlike

variable {m m' : Numbered Behaviour} {t : NodeTag} {kind : NodeKind}
  {cs cs' : Numbered (List (List Instruction × Behaviour))}

theorem AreAlikeClauses.nil : AreAlikeClauses t (pure []) (pure []) := fun _ => ⟨rfl, .nil⟩

theorem AreAlikeClauses.cons (texts : List String) (h : AreAlike m m')
    (h' : AreAlikeClauses kind.tag cs cs') :
    AreAlikeClauses kind.tag
      (do
        let is ← phrases kind texts
        let B ← m
        return (is, B) :: (← cs))
      (do
        let is ← phrases kind texts
        let B ← m'
        return (is, B) :: (← cs')) := by
  intro id
  obtain ⟨ms, next, hms, -, hphrases⟩ := Scope.exists_phrases kind texts id
  obtain ⟨hid, halike⟩ := h next
  obtain ⟨hid', hrest⟩ := h' (m'.run next).2
  rw [Numbered.run_bind hphrases, Numbered.run_bind hphrases]
  refine ⟨?_, ?_⟩
  · change (cs.run (m.run next).2).2 = _
    rw [hid, hid']
    rfl
  · change Behaviour.Alike.Clauses _ ((_, (m.run next).1) :: (cs.run (m.run next).2).1) _
    rw [hid]
    refine .cons ⟨rfl, fun i hi => ?_, halike⟩ hrest
    obtain ⟨n, hn, rfl⟩ := List.mem_map.1 hi
    exact congrArg NodeKind.tag (hms n hn)

/-- EVALUATE, whose lowerings need not be the same. -/
theorem AreAlike.evaluate (o o' : Options) (h : AreAlikeClauses .whenPhrase cs cs')
    (h' : AreAlike m m') :
    AreAlike (Meaning.within .evaluate do return evaluation o (← cs) (← m))
      (Meaning.within .evaluate do return evaluation o' (← cs') (← m')) := by
  refine .within .evaluate fun id => ?_
  obtain ⟨hid, hclauses⟩ := h id
  obtain ⟨hid', hother⟩ := h' (cs'.run id).2
  refine ⟨?_, ?_⟩
  · change (m.run (cs.run id).2).2 = _
    rw [hid, hid']
    rfl
  · change (evaluation o _ (m.run (cs.run id).2).1).Alike _
    rw [hid]
    exact .evaluation hclauses hother

theorem AreAlike.search {o o' : Options} (ho : o.searchCascade = o'.searchCascade)
    (h : AreAlikeClauses t cs cs') (h' : AreAlike m m') :
    AreAlike
      (do
        let i ← Meaning.said .search
        let D ← m
        return (searching o i D (← cs)).saying [i])
      (do
        let i ← Meaning.said .search
        let D ← m'
        return (searching o' i D (← cs')).saying [i]) := by
  intro id
  obtain ⟨hid', hatEnd⟩ := h' (id + 1)
  obtain ⟨hid, hclauses⟩ := h (m'.run (id + 1)).2
  refine ⟨?_, ?_⟩
  · change (cs.run (m.run (id + 1)).2).2 = _
    rw [hid', hid]
    rfl
  · change ((searching o _ _ (cs.run (m.run (id + 1)).2).1).saying _).Alike _
    rw [hid']
    exact (Behaviour.Alike.searching ho hclauses ⟨id, .search⟩ hatEnd).saying _

variable {o o' : Options}

mutual

/-- A statement sounds the same in both lowerings of EVALUATE. -/
theorem alike_statement (ho : o.searchCascade = o'.searchCascade) :
    ∀ st, AreAlike (statement o st) (statement o' st)
  | .mk form text span => by
    match form with
    | .ifThen body otherwise =>
      rw [statement, statement]
      exact .within .ifThen ((alike_statements ho body).bind (alike_elsePart ho otherwise) .add)
    | .evaluate whens other =>
      rw [statement, statement]
      exact .evaluate o o' (alike_whenClauses ho .whenPhrase whens) (alike_whenOther ho other)
    | .search atEnd whens =>
      rw [statement, statement]
      exact .search ho (alike_whenClauses ho .searchWhen whens) (alike_searchAtEnd ho atEnd)
    | .alter clauses =>
      rw [statement, statement]
      exact .within _ .skip
    | .exit =>
      rw [statement, statement]
      exact .within _ .skip
    | .goTo targets depending =>
      rw [statement, statement]
      exact .leaving _ (by cases Jump.ofTargets targets depending <;> simp [NodeKind.tag])
        fun i => Scope.Plays.jumping _ i.node
    | .nextSentence =>
      rw [statement, statement]
      exact .leaving _ (by simp [NodeKind.tag]) fun _ => .leave .nextSentence
    | .perform range =>
      rw [statement, statement]
      exact .within _ .skip
    | .loop repetition testAfter body =>
      rw [statement, statement]
      exact .said _ (alike_statements ho body) fun _ hB => hB.loop _ _ _
    | .terminate ending =>
      rw [statement, statement]
      exact .leaving _ (by simp [NodeKind.tag]) fun _ => .leave .halt
    | .call program conditions =>
      rw [statement, statement]
      exact .within _ (alike_exceptionClauses ho conditions)
    | .ordinary verb conditions =>
      rw [statement, statement]
      exact .within _ (alike_exceptionClauses ho conditions)

/-- **Statements** sound the same in both lowerings of EVALUATE. -/
theorem alike_statements (ho : o.searchCascade = o'.searchCascade) :
    ∀ l, AreAlike (statements o l) (statements o' l)
  | [] => by
    rw [statements, statements]
    exact .skip
  | st :: rest => by
    rw [statements, statements]
    exact (alike_statement ho st).bind (alike_statements ho rest) .seq

theorem alike_elsePart (ho : o.searchCascade = o'.searchCascade) :
    ∀ part, AreAlike (elsePart o part) (elsePart o' part)
  | none => by
    rw [elsePart, elsePart]
    exact .skip
  | some body => by
    rw [elsePart, elsePart]
    exact .within _ (alike_statements ho body)

theorem alike_whenOther (ho : o.searchCascade = o'.searchCascade) :
    ∀ part, AreAlike (whenOther o part) (whenOther o' part)
  | none => by
    rw [whenOther, whenOther]
    exact .skip
  | some body => by
    rw [whenOther, whenOther]
    exact .said .whenOther (f := fun _ B => B) (g := fun _ B => B) (alike_statements ho body)
      fun _ hB => hB

theorem alike_searchAtEnd (ho : o.searchCascade = o'.searchCascade) :
    ∀ part, AreAlike (searchAtEnd o part) (searchAtEnd o' part)
  | none => by
    rw [searchAtEnd, searchAtEnd]
    exact .skip
  | some body => by
    rw [searchAtEnd, searchAtEnd]
    exact .within _ (alike_statements ho body)

theorem alike_whenClauses (ho : o.searchCascade = o'.searchCascade) (kind : NodeKind) :
    ∀ whens, AreAlikeClauses kind.tag (whenClauses o kind whens) (whenClauses o' kind whens)
  | [] => by
    rw [whenClauses, whenClauses]
    exact .nil
  | .mk texts body :: rest => by
    rw [whenClauses, whenClauses]
    exact .cons texts (alike_statements ho body) (alike_whenClauses ho kind rest)

theorem alike_exceptionClauses (ho : o.searchCascade = o'.searchCascade) :
    ∀ conditions, AreAlike (exceptionClauses o conditions) (exceptionClauses o' conditions)
  | [] => by
    rw [exceptionClauses, exceptionClauses]
    exact .skip
  | .mk phrase body :: rest => by
    rw [exceptionClauses, exceptionClauses]
    exact ((alike_statements ho body).within (.exception phrase)).bind
      (alike_exceptionClauses ho rest)
      fun hA hB => (hA.add .skip).seq hB

end

end Meaning

end CobolFlow
