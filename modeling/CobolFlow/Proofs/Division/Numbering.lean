import CobolFlow.Proofs.Division.Items

/-!
# The numbers of nodes

Every script numbers the nodes it enters one after the other, so no two statements of a division
have the same number. And nothing that is replayed of a division enters or leaves a program.

## Main definitions

* `Script.Orderly` — what is true of the script of every piece of a division

## Main results

* `Script.orderly_division` — it is true of a whole division
-/

namespace CobolFlow

/-- The node that is entered. -/
def Notification.entered? : Notification → Option Node
  | .enter n => some n
  | _ => none

/-- Neither enters nor leaves a program. -/
def Notification.IsInner : Notification → Prop
  | .enter n => n.tag ≠ .program ∧ n.tag ≠ .function
  | .leave n => n.tag ≠ .program ∧ n.tag ≠ .function
  | _ => True

namespace Script

/-- The nodes of a piece of a division have successive numbers, and all lie in one program. -/
structure Orderly (script : Script) : Prop where
  numbers : ∀ id, ∃ k, (script.run id).2 = id + k ∧
    ((script.run id).1.filterMap (·.entered?)).map (·.id) = List.range' id k
  inner : ∀ id, ∀ e ∈ (script.run id).1, e.IsInner

namespace Orderly

variable {script script' : Script}

theorem nil : Orderly (pure []) where
  numbers _ := ⟨0, rfl, rfl⟩
  inner _ _ h := nomatch h

theorem append (h : script.Orderly) (h' : script'.Orderly) :
    Orderly (do return (← script) ++ (← script')) where
  numbers id := by
    obtain ⟨k, hnext, hids⟩ := h.numbers id
    obtain ⟨k', hnext', hids'⟩ := h'.numbers (script.run id).2
    refine ⟨k + k', hnext'.trans (by rw [hnext, Nat.add_assoc]), ?_⟩
    change (((script.run id).1 ++ (script'.run (script.run id).2).1).filterMap _).map _ = _
    rw [List.filterMap_append, List.map_append, hids, hids', hnext, List.range'_append_1]
  inner id e he := (List.mem_append.1 he).elim (h.inner id e) (h'.inner _ e)

/-- A notification in front that enters nothing. -/
theorem cons (h : script.Orderly) {begins : Notification} (hinner : begins.IsInner)
    (hbegins : begins.entered? = none) : Orderly (do return begins :: (← script)) where
  numbers id := by
    obtain ⟨k, hnext, hids⟩ := h.numbers id
    refine ⟨k, hnext, ?_⟩
    change ((begins :: (script.run id).1).filterMap _).map _ = _
    rw [List.filterMap_cons_none hbegins, hids]
  inner id e he := (List.mem_cons.1 he).elim (fun heq => heq ▸ hinner) (h.inner id e)

/-- A notification behind that enters nothing. -/
theorem concat (h : script.Orderly) {ends : Notification} (hinner : ends.IsInner)
    (hends : ends.entered? = none) : Orderly (do return (← script) ++ [ends]) where
  numbers id := by
    obtain ⟨k, hnext, hids⟩ := h.numbers id
    refine ⟨k, hnext, ?_⟩
    change (((script.run id).1 ++ [ends]).filterMap _).map _ = _
    rw [List.filterMap_append, List.filterMap_cons_none hends, List.filterMap_nil,
      List.append_nil, hids]
  inner id e he := (List.mem_append.1 he).elim (h.inner id e)
    fun he => List.mem_singleton.1 he ▸ hinner

theorem node (h : script.Orderly) {kind : NodeKind} (hkind : kind.tag ≠ .program ∧
    kind.tag ≠ .function) (span : Span) (text : Option String) :
    Orderly (Script.node kind span text script) where
  numbers id := by
    obtain ⟨k, hnext, hids⟩ := h.numbers (id + 1)
    refine ⟨k + 1, hnext.trans (by rw [Nat.add_right_comm, Nat.add_assoc]), ?_⟩
    rw [List.range'_succ, ← hids]
    change ((Notification.enter _ :: (script.run (id + 1)).1 ++ [Notification.leave _]).filterMap
      _).map _ = _
    simp [Notification.entered?]
  inner id e he := by
    obtain he | he := List.mem_append.1 (show e ∈ (Notification.enter _ ::
      (script.run (id + 1)).1) ++ [Notification.leave _] from he)
    · obtain rfl | he := List.mem_cons.1 he
      · exact hkind
      · exact h.inner _ e he
    · obtain rfl := List.mem_singleton.1 he
      exact hkind

theorem leaf {kind : NodeKind} (hkind : kind.tag ≠ .program ∧ kind.tag ≠ .function)
    (text : Option String) : Orderly (Script.leaf kind text) := nil.node hkind _ _

theorem seq {pieces : List Script} (h : ∀ piece ∈ pieces, piece.Orderly) :
    Orderly (Script.seq pieces) := by
  induction pieces with
  | nil => exact nil
  | cons piece rest ih =>
    have hseq : Script.seq (piece :: rest) =
        (do return (← piece) ++ (← Script.seq rest) : Script) := by
      simp [Script.seq]
    rw [hseq]
    exact (h piece (by simp)).append (ih fun piece hmem => h piece (by simp [hmem]))

theorem whenPhrases {kind : NodeKind} (hkind : kind.tag ≠ .program ∧ kind.tag ≠ .function)
    (phrases : List String) : Orderly (Script.whenPhrases kind phrases) := by
  unfold Script.whenPhrases
  split
  · exact leaf hkind none
  · exact seq (by simpa using fun phrase _ => leaf hkind (some phrase))

/-- The phrases of a clause, its beginning and its statements, before other clauses. -/
theorem clause {phrases rest : Script} (hphrases : phrases.Orderly) {begins : Notification}
    (hinner : begins.IsInner) (hbegins : begins.entered? = none) (h : script.Orderly)
    (hrest : rest.Orderly) :
    Orderly (do return (← phrases) ++ begins :: (← script) ++ (← rest)) := by
  have heq : (do return (← phrases) ++ begins :: (← script) ++ (← rest) : Script) =
      (do return (← (do return (← phrases) ++ (← (do return begins :: (← script) : Script)) :
        Script)) ++ (← rest) : Script) := rfl
  rw [heq]
  exact (hphrases.append (h.cons hinner hbegins)).append hrest

end Orderly

mutual

theorem orderly_statement : ∀ st, Orderly (statement st)
  | .mk form text span => by
    match form with
    | .ifThen body otherwise =>
      rw [statement]
      exact ((orderly_statements body).append (orderly_elsePart otherwise)).node
        (by simp [NodeKind.tag]) _ _
    | .evaluate whens other =>
      rw [statement]
      exact ((orderly_whenClauses (e := .whenClause) (by simp [NodeKind.tag]) trivial rfl
        whens).append (orderly_whenOther other)).node (by simp [NodeKind.tag]) _ _
    | .search atEnd whens =>
      rw [statement]
      exact ((orderly_searchAtEnd atEnd).append
        (orderly_whenClauses (e := .searchClause false) (by simp [NodeKind.tag]) trivial rfl
          whens)).node
        (by simp [NodeKind.tag]) _ _
    | .alter clauses =>
      rw [statement]
      exact Orderly.nil.node (by simp [NodeKind.tag]) _ _
    | .exit =>
      rw [statement]
      exact Orderly.nil.node (by simp [NodeKind.tag]) _ _
    | .goTo targets depending =>
      rw [statement]
      exact Orderly.nil.node (by rw [NodeKind.tag_goTo]; split <;> simp) _ _
    | .nextSentence =>
      rw [statement]
      exact Orderly.nil.node (by simp [NodeKind.tag]) _ _
    | .perform range =>
      rw [statement]
      exact Orderly.nil.node (by simp [NodeKind.tag]) _ _
    | .loop repetition testAfter body =>
      rw [statement]
      exact (orderly_statements body).node (by simp [NodeKind.tag]) _ _
    | .terminate ending =>
      rw [statement]
      exact Orderly.nil.node (by simp [NodeKind.tag]) _ _
    | .call program conditions =>
      rw [statement]
      exact (orderly_exceptionClauses conditions).node (by simp [NodeKind.tag]) _ _
    | .ordinary verb conditions =>
      rw [statement]
      exact (orderly_exceptionClauses conditions).node (by simp [NodeKind.tag]) _ _

theorem orderly_statements : ∀ l, Orderly (statements l)
  | [] => by
    rw [statements]
    exact .nil
  | st :: rest => by
    rw [statements]
    exact (orderly_statement st).append (orderly_statements rest)

theorem orderly_elsePart : ∀ part, Orderly (elsePart part)
  | none => by
    rw [elsePart]
    exact .nil
  | some body => by
    rw [elsePart]
    exact (orderly_statements body).node (by simp [NodeKind.tag]) _ _

theorem orderly_whenOther : ∀ part, Orderly (whenOther part)
  | none => by
    rw [whenOther]
    exact .nil
  | some body => by
    rw [whenOther]
    have heq : (do return (← leaf .whenOther none) ++ .whenOtherClause :: (← statements body) :
        Script) = (do return (← leaf .whenOther none) ++
          (← (do return .whenOtherClause :: (← statements body) : Script)) : Script) := by
      simp
    rw [heq]
    exact (Orderly.leaf (by simp [NodeKind.tag]) none).append
      ((orderly_statements body).cons trivial rfl)

theorem orderly_searchAtEnd : ∀ part, Orderly (searchAtEnd part)
  | none => by
    rw [searchAtEnd]
    exact .nil
  | some body => by
    rw [searchAtEnd]
    exact (orderly_statements body).node (by simp [NodeKind.tag]) _ _

theorem orderly_whenClauses {kind : NodeKind} {e : Notification}
    (hkind : kind.tag ≠ .program ∧ kind.tag ≠ .function) (hinner : e.IsInner)
    (he : e.entered? = none) : ∀ whens, Orderly (whenClauses kind e whens)
  | [] => by
    rw [whenClauses]
    exact .nil
  | .mk phrases body :: rest => by
    rw [whenClauses]
    exact (Orderly.whenPhrases hkind phrases).clause hinner he (orderly_statements body)
      (orderly_whenClauses hkind hinner he rest)

theorem orderly_exceptionClauses : ∀ conditions, Orderly (exceptionClauses conditions)
  | [] => by
    rw [exceptionClauses]
    exact .nil
  | .mk phrase body :: rest => by
    rw [exceptionClauses]
    exact ((orderly_statements body).node (by simp [NodeKind.tag]) _ _).append
      (orderly_exceptionClauses rest)

end

theorem orderly_sentence (text : SentenceText) : Orderly (sentence text) :=
  (orderly_statements text).concat trivial rfl

theorem orderly_sentences (l : List SentenceText) : Orderly (sentences l) :=
  .seq (by simpa using fun text _ => orderly_sentence text)

theorem orderly_paragraph (p : ParagraphText) : Orderly (paragraph p) :=
  (orderly_sentences p.sentences).node (by simp [NodeKind.tag]) _ _

theorem orderly_sectionText (s : SectionText) : Orderly (sectionText s) := by
  refine Orderly.node (.seq fun piece hpiece => ?_) (by simp [NodeKind.tag]) _ _
  obtain rfl | hpiece := List.mem_cons.1 hpiece
  · exact orderly_sentences _
  · obtain ⟨p, -, rfl⟩ := List.mem_map.1 hpiece
    exact orderly_paragraph p

theorem orderly_declaratives (l : List SectionText) : Orderly (declaratives l) := by
  cases l with
  | nil => exact .nil
  | cons s rest =>
    exact Orderly.node (.seq (by simpa using ⟨orderly_sectionText s,
      fun s _ => orderly_sectionText s⟩)) (by simp [NodeKind.tag]) _ _

/-- The nodes of a division have successive numbers. -/
theorem orderly_division (d : DivisionText) : Orderly (division d) := by
  refine Orderly.node (.seq fun piece hpiece => ?_) (by simp [NodeKind.tag]) _ _
  simp only [List.cons_append, List.mem_cons, List.mem_append, List.mem_map] at hpiece
  obtain rfl | rfl | ⟨p, -, rfl⟩ | ⟨s, -, rfl⟩ := hpiece
  · exact orderly_declaratives _
  · exact orderly_sentences _
  · exact orderly_paragraph p
  · exact orderly_sectionText s

end Script

end CobolFlow
