import CobolFlow.Proofs.Place.Onset
import CobolFlow.Proofs.Trace.Meaning
import CobolFlow.Proofs.Writing.Grammar

/-!
# Every statement begins in a clear block

The statements of a sentence are replayed one by one, and each of them is entered in a clear block,
however deep it is nested. For a compound statement this is seen by following the replay: what is
replayed inside of it leaves a clear block and the forks as they were, so that the next clause may
begin.

## Main definitions

* `Build.Admits` — each of some notifications comes where it may
* `Build.Regular` — a piece of a sentence whose statements begin in clear blocks

## Main results

* `Replay.regular` — every list of statements is such a piece
-/

namespace CobolFlow

open Scope
open Notification (enclosed)

/-- Statements begin in clear blocks, and a loop is left where its fork is. -/
def Notification.Suits (o : Options) (e : Notification) (s : Scope) : Prop :=
  e.Meets s ∧ match e with
    | .enter n => n.tag.isStatement = true → s.Begins o n
    | _ => True

namespace Build

/-- Each of some notifications comes where it may. -/
def Admits (o : Options) : List Notification → Scope → Prop
  | [], _ => True
  | e :: rest, s => e.Suits o s ∧ ∀ s', take o e s = .ok ((), s') → Admits o rest s'

variable {o : Options} {s s' : Scope} {e : Notification} {l l' : List Notification} {n m : Node}
  {f : Fork} {fs : List Fork}

theorem exists_of_play_cons (h : play o (e :: l) s = .ok ((), s')) :
    ∃ s₁, take o e s = .ok ((), s₁) ∧ play o l s₁ = .ok ((), s') := by
  cases htake : take o e s with
  | error fault =>
    have h : (take o e s >>= fun r => play o l r.2) = .ok ((), s') := h
    rw [htake] at h
    exact nomatch h
  | ok r => exact ⟨r.2, rfl, (play_cons htake).symm.trans h⟩

theorem exists_of_play_append (h : play o (l ++ l') s = .ok ((), s')) :
    ∃ s₁, play o l s = .ok ((), s₁) ∧ play o l' s₁ = .ok ((), s') := by
  induction l generalizing s with
  | nil => exact ⟨s, play_nil, h⟩
  | cons e rest ih =>
    obtain ⟨s₁, htake, hrest⟩ := exists_of_play_cons h
    obtain ⟨s₂, hplay, h'⟩ := ih hrest
    exact ⟨s₂, (play_cons htake).trans hplay, h'⟩

namespace Admits

theorem cons (hsuits : e.Suits o s) (htake : take o e s = .ok ((), s')) (h : Admits o l s') :
    Admits o (e :: l) s :=
  ⟨hsuits, fun _ h₁ => (Prod.mk.inj (Except.ok.inj (htake.symm.trans h₁))).2 ▸ h⟩

/-- What comes last. -/
theorem single (hsuits : e.Suits o s) : Admits o [e] s := ⟨hsuits, fun _ _ => trivial⟩

theorem append_iff : Admits o (l ++ l') s ↔
    Admits o l s ∧ ∀ s', play o l s = .ok ((), s') → Admits o l' s' := by
  induction l generalizing s with
  | nil =>
    refine ⟨fun h => ⟨trivial, fun s' hs' => ?_⟩, fun h => h.2 s (play_nil)⟩
    exact (Prod.mk.inj (Except.ok.inj (play_nil.symm.trans hs'))).2 ▸ h
  | cons e l ih =>
    constructor
    · rintro ⟨hsuits, hrest⟩
      refine ⟨⟨hsuits, fun s₁ h₁ => (ih.1 (hrest s₁ h₁)).1⟩, fun s' hplay => ?_⟩
      obtain ⟨s₁, h₁, h'⟩ := exists_of_play_cons hplay
      exact (ih.1 (hrest s₁ h₁)).2 s' h'
    · rintro ⟨⟨hsuits, hrest⟩, h'⟩
      exact ⟨hsuits, fun s₁ h₁ => ih.2 ⟨hrest s₁ h₁, fun s' hplay =>
        h' s' ((play_cons h₁).trans hplay)⟩⟩

theorem append (h : Admits o l s) (hplay : play o l s = .ok ((), s')) (h' : Admits o l' s') :
    Admits o (l ++ l') s :=
  append_iff.2 ⟨h, fun _ h₁ => (Prod.mk.inj (Except.ok.inj (hplay.symm.trans h₁))).2 ▸ h'⟩

end Admits

theorem suits_enter (h : s.Clear) (hn : n.tag ≠ .procedureDivision) :
    (Notification.enter n).Suits o s :=
  ⟨hn, fun _ => h.begins o n⟩

theorem suits_clause (hn : n.tag ≠ .procedureDivision ∧ n.tag.isStatement = false) :
    (Notification.enter n).Suits o s :=
  ⟨hn.1, fun h => absurd h (by simp [hn.2])⟩

theorem suits_leave (hn : n.tag ≠ .procedureDivision ∧ n.tag ≠ .loop) :
    (Notification.leave n).Suits o s :=
  ⟨⟨hn.1, fun h => absurd h hn.2⟩, trivial⟩

/-! ### Pieces of a sentence -/

/-- A piece of a sentence that can be replayed wherever a statement may begin, and whose own
statements begin in clear blocks if it does. -/
structure Regular (o : Options) (events : List Notification) : Prop where
  plays : ∃ B, ∀ s, Scope.Ready s → Plays o s events B
  admits : ∀ s : Scope, s.Clear → Admits o events s

namespace Regular

variable {events events' : List Notification}

/-- A regular piece leaves a clear block, and the forks as they were. -/
theorem exists_play (h : Regular o events) (hs : s.Clear) :
    ∃ s', play o events s = .ok ((), s') ∧ s'.Clear ∧ s'.forks = s.forks := by
  obtain ⟨B, hB⟩ := h.plays
  obtain ⟨s', L, hrun, hadvance⟩ := hB s hs.ready
  exact ⟨s', hrun, hs.of_plays (hB s hs.ready) hrun⟩

theorem nil : Regular o [] := ⟨⟨_, fun _ hs => .nil hs⟩, fun _ _ => trivial⟩

theorem append (h : Regular o events) (h' : Regular o events') : Regular o (events ++ events') := by
  refine ⟨?_, fun s hs => ?_⟩
  · obtain ⟨B, hB⟩ := h.plays
    obtain ⟨B', hB'⟩ := h'.plays
    exact ⟨_, fun s hs => .append hs (hB s hs) fun s' hs' _ => hB' s' hs'⟩
  · obtain ⟨s₁, hplay, hs₁, -⟩ := h.exists_play hs
    exact (h.admits s hs).append hplay (h'.admits s₁ hs₁)

/-- A piece between two notifications. -/
theorem admits_enclosed (h : Regular o events) (henter : (Notification.enter n).Suits o s)
    (htake : take o (.enter n) s = .ok ((), s')) (hs' : s'.Clear)
    (hleave : ∀ s₁, s₁.forks = s'.forks → (Notification.leave n).Suits o s₁) :
    Admits o (enclosed (n, events)) s := by
  obtain ⟨s₁, hplay, -, hsame⟩ := h.exists_play hs'
  exact .cons henter htake ((h.admits s' hs').append hplay (.single (hleave s₁ hsame)))

end Regular

section Statements

variable {events events' : List Notification}

theorem admits_leaf (hn : n.IsLeaf) (hs : s.Clear) : Admits o [.enter n, .leave n] s := by
  have htag : n.tag ≠ .procedureDivision ∧ n.tag ≠ .loop := by
    rw [Node.IsLeaf] at hn
    cases hkind : n.kind with
    | goTo jump =>
      rw [Node.tag, hkind, NodeKind.tag_goTo]
      split <;> simp
    | _ => simp_all [Node.tag, NodeKind.tag]
  exact ⟨suits_enter hs htag.1, fun s' _ => .single (suits_leave htag)⟩

theorem admits_ifThen (hn : n.kind = .ifThen) (h : Regular o events) (hs : s.Clear) :
    Admits o (enclosed (n, events)) s := by
  obtain ⟨s₁, f, henter, hs₁, -⟩ := hs.exists_enterIf o hn
  have htag : n.tag = .ifThen := by simp [Node.tag, hn, NodeKind.tag]
  exact h.admits_enclosed (suits_enter hs (by simp [htag])) henter hs₁ fun s₂ _ =>
    suits_leave (by simp [htag])

theorem admits_ifThenElse (hn : n.kind = .ifThen) (hm : m.kind = .elsePart) (h : Regular o events)
    (h' : Regular o events') (hs : s.Clear) :
    Admits o (enclosed (n, events ++ enclosed (m, events'))) s := by
  obtain ⟨s₁, f, henter, hs₁, hforks⟩ := hs.exists_enterIf o hn
  obtain ⟨s₂, hplay, hs₂, hsame⟩ := h.exists_play hs₁
  obtain ⟨s₃, helse, hs₃⟩ := hs₂.exists_enterElse o hm (hsame.trans hforks)
  have htags : n.tag = .ifThen ∧ m.tag = .elsePart := by simp [Node.tag, hn, hm, NodeKind.tag]
  have hbranch : Admits o (enclosed (m, events')) s₂ :=
    h'.admits_enclosed (suits_enter hs₂ (by simp [htags])) helse hs₃ fun s₄ _ =>
      suits_leave (by simp [htags])
  exact .cons (suits_enter hs (by simp [htags])) henter (Admits.append_iff.2
    ⟨(h.admits s₁ hs₁).append hplay hbranch, fun s' _ => .single (suits_leave (by simp [htags]))⟩)

theorem admits_loop {repetition : Repetition} {testAfter : Bool}
    (hn : n.kind = .loop repetition testAfter) (h : Regular o events) (hs : s.Clear) :
    Admits o (enclosed (n, events)) s := by
  obtain ⟨s₁, f, henter, hs₁, hforks, hloop⟩ := hs.exists_enterLoop o hn
  have htag : n.tag = .loop := by simp [Node.tag, hn, NodeKind.tag]
  refine h.admits_enclosed (suits_enter hs (by simp [htag])) henter hs₁ fun s₂ hsame =>
    ⟨⟨by simp [htag], fun _ => ?_⟩, trivial⟩
  simpa [hsame, hforks] using hloop

/-! ### Verbs -/

/-- The exception phrases of a verb, one after the other. -/
theorem admits_conditions {conditions : List (Node × List Notification)} {t : NodeTag}
    (ht : t ≠ .search) (hkinds : ∀ c ∈ conditions, ∃ phrase, c.1.kind = .exception phrase)
    (h : ∀ c ∈ conditions, Regular o c.2) (hs : s.Clear) (henclosing : s.enclosing.head? = some t) :
    Admits o (conditions.flatMap enclosed) s := by
  induction conditions generalizing s with
  | nil => exact trivial
  | cons c rest ih =>
    obtain ⟨hc, hrest⟩ := List.forall_mem_cons.1 h
    obtain ⟨⟨phrase, hkind⟩, hkinds⟩ := List.forall_mem_cons.1 hkinds
    obtain ⟨B, hB⟩ := hc.plays
    have houtside : s.enclosing.head? ≠ some .search := by rw [henclosing]; simpa using ht
    have hplays : Plays o s (enclosed c) (B.saying [c.1.instruction] + .skip) :=
      .exception hs.ready hkind houtside hB
    obtain ⟨s₁, henter, hs₁⟩ := hs.exists_enterCondition o hkind houtside
    have hafter : ∀ s', Build.play o (enclosed c) s = .ok ((), s') → s'.Clear := fun s' hrun =>
      (hs.of_plays hplays hrun).1
    obtain ⟨s₂, L, hplay, hadvance⟩ := hplays
    rw [List.flatMap_cons]
    have htag : c.1.tag = .exception phrase := by simp [Node.tag, hkind, NodeKind.tag]
    refine .append (hc.admits_enclosed (suits_enter hs (by simp [htag])) henter hs₁ fun s' _ =>
      suits_leave (by simp [htag])) hplay (ih hkinds hrest (hafter s₂ hplay) ?_)
    rw [hadvance.since.keeps Scope.enclosing fun _ => rfl, henclosing]

theorem admits_verb {conditions : List (Node × List Notification)} (hn : n.IsVerb)
    (hkinds : ∀ c ∈ conditions, ∃ phrase, c.1.kind = .exception phrase)
    (h : ∀ c ∈ conditions, Regular o c.2) (hs : s.Clear) :
    Admits o (enclosed (n, conditions.flatMap enclosed)) s := by
  have htag : n.tag ≠ .search ∧ n.tag ≠ .procedureDivision ∧ n.tag ≠ .loop := by
    rw [Node.IsVerb] at hn
    cases hkind : n.kind <;> simp_all [Node.tag, NodeKind.tag]
  obtain ⟨s₁, henter, hs₁, henclosing⟩ := hs.exists_enterVerb o hn
  exact .cons (suits_enter hs htag.2.1) henter (Admits.append_iff.2
    ⟨admits_conditions htag.1 hkinds h hs₁ henclosing, fun s' _ => .single (suits_leave htag.2)⟩)

/-! ### Clauses -/

theorem admits_phrases {ms : List Node} (hms : ∀ m ∈ ms, m.IsPhrase) :
    Admits o (ms.flatMap fun m => [.enter m, .leave m]) s := by
  induction ms generalizing s with
  | nil => exact trivial
  | cons m rest ih =>
    obtain ⟨hm, hrest⟩ := List.forall_mem_cons.1 hms
    refine ⟨suits_clause ?_, fun s₁ _ => ⟨suits_leave ?_, fun s₂ _ => ih hrest⟩⟩ <;>
      obtain h | h | h := hm <;> simp [Node.tag, h, NodeKind.tag, NodeTag.isStatement, NodeTag.role]

/-- Clauses, one after the other: each begins in a clear block, and leaves a decision open. -/
theorem admits_clauses (begins : Notification) (hsuits : ∀ s, begins.Suits o s)
    (hbegins : ∀ {s f fs}, s.Deciding f fs →
      ∃ s', take o begins s = .ok ((), s') ∧ s'.Clear ∧ s'.forks ≠ [])
    {clauses : List Case} (hms : ∀ c ∈ clauses, ∀ m ∈ c.1, m.IsPhrase)
    (h : ∀ c ∈ clauses, Regular o c.2) (hs : s.Deciding f fs) :
    Admits o (clauses.flatMap (Case.clause begins)) s ∧ ∃ s' f' fs',
      play o (clauses.flatMap (Case.clause begins)) s = .ok ((), s') ∧ s'.Deciding f' fs' := by
  induction clauses generalizing s f fs with
  | nil => exact ⟨trivial, s, f, fs, rfl, hs⟩
  | cons c rest ih =>
    obtain ⟨hc, hrest⟩ := List.forall_mem_cons.1 h
    obtain ⟨hm, hms⟩ := List.forall_mem_cons.1 hms
    obtain ⟨s₁, f₁, hplay₁, hs₁⟩ := hs.exists_phrases o hm
    obtain ⟨s₂, htake, hs₂, hforks⟩ := hbegins hs₁
    obtain ⟨s₃, hplay₃, hs₃, hsame⟩ := hc.exists_play hs₂
    obtain ⟨f₃, fs₃, hforks₃⟩ := List.exists_cons_of_ne_nil (hsame ▸ hforks)
    obtain ⟨hadmits, s', f', fs', hplay', hs'⟩ := ih hms hrest (hs₃.deciding hforks₃)
    have hclause : play o (c.clause begins) s = .ok ((), s₃) := by
      rw [Case.clause, play_append hplay₁, play_cons htake, hplay₃]
    rw [List.flatMap_cons]
    refine ⟨.append ?_ hclause hadmits, s', f', fs', ?_, hs'⟩
    · exact (admits_phrases hm).append hplay₁ (.cons (hsuits s₁) htake (hc.admits s₂ hs₂))
    · rw [play_append hclause, hplay']

theorem admits_evaluate (hn : n.kind = .evaluate) {clauses other : List Case}
    (hclauses : ∀ c ∈ clauses, ∀ m ∈ c.1, m.kind = .whenPhrase)
    (hother : ∀ c ∈ other, ∀ m ∈ c.1, m.kind = .whenOther)
    (h : ∀ c ∈ clauses, Regular o c.2) (h' : ∀ c ∈ other, Regular o c.2) (hs : s.Clear) :
    Admits o (enclosed (n, clauses.flatMap (Case.clause .whenClause) ++
      other.flatMap (Case.clause .whenOtherClause))) s := by
  obtain ⟨s₁, f, henter, hs₁⟩ := hs.exists_enterEvaluate o hn
  obtain ⟨hadmits, s₂, f₂, fs₂, hplay, hs₂⟩ := admits_clauses .whenClause
    (fun _ => ⟨trivial, trivial⟩) (fun hs => hs.exists_startWhen o)
    (fun c hc m hm => .inl (hclauses c hc m hm)) h hs₁
  obtain ⟨hadmits', -⟩ := admits_clauses (o := o) .whenOtherClause
    (fun _ => ⟨trivial, trivial⟩) (fun hs => by
      obtain ⟨s', hrun, hclear, f', hforks, -⟩ := hs.exists_startWhenOther
      exact ⟨s', hrun, hclear, by simp [hforks]⟩)
    (fun c hc m hm => .inr (.inl (hother c hc m hm))) h' hs₂
  have htag : n.tag = .evaluate := by simp [Node.tag, hn, NodeKind.tag]
  exact .cons (suits_enter hs (by simp [htag])) henter (Admits.append_iff.2
    ⟨hadmits.append hplay hadmits', fun s' _ => .single (suits_leave (by simp [htag]))⟩)

/-- The AT END of a SEARCH begins in a clear block, and the decision stays open. -/
theorem admits_atEnd (hm : m.kind = .exception .atEnd) (h : Regular o events)
    (hs : s.Deciding f fs) (henclosing : s.enclosing.head? = some .search)
    (hsearch : f.isSearch = true) : Admits o (enclosed (m, events)) s ∧ ∃ s' f',
      play o (enclosed (m, events)) s = .ok ((), s') ∧ s'.Deciding f' fs := by
  obtain ⟨s₁, f₁, henter, hs₁, hforks₁, hsearch₁, henclosing₁⟩ :=
    hs.exists_enterAtEnd o hm henclosing hsearch
  obtain ⟨B, hB⟩ := h.plays
  obtain ⟨s₂, L, hplay, hadvance⟩ := hB s₁ hs₁.ready
  obtain ⟨hs₂, hsame⟩ := hs₁.of_plays (hB s₁ hs₁.ready) hplay
  obtain ⟨rest, hrest⟩ : ∃ rest, s.enclosing = .search :: rest := by
    cases hcase : s.enclosing with
    | nil => simp [hcase] at henclosing
    | cons t rest => exact ⟨rest, by simp_all⟩
  obtain ⟨s₃, hleave, hs₃, hforks₃⟩ := hs₂.exists_leaveAtEnd o hm (l := rest)
    (by rw [hadvance.since.keeps Scope.enclosing fun _ => rfl, henclosing₁, hrest])
    (hsame.trans hforks₁) hsearch₁
  refine ⟨h.admits_enclosed (suits_clause ?_) henter hs₁ fun s' _ => suits_leave ?_, s₃, f₁, ?_,
    hs₃.deciding hforks₃⟩
  · simp [Node.tag, hm, NodeKind.tag, NodeTag.isStatement, NodeTag.role]
  · simp [Node.tag, hm, NodeKind.tag]
  · change play o (.enter m :: (events ++ [.leave m])) s = _
    rw [play_cons henter, play_append hplay, play_cons hleave, play_nil]

theorem admits_search (hn : n.kind = .search) {atEnd : Option (Node × List Notification)}
    {clauses : List Case} (hatEnd : ∀ c ∈ atEnd, c.1.kind = .exception .atEnd)
    (hclauses : ∀ c ∈ clauses, ∀ m ∈ c.1, m.kind = .searchWhen)
    (h : ∀ c ∈ atEnd, Regular o c.2) (h' : ∀ c ∈ clauses, Regular o c.2) (hs : s.Clear) :
    Admits o (enclosed (n, atEnd.toList.flatMap enclosed ++
      clauses.flatMap (Case.clause (.searchClause false)))) s := by
  have htag : n.tag = .search := by simp [Node.tag, hn, NodeKind.tag]
  obtain ⟨s₁, f₁, henter, hs₁, hopener, henclosing⟩ := hs.exists_enterSearch o hn
  have hpart : Admits o (atEnd.toList.flatMap enclosed) s₁ ∧ ∃ s' f',
      play o (atEnd.toList.flatMap enclosed) s₁ = .ok ((), s') ∧ s'.Deciding f' s.forks := by
    cases atEnd with
    | none => exact ⟨trivial, s₁, f₁, rfl, hs₁⟩
    | some c =>
      simp only [Option.toList_some, List.flatMap_cons, List.flatMap_nil, List.append_nil]
      refine admits_atEnd (hatEnd c rfl) (h c rfl) hs₁ (by rw [henclosing, htag]; rfl) ?_
      rw [Fork.isSearch, hopener]
      simpa [Node.instruction] using htag
  obtain ⟨hadmits, s₂, f₂, hplay, hs₂⟩ := hpart
  obtain ⟨hadmits', -⟩ := admits_clauses (o := o) (.searchClause false)
    (fun _ => ⟨trivial, trivial⟩) (fun hs => hs.exists_startSearchWhen o)
    (fun c hc m hm => .inr (.inr (hclauses c hc m hm))) h' hs₂
  exact .cons (suits_enter hs (by simp [htag])) henter (Admits.append_iff.2
    ⟨hadmits.append hplay hadmits', fun s' _ => .single (suits_leave (by simp [htag]))⟩)

end Statements

end Build

/-! ### Scripts -/

open Build (Regular)

variable (o : Options)

/-- **Every statement begins in a clear block**, however deep it is nested, if the first one
does. -/
theorem Replay.regular {events : List Notification} (h : Replay events) : Regular o events := by
  have hplays : ∀ {l}, Script.IsStatement l → ∃ B, ∀ s, Ready s → Plays o s l B := by
    rintro l ⟨st, id, rfl⟩
    exact ⟨_, (says_statement o st id).2⟩
  induction h with
  | nil => exact .nil
  | append _ _ ih ih' => exact ih.append ih'
  | leaf hn hst => exact ⟨hplays hst, fun s => Build.admits_leaf hn⟩
  | verb hn hkinds _ hst ih => exact ⟨hplays hst, fun s => Build.admits_verb hn hkinds ih⟩
  | ifThen hn _ hst ih => exact ⟨hplays hst, fun s => Build.admits_ifThen hn ih⟩
  | ifThenElse hn hm _ _ hst ih ih' =>
    exact ⟨hplays hst, fun s => Build.admits_ifThenElse hn hm ih ih'⟩
  | evaluate hn hclauses hother _ _ hst ih ih' =>
    exact ⟨hplays hst, fun s => Build.admits_evaluate hn hclauses hother ih ih'⟩
  | search hn hatEnd hclauses _ _ hst ih ih' =>
    exact ⟨hplays hst, fun s => Build.admits_search hn hatEnd hclauses ih ih'⟩
  | loop hn _ hst ih => exact ⟨hplays hst, fun s => Build.admits_loop hn ih⟩

end CobolFlow
