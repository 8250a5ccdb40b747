import CobolFlow.Proofs.Trace.Since

/-!
# Pieces of a sentence

A piece of a sentence is a list of notifications that belong to it, such as the statements of a
branch. `Plays o s events B` says that the piece can be replayed and that what it makes does what
`B` says, with its landmarks in the order of their blocks. Pieces are put together with
`Plays.append`, and a node around a piece with `Scope.Since.exists_enter` and `exists_leave`.

## Main definitions

* `Build.play` — a replay inside a division
* `Scope.Ready` — a sentence is open and goes on
* `Scope.Advance`, `Plays` — a piece of a sentence and what it does
-/

namespace CobolFlow

/-! ### Where landmarks lie -/

/-- Whether nothing is said after the landmark in its block. -/
def Landmark.isLast : Landmark → Bool
  | .alter .. => false
  | _ => true

theorem Landmark.isLast_of_exit {m : Landmark} {e : Exit} (h : m.exit = some e) :
    m.isLast = true := by
  cases m with
  | jump node span j => rfl
  | nextSentence => rfl
  | call node span range => exact nomatch h
  | alter span clauses => exact nomatch h

namespace Landmarks

variable {L L' : Landmarks} {Γ Γ' Γ₁ Γ₂ : Sketch} {lo mid hi : ℕ}

/-- The blocks that end in a landmark. -/
def blocks (L : Landmarks) : List ℕ := (L.filter (·.2.isLast)).map (·.1)

@[simp] theorem blocks_nil : blocks [] = [] := rfl

@[simp] theorem blocks_append (L L' : Landmarks) : blocks (L ++ L') = blocks L ++ blocks L' := by
  simp [blocks]

theorem mem_blocks {b : ℕ} : b ∈ blocks L ↔ ∃ m, (b, m) ∈ L ∧ m.isLast = true := by
  simp [blocks]

/-- Only landmarks after which nothing is said in their block have to come one after another. -/
theorem pairwise_blocks_iff : (blocks L).Pairwise (· < ·) ↔
    L.Pairwise fun e e' => e.2.isLast = true → e'.2.isLast = true → e.1 < e'.1 := by
  rw [blocks, List.pairwise_map, List.pairwise_filter]

/-- Nothing stands at the end of a block but one landmark. -/
theorem eq_of_isLast (h : (blocks L).Pairwise (· < ·)) {b : ℕ} {m m' : Landmark}
    (hm : (b, m) ∈ L) (hm' : (b, m') ∈ L) (hlast : m.isLast = true) (hlast' : m'.isLast = true) :
    m = m' := by
  have hnodup : ((L.filter (·.2.isLast)).map (·.1)).Nodup := h.imp fun h => h.ne
  exact (Prod.mk.inj (List.inj_on_of_nodup_map hnodup (List.mem_filter.2 ⟨hm, hlast⟩)
    (List.mem_filter.2 ⟨hm', hlast'⟩) rfl)).2

/-- The blocks of the landmarks come one after another, in a stretch of blocks. -/
structure Ranged (lo hi : ℕ) (L : Landmarks) : Prop where
  ascending : (blocks L).Pairwise (· < ·)
  ranged : ∀ b ∈ blocks L, lo ≤ b ∧ b < hi

theorem Ranged.nil (lo hi : ℕ) : Ranged lo hi [] := ⟨.nil, by simp⟩

theorem Ranged.mono (h : Ranged lo hi L) {lo' hi' : ℕ} (hlo : lo' ≤ lo) (hhi : hi ≤ hi') :
    Ranged lo' hi' L :=
  ⟨h.ascending, fun b hb => ⟨hlo.trans (h.ranged b hb).1, (h.ranged b hb).2.trans_le hhi⟩⟩

theorem Ranged.append (h : Ranged lo mid L) (h' : Ranged mid hi L') (hlo : lo ≤ mid)
    (hhi : mid ≤ hi) : Ranged lo hi (L ++ L') := by
  refine ⟨?_, fun b hb => ?_⟩
  · rw [blocks_append, List.pairwise_append]
    refine ⟨h.ascending, h'.ascending, fun b hb c hc => ?_⟩
    exact (h.ranged b hb).2.trans_le (h'.ranged c hc).1
  · rw [blocks_append] at hb
    obtain hb | hb := List.mem_append.1 hb
    · exact ⟨(h.ranged b hb).1, (h.ranged b hb).2.trans_le hhi⟩
    · exact ⟨hlo.trans (h'.ranged b hb).1, (h'.ranged b hb).2⟩

/-- The landmarks of a fragment lie in its blocks, and before the one that is current then. -/
structure Placed (L : Landmarks) (Γ Γ' : Sketch) : Prop where
  ascending : (blocks L).Pairwise (· < ·)
  between : ∀ b ∈ blocks L, Γ.Between Γ' b ∧ b < Γ'.here

theorem Placed.nil (Γ Γ' : Sketch) : Placed [] Γ Γ' := ⟨.nil, by simp⟩

theorem Placed.ranged (h : Placed L Γ Γ') (hle : Γ.here ≤ Γ.size) : Ranged Γ.here Γ'.here L := by
  refine ⟨h.ascending, fun b hb => ⟨?_, (h.between b hb).2⟩⟩
  obtain rfl | hb' := (h.between b hb).1
  · exact le_rfl
  · exact hle.trans hb'.1

theorem Ranged.placed (h : Ranged lo hi L) (hlo : Γ.size ≤ lo) (hhi : hi ≤ Γ'.here)
    (hlt : Γ'.here < Γ'.size) : Placed L Γ Γ' := by
  refine ⟨h.ascending, fun b hb => ?_⟩
  obtain ⟨hge, hlt'⟩ := h.ranged b hb
  exact ⟨.inr ⟨hlo.trans hge, (hlt'.trans_le hhi).trans hlt⟩, hlt'.trans_le hhi⟩

theorem Placed.trans {marks marks' : Departures} {B B' : Behaviour} (h : Placed L Γ Γ₁)
    (h' : Placed L' Γ₁ Γ₂) (hf : Fragment Γ Γ₁ marks B) (hf' : Fragment Γ₁ Γ₂ marks' B') :
    Placed (L ++ L') Γ Γ₂ := by
  have hlt := hf.opened.here_lt
  have hnewest := hf'.newest
  refine ⟨?_, fun b hb => ?_⟩
  · rw [blocks_append, List.pairwise_append]
    refine ⟨h.ascending, h'.ascending, fun b hb c hc => (h.between b hb).2.trans_le ?_⟩
    obtain rfl | hc' := (h'.between c hc).1 <;> omega
  · rw [blocks_append] at hb
    rw [hf.between_trans hf']
    obtain hb | hb := List.mem_append.1 hb
    · have hb' := (h.between b hb).2
      exact ⟨.inl (h.between b hb).1, by omega⟩
    · exact ⟨.inr (h'.between b hb).1, (h'.between b hb).2⟩

end Landmarks

/-! ### Replays inside a division -/

namespace Build

/-- What a notification does that belongs to a program. -/
def take (o : Options) : Notification → Build Unit
  | .enter n => enterNode o n
  | .leave n => leaveNode o n
  | .sentenceEnd => endSentence
  | .whenClause => startWhen o
  | .whenOtherClause => startWhenOther
  | .searchClause atEnd => startSearchWhen o atEnd

/-- Takes notifications one after another. -/
def play (o : Options) (events : List Notification) : Build Unit := events.forM (take o)

variable {o : Options} {s s' : Scope} {e : Notification} {events events' : List Notification}

@[simp] theorem play_nil : play o [] s = .ok ((), s) := rfl

@[simp] theorem play_singleton (o : Options) (e : Notification) : play o [e] = take o e :=
  bind_pure_unit

theorem play_cons (h : take o e s = .ok ((), s')) : play o (e :: events) s = play o events s' :=
  run_bind h fun _ => play o events

theorem play_append (h : play o events s = .ok ((), s')) :
    play o (events ++ events') s = play o events' s' := by
  have happend : play o (events ++ events') = (play o events >>= fun _ => play o events') :=
    List.forM_append (f := take o)
  rw [happend, run_bind h]

end Build

namespace Scope

/-- A sentence is open, and goes on in the current block. -/
structure Ready (s : Scope) : Prop where
  sound : Sound s
  inDivision : s.inDivision = true
  currentSentence : s.currentSentence.isSome
  currentBlock : s.currentBlock.isSome
  opened : s.sketch.Open

/-- A scope inside one more node. -/
def under (s : Scope) (t : NodeTag) : Scope := { s with enclosing := t :: s.enclosing }

/-- What a piece of a sentence has made: it does what `B` says and leaves the landmarks `L`. -/
structure Advance (s s' : Scope) (events : List Notification) (B : Behaviour) (L : Landmarks) :
    Prop where
  since : Since s s' s'.sketch s.forks (L.foldl (Ledger.post s.currentSentence) s.ledger)
  fragment : Fragment s.sketch s'.sketch L.exits B
  placed : L.Placed s.sketch s'.sketch
  kinds : L.map (·.2) = events.filterMap (·.landmark?)

variable {s₀ s s₁ s₂ s' : Scope} {Γ Γ' Γ₁ Γ₂ : Sketch} {fs fs' fs₁ fs₂ : List Fork}
  {l l' l₁ l₂ : Ledger}

theorem Ready.since (h : Ready s) : Since s s s.sketch s.forks s.ledger := by
  obtain ⟨b, hb⟩ := Option.isSome_iff_exists.1 h.currentBlock
  exact .refl h.sound hb

namespace Since

/-- What has happened in two steps. -/
theorem trans (h₁ : Since s₀ s₁ Γ₁ fs₁ l₁) (h₂ : Since s₁ s₂ Γ₂ fs₂ l₂) :
    Since s₀ s₂ Γ₂ fs₂ l₂ where
  sound := h₂.sound
  le := h₁.le.trans h₂.le
  setting := h₂.setting.trans h₁.setting
  draws := h₁.draws.trans (h₁.tag ▸ h₂.draws)
  procedures := by
    have hle₁ := h₁.le.1
    have hle₂ := h₂.le.1
    change s₀.graph.size ≤ s₁.graph.size at hle₁
    change s₁.graph.size ≤ s₂.graph.size at hle₂
    have hmid : s₁.graph.size = s₀.graph.size + (s₁.graph.size - s₀.graph.size) := by omega
    have hcount : s₂.graph.size - s₀.graph.size =
        (s₁.graph.size - s₀.graph.size) + (s₂.graph.size - s₁.graph.size) := by omega
    rw [h₂.procedures, h₁.procedures, h₁.currentSentence, Procedures.list_list, hcount,
      ← List.range'_append_1, ← hmid]
  here := h₂.here
  sketch := h₂.sketch
  forks := h₂.forks
  ledger := h₂.ledger
  defaults b hb := by
    rw [h₂.defaults b (hb.trans_le h₁.le.1), h₁.chart, h₁.defaults b hb]

/-- From here on nothing has happened yet. -/
theorem self (h : Since s₀ s Γ fs l) : Since s s Γ fs l := by
  have hself := Since.refl h.sound h.here
  rwa [h.scope_sketch, h.forks, h.ledger] at hself

theorem ready (h : Since s₀ s Γ fs l) (h₀ : Ready s₀) (hΓ : Γ.Open) : Ready s where
  sound := h.sound
  inDivision := (h.keeps Scope.inDivision fun _ => rfl).trans h₀.inDivision
  currentSentence := h.currentSentence ▸ h₀.currentSentence
  currentBlock := by rw [h.here]; rfl
  opened := h.scope_sketch ▸ hΓ

theorem under (h : Since s₀ s Γ fs l) (t : NodeTag) : Since (s₀.under t) (s.under t) Γ fs l :=
  { h with
    sound := { h.sound with }
    setting := by
      have henclosing := h.keeps Scope.enclosing fun _ => rfl
      have hsetting : (s.under t).setting = { s.setting with enclosing := t :: s.enclosing } := rfl
      rw [hsetting, h.setting, henclosing]
      rfl
    ledger := h.ledger }

/-! ### Nodes -/

section Nodes

variable {o : Options} {n : Node}

/-- A node is entered: its kind says what is done. -/
theorem exists_enter (h : Since s₀ s Γ fs l) (h₀ : Ready s₀) (htag : n.tag ≠ .procedureDivision)
    {P : Scope → Prop} (hkind : ∀ s₁, Since s₀ s₁ Γ fs l →
      ∃ s₂, Build.enterKind o n s₁ = .ok ((), s₂) ∧ P s₂) :
    ∃ s', Build.take o (.enter n) s = .ok ((), s'.under n.tag) ∧ P s' := by
  obtain ⟨g₁, hrecord, hedit⟩ := Graph.exists_recordNode_edited s₀.tag h.sound.graph n
  obtain ⟨s₁, hrecord, h₁, -⟩ := h.exists_edit hrecord hedit rfl fun _ _ => rfl
  obtain ⟨s₂, henter, h₂⟩ := hkind s₁ h₁
  have hready : s₁.currentSentence.isSome := h₁.currentSentence ▸ h₀.currentSentence
  have hinside : Build.enterInside o n s = .ok ((), s₂) := by
    rw [Build.enterInside, run_bind hrecord]
    refine Eq.trans ?_ henter
    split
    · refine run_bind (a := ⟨⟩) (t := s₁) ?_ _
      rw [Build.ensureSentence, run_bind (a := s₁) (t := s₁) rfl, if_neg]
      · rfl
      · simpa [Option.isSome_iff_ne_none] using hready
    · rfl
  refine ⟨s₂, ?_, h₂⟩
  have hdivision : s.inDivision = true :=
    (h.keeps Scope.inDivision fun _ => rfl).trans h₀.inDivision
  rw [Build.take, Build.enterNode, if_neg htag]
  refine (run_bind (a := s) (t := s) rfl _).trans ?_
  simp only [hdivision, if_true]
  exact (run_bind hinside _).trans rfl

/-- A node is left: its kind says what is done. -/
theorem exists_leave (h : Since (s₀.under n.tag) s Γ fs l) (h₀ : Ready s₀) {P : Scope → Prop}
    (hkind : ∀ s₁, Since s₀ s₁ Γ fs l → s₁.graph = s.graph →
      ∃ s₂, Build.leaveInside o n s₁ = .ok ((), s₂) ∧ P s₂) :
    ∃ s', Build.take o (.leave n) s = .ok ((), s') ∧ P s' := by
  have henclosing : s.enclosing.tail = s₀.enclosing := by
    rw [h.keeps Scope.enclosing fun _ => rfl]
    rfl
  have h₁ : Since s₀ { s with enclosing := s.enclosing.tail } Γ fs l :=
    { h with
      sound := { h.sound with }
      setting := by
        have hsetting : ({ s with enclosing := s.enclosing.tail } : Scope).setting =
            { s.setting with enclosing := s.enclosing.tail } := rfl
        rw [hsetting, h.setting, henclosing]
        rfl
      ledger := h.ledger }
  obtain ⟨s₂, hleave, h₂⟩ := hkind _ h₁ rfl
  refine ⟨s₂, ?_, h₂⟩
  have hdivision : s.inDivision = true :=
    (h.keeps Scope.inDivision fun _ => rfl).trans h₀.inDivision
  rw [Build.take, Build.leaveNode]
  refine (run_bind (a := ⟨⟩) (t := { s with enclosing := s.enclosing.tail }) rfl _).trans ?_
  refine (run_bind (a := { s with enclosing := s.enclosing.tail }) rfl _).trans ?_
  rw [if_pos hdivision]
  exact hleave

/-- A node is left that does nothing when it is left. -/
theorem exists_leave_pure (h : Since (s₀.under n.tag) s Γ fs l) (h₀ : Ready s₀)
    (hleave : Build.leaveInside o n = pure ()) :
    ∃ s', Build.take o (.leave n) s = .ok ((), s') ∧ Since s₀ s' Γ fs l :=
  h.exists_leave h₀ fun s₁ h₁ _ => ⟨s₁, by rw [hleave]; rfl, h₁⟩

end Nodes

end Since

/-! ### Pieces -/

theorem Ready.under (h : Ready s) (t : NodeTag) : Ready (s.under t) :=
  { h with sound := { h.sound with } }

/-- The piece can be replayed, and does what `B` says. -/
def Plays (o : Options) (s : Scope) (events : List Notification) (B : Behaviour) : Prop :=
  ∃ s' L, Build.play o events s = .ok ((), s') ∧ Advance s s' events B L

section Plays

variable {o : Options} {events events' : List Notification} {B B' : Behaviour} {n : Node}

/-- A piece inside of what has happened so far. -/
theorem Since.exists_play (h : Since s₀ s Γ fs l) (h₀ : Ready s₀) (hΓ : Γ.Open)
    (hplays : Ready s → s.enclosing = s₀.enclosing → Plays o s events B) :
    ∃ (Γ' : Sketch) (s' : Scope) (L : Landmarks), Build.play o events s = .ok ((), s') ∧
      Since s₀ s' Γ' fs (L.foldl (Ledger.post s₀.currentSentence) l) ∧
      Fragment Γ Γ' L.exits B ∧ L.Placed Γ Γ' ∧
      L.map (·.2) = events.filterMap (·.landmark?) ∧
      ∀ b < Γ.size, (Γ'.chart b).flags.default = (Γ.chart b).flags.default := by
  obtain ⟨s', L, hplay, h'⟩ := hplays (h.ready h₀ hΓ) (h.keeps Scope.enclosing fun _ => rfl)
  have hsince := h.trans h'.since
  rw [h.forks, h.currentSentence, h.ledger] at hsince
  refine ⟨s'.sketch, s', L, hplay, hsince, h.scope_sketch ▸ h'.fragment,
    h.scope_sketch ▸ h'.placed, h'.kinds, fun b hb => ?_⟩
  rw [h'.since.defaults b (hb.trans_eq h.size.symm), h.chart]

/-- A node that is no landmark around a piece. -/
theorem filterMap_landmark?_node (hn : n.landmark? = none) (events : List Notification) :
    (Notification.enter n :: events ++ [Notification.leave n]).filterMap (·.landmark?) =
      events.filterMap (·.landmark?) := by
  simp [Notification.landmark?, hn]

namespace Plays

theorem nil (h : Ready s) : Plays o s [] .skip := by
  refine ⟨s, [], rfl, h.since, ?_, .nil _ _, rfl⟩
  rw [Landmarks.exits_nil]
  exact .refl h.opened

theorem append (h₀ : Ready s) (h : Plays o s events B)
    (h' : ∀ s', Ready s' → s'.enclosing = s.enclosing → Plays o s' events' B') :
    Plays o s (events ++ events') (B.seq B') := by
  obtain ⟨s₁, L₁, hplay₁, h₁⟩ := h
  obtain ⟨s₂, L₂, hplay₂, h₂⟩ := h' s₁ (h₁.since.ready h₀ h₁.fragment.opened)
    (h₁.since.keeps Scope.enclosing fun _ => rfl)
  refine ⟨s₂, L₁ ++ L₂, by rw [Build.play_append hplay₁, hplay₂], ?_, ?_, ?_, ?_⟩
  · have h := h₁.since.trans h₂.since
    rwa [h₁.since.forks, h₁.since.currentSentence, h₁.since.ledger, ← List.foldl_append] at h
  · rw [Landmarks.exits_append]
    exact h₁.fragment.trans h₀.opened.here_lt h₂.fragment
  · exact h₁.placed.trans h₂.placed h₁.fragment h₂.fragment
  · rw [List.map_append, List.filterMap_append, h₁.kinds, h₂.kinds]

/-- A node that contains nothing and is left without more ado. -/
theorem leaf (h₀ : Ready s) (htag : n.tag ≠ .procedureDivision)
    (hleave : Build.leaveInside o n = pure ()) (Γ : Sketch) (L : Landmarks)
    (hkind : ∀ s₁, Since s s₁ s.sketch s.forks s.ledger → ∃ s₂,
      Build.enterKind o n s₁ = .ok ((), s₂) ∧
        Since s s₂ Γ s.forks (L.foldl (Ledger.post s.currentSentence) s.ledger))
    (hf : Fragment s.sketch Γ L.exits B) (hplaced : L.Placed s.sketch Γ)
    (hkinds : L.map (·.2) = n.landmark?.toList) : Plays o s [.enter n, .leave n] B := by
  obtain ⟨s₁, henter, h₁⟩ := h₀.since.exists_enter h₀ htag hkind
  obtain ⟨s₂, hleave, h₂⟩ := (h₁.under n.tag).exists_leave_pure h₀ hleave
  obtain rfl := h₂.scope_sketch
  refine ⟨s₂, L, ?_, h₂, hf, hplaced, ?_⟩
  · rw [Build.play_cons henter, Build.play_cons hleave, Build.play_nil]
  · rw [hkinds]
    cases hn : n.landmark? <;> simp [Notification.landmark?, hn]

end Plays

end Plays

end Scope

end CobolFlow
