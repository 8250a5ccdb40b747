import CobolFlow.Proofs.Trace.Cascade
import CobolFlow.Proofs.Trace.Rounds
import CobolFlow.Proofs.Trace.Simple

/-!
# SEARCH in the cascade lowering

A SEARCH begins at a block of its own, its *root*, so that a failed round can begin again there.
Its tests are levels, as those of an EVALUATE are, but they are no nest: the innermost leads back
to the root, and whatever the others leave open is reached from there.

## Main definitions

* `Fork.Rungs` — the levels of an open search

## Main results

* `Scope.Plays.searchCascade` — SEARCH in the cascade lowering
-/

namespace CobolFlow

open Scope

/-! ### Sketches -/

theorem Sketch.lead_congr {Γ : Sketch} {sources sources' : List ℕ} {t : ℕ}
    (h : ∀ b, b ∈ sources ↔ b ∈ sources') : Γ.lead sources t = Γ.lead sources' t := by
  simp only [Sketch.lead, h]

theorem Sketch.lead_nil (Γ : Sketch) (t : ℕ) : Γ.lead [] t = Γ := by
  simp [Sketch.lead]

theorem Sketch.lead_singleton (Γ : Sketch) (b t : ℕ) : Γ.lead [b] t = Γ.edge b t := by
  simp [Sketch.lead, Sketch.edge]

theorem Sketch.mem_next_lead {Γ : Sketch} {sources : List ℕ} {t b c : ℕ}
    (h : c ∈ ((Γ.lead sources t).chart b).next) : c ∈ (Γ.chart b).next ∨ c = t := by
  simp only [Sketch.lead] at h
  split at h
  · simpa using h
  · exact .inl h

/-- The program goes on in a new block. -/
theorem Fragment.onward {Γ : Sketch} {t : Spot} (h : Γ.Open) (ht : t.Blank) :
    Fragment Γ (Γ.branch Γ.here t) (fun _ _ => False) .skip := by
  have hne : Γ.here ≠ Γ.size := h.here_lt.ne
  have hjoin := (Bundle.open h []).close h ht (.inr rfl : _ ∨ true = true) [Γ.here]
    fun b => by simp [Chart.OpenEnd, Sketch.say, Sketch.sayAt]
  have hsame : (Γ.say []).join t [Γ.here] = Γ.branch Γ.here t := by
    rw [Sketch.say_nil]
    simp only [Sketch.join, Sketch.branch, Sketch.fresh, Sketch.edge, Sketch.goTo, Sketch.mk.injEq,
      and_true]
    funext b
    by_cases hb : b = Γ.size
    · subst hb
      simp [hne.symm]
    · simp [hb]
  rw [hsame] at hjoin
  simpa using hjoin

/-- What is drained has no other open end. -/
theorem Drained.not_openEnd {χ : Chart} {root t b : ℕ} {branches : List Branch}
    (h : Drained χ root t branches) (hb : b ≠ t) : ¬ χ.OpenEnd [root] b := by
  rintro ⟨hnil, hending, e, he, hreach⟩
  obtain rfl := List.mem_singleton.1 he
  obtain rfl | hend := h.eq_or_ending b hreach hnil
  · exact hb rfl
  · simp [hending] at hend

/-- From a branch of a search that is being closed one gets to its own blocks and to the joints. -/
theorem Closing.made_of_reaches {Γ₀ Γ Δ : Sketch} {phrases : List Instruction}
    {marks : Departures} {pre : List Branch} {main br : Branch} {rest : List Rung} {root b : ℕ}
    {post : List ℕ} (h : Closing Γ₀ Γ Δ phrases pre main rest root post)
    (hq : Quest Γ₀ Γ phrases marks pre main rest) (hroot : Rooted Γ₀ root)
    (hbr : br ∈ pre ++ main :: rest.map (·.branch)) (hb : Δ.chart.Reaches br.entry b) :
    Γ.chart.Reaches br.entry b ∨ Γ.size ≤ b ∧ b < Δ.size := by
  refine hb.mem (P := fun b => Γ.chart.Reaches br.entry b ∨ Γ.size ≤ b ∧ b < Δ.size) (.inl .refl)
    fun b hb c hc => ?_
  obtain hb | hb := hb
  · obtain ⟨hmade, hhead⟩ := hq.made_of_reaches hbr hb
    by_cases hexit : Exits (pre ++ main :: rest.map (·.branch)) b
    · exact .inr (h.onto b (.inl hexit) c hc)
    · have hne : b ≠ Γ₀.here := (hroot.here_lt.trans_le hmade.1).ne'
      rw [h.firm b hmade.2 hne hhead hexit] at hc
      exact .inl (hb.tail hc)
  · exact .inr (h.onto b (.inr hb) c hc)

namespace Quest

variable {Γ₀ Γ : Sketch} {phrases : List Instruction} {marks : Departures} {pre : List Branch}
  {main : Branch} {rest : List Rung} {root : ℕ}

/-- The last test does not lead back to the root yet. -/
theorem root_notMem_next_tail (h : Quest Γ₀ Γ phrases marks pre main rest)
    (hroot : Rooted Γ₀ root) : root ∉ (Γ.chart (tail Γ₀.here rest)).next := by
  have hroot_lt := hroot.lt
  intro hmem
  obtain ⟨htail, rfl⟩ | htail := h.tail_cases
  · rw [htail, h.origin] at hmem
    obtain hmem | hmem := List.mem_append.1 hmem
    · obtain ⟨br, hbr, heq⟩ := List.mem_map.1 hmem
      have hmade := (h.fits br (by simp [hbr])).entry.1.1
      omega
    · have hmade := (h.fits main (by simp)).entry.1.1
      have heq : root = main.entry := by simpa [link] using hmem
      omega
  · have hmade := h.closed _ htail.2 root hmem
    exact hmade.1.not_gt hroot_lt

end Quest

/-- All tests of a search are closed. What is still open is the newest block, where the program
goes on, and what AT END leaves open. -/
structure Closed (Γ₀ Γ Δ : Sketch) (phrases : List Instruction) (pre : List Branch)
    (main : Branch) (rest : List Rung) (root : ℕ) : Prop
    extends Closing Γ₀ Γ Δ phrases pre main rest root [] where
  le_here : Γ.size ≤ Δ.here
  newest : Δ.here + 1 = Δ.size
  next : (Δ.chart Δ.here).next = []
  ending : (Δ.chart Δ.here).flags.ending = false
  openEnd_iff : ∀ b, b ≠ Δ.here →
    (Δ.chart.OpenEnd [root] b ↔ Δ.chart.OpenEnd (pre.map (·.entry)) b)

namespace Closed

variable {Γ₀ Γ Δ : Sketch} {phrases : List Instruction} {marks : Departures} {pre : List Branch}
  {main : Branch} {rest : List Rung} {root : ℕ} {s : Spot} {sources : List ℕ}

/-- Where only one block is open, nothing else is. -/
theorem of_drained (h : Closing Γ₀ Γ Δ phrases pre main rest root [])
    (hq : Quest Γ₀ Γ phrases marks pre main rest) (hroot : Rooted Γ₀ root)
    (hd : Drained Δ.chart root Δ.here (pre ++ main :: rest.map (·.branch)))
    (hle : Γ.size ≤ Δ.here) (hnew : Δ.here + 1 = Δ.size) :
    Closed Γ₀ Γ Δ phrases pre main rest root :=
  { h with
    le_here := hle
    newest := hnew
    next := hd.next
    ending := hd.ending
    openEnd_iff := fun b hb => by
      refine ⟨fun hopen => absurd hopen (hd.not_openEnd hb), ?_⟩
      rintro ⟨hnil, hending, e, he, hreach⟩
      refine absurd ⟨hnil, hending, root, List.mem_singleton_self _, ?_⟩ (hd.not_openEnd hb)
      obtain ⟨br, hbr, rfl⟩ := List.mem_map.1 he
      exact ((h.reaches_all hq hroot).1 br (by simp [hbr])).trans hreach }

/-- The only test of a search is closed. -/
theorem of_begin (hq : Quest Γ₀ Γ phrases marks pre main []) (hroot : Rooted Γ₀ root)
    (hs : s.Blank) (hsources : ∀ b, b ∈ sources ↔
      b ≠ Γ.size ∧ (Γ.fresh s).chart.OpenEnd [main.entry] b)
    (h : Closing Γ₀ Γ ((Γ.join s sources).edge Γ₀.here root) phrases pre main [] root []) :
    Closed Γ₀ Γ ((Γ.join s sources).edge Γ₀.here root) phrases pre main [] root := by
  have hne : Γ.size ≠ Γ₀.here := (hroot.here_lt.trans_le hq.size_le).ne'
  have hjoint : ((Γ.join s sources).edge Γ₀.here root).chart Γ.size = s := by
    simp [Sketch.edge, Sketch.join, hne]
  exact
    { h with
      le_here := le_rfl
      newest := rfl
      next := (congrArg Spot.next hjoint).trans hs.next
      ending := (congrArg (·.flags.ending) hjoint).trans hs.ending
      openEnd_iff := fun b hb => Closing.openEnd_iff_of_begin hq hroot hs hsources hb }

end Closed

/-! ### The levels of a search -/

/-- The levels of an open search, of which `last` is the innermost. -/
structure Rungs (body root : ℕ) (rootSlot : Option SlotId) (main : Branch) (rest : List Rung)
    (last : Fork) (outer : List Fork) : Prop where
  opener : ∀ g ∈ last :: outer, g.opener = none
  phrases : last.phrases = []
  origin : last.origin = some (tail body rest)
  root : last.root = some root
  rootSlot : last.rootSlot = rootSlot
  single : ∃ br ∈ main :: rest.map (·.branch), last.branches = [br.entry]
  double : ∀ g ∈ outer, ∃ br ∈ main :: rest.map (·.branch), ∃ r ∈ rest,
    g.branches = [br.entry, r.head]
  outer_eq_nil : outer = [] ↔ rest = []

/-- One more level. -/
theorem Rungs.add {body root : ℕ} {rootSlot : Option SlotId} {main : Branch} {rest : List Rung}
    {last : Fork} {outer : List Fork} (h : Rungs body root rootSlot main rest last outer)
    (r : Rung) (k k' : SlotId) :
    Rungs body root rootSlot main (rest ++ [r])
      ((last.levelAbove r.head).trackBranch r.branch.entry k') (last.trackBranch r.head k :: outer)
    where
  opener g hg := by
    obtain rfl | hg := List.mem_cons.1 hg
    · rfl
    · obtain rfl | hg := List.mem_cons.1 hg
      · exact h.opener last (by simp)
      · exact h.opener g (by simp [hg])
  phrases := rfl
  origin := by rw [tail_append]; rfl
  root := h.root
  rootSlot := h.rootSlot
  single := ⟨r.branch, by simp, rfl⟩
  double g hg := by
    obtain rfl | hg := List.mem_cons.1 hg
    · obtain ⟨br, hbr, heq⟩ := h.single
      refine ⟨br, ?_, r, by simp, by simp [Fork.trackBranch, heq]⟩
      rw [List.map_append, ← List.cons_append]
      exact List.mem_append_left _ hbr
    · obtain ⟨br, hbr, r', hr', heq⟩ := h.double g hg
      refine ⟨br, ?_, r', by simp [hr'], heq⟩
      rw [List.map_append, ← List.cons_append]
      exact List.mem_append_left _ hbr
  outer_eq_nil := by simp

namespace Scope

variable {s₀ s : Scope} {Γ Γ₀ : Sketch} {fs levels : List Fork} {f : Fork} {l : Ledger}
  {o : Options} {n : Node} {B : Behaviour} {L : Landmarks} {said : List Instruction} {br : Branch}

/-- What is left of `enterSearch` once there is a root: a body is opened after it. -/
def openSearch (i : Instruction) (root : BlockId) (rootSlot : Option SlotId) : Build Unit := do
  let body ← Build.newBlock none
  let _ ← Build.editGraph (Graph.addEdge root body)
  Build.pushFork { Fork.openedBy i body with root := some root, rootSlot }
  Build.setCurrent body

theorem Since.exists_openSearch (h : Since s₀ s Γ fs l) (i : Instruction) (root : ℕ)
    (rootSlot : Option SlotId) (hroot : root < Γ.size)
    (hslot : ∀ k ∈ rootSlot, s.graph.slots[k]? = some root) :
    ∃ s', openSearch i root rootSlot s = .ok ((), s') ∧
      Since s₀ s' ((Γ.goTo root).branch root s₀.spot)
        ({ Fork.openedBy i Γ.size with root := some root, rootSlot } :: fs) l ∧
      ∀ k ∈ rootSlot, s'.graph.slots[k]? = some root := by
  obtain ⟨s₁, hnew, h₁⟩ := h.self.exists_newBlock none
  obtain ⟨k, s₂, hedge, h₂, -⟩ := h₁.exists_addEdge (b := root) (c := Γ.size)
    (Nat.lt_succ_of_lt hroot) (Nat.lt_succ_self _)
  have hsize : s₂.graph.size = Γ.size + 1 := h₂.size
  have hroot' : root < s₂.graph.size := hsize ▸ Nat.lt_succ_of_lt hroot
  have hbody : Γ.size < s₂.graph.size := hsize ▸ Nat.lt_succ_self _
  obtain ⟨s₃, hpush, h₃⟩ := h₂.exists_pushFork
    (f := { Fork.openedBy i Γ.size with root := some root, rootSlot })
    { Build.inside_openedBy i hbody with
      root := fun b hb => Option.mem_some.1 hb ▸ hroot'
      rootSlot := fun k hk => (Array.getElem?_eq_some_iff.1 (h₂.draws.slots (hslot k hk))).1 }
  obtain ⟨s₄, hcurrent, h₄⟩ := h₃.exists_setCurrent (b := Γ.size) (Nat.lt_succ_self _)
  have hsince := h.trans h₄
  rw [h.spot] at hsince
  refine ⟨s₄, ?_, hsince, fun k hk => h₄.draws.slots (hslot k hk)⟩
  exact (run_bind hnew _).trans ((run_bind hedge _).trans ((run_bind hpush _).trans hcurrent))

/-- The block of a root that is made for it, in one step or in two. -/
theorem say_branch_spot (hne : Γ.here ≠ Γ.size) (i : Instruction) :
    (Γ.branch Γ.here s.spot).say [i] =
      ((Γ.fresh (s.spot [i])).edge Γ.here Γ.size).goTo Γ.size := by
  simp only [Sketch.branch, Sketch.say, Sketch.sayAt, Sketch.fresh, Sketch.edge, Sketch.goTo,
    Sketch.mk.injEq, and_true]
  funext b
  by_cases hb : b = Γ.size
  · subst hb
    simp [hne.symm, Scope.spot]
  · simp [hb]

/-- A search is opened: its root says it, and leads to its body. -/
theorem Since.exists_enterSearch (ho : o.searchCascade = true) (h : Since s₀ s Γ fs l)
    (hΓ : Γ.Open) (i : Instruction) :
    ∃ Γᵣ rootSlot s', Build.enterSearch o i s = .ok ((), s') ∧
      Fragment Γ Γᵣ (fun _ _ => False) (Behaviour.skip.saying [i]) ∧
      (Γᵣ.chart Γᵣ.here).nodes = [i] ∧
      Since s₀ s' (Γᵣ.branch Γᵣ.here s₀.spot)
        ({ Fork.openedBy i Γᵣ.size with root := some Γᵣ.here, rootSlot } :: fs) l ∧
      ∀ k ∈ rootSlot, s'.graph.slots[k]? = some Γᵣ.here := by
  obtain ⟨block, hblock, hget⟩ := Graph.exists_block_eq_ok (h.sound.currentBlock _ h.here)
  have hnodes : block.instructions = (Γ.chart Γ.here).nodes := by
    rw [← h.chart, Graph.chart_of_getElem? hget]
    rfl
  have hstart : Build.enterSearch o i s = (do
      if block.instructions.isEmpty then Build.addInstruction i
      let (root, rootSlot) ←
        if block.instructions.isEmpty then
          pure (Γ.here, none)
        else do
          let b ← Build.newBlock (some i)
          let slot ← Build.editGraph (Graph.addEdge Γ.here b)
          pure (b, some slot)
      openSearch i root rootSlot : Build Unit) s := by
    rw [Build.enterSearch, run_bind h.current?]
    simp only [ho, if_true]
    exact (run_bind (a := s) (t := s) rfl _).trans (run_bind (run_lift hblock s) _)
  cases hnil : block.instructions with
  | nil =>
    -- the current block is the root
    obtain ⟨s₁, hsay, h₁⟩ := h.exists_addInstruction i
    have hsaid : ((Γ.say [i]).chart (Γ.say [i]).here).nodes = [i] := by
      simp [Sketch.say, Sketch.sayAt, ← hnodes, hnil]
    obtain ⟨s', hrun, h', hslot⟩ := h₁.exists_openSearch i Γ.here none hΓ.here_lt
      (by simp)
    refine ⟨Γ.say [i], none, s', ?_, .say hΓ [i], hsaid, h', hslot⟩
    rw [hstart]
    simp only [hnil, List.isEmpty_nil, if_true]
    exact (run_bind hsay _).trans hrun
  | cons j rest =>
    -- a new block is
    have hne : Γ.here ≠ Γ.size := hΓ.here_lt.ne
    obtain ⟨s₁, hnew, h₁⟩ := h.exists_newBlock (some i)
    obtain ⟨k, s₂, hedge, h₂, hk⟩ := h₁.exists_addEdge (b := Γ.here) (c := Γ.size)
      (Nat.lt_succ_of_lt hΓ.here_lt) (Nat.lt_succ_self _)
    have hfrag := (Fragment.onward hΓ s₀.spot_blank).trans hΓ.here_lt
      (.say ((s₀.spot_fresh []).open_branch hne) [i])
    rw [say_branch_spot hne, Behaviour.skip_seq] at hfrag
    have hsaid : (((Γ.fresh (s₀.spot [i])).edge Γ.here Γ.size).chart Γ.size).nodes = [i] := by
      simp [Sketch.edge, Sketch.fresh, hne.symm]
    obtain ⟨s', hrun, h', hslot⟩ := h₂.exists_openSearch i Γ.size (some k)
      (Nat.lt_succ_self _) (by simpa using hk)
    refine ⟨((Γ.fresh (s₀.spot [i])).edge Γ.here Γ.size).goTo Γ.size, some k, s', ?_,
      by simpa using hfrag, hsaid, h', hslot⟩
    rw [hstart]
    simp only [hnil, List.isEmpty_cons]
    exact (run_bind hnew _).trans ((run_bind hedge _).trans hrun)

/-- The clauses after the first. -/
theorem Since.exists_rungs (ho : o.searchCascade = true) (h₀ : Ready s₀) {last : Fork}
    (outer : List Fork) (h : Since s₀ s Γ (last :: outer ++ fs) l)
    (hΓ₀ : Γ₀.here < Γ₀.size) {root : ℕ} {rootSlot : Option SlotId} {pre : List Branch}
    {main : Branch} {rest : List Rung} (hq : Quest Γ₀ Γ said L.exits pre main rest)
    (hL : L.Ranged Γ₀.size Γ.size) (hr : Rungs Γ₀.here root rootSlot main rest last outer)
    (cs : List Clause) (hcs : ∀ c ∈ cs, ∀ m ∈ c.phrases, m.IsPhrase)
    (hplays : ∀ c ∈ cs, ∀ s, Ready s → Plays o s c.events c.body) :
    ∃ Γ' s' last' outer' rest' L',
      Build.play o (cs.flatMap (·.replay (.searchClause false))) s = .ok ((), s') ∧
      Since s₀ s' Γ' (last' :: outer' ++ fs) (L'.foldl (Ledger.post s₀.currentSentence) l) ∧
      Quest Γ₀ Γ' said (L ++ L').exits pre main (rest ++ rest') ∧
      (L ++ L').Ranged Γ₀.size Γ'.size ∧
      Rungs Γ₀.here root rootSlot main (rest ++ rest') last' outer' ∧
      rest'.map (fun r => (r.phrases, r.branch.behaviour)) = cs.map (fun c => (c.said, c.body)) ∧
      L'.map (·.2) = (cs.flatMap (·.replay (.searchClause false))).filterMap (·.landmark?) := by
  induction cs generalizing s Γ last outer rest L l with
  | nil => exact ⟨Γ, s, last, outer, [], [], rfl, h, by simpa using hq, by simpa using hL,
      by simpa using hr, rfl, rfl⟩
  | cons c cs ih =>
    -- the else-branch of the innermost level
    obtain ⟨s₁, hdefer, h₁⟩ := h.exists_phrases (o := o) h₀ (hcs c (by simp))
    rw [hr.phrases, List.nil_append] at h₁
    set waiting : Fork := { last with phrases := c.phrases.map (·.instruction) }
    obtain ⟨k, s₂, helse, h₂⟩ := h₁.exists_enterElse (f := waiting) hr.origin none
    -- it tests the phrases of the clause
    obtain ⟨k', Γ', s₃, s₄, L₁, hpush, hplay₁, h₄, hfrag, hplaced, hkinds₁⟩ :=
      h₂.exists_test (o := o) (c := c) h₀ rfl (hplays c (by simp))
    have hsame : { waiting.trackBranch Γ.size k with phrases := [] } =
        last.trackBranch Γ.size k := by
      rw [← hr.phrases]
      rfl
    rw [hsame] at h₄
    have hq' := hq.add hΓ₀ s₀.spot_blank rfl hfrag
    rw [← Landmarks.exits_append] at hq'
    set r : Rung := ⟨Γ.size, c.said, ⟨Γ.size + 1, Γ'.here, c.body⟩⟩
    have hhere := hfrag.here_between
    have hlt := hfrag.opened.here_lt
    have hle : Γ.size + 1 ≤ Γ'.here := by
      obtain heq | hge := hhere
      · exact heq.ge
      · exact (Nat.le_succ _).trans hge.1
    have hL' : (L ++ L₁).Ranged Γ₀.size Γ'.size :=
      hL.append ((hplaced.ranged (Nat.le_succ _)).mono (Nat.le_succ _) hlt.le) hq.size_le
        ((Nat.le_succ _).trans (hle.trans hlt.le))
    have hr' := hr.add r k k'
    obtain ⟨Γ'', s', last', outer', rest', L₂, hplay₂, h', hq'', hL'', hr'', hwhens, hkinds₂⟩ :=
      ih _ h₄ hq' hL' hr' (fun c hc => hcs c (by simp [hc])) fun c hc => hplays c (by simp [hc])
    have hstart : Build.take o (.searchClause false) s₁ = .ok ((), s₃) := by
      rw [Build.take, Build.startSearchWhen, run_bind (a := s₁) (t := s₁) rfl]
      have htop : waiting.isSearch = false := by
        simp [Fork.isSearch, waiting, hr.opener last (by simp)]
      have hhead : s₁.forks.head? = some waiting := by rw [h₁.forks]; rfl
      simp only [hhead, ho, htop]
      exact (run_bind helse fun _ => Build.pushLevel).trans hpush
    refine ⟨Γ'', s', last', outer', r :: rest', L₁ ++ L₂, ?_, ?_, ?_, ?_, ?_, ?_, ?_⟩
    · rw [List.flatMap_cons, Clause.replay, List.append_assoc, List.cons_append,
        Build.play_append hdefer, Build.play_cons hstart, Build.play_append hplay₁, hplay₂]
    · rwa [List.foldl_append]
    · simpa using hq''
    · simpa using hL''
    · simpa using hr''
    · simp [hwhens, r]
    · simp only [List.map_append, hkinds₁, hkinds₂, List.flatMap_cons, List.filterMap_append,
        c.filterMap_replay (hcs c (by simp)) (e := .searchClause false) rfl]

/-! ### The end of a search -/

section Leaving

variable {Δ : Sketch} {root : ℕ} {rootSlot : Option SlotId} {pre : List Branch} {main : Branch}
  {rest : List Rung} {marks : Departures} {last : Fork} {outer : List Fork}

/-- Another level is closed: whatever is still open goes on where it is joined. -/
theorem Since.exists_drain (h : Since s s Δ fs l)
    (hc : Closing Γ₀ Γ Δ said pre main rest root [])
    (hq : Quest Γ₀ Γ said marks pre main rest) (hroot : Rooted Γ₀ root)
    (hbr : br ∈ main :: rest.map (·.branch)) {r : Rung} (hr : r ∈ rest)
    (hf : f.branches = [br.entry, r.head]) (hinside : f.Inside s.graph) :
    ∃ Δ' s', Build.joinFork f false s = .ok ((), s') ∧ Since s s' Δ' fs l ∧
      Closing Γ₀ Γ Δ' said pre main rest root [] ∧
      Drained Δ'.chart root Δ'.here (pre ++ main :: rest.map (·.branch)) ∧
      Γ.size ≤ Δ'.here ∧ Δ'.here + 1 = Δ'.size := by
  obtain ⟨sources, s', hjoin, h', hsources⟩ := h.exists_joinFork hinside false
  have hfresh := hc.fresh hq hroot s.spot_blank
  obtain ⟨hbranches, hrungs⟩ := hfresh.reaches_all hq hroot
  have hnew : (Δ.fresh s.spot).chart Δ.size = s.spot := by simp [Sketch.fresh]
  -- from the next test one comes back to the root, and from there everywhere
  have hopen : ∀ b, (Δ.fresh s.spot).chart.OpenEnd f.branches b ↔
      (Δ.fresh s.spot).chart.OpenEnd [root] b := fun b => by
    simp only [Chart.OpenEnd, hf, List.mem_cons, List.not_mem_nil, or_false, exists_eq_or_imp,
      exists_eq_left]
    refine and_congr_right fun _ => and_congr_right fun _ => ⟨?_, fun hb => ?_⟩
    · rintro (hb | hb)
      · exact (hbranches br (List.mem_append_right _ hbr)).trans hb
      · exact (hrungs r hr).1.trans hb
    · exact .inr ((hrungs r hr).2.trans hb)
  have hsources' : ∀ b, b ∈ sources ↔ b ≠ Δ.size ∧ (Δ.fresh s.spot).chart.OpenEnd [root] b :=
    fun b => by rw [hsources, hopen]; simp
  obtain ⟨hc', hd⟩ := hfresh.drain hq hroot (by simp) (t := Δ.size)
    ⟨hc.size_le, Nat.lt_succ_self _⟩ (by rw [hnew]; rfl) (by rw [hnew]; rfl) _ hsources'
  have hnot : Δ.size ∉ sources := fun hmem => ((hsources' _).1 hmem).1 rfl
  rw [← Sketch.goTo_lead_fresh hnot] at h'
  exact ⟨_, s', hjoin, h', { hc' with }, hd, hc.size_le, rfl⟩

/-- All levels but the innermost are closed. -/
theorem Since.exists_drainAll (h : Since s s Δ fs l)
    (hc : Closing Γ₀ Γ Δ said pre main rest root [])
    (hq : Quest Γ₀ Γ said marks pre main rest) (hroot : Rooted Γ₀ root) (hle : Γ.size ≤ Δ.here)
    (hnew : Δ.here + 1 = Δ.size)
    (houter : ∀ g ∈ outer, ∃ br ∈ main :: rest.map (·.branch), ∃ r ∈ rest,
      g.branches = [br.entry, r.head])
    (hinside : ∀ g ∈ outer, g.Inside s.graph) :
    ∃ Δ' s', closeLevels outer s = .ok ((), s') ∧ Since s s' Δ' fs l ∧
      Closing Γ₀ Γ Δ' said pre main rest root [] ∧
      (outer = [] ∧ Δ' = Δ ∨
        Drained Δ'.chart root Δ'.here (pre ++ main :: rest.map (·.branch))) ∧
      Γ.size ≤ Δ'.here ∧ Δ'.here + 1 = Δ'.size := by
  induction outer generalizing s Δ with
  | nil => exact ⟨Δ, s, rfl, h, hc, .inl ⟨rfl, rfl⟩, hle, hnew⟩
  | cons g rest' ih =>
    obtain ⟨br, hbr, r, hr, hg⟩ := houter g (by simp)
    obtain ⟨Δ₁, s₁, hjoin, h₁, hc₁, hd₁, hle₁, hnew₁⟩ :=
      h.exists_drain hc hq hroot hbr hr hg (hinside g (by simp))
    obtain ⟨Δ₂, s₂, hclose, h₂, hc₂, hd₂, hle₂, hnew₂⟩ := ih h₁.self hc₁ hle₁ hnew₁
      (fun g hg => houter g (by simp [hg])) fun g hg => (hinside g (by simp [hg])).mono h₁.le
    have hcount : (g.branches.length == 1) = false := by rw [hg]; rfl
    rw [← hcount] at hjoin
    refine ⟨Δ₂, s₂, (closeLevels_cons hjoin rest').trans hclose, h₁.trans h₂, hc₂, .inr ?_, hle₂,
      hnew₂⟩
    obtain ⟨-, rfl⟩ | hd₂ := hd₂
    · exact hd₁
    · exact hd₂

/-- What is left of `closeSearchLevels` once a slot leads to the root. -/
def rewind (origin next : BlockId) (again : SlotId) (outer : List Fork) :
    Build (Option BlockId) := do
  let _ ← Build.editGraph (Graph.link origin again)
  Build.setCurrent next
  closeLevels outer
  let s ← get
  return s.currentBlock

/-- The innermost test leads back to the root, and the other levels are closed. -/
theorem Since.exists_rewind {sources : List ℕ} {k : SlotId}
    (h : Since s₀ s ((Γ.fresh s₀.spot).lead sources Γ.size) fs l)
    (hq : Quest Γ₀ Γ said marks pre main rest) (hroot : Rooted Γ₀ root)
    (hr : Rungs Γ₀.here root rootSlot main rest last outer) (hbr : br ∈ main :: rest.map (·.branch))
    (hsources : ∀ b, b ∈ sources ↔ b ≠ Γ.size ∧ (Γ.fresh s₀.spot).chart.OpenEnd [br.entry] b)
    (hinside : ∀ g ∈ outer, g.Inside s₀.graph) (hk : s.graph.slots[k]? = some root) :
    ∃ Δ s', rewind (tail Γ₀.here rest) Γ.size k outer s = .ok (some Δ.here, s') ∧
      Since s₀ s' Δ fs l ∧ Closed Γ₀ Γ Δ said pre main rest root := by
  have htail := hq.tail_lt hroot.here_lt
  have hexits : ∀ b ∈ sources, Exits (pre ++ main :: rest.map (·.branch)) b := fun b hb => by
    have hmem : br ∈ pre ++ main :: rest.map (·.branch) := List.mem_append_right _ hbr
    have hopen := ((hsources b).1 hb).2
    rw [hq.openEnd_fresh hmem] at hopen
    exact hq.exits_of_openEnd hmem hopen
  have hnot : root ∉
      (((Γ.fresh s₀.spot).lead sources Γ.size).chart (tail Γ₀.here rest)).next := fun hmem => by
    obtain hmem | heq := Sketch.mem_next_lead hmem
    · simp only [Sketch.fresh, htail.ne, if_false] at hmem
      exact hq.root_notMem_next_tail hroot hmem
    · exact (hroot.lt.trans_le hq.size_le).ne heq
  obtain ⟨r, s₁, hlink, h₁⟩ := h.exists_link (b := tail Γ₀.here rest) (Nat.lt_succ_of_lt htail) hk
    hnot
  obtain ⟨s₂, hcurrent, h₂⟩ := h₁.exists_setCurrent (b := Γ.size) (Nat.lt_succ_self _)
  have hsame : (((Γ.fresh s₀.spot).lead sources Γ.size).edge (tail Γ₀.here rest) root).goTo
      Γ.size = (Γ.join s₀.spot sources).edge (tail Γ₀.here rest) root := by
    rw [← Sketch.goTo_lead_fresh fun hmem => ((hsources _).1 hmem).1 rfl]
    rfl
  rw [hsame] at h₂
  have hc := Closing.begin hq hroot s₀.spot_blank hexits
  obtain ⟨Δ, s₃, hclose, h₃, hc', hd, hle, hnew⟩ := h₂.self.exists_drainAll hc hq hroot
    le_rfl rfl hr.double fun g hg => (hinside g hg).mono h₂.le
  refine ⟨Δ, s₃, ?_, h₂.trans h₃, ?_⟩
  · refine (run_bind hlink _).trans ((run_bind hcurrent _).trans ((run_bind hclose _).trans ?_))
    refine (run_bind (a := s₃) (t := s₃) rfl _).trans ?_
    rw [h₃.here]
    rfl
  · obtain ⟨hnil, rfl⟩ | hd := hd
    · obtain rfl := hr.outer_eq_nil.1 hnil
      obtain rfl : br = main := by simpa using hbr
      exact .of_begin hq hroot s₀.spot_blank hsources hc'
    · exact .of_drained hc' hq hroot hd hle hnew

/-- The levels of a search are closed. -/
theorem Since.exists_closeSearchLevels (h : Since s s Γ fs l)
    (hq : Quest Γ₀ Γ said marks pre main rest) (hroot : Rooted Γ₀ root)
    (hr : Rungs Γ₀.here root rootSlot main rest last outer)
    (hinside : ∀ g ∈ last :: outer, g.Inside s.graph)
    (hslot : ∀ k ∈ rootSlot, s.graph.slots[k]? = some root) :
    ∃ Δ s', Build.closeSearchLevels (last :: outer) s = .ok (some Δ.here, s') ∧
      Since s s' Δ fs l ∧ Closed Γ₀ Γ Δ said pre main rest root := by
  obtain ⟨s₁, hnew, h₁⟩ := h.exists_newBlock none
  obtain ⟨sources, s₂, hclose, h₂, hsources⟩ := h₁.exists_lead
    ((hinside last (by simp)).mono h₁.le) false none (b := Γ.size) (Nat.lt_succ_self _)
    fun _ _ _ _ => by simp
  obtain ⟨br, hbr, hentry⟩ := hr.single
  have hsources' : ∀ b, b ∈ sources ↔ b ≠ Γ.size ∧
      (Γ.fresh s.spot).chart.OpenEnd [br.entry] b := fun b => by
    rw [hsources, hentry]
    simp
  -- the slot that leads to the root is the old one, or is made now
  obtain ⟨k, s₃, hagain, h₃, hk⟩ : ∃ k s₃,
      last.rootSlot.elim (Build.editGraph (Graph.newSlot root)) pure s₂ = .ok (k, s₃) ∧
      Since s s₃ ((Γ.fresh s.spot).lead sources Γ.size) fs l ∧ s₃.graph.slots[k]? = some root := by
    cases hk : last.rootSlot with
    | some k => exact ⟨k, s₂, rfl, h₂, h₂.draws.slots (hslot k (by rw [← hr.rootSlot, hk]; rfl))⟩
    | none => exact h₂.exists_newSlot (Nat.lt_succ_of_lt (hroot.lt.trans_le hq.size_le))
  obtain ⟨Δ, s₄, hrewind, h₄, hc⟩ := h₃.exists_rewind hq hroot hr hbr hsources'
    (fun g hg => hinside g (by simp [hg])) hk
  refine ⟨Δ, s₄, Eq.trans ?_ hrewind, h₄, hc⟩
  rw [Build.closeSearchLevels, run_bind hnew]
  refine (run_bind hclose _).trans ?_
  simp only [hr.origin, hr.root, forIn_eq_forM]
  cases hroot' : last.rootSlot with
  | none =>
    rw [hroot'] at hagain
    exact run_bind hagain _
  | some k' =>
    rw [hroot'] at hagain
    cases hagain
    rfl

/-- The statement itself is closed. -/
theorem Since.exists_finish (h : Since s s Δ fs l)
    (hc : Closed Γ₀ Γ Δ said pre main rest root)
    (hq : Quest Γ₀ Γ said marks pre main rest) (hroot : Rooted Γ₀ root)
    (hinside : f.Inside s.graph) (horigin : f.origin = some Γ₀.here)
    (hbranches : f.branches = pre.map (·.entry)) :
    ∃ Δ' s' post, Build.editGraph (f.joinAround f.branches.isEmpty root Δ.here) s = .ok ((), s') ∧
      Since s s' Δ' fs l ∧ Closing Γ₀ Γ Δ' said pre main rest root post ∧
      Drained Δ'.chart root Δ'.here (pre ++ main :: rest.map (·.branch)) ∧
      (post = [] ∨ post = [Δ'.here]) ∧ (post = [] ↔ pre ≠ []) ∧ Γ.size ≤ Δ'.here ∧
      Δ'.here + 1 = Δ'.size := by
  have hstop : ∀ e ∈ f.branches, ∀ c, Δ.chart.Reaches e c → some c ≠ some root := by
    intro e he c hreach heq
    obtain rfl := Option.some.inj heq
    rw [hbranches] at he
    obtain ⟨br, hbr, rfl⟩ := List.mem_map.1 he
    have hmem : br ∈ pre ++ main :: rest.map (·.branch) := by simp [hbr]
    have hroot_lt := hroot.lt
    obtain hreach | hreach := hc.made_of_reaches hq hroot hmem hreach
    · have hmade := (hq.made_of_reaches hmem hreach).1.1
      omega
    · have := hq.size_le
      omega
  have hlt : Δ.here < Δ.size := hc.newest ▸ Nat.lt_succ_self _
  obtain ⟨sources, s', hclose, h', hsources⟩ := h.exists_lead hinside f.branches.isEmpty (some root)
    hlt hstop
  cases hpre : pre with
  | nil =>
    subst hpre
    have hempty : f.branches.isEmpty = true := by rw [hbranches]; rfl
    have hsources' : ∀ b, b ∈ sources ↔ b ∈ [Γ₀.here] := fun b => by
      rw [hsources, hempty, horigin, hbranches]
      simp only [Chart.OpenEnd, List.map_nil, List.not_mem_nil, false_and, exists_false, and_false,
        false_or, true_and, Option.mem_some, List.mem_singleton]
      exact eq_comm
    obtain ⟨hc₁, hd₁⟩ := hc.drain hq hroot (by simp) (t := Δ.here) ⟨hc.le_here, hlt⟩ hc.next
      hc.ending [] fun b => by
        refine ⟨by simp, ?_⟩
        rintro ⟨hne, hb⟩
        rw [hc.openEnd_iff b hne] at hb
        obtain ⟨-, -, e, he, -⟩ := hb
        simp at he
    rw [Sketch.lead_nil] at hc₁ hd₁
    obtain ⟨hc₂, hd₂⟩ := hc₁.finish hq hroot hd₁ hc.le_here
    rw [Sketch.lead_congr hsources', Sketch.lead_singleton] at h'
    exact ⟨_, s', [Δ.here], hclose, h', hc₂, hd₂, .inr rfl, by simp, hc.le_here,
      hc.newest⟩
  | cons p ps =>
    rw [← hpre]
    have hempty : f.branches.isEmpty = false := by rw [hbranches, hpre]; rfl
    have hsources' : ∀ b, b ∈ sources ↔ b ≠ Δ.here ∧ Δ.chart.OpenEnd [root] b := fun b => by
      rw [hsources, hempty, hbranches]
      simp only [Bool.false_eq_true, false_and, or_false]
      exact and_congr_right fun hb => (hc.openEnd_iff b hb).symm
    obtain ⟨hc₁, hd₁⟩ := hc.drain hq hroot (by simp) (t := Δ.here) ⟨hc.le_here, hlt⟩ hc.next
      hc.ending _ hsources'
    exact ⟨_, s', [], hclose, h', hc₁, hd₁, .inl rfl, by simp [hpre], hc.le_here,
      hc.newest⟩

end Leaving

/-! ### SEARCH -/

/-- The stack of forks makes no difference to what has happened. -/
theorem Since.begin (h : Since s₀ s Γ fs l) (fs' : List Fork) (hfs : ∀ f ∈ fs', f.Inside s.graph) :
    Since { s with forks := fs' } s Γ fs l := by
  have hs : s = { s with forks := fs } := by rw [← h.forks]
  have hself := (h.withForks fs' hfs).self.withForks fs fun f hf => h.sound.forks f (h.forks ▸ hf)
  rw [hs]
  exact hself

/-- A search after it has been entered, and its AT END replayed if there is one. -/
theorem Plays.exists_atEnd (ho : o.searchCascade = true) (h₀ : Ready s) (hn : n.kind = .search)
    {atEnd : Option Enclosure} (hatEnd : ∀ p ∈ atEnd, p.node.kind = .exception .atEnd)
    (hplay : ∀ p ∈ atEnd, ∀ s, Ready s → Plays o s p.events p.body) :
    ∃ Γᵣ b s' f pre L, Build.play o (.enter n :: atEnd.toList.flatMap (·.replay)) s =
        .ok ((), s') ∧
      Fragment s.sketch Γᵣ (fun _ _ => False) (Behaviour.skip.saying [n.instruction]) ∧
      (Γᵣ.chart Γᵣ.here).nodes = [n.instruction] ∧
      Since (s.under n.tag) b (Γᵣ.branch Γᵣ.here s.spot) s.forks s.ledger ∧ Ready b ∧
      (∃ ds, Ways b s' f [] pre L ds) ∧ f.opener = some n.instruction ∧ f.root = some Γᵣ.here ∧
      (∀ k ∈ f.rootSlot, b.graph.slots[k]? = some Γᵣ.here) ∧
      pre.map (·.behaviour) = atEnd.toList.map (·.behaviour) ∧
      (pre = [] → s'.sketch = b.sketch) ∧
      L.map (·.2) = (atEnd.toList.flatMap (·.replay)).filterMap (·.landmark?) := by
  have hntag : n.tag = .search := by simp [Node.tag, hn, NodeKind.tag]
  obtain ⟨s₁, henter, Γᵣ, rootSlot, hfrag, hsaid, h₁, hslot⟩ := h₀.since.exists_enter (o := o)
    (n := n) h₀ (by simp [hntag]) (P := fun s' => ∃ Γᵣ rootSlot,
      Fragment s.sketch Γᵣ (fun _ _ => False) (Behaviour.skip.saying [n.instruction]) ∧
      (Γᵣ.chart Γᵣ.here).nodes = [n.instruction] ∧
      Since s s' (Γᵣ.branch Γᵣ.here s.spot)
        ({ Fork.openedBy n.instruction Γᵣ.size with root := some Γᵣ.here, rootSlot } :: s.forks)
        s.ledger ∧
      ∀ k ∈ rootSlot, s'.graph.slots[k]? = some Γᵣ.here) fun s₁ h => by
      obtain ⟨Γᵣ, rootSlot, s', hrun, h'⟩ := h.exists_enterSearch ho h₀.opened n.instruction
      refine ⟨s', ?_, Γᵣ, rootSlot, h'⟩
      simp only [Build.enterKind, hn]
      exact hrun
  set f : Fork := { Fork.openedBy n.instruction Γᵣ.size with root := some Γᵣ.here, rootSlot }
  have h₁' := h₁.under n.tag
  have hopen : (Γᵣ.branch Γᵣ.here s.spot).Open :=
    (s.spot_fresh []).open_branch hfrag.opened.here_lt.ne
  -- the branches are measured from the body of the search on
  set b : Scope := { s₁.under n.tag with forks := s.forks } with hb
  have hsince := h₁'.withForks s.forks h₁'.inside_outer
  have hready : Ready b := hsince.ready (h₀.under n.tag) hopen
  have hways : Ways b (s₁.under n.tag) f [] [] [] [] := by
    refine .begin hready ?_ rfl rfl ?_
    · rw [hsince.scope_sketch]
      rfl
    · have hledger : b.ledger = s.ledger := hsince.ledger
      rw [hsince.scope_sketch, Sketch.say_nil, hledger]
      exact h₁'.begin s.forks h₁'.inside_outer
  cases atEnd with
  | none =>
    refine ⟨Γᵣ, b, s₁.under n.tag, f, [], [], ?_, hfrag, hsaid, hsince, hready, ⟨[], hways⟩, rfl,
      rfl, hslot, rfl, fun _ => ?_, rfl⟩
    · rw [Option.toList_none, List.flatMap_nil, Build.play_cons henter, Build.play_nil]
    · rw [hsince.scope_sketch, h₁'.scope_sketch]
  | some p =>
    obtain ⟨s₂, f₂, L, br, hplay₂, hways₂, hbr, hidentity, hkinds⟩ := hways.exists_atEnd (o := o)
      hready (by simp [Fork.isSearch, f, Fork.openedBy, Node.instruction, hntag])
      (by simp [hb, Scope.under, hntag]) p (hatEnd p rfl) (hplay p rfl)
    have hroot : f₂.root = some Γᵣ.here := congrArg (·.2.1) hidentity
    have hrootSlot : f₂.rootSlot = rootSlot := congrArg (·.2.2) hidentity
    refine ⟨Γᵣ, b, s₂, f₂, [br], L, ?_, hfrag, hsaid, hsince, hready, ⟨_, hways₂⟩,
      congrArg Prod.fst hidentity, hroot, fun k hk => hslot k (hrootSlot ▸ hk), by simp [hbr],
      by simp, by simpa using hkinds⟩
    rw [Option.toList_some, List.flatMap_cons, List.flatMap_nil, List.append_nil,
      Build.play_cons henter, hplay₂]

/-- A search without a WHEN is left. -/
theorem Ways.exists_leaveSearch (ho : o.searchCascade = true) {b : Scope} {pre : List Branch}
    {ds : List Bool} {root : ℕ} (hready : Ready b) (hways : Ways b s₁ f [] pre L ds)
    (h : Since s₀ s s₁.sketch (f :: fs) l) (hopener : f.opener.isSome)
    (hroot : f.root = some root) (hroot_lt : root < b.sketch.size) :
    ∃ Γ' s', Build.leaveSearch o s = .ok ((), s') ∧ Since s₀ s' Γ' fs l ∧
      Fragment b.sketch Γ' L.exits ((pre.map (·.behaviour)).sum +
        if pre.isEmpty then Behaviour.skip else 0) ∧ L.Placed b.sketch Γ' := by
  have hbundle := hways.holds.bundle
  have hentries := hways.holds.entries
  have hempty : f.branches.isEmpty = pre.isEmpty := by rw [hentries, List.isEmpty_map]
  obtain ⟨s₂, hpop, h₂, hgraph⟩ := Since.exists_popCascade [] h (by simp) hopener
  obtain ⟨s₃, hbreak, h₃⟩ := h₂.self.exists_breakBlock
  have hinside : f.Inside s₃.graph := (hgraph ▸ h.inside).mono h₃.le
  -- no branch leads back to the root
  have hstop : ∀ e ∈ f.branches, ∀ c, (s₁.sketch.fresh s₂.spot).chart.Reaches e c →
      some c ≠ some root := fun e he c hreach heq => by
    rw [hentries] at he
    obtain ⟨br, hbr, rfl⟩ := List.mem_map.1 he
    have hmade : b.sketch.Made s₁.sketch c := hreach.mem
      (P := b.sketch.Made s₁.sketch) (hbundle.fits br hbr).entry.1 fun d hd c hc => by
        simp only [Sketch.fresh, hd.2.ne, if_false] at hc
        exact hbundle.closed d hd c hc
    exact hmade.1.not_gt (Option.some.inj heq ▸ hroot_lt)
  obtain ⟨sources, s₄, hclose, h₄, hsources⟩ := h₃.exists_lead hinside f.branches.isEmpty
    (some root) (b := s₁.sketch.size) (Nat.lt_succ_self _) hstop
  have hnot : s₁.sketch.size ∉ sources := fun hmem => by
    obtain ⟨hne, -⟩ | ⟨-, horigin⟩ := (hsources _).1 hmem
    · exact hne rfl
    · rw [hways.holds.origin] at horigin
      exact (hready.opened.here_lt.trans_le hbundle.size_le).ne (Option.some.inj horigin)
  have hsame : ((s₁.sketch.fresh s₂.spot).goTo s₁.sketch.size).lead sources s₁.sketch.size =
      s₁.sketch.join s₂.spot sources := by
    rw [← Sketch.goTo_lead_fresh hnot]
    rfl
  rw [hsame] at h₄
  have hne : pre ≠ [] ∨ f.branches.isEmpty = true := by
    rw [hempty]
    cases pre <;> simp
  obtain ⟨hfrag, hplaced⟩ := hways.holds.close hready.opened s₂.spot_blank hne hsources
  refine ⟨_, s₄, ?_, h₂.trans h₄, by simpa [hempty] using hfrag, hplaced⟩
  rw [Build.leaveSearch, if_pos ho]
  refine (run_bind hpop _).trans ?_
  simp only [hroot]
  exact (run_bind hbreak fun next => Build.editGraph
    (f.joinAround f.branches.isEmpty root next)).trans hclose

/-- What is done at the end of the table. -/
theorem sum_behaviour_atEnd {pre : List Branch} {atEnd : Option Enclosure}
    (h : pre.map (·.behaviour) = atEnd.toList.map (·.behaviour)) :
    (pre.map (·.behaviour)).sum + (if pre.isEmpty then .skip else 0) =
      (atEnd.map Enclosure.behaviour).getD Behaviour.skip := by
  cases atEnd with
  | none =>
    obtain rfl : pre = [] := List.map_eq_nil_iff.1 h
    simp
  | some p =>
    have hne : pre ≠ [] := fun hnil => by simp [hnil] at h
    simp [hne, h]

/-- A search without a WHEN. -/
theorem Plays.searchNothing (ho : o.searchCascade = true) (h₀ : Ready s) (hn : n.kind = .search)
    {atEnd : Option Enclosure} (hatEnd : ∀ p ∈ atEnd, p.node.kind = .exception .atEnd)
    (hplay : ∀ p ∈ atEnd, ∀ s, Ready s → Plays o s p.events p.body) :
    Plays o s (.enter n :: atEnd.toList.flatMap (·.replay) ++ [.leave n])
      (((atEnd.map Enclosure.behaviour).getD Behaviour.skip).saying [n.instruction]) := by
  obtain ⟨Γᵣ, b, s₁, f, pre, L, hplay₁, hfrag, hsaid, hb, hready, ⟨ds, hways⟩, hopener, hroot, -,
    hpre, -, hkinds⟩ := exists_atEnd ho h₀ hn hatEnd hplay
  have hsince := hb.trans hways.since
  rw [hb.currentSentence, hb.ledger, hb.forks] at hsince
  have hbody : b.sketch.size = Γᵣ.size + 1 := by rw [hb.scope_sketch]; rfl
  have hroot_lt : Γᵣ.here < b.sketch.size := hbody ▸ Nat.lt_succ_of_lt hfrag.opened.here_lt
  obtain ⟨s₂, hleave, Γ₂, h₂, hfrag₂, hplaced₂⟩ := hsince.exists_leave (o := o) h₀ (P := fun s' =>
    ∃ Γ' : Sketch, Since s s' Γ' s.forks (L.foldl (Ledger.post s.currentSentence) s.ledger) ∧
      Fragment b.sketch Γ' L.exits ((pre.map (·.behaviour)).sum +
        if pre.isEmpty then Behaviour.skip else 0) ∧ L.Placed b.sketch Γ') fun s₂ h _ => by
      obtain ⟨Γ', s', hrun, h'⟩ :=
        hways.exists_leaveSearch ho hready h (by rw [hopener]; rfl) hroot hroot_lt
      refine ⟨s', ?_, Γ', h'⟩
      simp only [Build.leaveInside, hn]
      exact hrun
  obtain rfl := h₂.scope_sketch
  rw [sum_behaviour_atEnd hpre] at hfrag₂
  refine ⟨s₂, L, ?_, h₂, ?_, ?_, ?_⟩
  · rw [Build.play_append hplay₁, Build.play_cons hleave, Build.play_nil]
  · have hstart := hfrag.trans h₀.opened.here_lt (.onward hfrag.opened s.spot_blank)
    rw [← hb.scope_sketch] at hstart
    have hfrag' := hstart.trans h₀.opened.here_lt hfrag₂
    have hmarks : (fun e c => (False ∨ False) ∨ L.exits e c) = L.exits := by
      funext e c
      simp
    rwa [hmarks, Behaviour.seq_skip, Behaviour.skip_saying_seq] at hfrag'
  · have hhere : b.sketch.here = Γᵣ.size := by rw [hb.scope_sketch]; rfl
    refine (hplaced₂.ranged hready.opened.here_lt.le).placed ?_ le_rfl hfrag₂.opened.here_lt
    rw [hhere]
    exact hfrag.size_le
  · rw [filterMap_landmark?_node (by simp [Node.landmark?, hn]), hkinds]

/-- The first WHEN hangs off the body of the search, whether there is an AT END before it or not. -/
theorem Ways.exists_setBody {b : Scope} {pre : List Branch} {ds : List Bool} {ps : List Instruction}
    (hready : Ready b) (hways : Ways b s f [] pre L ds)
    (hsketch : pre = [] → s.sketch = b.sketch) (hone : pre.length ≤ 1)
    (h : Since b s₀ s.sketch ({ f with phrases := ps } :: b.forks) l) :
    ∃ s', (∀ g : Build Unit, (if f.branches.length == 1 then do
        Build.setCurrent b.sketch.here
        g
      else g) s₀ = g s') ∧
      Since b s' (s.sketch.goTo b.sketch.here) ({ f with phrases := ps } :: b.forks) l := by
  have hlength : f.branches.length = pre.length := by rw [hways.holds.entries, List.length_map]
  cases hcount : f.branches.length == 1 with
  | true =>
    obtain ⟨s', hcurrent, h'⟩ := h.exists_setCurrent
      (hready.opened.here_lt.trans_le hways.holds.bundle.size_le)
    refine ⟨s', fun g => ?_, h'⟩
    rw [if_pos rfl]
    exact run_bind hcurrent fun _ => g
  | false =>
    have hnil : pre = [] := List.eq_nil_of_length_eq_zero (by
      rw [hlength] at hcount
      exact Nat.lt_one_iff.1 (hone.lt_of_ne (by simpa using hcount)))
    refine ⟨s₀, fun g => rfl, ?_⟩
    rw [show s.sketch.goTo b.sketch.here = s.sketch by rw [hsketch hnil]; rfl]
    exact h

/-- The first WHEN of a search. -/
theorem Ways.exists_firstTest (ho : o.searchCascade = true) {b : Scope} {pre : List Branch}
    {ds : List Bool} {root : ℕ} (hready : Ready b) (hways : Ways b s f [] pre L ds)
    (hsearch : f.isSearch = true) (hroot : f.root = some root)
    (hsketch : pre = [] → s.sketch = b.sketch) (hone : pre.length ≤ 1) (c : Clause)
    (hc : ∀ m ∈ c.phrases, m.IsPhrase) (hplays : ∀ s, Ready s → Plays o s c.events c.body) :
    ∃ main last Γ' s' L', Build.play o (c.replay (.searchClause false)) s = .ok ((), s') ∧
      Since b s' Γ' (last :: f :: b.forks)
        ((L ++ L').foldl (Ledger.post b.currentSentence) b.ledger) ∧
      Quest b.sketch Γ' c.said (L ++ L').exits pre main [] ∧
      (L ++ L').Ranged b.sketch.size Γ'.size ∧
      Rungs b.sketch.here root f.rootSlot main [] last [] ∧ main.behaviour = c.body ∧
      L'.map (·.2) = (c.replay (.searchClause false)).filterMap (·.landmark?) := by
  obtain ⟨s₁, hdefer, h₁⟩ := hways.since.exists_phrases (o := o) hready hc
  rw [hways.phrases, List.nil_append] at h₁
  set waiting : Fork := { f with phrases := c.phrases.map (·.instruction) }
  obtain ⟨s₂, hcurrent, h₂⟩ := hways.exists_setBody hready hsketch hone h₁
  obtain ⟨k, Γ', s₃, s', L', hpush, hplay, h', hfrag, hplaced, hkinds⟩ :=
    h₂.exists_test (o := o) (c := c) hready rfl hplays
  have hsame : { waiting with phrases := [] } = f := by rw [← hways.phrases]
  rw [hsame, ← List.foldl_append] at h'
  have hq := Quest.begin hways.holds.bundle hready.opened.here_lt rfl hfrag
  rw [← Landmarks.exits_append] at hq
  have hlt := hfrag.opened.here_lt
  have hle : s.sketch.size ≤ Γ'.here := by
    obtain heq | hge := hfrag.here_between
    · exact heq.ge
    · exact (Nat.le_succ _).trans hge.1
  have hstart : Build.take o (.searchClause false) s₁ = .ok ((), s₃) := by
    have hhead : s₁.forks.head? = some waiting := by rw [h₁.forks]; rfl
    have horigin : waiting.origin = some b.sketch.here := hways.holds.origin
    have htop : waiting.isSearch = true := hsearch
    rw [Build.take, Build.startSearchWhen, run_bind (a := s₁) (t := s₁) rfl]
    simp only [hhead, ho, htop, horigin]
    exact (hcurrent _).trans hpush
  refine ⟨⟨s.sketch.size, Γ'.here, c.body⟩, _, Γ', s', L', ?_, h', hq, ?_, ?_, rfl, ?_⟩
  · rw [Clause.replay, Build.play_append hdefer, Build.play_cons hstart, hplay]
  · exact hways.holds.ranged.append ((hplaced.ranged (Nat.le_succ _)).mono le_rfl hlt.le)
      hways.holds.bundle.size_le (hle.trans hlt.le)
  · exact ⟨by simp [Fork.trackBranch, Fork.levelAbove], rfl, rfl, hroot, rfl,
      ⟨_, List.mem_cons_self, rfl⟩, by simp, by simp⟩
  · rw [hkinds, c.filterMap_replay hc rfl]

/-- A search with a WHEN is left. -/
theorem Since.exists_leaveSearch (ho : o.searchCascade = true) {Γᵣ : Sketch} {t : Spot}
    {i : Instruction} {rest : List Rung} {pre : List Branch} {main : Branch}
    {marks : Departures} {last : Fork} {outer : List Fork} (hΓ : Γᵣ.Open)
    (hsaid : (Γᵣ.chart Γᵣ.here).nodes = [i]) (ht : t.Blank)
    (h : Since s₀ s Γ (last :: outer ++ f :: fs) l)
    (hq : Quest (Γᵣ.branch Γᵣ.here t) Γ said marks pre main rest)
    (hr : Rungs (Γᵣ.branch Γᵣ.here t).here Γᵣ.here f.rootSlot main rest last outer)
    (hopener : f.opener.isSome) (hroot : f.root = some Γᵣ.here)
    (horigin : f.origin = some (Γᵣ.branch Γᵣ.here t).here)
    (hbranches : f.branches = pre.map (·.entry))
    (hslot : ∀ k ∈ f.rootSlot, s.graph.slots[k]? = some Γᵣ.here) :
    ∃ Δ s', Build.leaveSearch o s = .ok ((), s') ∧ Since s₀ s' Δ fs l ∧
      Fragment Γᵣ Δ marks (Behaviour.search i
        ((pre.map (·.behaviour)).sum + if pre.isEmpty then .skip else 0)
        (Closing.whens main said rest)) ∧
      Γ.size ≤ Δ.here ∧ Δ.here < Δ.size := by
  have hrooted : Rooted (Γᵣ.branch Γᵣ.here t) Γᵣ.here := Closing.rooted hΓ
  obtain ⟨s₁, hpop, h₁, hgraph⟩ := Since.exists_popCascade (last :: outer) h hr.opener hopener
  have hinside : ∀ g ∈ last :: outer ++ f :: fs, g.Inside s₁.graph := fun g hg => by
    rw [hgraph]
    exact h.sound.forks g (h.forks ▸ hg)
  obtain ⟨Δ, s₂, hclose, h₂, hc⟩ := h₁.self.exists_closeSearchLevels hq hrooted hr
    (fun g hg => hinside g (List.mem_append_left _ hg)) fun k hk => hgraph ▸ hslot k hk
  obtain ⟨Δ', s', post, hjoin, h', hc', hd, hpost, hpost', hle, hnew⟩ :=
    h₂.self.exists_finish hc hq hrooted ((hinside f (by simp)).mono h₂.le) horigin hbranches
  have hfrag := Closing.fragment hΓ hsaid ht hq hc' hd hpost rfl hnew hle
  have hend : (if post = [] then 0 else Behaviour.skip) = if pre.isEmpty then .skip else 0 := by
    by_cases hpre : pre = [] <;> simp [hpost', hpre]
  rw [hend] at hfrag
  refine ⟨Δ', s', ?_, h₁.trans (h₂.trans h'), hfrag, hle, hnew ▸ Nat.lt_succ_self _⟩
  rw [Build.leaveSearch, if_pos ho]
  refine (run_bind hpop _).trans ((run_bind hclose _).trans ?_)
  simp only [hroot]
  exact hjoin

/-- SEARCH in the cascade lowering. -/
theorem Plays.searchCascade (ho : o.searchCascade = true) (h₀ : Ready s) (hn : n.kind = .search)
    {cs : List Clause} {atEnd : Option Enclosure}
    (hcs : ∀ c ∈ cs, ∀ m ∈ c.phrases, m.IsPhrase)
    (hatEnd : ∀ p ∈ atEnd, p.node.kind = .exception .atEnd)
    (hplays : ∀ c ∈ cs, ∀ s, Ready s → Plays o s c.events c.body)
    (hplay : ∀ p ∈ atEnd, ∀ s, Ready s → Plays o s p.events p.body) :
    Plays o s (.enter n :: (atEnd.toList.flatMap (·.replay) ++
        cs.flatMap (·.replay (.searchClause false))) ++ [.leave n])
      ((Behaviour.search n.instruction ((atEnd.map Enclosure.behaviour).getD Behaviour.skip)
        (cs.map fun c => (c.said, c.body))).saying [n.instruction]) := by
  cases cs with
  | nil => simpa [Behaviour.search] using searchNothing ho h₀ hn hatEnd hplay
  | cons c cs =>
    obtain ⟨Γᵣ, b, s₁, f, pre, L₁, hplay₁, hfrag, hsaid, hb, hready, ⟨ds, hways⟩, hopener, hroot,
      hslot, hpre, hsketch, hkinds₁⟩ := exists_atEnd ho h₀ hn hatEnd hplay
    have hbsketch := hb.scope_sketch
    have hsearch : f.isSearch = true := by
      rw [Fork.isSearch, hopener]
      simp [Node.instruction, Node.tag, hn, NodeKind.tag]
    have hone : pre.length ≤ 1 := by
      have hlength := congrArg List.length hpre
      rw [List.length_map, List.length_map] at hlength
      cases atEnd <;> simp [hlength]
    obtain ⟨main, last, Γ₂, s₂, L₂, hplay₂, h₂, hq, hL, hrungs, hmain, hkinds₂⟩ :=
      hways.exists_firstTest ho hready hsearch hroot hsketch hone c (hcs c (by simp))
        (hplays c (by simp))
    obtain ⟨Γ₃, s₃, last', outer, rest, L₃, hplay₃, h₃, hq₃, hL₃, hrungs₃, hwhens, hkinds₃⟩ :=
      Since.exists_rungs ho hready [] h₂ hready.opened.here_lt hq hL hrungs cs
        (fun c hc => hcs c (by simp [hc])) fun c hc => hplays c (by simp [hc])
    have hsince := hb.trans h₃
    rw [hb.currentSentence, hb.ledger, hb.forks] at hsince
    obtain ⟨s₄, hleave, Γ₄, h₄, hfrag₄, hle, hlt⟩ := hsince.exists_leave (o := o) h₀
      (P := fun s' => ∃ Γ' : Sketch, Since s s' Γ' s.forks
          ((L₁ ++ L₂ ++ L₃).foldl (Ledger.post s.currentSentence) s.ledger) ∧
        Fragment Γᵣ Γ' (L₁ ++ L₂ ++ L₃).exits (Behaviour.search n.instruction
          ((pre.map (·.behaviour)).sum + if pre.isEmpty then .skip else 0)
          (Closing.whens main c.said ([] ++ rest))) ∧ Γ₃.size ≤ Γ'.here ∧ Γ'.here < Γ'.size)
      fun s₄ h hgraph => by
        have horigin := hways.holds.origin
        rw [hbsketch] at hq₃ hrungs₃ horigin
        obtain ⟨Δ, s', hrun, h', hfrag', hbounds⟩ := h.exists_leaveSearch ho hfrag.opened hsaid
          s.spot_blank hq₃ hrungs₃ (by rw [hopener]; rfl) hroot horigin hways.holds.entries
          fun k hk => hgraph ▸ h₃.draws.slots (hslot k hk)
        refine ⟨s', ?_, Δ, ?_, hfrag', hbounds⟩
        · simp only [Build.leaveInside, hn]
          exact hrun
        · rw [List.foldl_append]
          exact h'
    have hwhens' : Closing.whens main c.said ([] ++ rest) =
        (c :: cs).map fun c => (c.said, c.body) := by
      rw [Closing.whens, List.nil_append, hwhens, hmain]
      rfl
    rw [sum_behaviour_atEnd hpre, hwhens'] at hfrag₄
    obtain rfl := h₄.scope_sketch
    refine ⟨s₄, L₁ ++ L₂ ++ L₃, ?_, h₄, ?_, hL₃.placed ?_ hle hlt, ?_⟩
    · rw [← List.cons_append, List.append_assoc, Build.play_append hplay₁, List.flatMap_cons,
        List.append_assoc, Build.play_append hplay₂, Build.play_append hplay₃,
        Build.play_cons hleave, Build.play_nil]
    · have hfrag' := hfrag.trans h₀.opened.here_lt hfrag₄
      have hmarks : (fun e c => False ∨ (L₁ ++ L₂ ++ L₃).exits e c) = (L₁ ++ L₂ ++ L₃).exits := by
        funext e c
        simp
      rwa [hmarks, Behaviour.skip_saying_seq] at hfrag'
    · have hsize : b.sketch.size = Γᵣ.size + 1 := by rw [hbsketch]; rfl
      rw [hsize]
      exact hfrag.size_le.trans (Nat.le_succ _)
    · rw [filterMap_landmark?_node (by simp [Node.landmark?, hn])]
      simp [hkinds₁, hkinds₂, hkinds₃]

end Scope

end CobolFlow
