import CobolFlow.Proofs.Place.Behind
import CobolFlow.Proofs.Writing.Finished

/-!
# Where nothing is begun

A statement begins in a block at which nothing is begun: no decision is open at it, no call or jump
waits there, and it is not the block to which the end of the DECLARATIVES goes back. The reason is
that something has been done at all the blocks that a fork will come back to, so that they lead on
from then, while the current block leads nowhere yet.

Every replay of statements leaves such a block again, because it does so as a fragment, whatever it
does otherwise.

## Main definitions

* `Sketch.Busy` — a block that leads on or ends the program
* `Fork.Held` — a fork that comes back to such blocks only
* `Scope.Clear` — nothing is begun at the current block

## Main results

* `Scope.Clear.of_plays` — what is replayed leaves a clear block, if it began in one
-/

namespace CobolFlow

open Scope
open Notification (enclosed)

/-! ### Busy blocks -/

/-- The block leads on, or ends the program. -/
def Sketch.Busy (Γ : Sketch) (b : ℕ) : Prop :=
  b < Γ.size ∧ ((Γ.chart b).next ≠ [] ∨ (Γ.chart b).flags.ending = true)

namespace Sketch

variable {Γ Γ' : Sketch} {b c : ℕ}

theorem Open.not_busy (h : Γ.Open) : ¬ Γ.Busy Γ.here := by
  rintro ⟨-, hnext | hending⟩
  · exact hnext h.next
  · rw [h.ending] at hending
    exact nomatch hending

theorem Busy.of_chart (h : Γ.Busy b) (hsize : Γ.size ≤ Γ'.size) (hchart : Γ'.chart b = Γ.chart b) :
    Γ'.Busy b :=
  ⟨h.1.trans_le hsize, hchart ▸ h.2⟩

theorem Busy.say (h : Γ.Busy b) (is : List Instruction) : (Γ.say is).Busy b := by
  refine ⟨h.1, ?_⟩
  have hsame : ((Γ.say is).chart b).next = (Γ.chart b).next ∧
      ((Γ.say is).chart b).flags = (Γ.chart b).flags := by
    by_cases hb : b = Γ.here <;> simp [Sketch.say, Sketch.sayAt, hb]
  rw [hsame.1, hsame.2]
  exact h.2

/-- A branch makes its origin busy, and leaves others so. -/
theorem Busy.branch (h : Γ.Busy b) (hc : c < Γ.size) (s : Spot) : (Γ.branch c s).Busy b := by
  refine ⟨Nat.lt_succ_of_lt h.1, ?_⟩
  rw [chart_branch hc.ne, if_neg h.1.ne]
  split
  · exact .inl (by simp)
  · exact h.2

theorem busy_branch (hc : c < Γ.size) (s : Spot) : (Γ.branch c s).Busy c := by
  refine ⟨Nat.lt_succ_of_lt hc, .inl ?_⟩
  rw [chart_branch hc.ne, if_neg hc.ne, if_pos rfl]
  simp

theorem Open.branch {s : Spot} (hs : s.next = [] ∧ s.flags.ending = false ∧ s.flags.finish = false)
    (hc : c < Γ.size) : (Γ.branch c s).Open where
  here_lt := Nat.lt_succ_self _
  next := by rw [chart_branch hc.ne]; simpa [Sketch.branch, Sketch.goTo] using hs.1
  ending := by rw [chart_branch hc.ne]; simpa [Sketch.branch, Sketch.goTo] using hs.2.1
  finish := by rw [chart_branch hc.ne]; simpa [Sketch.branch, Sketch.goTo] using hs.2.2

section OpenLoop

variable {test body : Spot} {testAfter : Bool} (htest : test.next = []) (hlt : Γ.here < Γ.size)

include htest hlt

/-- A loop makes its origin and its test busy, and leaves others so. -/
theorem Busy.openLoop (h : Γ.Busy b) : (Γ.openLoop test body testAfter).Busy b := by
  have hb := h.1
  refine ⟨hb.trans (Nat.lt_succ_of_lt (Nat.lt_succ_self _)), ?_⟩
  rw [chart_openLoop hlt htest, if_neg (Nat.lt_succ_of_lt hb).ne, if_neg hb.ne]
  split
  · exact .inl (by simp)
  · exact h.2

theorem busy_openLoop : (Γ.openLoop test body testAfter).Busy Γ.here ∧
    (Γ.openLoop test body testAfter).Busy Γ.size := by
  refine ⟨⟨hlt.trans (Nat.lt_succ_of_lt (Nat.lt_succ_self _)), .inl ?_⟩,
    ⟨Nat.lt_succ_of_lt (Nat.lt_succ_self _), .inl ?_⟩⟩
  · rw [chart_openLoop hlt htest, if_neg (Nat.lt_succ_of_lt hlt).ne, if_neg hlt.ne, if_pos rfl]
    simp
  · rw [chart_openLoop hlt htest, if_neg (Nat.lt_succ_self _).ne, if_pos rfl]
    simp

theorem Open.openLoop
    (hbody : body.next = [] ∧ body.flags.ending = false ∧ body.flags.finish = false) :
    (Γ.openLoop test body testAfter).Open where
  here_lt := Nat.lt_succ_self _
  next := by rw [chart_openLoop hlt htest]; simpa [Sketch.openLoop, Sketch.goTo] using hbody.1
  ending := by rw [chart_openLoop hlt htest]; simpa [Sketch.openLoop, Sketch.goTo] using hbody.2.1
  finish := by rw [chart_openLoop hlt htest]; simpa [Sketch.openLoop, Sketch.goTo] using hbody.2.2

end OpenLoop

end Sketch

/-- Something has been done at every block that the fork comes back to. -/
structure Fork.Held (f : Fork) (Γ : Sketch) : Prop where
  origin : ∃ c, f.origin = some c ∧ Γ.Busy c
  test : f.IsLoop → ∃ test body rest, f.branches = test :: body :: rest ∧ Γ.Busy test

theorem Fork.Held.mono {f : Fork} {Γ Γ' : Sketch} (h : f.Held Γ)
    (hbusy : ∀ b, Γ.Busy b → Γ'.Busy b) : f.Held Γ' where
  origin := h.origin.imp fun _ hc => ⟨hc.1, hbusy _ hc.2⟩
  test hloop := by
    obtain ⟨test, body, rest, hbranches, htest⟩ := h.test hloop
    exact ⟨test, body, rest, hbranches, hbusy _ htest⟩

/-! ### Clear blocks -/

/-- The blocks of what is put aside. -/
def Ledger.blocks (l : Ledger) : List BlockId :=
  l.1.jumps.map (·.block) ++ l.1.nextSentences.map (·.block) ++ l.2.toList.map (·.callSite)

theorem Ledger.mem_blocks_post {sentence : Option SentenceId} {l : Ledger} {e : ℕ × Landmark}
    {b : BlockId} (hb : b ∈ (l.post sentence e).blocks) :
    b ∈ l.blocks ∨ b ∈ Landmarks.blocks [e] := by
  obtain ⟨c, m⟩ := e
  cases m <;> cases sentence <;>
    simp [Ledger.post, Ledger.blocks, Landmarks.blocks, Landmark.isLast] at hb ⊢ <;> grind

/-- Only landmarks are put aside. -/
theorem Ledger.mem_blocks_foldl {sentence : Option SentenceId} {L : Landmarks} {l : Ledger}
    {b : BlockId} (hb : b ∈ (L.foldl (Ledger.post sentence) l).blocks) :
    b ∈ l.blocks ∨ b ∈ L.blocks := by
  induction L generalizing l with
  | nil => exact .inl hb
  | cons e L ih =>
    rw [← List.singleton_append, Landmarks.blocks_append, List.mem_append]
    obtain hb | hb := ih hb
    · exact (mem_blocks_post hb).imp_right .inl
    · exact .inr (.inr hb)

/-- A sentence is open, and nothing is begun at the current block. -/
structure Scope.Clear (s : Scope) : Prop where
  ready : Ready s
  held : ∀ f ∈ s.forks, f.Held s.sketch
  awaiting : s.sketch.here ∉ s.awaiting
  declaratives : s.declaratives ≠ some s.sketch.here

/-- The blocks that lead somewhere, or end the program. -/
theorem Scope.settled_iff {s : Scope} (hs : Sound s) {b : BlockId} :
    s.graph.Settled b ↔ s.sketch.Busy b := by
  constructor
  · rintro ⟨block, hblock, hsettled⟩
    refine ⟨(Array.getElem?_eq_some_iff.1 hblock).1, hsettled.imp (fun hne hnil => ?_) fun h => ?_⟩
    · exact hne (Graph.successors_eq_nil hs.graph hblock hnil)
    · change (s.graph.chart b).flags.ending = true
      rw [Graph.chart_of_getElem? hblock]
      exact h
  · rintro ⟨hlt, hbusy⟩
    obtain ⟨block, hblock⟩ := Graph.getElem?_eq_some_of_lt (g := s.graph) hlt
    change (s.graph.chart b).next ≠ [] ∨ (s.graph.chart b).flags.ending = true at hbusy
    rw [Graph.chart_of_getElem? hblock] at hbusy
    refine ⟨block, hblock, hbusy.imp_left fun hne hnil => hne ?_⟩
    simp [Block.spot, hnil]

namespace Scope

variable {o : Options} {s s' : Scope} {events : List Notification} {B : Behaviour} {b : BlockId}

theorem Ready.currentBlock_eq (h : Ready s) : s.currentBlock = some s.sketch.here := by
  obtain ⟨b, hb⟩ := Option.isSome_iff_exists.1 h.currentBlock
  rw [hb, sketch, hb]
  rfl

theorem awaiting_lt (hs : Sound s) (hb : b ∈ s.awaiting) : b < s.graph.size := by
  simp only [Scope.awaiting, List.mem_append, List.mem_map] at hb
  obtain (⟨w, hw, rfl⟩ | ⟨w, hw, rfl⟩) | ⟨group, hgroup, rfl⟩ := hb
  · exact hs.jumps w hw
  · exact hs.nextSentences w hw
  · obtain ⟨i, hi⟩ := List.mem_iff_getElem?.1 hgroup
    rw [Array.getElem?_toList] at hi
    obtain ⟨block, hblock, -⟩ := hs.graph.callSite hi
    exact Graph.lt_size_of_getElem? hblock

/-! ### What is replayed -/

theorem awaiting_eq (s : Scope) : s.awaiting = s.ledger.blocks := rfl

/-- What has been replayed leaves a clear block if it began in one, and the forks as they were. -/
theorem Clear.of_plays (h : s.Clear) (hplays : Plays o s events B)
    (hrun : Build.play o events s = .ok ((), s')) : s'.Clear ∧ s'.forks = s.forks := by
  obtain ⟨s₁, L, hrun₁, hsince, hfragment, hplaced, -⟩ := hplays
  obtain rfl : s₁ = s' := (Prod.mk.inj (Except.ok.inj (hrun₁.symm.trans hrun))).2
  have hhere := hfragment.here_between
  refine ⟨⟨hsince.ready h.ready hfragment.opened, fun f hf => ?_, fun hb => ?_, fun hb => ?_⟩,
    hsince.forks⟩
  · refine (h.held f (hsince.forks ▸ hf)).mono fun b hb => ?_
    refine hb.of_chart hfragment.size_le (hfragment.frame b hb.1 fun he => ?_)
    exact h.ready.opened.not_busy (he ▸ hb)
  · rw [awaiting_eq, hsince.ledger] at hb
    obtain hb | hb := Ledger.mem_blocks_foldl hb
    · obtain he | ⟨hle, -⟩ := hhere
      · exact h.awaiting (he ▸ hb)
      · exact hle.not_gt (awaiting_lt h.ready.sound hb)
    · exact (hplaced.between _ hb).2.ne rfl
  · rw [hsince.keeps Scope.declaratives fun _ => rfl] at hb
    obtain he | ⟨hle, -⟩ := hhere
    · exact h.declaratives (he ▸ hb)
    · exact hle.not_gt (h.ready.sound.declaratives _ hb)

end Scope

end CobolFlow
