import CobolFlow.Proofs.Trace.Erasure

/-!
# Pieces that lead to each other

The sentences of a division lead to each other: control falls from a sentence into later ones, and
jumps lead to any of them. What is read from each sentence on is therefore given by a system of
equations, one for each. If nobody leaves for another sentence unheard, the system has only one
solution, although the jumps may lead back: to whatever is said after a jump, fewer words are left.

## Main definitions

* `Course` — which pieces lead to which
* `Course.Solves` — what is read from each piece on, by equations

## Main results

* `Course.Solves.eq` — there is at most one solution
* `Course.Solves.erase_eq` — pieces that sound alike have solutions that do
-/

namespace CobolFlow

open scoped Computability

/-- Which pieces of a program, known by their places, lead to which. -/
structure Course where
  /-- Where control falls to from the end of a piece. -/
  falls : ℕ → Set ℕ
  /-- Nothing need follow the piece. -/
  stops : ℕ → Prop
  /-- Where a departure leads. -/
  jumps : ℕ → Exit → Set ℕ
  /-- Nothing need follow a departure. -/
  rests : ℕ → Exit → Prop

/-- What is read from one of some pieces on, or nothing if `rests` says so. -/
def Course.among (R : ℕ → Language Instruction) (pieces : Set ℕ) (rests : Prop) :
    Language Instruction :=
  {w | (∃ i ∈ pieces, w ∈ R i) ∨ rests ∧ w = []}

namespace Course

variable {C : Course} {n : ℕ} {B B' : ℕ → Behaviour} {R R' : ℕ → Language Instruction}
  {pieces : Set ℕ} {rests : Prop} {w : List Instruction}

theorem mem_among : w ∈ among R pieces rests ↔ (∃ i ∈ pieces, w ∈ R i) ∨ rests ∧ w = [] := Iff.rfl

theorem erase_among (R : ℕ → Language Instruction) (pieces : Set ℕ) (rests : Prop) :
    erase (among R pieces rests) = among (fun i => erase (R i)) pieces rests := by
  ext w
  simp only [mem_erase, mem_among]
  constructor
  · rintro ⟨v, ⟨i, hi, hv⟩ | ⟨hrests, rfl⟩, rfl⟩
    · exact .inl ⟨i, hi, v, hv, rfl⟩
    · exact .inr ⟨hrests, rfl⟩
  · rintro (⟨i, hi, v, hv, rfl⟩ | ⟨hrests, rfl⟩)
    · exact ⟨v, .inl ⟨i, hi, hv⟩, rfl⟩
    · exact ⟨[], .inr ⟨hrests, rfl⟩, rfl⟩

variable (C n) in
/-- Control falls onwards only, and who ends the program leads nowhere. -/
structure Guarded : Prop where
  falls : ∀ i < n, ∀ k ∈ C.falls i, i < k ∧ k < n
  jumps : ∀ i < n, ∀ e, ∀ k ∈ C.jumps i e, k < n
  halt : ∀ i < n, C.jumps i .halt = ∅

variable (C n) in
/-- What is read from each of the first `n` pieces on is what it does, and then what is read from
where it leads. -/
def Solves (B : ℕ → Behaviour) (R : ℕ → Language Instruction) : Prop :=
  ∀ i < n, R i = (B i).into (among R (C.falls i) (C.stops i)) fun e =>
    among R (C.jumps i e) (C.rests i e)

namespace Solves

/-- A word that is in one solution is in every other: after a jump it is shorter, and before one
control only falls onwards. -/
theorem mem_of_mem (hC : C.Guarded n) (hB : ∀ i < n, (B i).IsHeard) (h : C.Solves n B R)
    (h' : C.Solves n B R') (w : List Instruction) : ∀ i < n, w ∈ R i → w ∈ R' i := by
  induction hlength : w.length using Nat.strong_induction_on generalizing w with
  | _ length ihword =>
    intro i
    induction hrest : n - i using Nat.strong_induction_on generalizing i w with
    | _ rest ihpiece =>
      intro hi hw
      have hinto : w ∈ (B i).into _ _ := h i hi ▸ hw
      rw [h' i hi]
      obtain ⟨u, hu, v, hv, rfl⟩ | hexits := hinto
      · -- Control falls on.
        refine .inl ⟨u, hu, v, ?_, rfl⟩
        obtain ⟨k, hk, hv⟩ | hstops := hv
        · obtain ⟨hik, hkn⟩ := hC.falls i hi k hk
          refine .inl ⟨k, hk, ?_⟩
          obtain hlt | heq := Nat.lt_or_eq_of_le
            (show v.length ≤ length by rw [← hlength, List.length_append]; omega)
          · exact ihword _ hlt v rfl k hkn hv
          · exact ihpiece (n - k) (by omega) v heq k rfl hkn hv
        · exact .inr hstops
      · -- A departure is taken.
        obtain ⟨e, u, hu, v, hv, rfl⟩ := Language.mem_iSup.1 hexits
        refine .inr (Language.mem_iSup.2 ⟨e, u, hu, v, ?_, rfl⟩)
        obtain ⟨k, hk, hv⟩ | hrests := hv
        · have hne : e ≠ .halt := by
            rintro rfl
            rw [hC.halt i hi] at hk
            exact hk
          have hpos : 0 < u.length := List.length_pos_of_ne_nil fun hnil =>
            hB i hi e hne (hnil ▸ hu)
          have hlt : v.length < length := by rw [← hlength, List.length_append]; omega
          exact .inl ⟨k, hk, ihword _ hlt v rfl k (hC.jumps i hi e k hk) hv⟩
        · exact .inr hrests

/-- **There is at most one solution** if everybody who leaves is heard. -/
theorem eq (hC : C.Guarded n) (hB : ∀ i < n, (B i).IsHeard) (h : C.Solves n B R)
    (h' : C.Solves n B R') {i : ℕ} (hi : i < n) : R i = R' i :=
  Set.Subset.antisymm (fun w => mem_of_mem hC hB h h' w i hi)
    fun w => mem_of_mem hC hB h' h w i hi

/-- What is heard is a solution for what is heard of the pieces. -/
theorem erased (h : C.Solves n B R) : C.Solves n (fun i => (B i).erased) fun i => erase (R i) := by
  intro i hi
  have hinto := congrArg erase (h i hi)
  simpa only [Behaviour.erase_into, erase_among] using hinto

/-- **Pieces that sound alike** and lead to the same places sound alike from there on. -/
theorem erase_eq (hC : C.Guarded n) (hB : ∀ i < n, (B i).Alike (B' i)) (h : C.Solves n B R)
    (h' : C.Solves n B' R') {i : ℕ} (hi : i < n) : erase (R i) = erase (R' i) := by
  have hsolves' : C.Solves n (fun i => (B i).erased) fun i => erase (R' i) := fun k hk => by
    simpa only [(hB k hk).erased] using h'.erased k hk
  exact h.erased.eq hC (fun k hk => (hB k hk).heard) hsolves' hi

end Solves

end Course

end CobolFlow
