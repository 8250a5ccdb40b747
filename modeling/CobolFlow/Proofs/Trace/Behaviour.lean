import CobolFlow.Proofs.Trace.Reading

/-!
# Behaviours

What a piece of a program can do, as languages: the words it can say before it falls through to
what follows, and, for each way of leaving, the words it can say before it leaves that way. Both
are languages and not words because a decision takes either branch.

A behaviour is put to use by saying what follows: `B.into X K` is all that is said if the piece is
followed by `X` and a departure `e` by `K e`. Every construction below comes with the equation that
says what it is put to use.

## Main definitions

* `Exit` — the ways of leaving
* `Behaviour`, `Behaviour.into`
* `Behaviour.skip`, `leave`, `after`, `seq`, `loop` — how behaviours are composed, with `+` for
  the one or the other
-/

namespace CobolFlow

open scoped Computability

/-- A way to leave a sequence of statements other than at its end. -/
inductive Exit
  /-- The program ends. -/
  | halt
  /-- A GO TO, known by its node. -/
  | jump (node : NodeId)
  | nextSentence
deriving DecidableEq

/-- Whether a statement takes an exit. -/
def Exit.IsBy : Exit → Instruction → Prop
  | .halt, _ => False
  | .jump n, i => i.node = n
  | .nextSentence, i => i.tag = .nextSentence

/-- Whether what is said ends with a statement that takes the exit. -/
def Exit.Signs (e : Exit) (w : List Instruction) : Prop := ∃ i ∈ w.getLast?, e.IsBy i

/-- What a piece of a program can say before it falls through, and before it leaves. -/
@[ext]
structure Behaviour where
  falls : Language Instruction
  exits : Exit → Language Instruction

namespace Behaviour

variable (B C : Behaviour) (X Y : Language Instruction) (K : Exit → Language Instruction)

/-- All that is said if `X` follows, or `K e` where the exit `e` is taken. -/
def into : Language Instruction := B.falls * X + ⨆ e, B.exits e * K e

theorem into_congr (h : B.falls ≠ 0 → X = Y) : B.into X K = B.into Y K := by
  by_cases hfalls : B.falls = 0
  · simp [into, hfalls]
  · rw [h hfalls]

/-- Nothing at all can be done. -/
instance : Zero Behaviour := ⟨0, 0⟩

@[simp] theorem falls_zero : (0 : Behaviour).falls = 0 := rfl

@[simp] theorem exits_zero (e : Exit) : (0 : Behaviour).exits e = 0 := rfl

@[simp] theorem into_zero : (0 : Behaviour).into X K = 0 := by
  simp only [into, falls_zero, exits_zero, zero_mul, zero_add]
  exact iSup_bot

/-- Falls through and says nothing. -/
def skip : Behaviour := ⟨1, 0⟩

@[simp] theorem into_skip : skip.into X K = X := by
  have hexits : ⨆ e, (0 : Exit → Language Instruction) e * K e = 0 := by
    simp only [Pi.zero_apply, zero_mul]
    exact iSup_bot
  rw [into, skip, hexits, one_mul, add_zero]

/-- Leaves by `e` and says nothing. -/
def leave (e : Exit) : Behaviour := ⟨0, fun e' => if e' = e then 1 else 0⟩

@[simp] theorem into_leave (e : Exit) : (leave e).into X K = K e := by
  ext w
  simp only [into, leave, zero_mul, zero_add, Language.mem_iSup, ite_mul, one_mul]
  constructor
  · rintro ⟨e', hw⟩
    split at hw
    · next h => exact h ▸ hw
    · exact absurd hw (Language.notMem_zero w)
  · exact fun hw => ⟨e, by simpa using hw⟩

/-- First says a word of `L`. -/
def after (L : Language Instruction) : Behaviour := ⟨L * B.falls, fun e => L * B.exits e⟩

@[simp] theorem into_after (L : Language Instruction) : (B.after L).into X K = L * B.into X K := by
  simp only [into, after, mul_add, Language.mul_iSup, mul_assoc]

/-- First says the given instructions. -/
def saying (w : List Instruction) : Behaviour := B.after (just w)

@[simp] theorem saying_nil : B.saying [] = B := by
  simp [saying, after]

/-- One after the other. -/
def seq : Behaviour := ⟨B.falls * C.falls, fun e => B.exits e + B.falls * C.exits e⟩

@[simp] theorem into_seq : (B.seq C).into X K = B.into (C.into X K) K := by
  ext w
  simp only [into, seq, mul_add, add_mul, Language.mul_iSup, Language.mem_add, Language.mem_iSup,
    mul_assoc]
  constructor
  · rintro (hw | ⟨e, hw | hw⟩)
    · exact .inl (.inl hw)
    · exact .inr ⟨e, hw⟩
    · exact .inl (.inr ⟨e, hw⟩)
  · rintro ((hw | ⟨e, hw⟩) | ⟨e, hw⟩)
    · exact .inl hw
    · exact .inr ⟨e, .inr hw⟩
    · exact .inr ⟨e, .inl hw⟩

/-- The one or the other. -/
instance : Add Behaviour := ⟨fun B C => ⟨B.falls + C.falls, fun e => B.exits e + C.exits e⟩⟩

instance : AddCommMonoid Behaviour where
  add_assoc _ _ _ := Behaviour.ext (add_assoc ..) (funext fun _ => add_assoc ..)
  zero_add _ := Behaviour.ext (zero_add _) (funext fun _ => zero_add _)
  add_zero _ := Behaviour.ext (add_zero _) (funext fun _ => add_zero _)
  add_comm _ _ := Behaviour.ext (add_comm ..) (funext fun _ => add_comm ..)
  nsmul := nsmulRec

@[simp] theorem skip_seq : skip.seq B = B := by
  ext <;> simp [skip, seq]

@[simp] theorem seq_skip : B.seq skip = B := by
  ext <;> simp [skip, seq]

theorem skip_saying_seq (w : List Instruction) : (skip.saying w).seq B = B.saying w := by
  ext <;> simp [skip, saying, after, seq]

@[simp] theorem falls_add : (B + C).falls = B.falls + C.falls := rfl

@[simp] theorem exits_add (e : Exit) : (B + C).exits e = B.exits e + C.exits e := rfl

@[simp] theorem into_add : (B + C).into X K = B.into X K + C.into X K := by
  ext w
  simp only [into, falls_add, exits_add, add_mul, Language.mem_add, Language.mem_iSup,
    exists_or]
  tauto

theorem into_sum (l : List Behaviour) : l.sum.into X K = (l.map (·.into X K)).sum := by
  induction l with
  | nil => exact into_zero X K
  | cons B rest ih => rw [List.sum_cons, into_add, ih, List.map_cons, List.sum_cons]

theorem exists_falls_ne_zero_of_sum {l : List Behaviour} (h : l.sum.falls ≠ 0) :
    ∃ B ∈ l, B.falls ≠ 0 := by
  induction l with
  | nil => exact absurd rfl h
  | cons B rest ih =>
    rw [List.sum_cons, falls_add] at h
    by_cases hB : B.falls = 0
    · rw [hB, zero_add] at h
      obtain ⟨C, hC, hne⟩ := ih h
      exact ⟨C, List.mem_cons_of_mem B hC, hne⟩
    · exact ⟨B, List.mem_cons_self, hB⟩

/-- What is left of a behaviour when nothing follows it: only its departures. -/
def leaving : Behaviour := ⟨0, B.exits⟩

theorem into_eq_add_leaving : B.into X K = B.falls * X + B.leaving.into Y K := by
  simp [into, leaving]

/-! ### Loops -/

variable (i : Instruction)

/-- `i` is said before each round and once more at the end. -/
def repeatBefore : Behaviour :=
  (skip + B.leaving).after ((just [i] * B.falls)∗ * just [i])

/-- `i` is said after each round, of which there is at least one. -/
def repeatAfter : Behaviour := (B.seq (skip.saying [i])).after (B.falls * just [i])∗

/-- A loop over a body, with its test at either end, that runs any number of times or once. -/
def loop (isIterative testAfter : Bool) : Behaviour :=
  match isIterative, testAfter with
  | true, false => B.repeatBefore i
  | true, true => B.repeatAfter i
  | false, false => B.saying [i]
  | false, true => B

theorem nil_notMem_just_mul {w : List Instruction} (hw : w ≠ []) (L : Language Instruction) :
    [] ∉ just w * L := by
  rw [Language.mem_mul]
  rintro ⟨u, hu, v, -, huv⟩
  obtain rfl : u = w := hu
  exact hw (List.append_eq_nil_iff.1 huv).1

theorem nil_notMem_mul_just {w : List Instruction} (hw : w ≠ []) (L : Language Instruction) :
    [] ∉ L * just w := by
  rw [Language.mem_mul]
  rintro ⟨u, -, v, hv, huv⟩
  obtain rfl : v = w := hv
  exact hw (List.append_eq_nil_iff.1 huv).2

/-- A test that leads to a body which leads back to it. -/
theorem eq_into_repeatBefore {x : Language Instruction} (h : x = just [i] * (B.into x K + X)) :
    x = (B.repeatBefore i).into X K := by
  have harden : x = (just [i] * B.falls) * x + just [i] * (B.leaving.into 0 K + X) := by
    conv_lhs => rw [h, B.into_eq_add_leaving x 0 K]
    simp only [mul_add, mul_assoc, add_assoc]
  rw [Language.self_eq_mul_add_iff (nil_notMem_just_mul (by simp) _)] at harden
  have hleaving : B.leaving.into X K = B.leaving.into 0 K :=
    B.leaving.into_congr X 0 K fun h => absurd rfl h
  rw [harden, repeatBefore, into_after, into_add, into_skip, hleaving, mul_assoc, add_comm X]

/-- A body that leads to a test which leads back to it. -/
theorem eq_into_repeatAfter {y : Language Instruction}
    (h : y = B.into (just [i] * (y + X)) K) : y = (B.repeatAfter i).into X K := by
  have harden : y = (B.falls * just [i]) * y +
      (B.falls * (just [i] * X) + B.leaving.into 0 K) := by
    conv_lhs => rw [h, B.into_eq_add_leaving _ 0 K]
    simp only [mul_add, mul_assoc, add_assoc]
  rw [Language.self_eq_mul_add_iff (nil_notMem_mul_just (by simp) _)] at harden
  rw [harden, repeatAfter, into_after, into_seq, saying, into_after, into_skip,
    B.into_eq_add_leaving _ 0 K]

end Behaviour

end CobolFlow
