import CobolFlow.Proofs.Faultless

/-!
# What a step ensures if it answers

`Faultless` says that a step answers, and needs for this that every handle is in range. Where it is
known already that a step answers, what it does can be said without any handle being looked after:
`Ensures x s post` says of the step `x` only that, *if* it answers from `s`, its answer and the
state it leaves are as `post` says. The rules are those of a partial program logic.

## Main definitions

* `Ensures` — what is true of the answer of a step, if it answers
-/

namespace CobolFlow

variable {σ α β γ δ : Type}

/-- If the step answers, its answer and the state it leaves are as `post` says. -/
def Ensures (x : StateT σ (Except Fault) α) (s : σ) (post : α → σ → Prop) : Prop :=
  ∀ a s', x s = .ok (a, s') → post a s'

namespace Ensures

variable {x : StateT σ (Except Fault) α} {s : σ} {P : α → σ → Prop} {Q : β → σ → Prop}

theorem mono {P' : α → σ → Prop} (h : Ensures x s P) (hP : ∀ a s', P a s' → P' a s') :
    Ensures x s P' :=
  fun a s' hx => hP a s' (h a s' hx)

theorem and {P' : α → σ → Prop} (h : Ensures x s P) (h' : Ensures x s P') :
    Ensures x s fun a s' => P a s' ∧ P' a s' :=
  fun a s' hrun => ⟨h a s' hrun, h' a s' hrun⟩

theorem pure {a : α} (h : P a s) : Ensures (Pure.pure a) s P := by
  rintro _ _ ⟨⟩
  exact h

theorem bind {f : α → StateT σ (Except Fault) β} (hx : Ensures x s P)
    (hf : ∀ a s', P a s' → Ensures (f a) s' Q) : Ensures (x >>= f) s Q := by
  intro b s₂ h
  obtain ⟨a, s₁, hxa, hfb⟩ := exists_of_run_bind_eq_ok h
  exact hf a s₁ (hx a s₁ hxa) b s₂ hfb

theorem pure_bind {a : α} {f : α → StateT σ (Except Fault) β} (h : Ensures (f a) s Q) :
    Ensures (Pure.pure a >>= f) s Q := h

/-- Two steps that are understood together. -/
theorem bind_bind {y : α → StateT σ (Except Fault) β} {f : β → StateT σ (Except Fault) δ}
    {R : δ → σ → Prop} (h : Ensures (x >>= y) s Q)
    (hf : ∀ b s', Q b s' → Ensures (f b) s' R) : Ensures (x >>= fun a => y a >>= f) s R := by
  rw [← bind_assoc]
  exact bind h hf

/-- A step that reads the state goes on with the very state it was started from. -/
theorem get_bind {f : σ → StateT σ (Except Fault) β} (h : Ensures (f s) s Q) :
    Ensures (get >>= f) s Q := h

theorem modifyGet {f : σ → α × σ} (h : P (f s).1 (f s).2) :
    Ensures (MonadStateOf.modifyGet f : StateT σ (Except Fault) α) s P := by
  intro a s' hx
  have hx : (f s).1 = a ∧ (f s).2 = s' := Prod.mk.inj (Except.ok.inj hx)
  rwa [← hx.1, ← hx.2]

theorem modify {f : σ → σ} {P : PUnit → σ → Prop} (h : P ⟨⟩ (f s)) :
    Ensures (modify f : StateT σ (Except Fault) PUnit) s P :=
  modifyGet h

/-- A step that writes the state goes on with the state it has written. -/
theorem set_bind {s' : σ} {f : PUnit → StateT σ (Except Fault) β} (h : Ensures (f ⟨⟩) s' Q) :
    Ensures ((MonadStateOf.set s' : StateT σ (Except Fault) PUnit) >>= f) s Q := h

theorem modify_bind {g : σ → σ} {f : PUnit → StateT σ (Except Fault) β}
    (h : Ensures (f ⟨⟩) (g s) Q) :
    Ensures ((MonadStateOf.modifyGet fun t => (PUnit.unit, g t) :
      StateT σ (Except Fault) PUnit) >>= f) s Q := h

/-- A look-up that answers leaves the state alone. -/
theorem lift {e : Except Fault α} (h : ∀ a, e = .ok a → P a s) :
    Ensures (liftM e : StateT σ (Except Fault) α) s P := by
  intro a s' hx
  cases e with
  | error fault => exact nomatch hx
  | ok a' =>
    cases hx
    exact h a rfl

theorem lift_bind {e : Except Fault α} {f : α → StateT σ (Except Fault) β}
    (h : ∀ a, e = .ok a → Ensures (f a) s Q) : Ensures (liftM e >>= f) s Q :=
  bind (P := fun a t => t = s ∧ e = .ok a) (lift fun _ ha => ⟨rfl, ha⟩)
    fun a _ ht => ht.1 ▸ h a ht.2

/-! ### Loops -/

variable {l : List γ}

theorem foldlM {f : α → γ → StateT σ (Except Fault) α} {init : α} (hinit : P init s)
    (hf : ∀ c ∈ l, ∀ a s', P a s' → Ensures (f a c) s' P) : Ensures (l.foldlM f init) s P := by
  induction l generalizing init s with
  | nil => exact pure hinit
  | cons c l ih =>
    rw [List.foldlM_cons]
    exact bind (hf c (by simp) init s hinit) fun a s' ha =>
      ih ha fun c hc => hf c (by simp [hc])

/-- A loop whose invariant also speaks of the elements that it has dealt with. -/
theorem foldlM_progress {f : α → γ → StateT σ (Except Fault) α} {init : α}
    {I : List γ → α → σ → Prop} (hinit : I [] init s)
    (hf : ∀ pre c rest, l = pre ++ c :: rest → ∀ a s', I pre a s' →
      Ensures (f a c) s' (I (pre ++ [c]))) : Ensures (l.foldlM f init) s (I l) := by
  suffices h : ∀ rest pre a s', l = pre ++ rest → I pre a s' →
      Ensures (rest.foldlM f a) s' (I l) from h l [] init s rfl hinit
  intro rest
  induction rest with
  | nil =>
    intro pre a s' hl h
    obtain rfl : l = pre := by simpa using hl
    exact pure h
  | cons c rest ih =>
    intro pre a s' hl h
    rw [List.foldlM_cons]
    exact bind (hf pre c rest hl a s' h) fun a₁ s₁ h₁ =>
      ih (pre ++ [c]) a₁ s₁ (by simpa using hl) h₁

theorem mapM {f : γ → StateT σ (Except Fault) α} {I : List α → σ → Prop} (hinit : I [] s)
    (hf : ∀ c ∈ l, ∀ done s', I done s' → Ensures (f c) s' fun a s'' => I (done ++ [a]) s'') :
    Ensures (l.mapM f) s I := by
  suffices h : ∀ (rest : List γ) done s', (∀ c ∈ rest, c ∈ l) → I done s' →
      Ensures (rest.mapM f) s' fun more s'' => I (done ++ more) s'' from
    (h l [] s (fun _ h => h) hinit).mono fun _ _ h => h
  intro rest
  induction rest with
  | nil => exact fun done s' _ h => pure (by simpa using h)
  | cons c rest ih =>
    intro done s' hrest h
    rw [List.mapM_cons]
    refine bind (hf c (hrest c (by simp)) done s' h) fun a s₁ h₁ => ?_
    refine bind (ih (done ++ [a]) s₁ (fun c hc => hrest c (by simp [hc])) h₁) fun more s₂ h₂ => ?_
    exact pure (by simpa using h₂)

theorem filterM {f : γ → StateT σ (Except Fault) Bool} {I : σ → Prop} (hinit : I s)
    (hf : ∀ c ∈ l, ∀ s', I s' → Ensures (f c) s' fun _ => I) :
    Ensures (l.filterM f) s fun _ => I := by
  have haux : ∀ (rest kept : List γ) s', (∀ c ∈ rest, c ∈ l) → I s' →
      Ensures (rest.filterAuxM f kept) s' fun _ => I := by
    intro rest
    induction rest with
    | nil => exact fun kept s' _ h => pure h
    | cons c rest ih =>
      intro kept s' hrest h
      exact bind (hf c (hrest c (by simp)) s' h) fun r s₁ h₁ =>
        ih _ s₁ (fun c hc => hrest c (by simp [hc])) h₁
  exact bind (haux l [] s (fun _ h => h) hinit) fun _ _ h => pure h

theorem forIn {f : γ → α → StateT σ (Except Fault) (ForInStep α)} {init : α} (hinit : P init s)
    (hf : ∀ c ∈ l, ∀ a s', P a s' → Ensures (f c a) s' fun r => P r.value) :
    Ensures (ForIn.forIn l init f) s P := by
  induction l generalizing init s with
  | nil => exact pure hinit
  | cons c l ih =>
    rw [List.forIn_cons]
    refine bind (hf c (by simp) init s hinit) fun r s' hr => ?_
    cases r with
    | done a => exact pure hr
    | yield a => exact ih hr fun c hc => hf c (by simp [hc])

/-- A loop without early return, whose invariant also speaks of the elements still to come. -/
theorem forIn_rest {f : γ → PUnit → StateT σ (Except Fault) (ForInStep PUnit)}
    {I : List γ → σ → Prop} (hinit : I l s)
    (hf : ∀ c rest s', I (c :: rest) s' →
      Ensures (f c ⟨⟩) s' fun r s'' => r = .yield ⟨⟩ ∧ I rest s'') :
    Ensures (ForIn.forIn l ⟨⟩ f) s fun _ => I [] := by
  induction l generalizing s with
  | nil => exact pure hinit
  | cons c l ih =>
    rw [List.forIn_cons]
    rintro b s₂ h
    obtain ⟨r, s₁, hr, hrest⟩ := exists_of_run_bind_eq_ok h
    obtain ⟨rfl, hI⟩ := hf c l s hinit r s₁ hr
    exact ih hI b s₂ hrest

theorem forM {f : γ → StateT σ (Except Fault) PUnit} {I : σ → Prop} (hinit : I s)
    (hf : ∀ c ∈ l, ∀ s', I s' → Ensures (f c) s' fun _ => I) :
    Ensures (l.forM f) s fun _ => I := by
  induction l generalizing s with
  | nil => exact pure hinit
  | cons c l ih =>
    exact bind (x := f c) (hf c (by simp) s hinit) fun _ s' hI =>
      ih hI fun c hc => hf c (by simp [hc])

end Ensures

end CobolFlow
