import CobolFlow.Graph.Basic
import Mathlib.Data.List.Forall2
import Mathlib.Order.Basic
import Mathlib.Tactic.Common

/-!
# Steps that find every index they use

A step on a graph, a catalog or a scope fails in one way only: it uses an index that names
nothing. Nothing is ever removed from these, so what has to be known of a handle is that it was in
range once. `Faultless x s post` packages the argument: from the sound state `s` the step `x`
answers, the state it leaves is sound again and has lost nothing, and `post` says where its answer
points.

The rules below are those of a total program logic. They are stated for a single state and not for
all states with a property, because a step often writes back a state that it has read before.

## Main definitions

* `Growing` — a state that only grows, and what it takes for all its handles to be in range
* `Faultless` — a step that finds all it asks for
-/

namespace CobolFlow

/-- A computation that answered goes on with its answer. -/
@[simp] theorem ok_bind {ε α β : Type} (a : α) (f : α → Except ε β) :
    (Except.ok a >>= f) = f a := rfl

theorem run_bind {σ α β : Type} {x : StateT σ (Except Fault) α} {s t : σ} {a : α}
    (h : x s = .ok (a, t)) (f : α → StateT σ (Except Fault) β) : (x >>= f) s = f a t := by
  change (x s >>= fun p => f p.1 p.2) = _
  rw [h]
  rfl

theorem exists_of_bind_eq_ok {ε α β : Type} {x : Except ε α} {f : α → Except ε β} {r : β}
    (h : (x >>= f) = .ok r) : ∃ a, x = .ok a ∧ f a = .ok r := by
  cases x with
  | error e => exact nomatch h
  | ok a => exact ⟨a, rfl, h⟩

theorem exists_of_run_bind_eq_ok {σ α β : Type} {x : StateT σ (Except Fault) α} {s : σ}
    {f : α → StateT σ (Except Fault) β} {r : β × σ} (h : (x >>= f) s = .ok r) :
    ∃ a t, x s = .ok (a, t) ∧ f a t = .ok r := by
  obtain ⟨p, hx, hf⟩ := exists_of_bind_eq_ok (x := x s) (f := fun p => f p.1 p.2) h
  exact ⟨p.1, p.2, hx, hf⟩

theorem run_lift {σ α : Type} {e : Except Fault α} {a : α} (h : e = .ok a) (s : σ) :
    (liftM e : StateT σ (Except Fault) α) s = .ok (a, s) := by
  subst h
  rfl

/-- A state in which every handle is to be in range, and which only grows. -/
class Growing (σ : Type) extends Preorder σ where
  /-- Every handle that the state holds is in range. -/
  Sound : σ → Prop

export Growing (Sound)

variable {σ α β : Type} [Growing σ]

/-- From `s`, if it is sound, the step answers; it leaves a sound state that has lost nothing, and
its answer is as `post` says. -/
def Faultless (x : StateT σ (Except Fault) α) (s : σ) (post : α → σ → Prop) : Prop :=
  Sound s → ∃ a s', x s = .ok (a, s') ∧ Sound s' ∧ s ≤ s' ∧ post a s'

namespace Faultless

variable {x : StateT σ (Except Fault) α} {s : σ} {P : α → σ → Prop} {Q : β → σ → Prop}

theorem mono {P' : α → σ → Prop} (h : Faultless x s P)
    (hP : ∀ a s', Sound s' → s ≤ s' → P a s' → P' a s') : Faultless x s P' := by
  intro hs
  obtain ⟨a, s', hx, hs', hle, ha⟩ := h hs
  exact ⟨a, s', hx, hs', hle, hP a s' hs' hle ha⟩

theorem runs (h : Faultless x s P) : Faultless x s fun _ _ => True :=
  h.mono fun _ _ _ _ _ => trivial

/-- What a step that answered from a sound state has left. -/
theorem of_eq_ok (h : Faultless x s P) (hs : Sound s) {a : α} {s' : σ} (hx : x s = .ok (a, s')) :
    Sound s' ∧ s ≤ s' ∧ P a s' := by
  obtain ⟨a₁, s₁, hx₁, h₁⟩ := h hs
  obtain ⟨rfl, rfl⟩ : a₁ = a ∧ s₁ = s' := by simpa [hx₁] using hx
  exact h₁

/-- More may be said of a step whose outcome is known. -/
theorem of_run (h : Faultless x s P) {a : α} {s' : σ} (hx : x s = .ok (a, s')) {Q : α → σ → Prop}
    (hQ : Sound s → Sound s' → s ≤ s' → P a s' → Q a s') : Faultless x s Q := by
  intro hs
  obtain ⟨hs', hle, ha⟩ := h.of_eq_ok hs hx
  exact ⟨a, s', hx, hs', hle, hQ hs hs' hle ha⟩

/-- A step that comes to another step, taken from a later state. -/
theorem of_run_eq {y : StateT σ (Except Fault) α} {t : σ} (hrun : x s = y t)
    (ht : Sound s → Sound t) (hle : s ≤ t) (h : Faultless y t P) : Faultless x s P := by
  intro hs
  obtain ⟨a, s', hy, hs', hle', ha⟩ := h (ht hs)
  exact ⟨a, s', hrun.trans hy, hs', hle.trans hle', ha⟩

theorem and {P' : α → σ → Prop} (h : Faultless x s P) (h' : Faultless x s P') :
    Faultless x s fun a s' => P a s' ∧ P' a s' := by
  intro hs
  obtain ⟨a, s', hx, hs', hle, ha⟩ := h hs
  exact ⟨a, s', hx, hs', hle, ha, (h'.of_eq_ok hs hx).2.2⟩

theorem pure {a : α} (h : Sound s → P a s) : Faultless (Pure.pure a) s P :=
  fun hs => ⟨a, s, rfl, hs, le_rfl, h hs⟩

theorem bind {f : α → StateT σ (Except Fault) β} (hx : Faultless x s P)
    (hf : ∀ a s', Sound s' → s ≤ s' → P a s' → Faultless (f a) s' Q) :
    Faultless (x >>= f) s Q := by
  intro hs
  obtain ⟨a, s₁, hxa, hs₁, hle₁, ha⟩ := hx hs
  obtain ⟨b, s₂, hfb, hs₂, hle₂, hb⟩ := hf a s₁ hs₁ hle₁ ha hs₁
  exact ⟨b, s₂, by rw [run_bind hxa, hfb], hs₂, hle₁.trans hle₂, hb⟩

/-- A step that reads the state goes on with the very state it was started from. -/
theorem get_bind {f : σ → StateT σ (Except Fault) β} (h : Sound s → Faultless (f s) s Q) :
    Faultless (get >>= f) s Q :=
  fun hs => h hs hs

theorem set {s' : σ} {P : PUnit → σ → Prop} (hs' : Sound s → Sound s') (hle : s ≤ s')
    (h : P ⟨⟩ s') : Faultless (MonadStateOf.set s' : StateT σ (Except Fault) PUnit) s P :=
  fun hs => ⟨⟨⟩, s', rfl, hs' hs, hle, h⟩

theorem modifyGet {f : σ → α × σ} (hs' : Sound s → Sound (f s).2) (hle : s ≤ (f s).2)
    (h : P (f s).1 (f s).2) :
    Faultless (MonadStateOf.modifyGet f : StateT σ (Except Fault) α) s P :=
  fun hs => ⟨(f s).1, (f s).2, rfl, hs' hs, hle, h⟩

theorem modify {f : σ → σ} {P : PUnit → σ → Prop} (hs' : Sound s → Sound (f s)) (hle : s ≤ f s)
    (h : P ⟨⟩ (f s)) : Faultless (modify f : StateT σ (Except Fault) PUnit) s P :=
  modifyGet hs' hle h

/-- A step that writes the state goes on with the state it has written. -/
theorem set_bind {s' : σ} {f : PUnit → StateT σ (Except Fault) β} (hs' : Sound s → Sound s')
    (hle : s ≤ s') (hf : Faultless (f ⟨⟩) s' Q) :
    Faultless ((MonadStateOf.set s' : StateT σ (Except Fault) PUnit) >>= f) s Q :=
  .bind (P := fun _ t => t = s') (.set hs' hle rfl) fun _ _ _ _ h => h ▸ hf

theorem modify_bind {g : σ → σ} {f : PUnit → StateT σ (Except Fault) β}
    (hs' : Sound s → Sound (g s)) (hle : s ≤ g s) (hf : Faultless (f ⟨⟩) (g s) Q) :
    Faultless ((MonadStateOf.modifyGet fun t => (PUnit.unit, g t) :
      StateT σ (Except Fault) PUnit) >>= f) s Q :=
  .bind (P := fun _ t => t = g s) (.modify hs' hle rfl) fun _ _ _ _ h => h ▸ hf

/-- A look-up that answers leaves the state alone. -/
theorem lift_bind {e : Except Fault α} {a : α} {f : α → StateT σ (Except Fault) β}
    (h : e = .ok a) (hf : Faultless (f a) s Q) : Faultless (liftM e >>= f) s Q := by
  intro hs
  rw [run_bind (run_lift h s)]
  exact hf hs

/-! ### Loops

An invariant of a loop speaks of the accumulator and of the state together. It is to hold at every
state that the loop can have reached, which is one that has grown from the first. -/

variable {γ : Type} {l : List γ}

theorem foldlM {f : α → γ → StateT σ (Except Fault) α} {init : α} (hinit : Sound s → P init s)
    (hf : ∀ c ∈ l, ∀ a s', Sound s' → s ≤ s' → P a s' → Faultless (f a c) s' P) :
    Faultless (l.foldlM f init) s P := by
  induction l generalizing init s with
  | nil => exact Faultless.pure hinit
  | cons c l ih =>
    intro hs
    rw [List.foldlM_cons]
    refine bind (hf c (by simp) init s hs le_rfl (hinit hs)) (fun a s' hs' hle ha => ?_) hs
    exact ih (fun _ => ha) fun c hc a s'' hs'' hle' =>
      hf c (by simp [hc]) a s'' hs'' (hle.trans hle')

/-- A loop whose invariant also speaks of the elements that it has dealt with. -/
theorem foldlM_progress {f : α → γ → StateT σ (Except Fault) α} {init : α}
    {I : List γ → α → σ → Prop} (hinit : Sound s → I [] init s)
    (hf : ∀ pre c rest, l = pre ++ c :: rest → ∀ a s', Sound s' → s ≤ s' → I pre a s' →
      Faultless (f a c) s' (I (pre ++ [c]))) : Faultless (l.foldlM f init) s (I l) := by
  suffices h : ∀ rest pre a s', l = pre ++ rest → s ≤ s' → (Sound s' → I pre a s') →
      Faultless (rest.foldlM f a) s' (I l) from h l [] init s rfl le_rfl hinit
  intro rest
  induction rest with
  | nil =>
    rintro pre a s' hl - ha
    obtain rfl : l = pre := by simpa using hl
    exact .pure ha
  | cons c rest ih =>
    intro pre a s' hl hle ha hs'
    rw [List.foldlM_cons]
    refine bind (hf pre c rest hl a s' hs' hle (ha hs')) (fun a₁ s₁ _ hle₁ ha₁ => ?_) hs'
    exact ih (pre ++ [c]) a₁ s₁ (by simpa using hl) (hle.trans hle₁) fun _ => ha₁

theorem forIn {f : γ → α → StateT σ (Except Fault) (ForInStep α)} {init : α}
    (hinit : Sound s → P init s)
    (hf : ∀ c ∈ l, ∀ a s', Sound s' → s ≤ s' → P a s' →
      Faultless (f c a) s' fun r => P r.value) :
    Faultless (ForIn.forIn l init f) s P := by
  induction l generalizing init s with
  | nil => exact Faultless.pure hinit
  | cons c l ih =>
    intro hs
    rw [List.forIn_cons]
    refine bind (hf c (by simp) init s hs le_rfl (hinit hs)) (fun r s' hs' hle hr => ?_) hs
    cases r with
    | done a => exact Faultless.pure fun _ => hr
    | yield a =>
      exact ih (fun _ => hr) fun c hc a s'' hs'' hle' =>
        hf c (by simp [hc]) a s'' hs'' (hle.trans hle')

/-- A loop whose invariant also speaks of the elements that are still to come. -/
theorem forIn_rest {f : γ → PUnit → StateT σ (Except Fault) (ForInStep PUnit)}
    {I : List γ → σ → Prop} (hinit : Sound s → I l s)
    (hf : ∀ c rest s', Sound s' → s ≤ s' → I (c :: rest) s' →
      Faultless (f c ⟨⟩) s' fun r s'' => r = .yield ⟨⟩ ∧ I rest s'') :
    Faultless (ForIn.forIn l ⟨⟩ f) s fun _ => I [] := by
  induction l generalizing s with
  | nil => exact Faultless.pure hinit
  | cons c l ih =>
    intro hs
    rw [List.forIn_cons]
    refine bind (hf c l s hs le_rfl (hinit hs)) (fun r s' hs' hle ⟨hr, hI⟩ => ?_) hs
    subst hr
    exact ih (fun _ => hI) fun d rest s'' hs'' hle' => hf d rest s'' hs'' (hle.trans hle')

theorem forM {f : γ → StateT σ (Except Fault) PUnit} {I : σ → Prop} (hinit : Sound s → I s)
    (hf : ∀ c ∈ l, ∀ s', Sound s' → s ≤ s' → I s' → Faultless (f c) s' fun _ => I) :
    Faultless (l.forM f) s fun _ => I := by
  induction l generalizing s with
  | nil => exact Faultless.pure hinit
  | cons c l ih =>
    intro hs
    refine bind (x := f c) (hf c (by simp) s hs le_rfl (hinit hs)) (fun _ s' hs' hle hI => ?_) hs
    exact ih (fun _ => hI) fun c hc s'' hs'' hle' => hf c (by simp [hc]) s'' hs'' (hle.trans hle')

end Faultless

/-! ### Look-ups one after another

A traversal of a list answers if each of its look-ups does. -/

section Traversals

variable {ε α β : Type} {l : List α}

theorem exists_bind_eq_ok {x : Except ε α} {f : α → Except ε β} {P : α → Prop} {Q : β → Prop}
    (hx : ∃ a, x = .ok a ∧ P a) (hf : ∀ a, P a → ∃ b, f a = .ok b ∧ Q b) :
    ∃ b, (x >>= f) = .ok b ∧ Q b := by
  obtain ⟨a, rfl, ha⟩ := hx
  exact hf a ha

theorem exists_mapM_eq_ok {f : α → Except ε β} {P : β → Prop}
    (h : ∀ a ∈ l, ∃ b, f a = .ok b ∧ P b) : ∃ bs, l.mapM f = .ok bs ∧ ∀ b ∈ bs, P b := by
  induction l with
  | nil => exact ⟨[], rfl, by simp⟩
  | cons a rest ih =>
    obtain ⟨b, hb, hPb⟩ := h a (by simp)
    obtain ⟨bs, hbs, hP⟩ := ih fun c hc => h c (by simp [hc])
    exact ⟨b :: bs, by rw [List.mapM_cons, hb, ok_bind, hbs]; rfl, by simpa [hPb] using hP⟩

theorem forall₂_of_mapM_eq_ok {f : α → Except ε β} {found : List β}
    (h : l.mapM f = .ok found) : List.Forall₂ (fun a b => a ∈ l ∧ f a = .ok b) l found := by
  induction l generalizing found with
  | nil =>
    obtain rfl : [] = found := Except.ok.inj h
    exact .nil
  | cons a rest ih =>
    rw [List.mapM_cons] at h
    cases ha : f a with
    | error e => rw [ha] at h; exact nomatch h
    | ok b =>
      rw [ha, ok_bind] at h
      cases hrest : rest.mapM f with
      | error e => rw [hrest] at h; exact nomatch h
      | ok bs =>
        rw [hrest, ok_bind] at h
        obtain rfl : b :: bs = found := Except.ok.inj h
        exact .cons ⟨by simp, ha⟩ ((ih hrest).imp fun _ _ h => ⟨by simp [h.1], h.2⟩)

theorem exists_of_forall₂_of_mem {R : α → β → Prop} {found : List β}
    (h : List.Forall₂ R l found) {b : β} (hb : b ∈ found) : ∃ a ∈ l, R a b := by
  induction h with
  | nil => exact absurd hb (by simp)
  | @cons a b' l found hab _ ih =>
    obtain rfl | hb := List.mem_cons.1 hb
    · exact ⟨a, by simp, hab⟩
    · obtain ⟨a', ha', h⟩ := ih hb
      exact ⟨a', by simp [ha'], h⟩

theorem exists_findSomeM?_eq_ok {f : α → Except ε (Option β)} {P : β → Prop}
    (h : ∀ a ∈ l, ∃ r, f a = .ok r ∧ ∀ b ∈ r, P b) :
    ∃ r, l.findSomeM? f = .ok r ∧ ∀ b ∈ r, P b := by
  induction l with
  | nil => exact ⟨none, rfl, by simp⟩
  | cons a rest ih =>
    obtain ⟨r, hr, hP⟩ := h a (by simp)
    cases r with
    | some b => exact ⟨some b, by rw [List.findSomeM?, hr]; rfl, hP⟩
    | none =>
      obtain ⟨r, hrest, hP⟩ := ih fun c hc => h c (by simp [hc])
      exact ⟨r, by rw [List.findSomeM?, hr]; exact hrest, hP⟩

theorem exists_anyM_eq_ok {f : α → Except ε Bool}
    (h : ∀ a ∈ l, ∃ r, f a = .ok r) : ∃ r, l.anyM f = .ok r := by
  induction l with
  | nil => exact ⟨false, rfl⟩
  | cons a rest ih =>
    obtain ⟨r, hr⟩ := h a (by simp)
    cases r with
    | true => exact ⟨true, by rw [List.anyM, hr]; rfl⟩
    | false =>
      obtain ⟨r, hrest⟩ := ih fun b hb => h b (by simp [hb])
      exact ⟨r, by rw [List.anyM, hr]; exact hrest⟩

theorem exists_filterM_eq_ok {f : α → Except ε Bool}
    (h : ∀ a ∈ l, ∃ r, f a = .ok r) : ∃ kept, l.filterM f = .ok kept ∧ ∀ a ∈ kept, a ∈ l := by
  have aux : ∀ (l acc : List α), (∀ a ∈ l, ∃ r, f a = .ok r) →
      ∃ kept, l.filterAuxM f acc = .ok kept ∧ ∀ a ∈ kept, a ∈ l ∨ a ∈ acc := by
    intro l
    induction l with
    | nil => exact fun acc _ => ⟨acc, rfl, fun a ha => .inr ha⟩
    | cons a rest ih =>
      intro acc h
      obtain ⟨r, hr⟩ := h a (by simp)
      obtain ⟨kept, hkept, hmem⟩ := ih (bif r then a :: acc else acc) fun b hb => h b (by simp [hb])
      refine ⟨kept, by rw [List.filterAuxM, hr]; exact hkept, fun b hb => ?_⟩
      obtain hb | hb := hmem b hb
      · exact .inl (by simp [hb])
      · cases r with
        | false => exact .inr hb
        | true =>
          obtain rfl | hb := List.mem_cons.1 hb
          · exact .inl (by simp)
          · exact .inr hb
  obtain ⟨kept, hkept, hmem⟩ := aux l [] h
  refine ⟨kept.reverse, by rw [List.filterM, hkept]; rfl, fun a ha => ?_⟩
  simpa using hmem a (List.mem_reverse.1 ha)

/-- Keeping some elements of a list, where it can be said of each whether it is kept. -/
theorem filterM_eq_ok_filter {f : α → Except ε Bool} {p : α → Bool}
    (h : ∀ a ∈ l, f a = .ok (p a)) : l.filterM f = .ok (l.filter p) := by
  have aux : ∀ (l acc : List α), (∀ a ∈ l, f a = .ok (p a)) →
      l.filterAuxM f acc = .ok ((l.filter p).reverse ++ acc) := by
    intro l
    induction l with
    | nil => exact fun acc _ => rfl
    | cons a l ih =>
      intro acc h
      rw [List.filterAuxM, h a (by simp), ok_bind, ih _ fun b hb => h b (by simp [hb])]
      cases hp : p a <;> simp [hp]
  rw [List.filterM, aux l [] h, List.append_nil, ok_bind, List.reverse_reverse]
  rfl

/-- Whether any element is as asked, where this can be said of each. -/
theorem anyM_eq_ok_any {f : α → Except ε Bool} {p : α → Bool}
    (h : ∀ a ∈ l, f a = .ok (p a)) : l.anyM f = .ok (l.any p) := by
  induction l with
  | nil => rfl
  | cons a l ih =>
    rw [List.anyM, h a (by simp), ok_bind, List.any_cons]
    cases p a with
    | true => rfl
    | false => exact ih fun b hb => h b (by simp [hb])

end Traversals

end CobolFlow
