import CobolFlow.Proofs.Calls.Capture
import CobolFlow.Proofs.Members

/-!
# What every capture keeps

The capture of ranges is made of three things: something is reported, a group is found to close a
cycle, and the blocks of a range are copied. What each of them keeps is kept by the capture of all
ranges, in whatever order this comes to them. Nothing is assumed of the handles.

The blocks that are copied are those of a range of the catalog, from its first on, and the catalog
is never changed. So a property of the ranges may be used wherever blocks are copied.

## Main definitions

* `Build.Captures` — what each part of the capture keeps

## Main results

* `Build.Captures.resolvePerforms` — it is kept by the capture of all ranges
-/

namespace CobolFlow.Build

/-- Each part of the capture keeps `I`. -/
structure Captures (I : Scope → Prop) : Prop where
  report : ∀ {s : Scope} (p : Problem), I s → I (s.reporting [p])
  /-- A group is found to close a cycle. -/
  mark : ∀ {s : Scope} {i : GroupId} {g : Graph}, I s →
    Graph.modifyGroup i (fun group => { group with recursive := true }) s.graph = .ok ((), g) →
      I { s with graph := g }
  relocate : ∀ {s : Scope} {w : PendingPerform} {range : String} {blocks captured : List BlockId},
    I s → s.procedures.captured? w.range = some blocks → captured ⊆ blocks →
      captured.head? = blocks.head? → Ensures (Build.relocate w range captured) s fun _ => I

namespace Captures

variable {I : Scope → Prop} (hI : Captures I) {s : Scope} {b : BlockId}
include hI

/-! ### The range of a PERFORM -/

theorem report_ensures (h : I s) (p : Problem) : Ensures (Build.report p) s fun _ s' =>
    I s' ∧ s'.procedures = s.procedures :=
  .modify ⟨hI.report p h, rfl⟩

theorem lookup (h : I s) (n : QualifiedName) (span : Span) :
    Ensures (Build.lookup n span) s fun p? s' =>
      p? = s.procedures.find? n ∧ I s' ∧ s'.procedures = s.procedures := by
  refine .get_bind (.lift_bind fun r hr => ?_)
  rw [Procedures.find?, hr]
  cases r with
  | unique p => exact .pure ⟨rfl, h, rfl⟩
  | absent => exact .bind (hI.report_ensures h _) fun _ _ h => .pure ⟨rfl, h⟩
  | ambiguous candidates => exact .bind (hI.report_ensures h _) fun _ _ h => .pure ⟨rfl, h⟩

/-- The range of a PERFORM is one of the catalog. -/
theorem performedRange (h : I s) (w : PendingPerform) :
    Ensures (Build.performedRange w) s fun range? s' => I s' ∧ s'.procedures = s.procedures ∧
      ∀ range ∈ range?, s.procedures.performed? w.range = some range := by
  refine .bind (hI.lookup h _ _) ?_
  rintro _ s₁ ⟨rfl, h₁, hprocedures₁⟩
  cases hfirst : s.procedures.find? w.range.first with
  | none => exact .pure ⟨h₁, hprocedures₁, by simp⟩
  | some first =>
    have hlast : ∀ (last : ProcedureId) (s₂ : Scope), I s₂ → s₂.procedures = s.procedures →
        s.procedures.through? w.range first = some last → Ensures (do
        if last < first then
          let c := (← get).procedures
          Build.report
            { kind := .invalidPerformRange (← c.procedure first).name (← c.procedure last).name
              span := w.span }
          return none
        else
          return some (first, last) : Build (Option (ProcedureId × ProcedureId))) s₂
        fun range? s' => I s' ∧ s'.procedures = s.procedures ∧
          ∀ range ∈ range?, s.procedures.performed? w.range = some range := by
      intro last s₂ h₂ hprocedures₂ hthrough
      by_cases hlt : last < first
      · rw [if_pos hlt]
        refine .get_bind (.lift_bind fun _ _ => .lift_bind fun _ _ =>
          .bind (hI.report_ensures h₂ _) fun _ _ h₃ => .pure ?_)
        exact ⟨h₃.1, h₃.2.trans hprocedures₂, by simp⟩
      · rw [if_neg hlt]
        refine .pure ⟨h₂, hprocedures₂, fun range hrange => ?_⟩
        obtain rfl := Option.some.inj hrange
        rw [Procedures.performed?, hfirst, Option.bind_some, hthrough, Option.bind_some,
          if_neg hlt]
    have hthrough : s.procedures.through? w.range first =
        w.range.through.elim (some first) s.procedures.find? := by
      rw [Procedures.through?]
      cases w.range.through <;> rfl
    dsimp only
    cases hcase : w.range.through with
    | none =>
      rw [hcase] at hthrough
      exact hlast first s₁ h₁ hprocedures₁ hthrough
    | some through =>
      rw [hcase] at hthrough
      refine .bind (hI.lookup h₁ _ _) ?_
      rintro _ s₂ ⟨rfl, h₂, hprocedures₂⟩
      rw [hprocedures₁]
      cases hfound : s.procedures.find? through with
      | none => exact .pure ⟨h₂, hprocedures₂.trans hprocedures₁, by simp⟩
      | some last =>
        exact hlast last s₂ h₂ (hprocedures₂.trans hprocedures₁) (hthrough.trans hfound)

/-! ### The blocks of a range -/

section Nested

variable {capture : ℕ → Capture → Build Capture} {s₀ : Scope}
  (hcapture : ∀ (j : ℕ) (c : Capture) (s : Scope), I s → s.procedures = s₀.procedures →
    Ensures (capture j c) s fun _ s' => I s' ∧ s'.procedures = s₀.procedures)
include hcapture

theorem visitCallSite (h : I s) (hs : s.procedures = s₀.procedures) (w : PendingPerform)
    (range : String) (b : BlockId) (c : Capture) :
    Ensures (Build.visitCallSite capture w range b c) s fun _ s' =>
      I s' ∧ s'.procedures = s₀.procedures := by
  refine .get_bind (.lift_bind fun block _ => ?_)
  split
  swap
  · exact .pure ⟨h, hs⟩
  split
  swap
  · exact .pure ⟨h, hs⟩
  split
  · exact hcapture _ c s h hs
  · refine .bind (hI.report_ensures h _) fun _ s₁ h₁ => .bind ?_ fun _ _ h₂ => .pure h₂
    intro _ s₂ hrun
    obtain ⟨g, hg, rfl⟩ := exists_of_editGraph_eq_ok hrun
    exact ⟨hI.mark h₁.1 hg, h₁.2.trans hs⟩
  · exact .pure ⟨h, hs⟩

/-- What is collected are blocks of the range, from its first on. -/
theorem collect (h : I s) (hs : s.procedures = s₀.procedures) (w : PendingPerform) (range : String)
    (blocks : List BlockId) (c : Capture) :
    Ensures (Build.collect capture w range blocks c) s fun r s' =>
      (I s' ∧ s'.procedures = s₀.procedures) ∧ r.1 ⊆ blocks ∧ r.1.head? = blocks.head? := by
  cases blocks with
  | nil => exact .pure ⟨⟨h, hs⟩, List.Subset.refl _, rfl⟩
  | cons first rest =>
    rw [Build.collect, List.foldlM_cons]
    have hstep : ∀ b ∈ first :: rest, ∀ (collected : List BlockId) (c : Capture) (s : Scope),
        I s ∧ s.procedures = s₀.procedures → collected ⊆ first :: rest →
        (collected = [] ∧ b = first ∨ collected.head? = some first) →
        Ensures (if collected.contains b then do
            Build.report { kind := .recursivePerform range b, span := w.span }
            return (collected, c)
          else do
            return (collected ++ [b], ← Build.visitCallSite capture w range b c)) s
          fun r s' => (I s' ∧ s'.procedures = s₀.procedures) ∧ r.1 ⊆ first :: rest ∧
            r.1.head? = some first := by
      intro b hb collected c s h hsub hhead
      split
      · next hcontains =>
        refine .bind (hI.report_ensures h.1 _) fun _ _ h₁ =>
          .pure ⟨⟨h₁.1, h₁.2.trans h.2⟩, hsub, hhead.resolve_left ?_⟩
        rintro ⟨rfl, -⟩
        exact nomatch hcontains
      · refine .bind (hI.visitCallSite hcapture h.1 h.2 w range b c) fun _ _ h₁ =>
          .pure ⟨h₁, ?_, ?_⟩
        · exact List.append_subset.2 ⟨hsub, by simpa using hb⟩
        · obtain ⟨rfl, rfl⟩ | hhead := hhead
          · rfl
          · rw [List.head?_append, hhead]
            rfl
    refine .bind (hstep first List.mem_cons_self [] c s ⟨h, hs⟩ (List.nil_subset _)
      (.inl ⟨rfl, rfl⟩)) fun r₁ s₁ h₁ => Ensures.foldlM h₁ ?_
    rintro b hb ⟨collected, c⟩ s₂ ⟨h₂, hsub, hhead⟩
    exact hstep b (List.mem_cons_of_mem _ hb) collected c s₂ h₂ hsub (.inr hhead)

end Nested

/-! ### All ranges -/

theorem resolvePerform (depth k : ℕ) (c : Capture) (h : I s) :
    Ensures (Build.resolvePerform depth k c) s fun _ s' =>
      I s' ∧ s'.procedures = s.procedures := by
  induction depth generalizing k c s with
  | zero => exact .pure ⟨h, rfl⟩
  | succ depth ih =>
    unfold Build.resolvePerform
    split
    swap
    · exact .pure ⟨h, rfl⟩
    next w _ =>
    split
    swap
    · exact .pure ⟨h, rfl⟩
    refine .bind (hI.performedRange h w) fun range? s₁ ⟨h₁, hprocedures₁, hrange⟩ => ?_
    split
    · exact .pure ⟨h₁, hprocedures₁⟩
    next first last =>
    refine .get_bind (.lift_bind fun group _ => .get_bind (.lift_bind fun blocks hblocks => ?_))
    have hcaptured : s.procedures.captured? w.range = some blocks := by
      rw [Procedures.captured?, hrange _ rfl, Option.bind_some, ← hprocedures₁, hblocks]
      rfl
    have hinner : ∀ (j : ℕ) (c : Capture) (s' : Scope), I s' → s'.procedures = s.procedures →
        Ensures (Build.resolvePerform depth j c) s' fun _ s'' =>
          I s'' ∧ s''.procedures = s.procedures := fun j c s' h' hs' =>
      (ih j c h').mono fun _ _ h'' => ⟨h''.1, h''.2.trans hs'⟩
    refine .bind (hI.collect hinner h₁ hprocedures₁ w _ blocks _) ?_
    rintro ⟨collected, c₂⟩ s₂ ⟨⟨h₂, hprocedures₂⟩, hsub, hhead⟩
    refine .bind (P := fun _ s' => I s' ∧ s'.procedures = s.procedures) ?_ fun _ _ h₃ => .pure h₃
    exact ((hI.relocate h₂ (hprocedures₂ ▸ hcaptured) hsub hhead).and
      (relocate_renews w _ collected s₂)).mono fun _ _ h₃ => ⟨h₃.1, h₃.2.2.trans hprocedures₂⟩

/-- **What each part of the capture keeps** is kept by the capture of all ranges. -/
theorem resolvePerforms (h : I s) (waiting : List PendingPerform) :
    Ensures (Build.resolvePerforms waiting) s fun _ => I :=
  .bind (.foldlM (P := fun _ => I) h fun k _ c _ h =>
    (hI.resolvePerform _ k c h).mono fun _ _ h => h.1) fun _ _ h => .pure h

end Captures

end CobolFlow.Build
