import CobolFlow.Proofs.Terminals

/-!
# The two searches agree

The recursive search asks of each successor, when its turn comes, whether it has been met. The
search with a stack asks when it pushes the successors and again when it takes them off, so that a
block may lie on the stack more than once. Both visit the same blocks in the same order.

What lies on the stack is what is left to do of all visits that are underway. The invariant says
this of one visit at a time: to take a block off the stack is to visit it recursively, and then to
go on with the rest of the stack. That a successor which has been met is not pushed makes no
difference, because nothing is ever unmet again.

## Main definitions

* `Seen.Before` — a walk has gone on
* `Graph.Walk.enter`, `Graph.Walk.resume` — a visit, and going on with the rest of a stack
* `Graph.logged` — a search that also notes what it is asked, and in which state

## Main results

* `Graph.Checked.visitAgrees` — a visit, recursively and on the stack
* `Graph.searches_agree` — whole searches
-/

namespace CobolFlow

namespace Seen

/-- A walk has gone on: what has been met stays so, and no more is left to be met. -/
structure Before (seen later : Seen) : Prop where
  size_eq : later.size = seen.size
  met : ∀ {b : BlockId}, seen[b]? = some true → later[b]? = some true
  unmet_le : later.unmet ≤ seen.unmet

namespace Before

variable {seen later last : Seen}

theorem refl (seen : Seen) : Before seen seen := ⟨rfl, id, Nat.le_refl _⟩

theorem trans (h : Before seen later) (h' : Before later last) : Before seen last :=
  ⟨h'.size_eq.trans h.size_eq, h'.met ∘ h.met, Nat.le_trans h'.unmet_le h.unmet_le⟩

theorem set {b : BlockId} (hb : b < seen.size) (h : seen[b] = false) :
    Before seen (Array.set seen b true) where
  size_eq := Array.size_set ..
  met {c} hc := by
    by_cases hbc : b = c
    · subst hbc
      exact Array.getElem?_set_self hb
    · rwa [Array.getElem?_set_ne hb hbc]
  unmet_le := Nat.le_of_lt (unmet_set_lt seen b hb h)

end Before

theorem met_eq_ok_iff {seen : Seen} {b : BlockId} {m : Bool} :
    seen.met b = .ok m ↔ seen[b]? = some m := by
  unfold met
  split <;> simp_all

end Seen

namespace Graph

variable {g : Graph} {σ τ : Type} {visit : Block → σ → ForInStep σ}

/-! ### A visit -/

/-- What happens at a block that a walk comes to: it is visited unless it has been met, or unless
the walk has been left. -/
def Walk.enter (g : Graph) (visit : Block → σ → ForInStep σ) (depth : Nat) (w : Walk σ)
    (b : BlockId) : Except Fault (Walk σ) := do
  match w.state with
  | .done _ => return w
  | .yield s =>
    if ← w.seen.met b then
      return w
    else
      g.visitFrom visit depth b w.seen s

/-- Going on with the rest of a stack, unless the walk has been left. -/
def Walk.resume (g : Graph) (visit : Block → σ → ForInStep σ) (w : Walk σ) (rest : List BlockId) :
    Except Fault (Walk σ) :=
  match w.state with
  | .done _ => .ok w
  | .yield s => g.workStack (fun _ => true) visit rest w.seen s

theorem Walk.resume_nil (w : Walk σ) : w.resume g visit [] = .ok w := by
  obtain ⟨seen, s | s⟩ := w
  · rfl
  · simp [Walk.resume, workStack]

/-- A walk that has been left enters no more blocks. -/
theorem foldlM_enter_done {depth : Nat} {seen : Seen} {s : σ} (targets : List BlockId) :
    targets.foldlM (Walk.enter g visit depth) ⟨seen, .done s⟩ = .ok ⟨seen, .done s⟩ := by
  induction targets with
  | nil => rfl
  | cons c targets ih => exact ih

/-- The loop over the edges of a block is one over their targets. -/
theorem foldlM_slots {depth : Nat} {slots : List SlotId} {targets : List BlockId}
    (h : slots.mapM g.target = .ok targets) (w : Walk σ) :
    slots.foldlM (fun (w : Walk σ) slot => do
        match w.state with
        | .done _ => return w
        | .yield s =>
          let next ← g.target slot
          if ← w.seen.met next then
            return w
          else
            visitFrom g visit depth next w.seen s) w =
      targets.foldlM (Walk.enter g visit depth) w := by
  induction slots generalizing targets w with
  | nil =>
    obtain rfl : [] = targets := by simpa [pure, Except.pure] using h
    rfl
  | cons slot slots ih =>
    rw [List.mapM_cons] at h
    cases hslot : g.target slot with
    | error e => simp [hslot, bind, Except.bind] at h
    | ok c =>
      cases hrest : slots.mapM g.target with
      | error e => simp [hslot, hrest, bind, Except.bind] at h
      | ok rest =>
        obtain rfl : c :: rest = targets := by
          simpa [hslot, hrest, bind, Except.bind, pure, Except.pure] using h
        rw [List.foldlM_cons, List.foldlM_cons, funext fun w => ih hrest w, hslot]
        rfl

/-- The targets that are pushed are those that may be entered and have not been met. -/
theorem unmetTargets_eq_ok {slots : List SlotId} {targets : List BlockId} {seen : Seen}
    (enter : BlockId → Bool) (h : slots.mapM g.target = .ok targets)
    (hlt : ∀ c ∈ targets, c < seen.size) :
    g.unmetTargets enter seen slots =
      .ok ((targets.filter enter).filter fun c => seen[c]? == some false) := by
  rw [unmetTargets, h, ok_bind]
  refine filterM_eq_ok_filter fun c hc => ?_
  obtain ⟨m, hm⟩ : ∃ m, seen[c]? = some m :=
    ⟨_, Array.getElem?_eq_getElem (hlt c (List.mem_filter.1 hc).1)⟩
  rw [Seen.met_eq_ok_iff.2 hm, ok_bind, hm]
  cases m <;> rfl

/-- To take a block off the stack is to visit it recursively, with visits nested so deep, and then
to go on with the rest of the stack. -/
def VisitAgrees (g : Graph) (visit : Block → σ → ForInStep σ) (depth : Nat) : Prop :=
  ∀ (b : BlockId) (seen : Seen) (s : σ), seen.size = g.size → seen[b]? = some false →
    seen.unmet ≤ depth →
    ∃ w, g.visitFrom visit depth b seen s = .ok w ∧ seen.Before w.seen ∧
      ∀ rest, g.workStack (fun _ => true) visit (b :: rest) seen s = w.resume g visit rest

/-- What was pushed before some of it was met is worked off as what is met on the way. -/
theorem exists_foldlM_enter_eq_ok {depth : Nat} (hvisit : g.VisitAgrees visit depth)
    {targets : List BlockId} {pushing seen : Seen} {s : σ} (hsize : seen.size = g.size)
    (hlt : ∀ c ∈ targets, c < g.size) (hbefore : pushing.Before seen)
    (hdepth : seen.unmet ≤ depth) :
    ∃ w, targets.foldlM (Walk.enter g visit depth) ⟨seen, .yield s⟩ = .ok w ∧
      seen.Before w.seen ∧ ∀ rest,
        g.workStack (fun _ => true) visit
          (targets.filter (fun c => pushing[c]? == some false) ++ rest) seen s =
          w.resume g visit rest := by
  induction targets generalizing seen s with
  | nil => exact ⟨_, rfl, .refl seen, fun rest => rfl⟩
  | cons c targets ih =>
    have hc : c < seen.size := hsize ▸ hlt c (by simp)
    have hrest : ∀ d ∈ targets, d < g.size := fun d hd => hlt d (by simp [hd])
    cases hmet : seen[c] with
    | true =>
      have hmet? : seen[c]? = some true := by rw [Array.getElem?_eq_getElem hc, hmet]
      obtain ⟨w, hw, hafter, hstack⟩ := ih hsize hrest hbefore hdepth
      refine ⟨w, ?_, hafter, fun rest => ?_⟩
      · rw [List.foldlM_cons]
        simpa [Walk.enter, Seen.met_eq_ok_iff.2 hmet?, bind, Except.bind, pure,
          Except.pure] using hw
      · rw [← hstack rest, List.filter_cons]
        split
        · rw [List.cons_append, workStack, dif_pos hc, dif_pos hmet]
        · rfl
    | false =>
      have hmet? : seen[c]? = some false := by rw [Array.getElem?_eq_getElem hc, hmet]
      have hpushed : pushing[c]? = some false := by
        have hc' : c < pushing.size := hbefore.size_eq ▸ hc
        cases hp : pushing[c] with
        | false => rw [Array.getElem?_eq_getElem hc', hp]
        | true =>
          have := hbefore.met (by rw [Array.getElem?_eq_getElem hc', hp])
          simp [hmet?] at this
      obtain ⟨w, hw, hafter, hstack⟩ := hvisit c seen s hsize hmet? hdepth
      have henter : Walk.enter g visit depth ⟨seen, .yield s⟩ c = .ok w := by
        simpa [Walk.enter, Seen.met_eq_ok_iff.2 hmet?, bind, Except.bind] using hw
      have hfilter : (c :: targets).filter (fun c => pushing[c]? == some false) =
          c :: targets.filter (fun c => pushing[c]? == some false) := by simp [hpushed]
      obtain ⟨seen', s' | s'⟩ := w
      · -- the walk has been left
        refine ⟨_, ?_, hafter, fun rest => ?_⟩
        · rw [List.foldlM_cons, henter]
          exact foldlM_enter_done targets
        · rw [hfilter, List.cons_append, hstack]
          rfl
      · obtain ⟨w, hw, hafter', hstack'⟩ := ih (s := s') (hafter.size_eq.trans hsize) hrest
          (hbefore.trans hafter) (Nat.le_trans hafter.unmet_le hdepth)
        refine ⟨w, ?_, hafter.trans hafter', fun rest => ?_⟩
        · rw [List.foldlM_cons, henter]
          exact hw
        · rw [hfilter, List.cons_append, hstack]
          exact hstack' rest

/-- **A visit is the same on the stack**, however deep visits may be nested, as long as there is
room for a visit of each block that is left to be met. -/
theorem Checked.visitAgrees (hg : g.Checked) (visit : Block → σ → ForInStep σ) (depth : Nat) :
    g.VisitAgrees visit depth := by
  induction depth with
  | zero =>
    intro b seen s _ hb hdepth
    obtain ⟨hlt, hb⟩ := Array.getElem?_eq_some_iff.1 hb
    have := Seen.unmet_set_lt seen b hlt hb
    omega
  | succ depth ih =>
    intro b seen s hsize hb hdepth
    obtain ⟨hlt, hfalse⟩ := Array.getElem?_eq_some_iff.1 hb
    have hblock : g.blocks[b]? = some g.blocks[b] :=
      Array.getElem?_eq_getElem (hsize.symm ▸ hlt : b < g.size)
    have hok := (g.block_eq_ok_iff b _).2 hblock
    have hset : seen.setIfInBounds b true = seen.set b true := dif_pos hlt
    have hbefore := Seen.Before.set hlt hfalse
    obtain ⟨targets, htargets, htmem⟩ := hg.exists_targets hblock
    have htlt := fun c hc => ((htmem c).1 hc).lt_size hg
    cases hv : visit g.blocks[b] s with
    | done s' =>
      refine ⟨⟨seen.set b true, .done s'⟩, ?_, hbefore, fun rest => ?_⟩
      · simp only [visitFrom, hok, hset, bind, Except.bind, hv]
        rfl
      · rw [workStack, dif_pos hlt, dif_neg (by simp [hfalse])]
        simp only [hok, bind, Except.bind, hv]
        rfl
    | yield s' =>
      have hless : Seen.unmet (seen.set b true) ≤ depth := by
        have := Seen.unmet_set_lt seen b hlt hfalse
        omega
      have hsize' : (Array.set seen b true).size = g.size := hbefore.size_eq.trans hsize
      obtain ⟨w, hw, hafter, hstack⟩ := exists_foldlM_enter_eq_ok ih (s := s') hsize' htlt
        (.refl _) hless
      refine ⟨w, ?_, hbefore.trans hafter, fun rest => ?_⟩
      · simp only [visitFrom, hok, hset, bind, Except.bind, hv]
        rw [← hw, ← foldlM_slots htargets]
        rfl
      · rw [workStack, dif_pos hlt, dif_neg (by simp [hfalse])]
        simp only [hok, bind, Except.bind, hv,
          unmetTargets_eq_ok (fun _ => true) htargets fun c hc => hsize'.symm ▸ htlt c hc,
          (List.filter_eq_self (p := fun _ => true)).2 fun _ _ => rfl]
        exact hstack rest

/-! ### Whole searches -/

/-- A root is visited, or put on the empty stack, with the same outcome. -/
theorem Checked.exists_enter_eq_ok (hg : g.Checked) (visit : Block → σ → ForInStep σ)
    {w : Walk σ} (hsize : w.seen.size = g.size) {root : BlockId} (hroot : root < g.size) :
    ∃ w', w.enter g visit g.size root = .ok w' ∧ w.resume g visit [root] = .ok w' ∧
      w'.seen.size = g.size := by
  obtain ⟨seen, s | s⟩ := w
  · exact ⟨_, rfl, rfl, hsize⟩
  have hlt : root < seen.size := hsize.symm ▸ hroot
  cases hmet : seen[root] with
  | true =>
    have hmet? : seen[root]? = some true := by rw [Array.getElem?_eq_getElem hlt, hmet]
    refine ⟨⟨seen, .yield s⟩, ?_, ?_, hsize⟩
    · simp only [Walk.enter, Seen.met_eq_ok_iff.2 hmet?, ok_bind]
      rfl
    · change g.workStack (fun _ => true) visit [root] seen s = _
      rw [workStack, dif_pos hlt, dif_pos hmet]
      exact Walk.resume_nil ⟨seen, .yield s⟩
  | false =>
    have hmet? : seen[root]? = some false := by rw [Array.getElem?_eq_getElem hlt, hmet]
    have hdepth : seen.unmet ≤ g.size := by
      rw [← hsize]
      exact Array.count_le_size
    obtain ⟨w, hw, hafter, hstack⟩ := hg.visitAgrees visit g.size root seen s hsize hmet? hdepth
    refine ⟨w, ?_, ?_, hafter.size_eq.trans hsize⟩
    · simp only [Walk.enter, Seen.met_eq_ok_iff.2 hmet?, ok_bind]
      exact hw
    · exact (hstack []).trans w.resume_nil

/-- Both searches come from any walk to the same walk over some more roots. -/
theorem Checked.exists_foldlM_roots_eq_ok (hg : g.Checked) (visit : Block → σ → ForInStep σ)
    {roots : List BlockId} (hroots : ∀ b ∈ roots, b < g.size) {w : Walk σ}
    (hsize : w.seen.size = g.size) :
    ∃ w', roots.foldlM (Walk.enter g visit g.size) w = .ok w' ∧
      roots.foldlM (fun w root => w.resume g visit [root]) w = .ok w' := by
  induction roots generalizing w with
  | nil => exact ⟨w, rfl, rfl⟩
  | cons root roots ih =>
    obtain ⟨w₁, henter, hresume, hsize₁⟩ :=
      hg.exists_enter_eq_ok visit hsize (hroots root (by simp))
    obtain ⟨w', hrec, hiter⟩ := ih (fun b hb => hroots b (by simp [hb])) hsize₁
    exact ⟨w', by rw [List.foldlM_cons, henter, ok_bind, hrec],
      by rw [List.foldlM_cons, hresume, ok_bind, hiter]⟩

theorem Checked.exists_dfs_eq_ok (hg : g.Checked) (visit : Block → σ → ForInStep σ) (s : σ) :
    ∃ s', g.dfs visit s = .ok s' ∧ g.dfsStack visit s = .ok s' := by
  obtain ⟨w, hrec, hiter⟩ := hg.exists_foldlM_roots_eq_ok visit hg.root_lt
    (w := ⟨.fresh g.size, .yield s⟩) (by simp [Seen.fresh])
  refine ⟨w.state.value, ?_, ?_⟩
  · change (g.roots.foldlM (Walk.enter g visit g.size) _ >>= _) = _
    rw [hrec]
    rfl
  · change (g.roots.foldlM (fun (w : Walk σ) root => w.resume g visit [root]) _ >>= _) = _
    rw [hiter]
    rfl

/-! ### The calls of a search -/

/-- The answer of a call, as it looks to who sees less of the state. -/
def answerMap (f : σ → τ) : ForInStep σ → ForInStep τ
  | .done s => .done (f s)
  | .yield s => .yield (f s)

def Walk.map (f : σ → τ) (w : Walk σ) : Walk τ := ⟨w.seen, answerMap f w.state⟩

theorem foldlM_map {ε α β γ : Type} {φ : β → γ} {step : β → α → Except ε β}
    {step' : γ → α → Except ε γ} (h : ∀ b a, step' (φ b) a = (step b a).map φ) (l : List α)
    (b : β) : l.foldlM step' (φ b) = (l.foldlM step b).map φ := by
  induction l generalizing b with
  | nil => rfl
  | cons a l ih =>
    rw [List.foldlM_cons, List.foldlM_cons, h]
    cases step b a with
    | error e => rfl
    | ok b' => exact ih b'

section Map

variable {f : σ → τ} {visit' : Block → τ → ForInStep τ}

theorem enter_map {depth : Nat}
    (h : ∀ b seen s,
      g.visitFrom visit' depth b seen (f s) = (g.visitFrom visit depth b seen s).map (Walk.map f))
    (w : Walk σ) (b : BlockId) :
    (w.map f).enter g visit' depth b = (w.enter g visit depth b).map (Walk.map f) := by
  obtain ⟨seen, s | s⟩ := w
  · rfl
  · simp only [Walk.enter, Walk.map, answerMap]
    cases seen.met b with
    | error e => rfl
    | ok m =>
      cases m with
      | true => rfl
      | false => exact h b seen s

/-- A search does not look into its state. -/
theorem visitFrom_map (h : ∀ block s, visit' block (f s) = answerMap f (visit block s))
    (depth : Nat) (b : BlockId) (seen : Seen) (s : σ) :
    g.visitFrom visit' depth b seen (f s) =
      (g.visitFrom visit depth b seen s).map (Walk.map f) := by
  induction depth generalizing b seen s with
  | zero => rfl
  | succ depth ih =>
    simp only [visitFrom]
    cases g.block b with
    | error e => rfl
    | ok block =>
      rw [ok_bind, ok_bind, h]
      cases visit block s with
      | done s' => rfl
      | yield s' =>
        refine foldlM_map (φ := Walk.map f) (fun w slot => ?_) block.successors ⟨_, .yield s'⟩
        obtain ⟨seen, s | s⟩ := w
        · rfl
        · simp only [Walk.map, answerMap]
          cases g.target slot with
          | error e => rfl
          | ok c => exact enter_map ih ⟨seen, .yield s⟩ c

theorem dfs_map (h : ∀ block s, visit' block (f s) = answerMap f (visit block s)) (s : σ) :
    g.dfs visit' (f s) = (g.dfs visit s).map f := by
  have hroots := foldlM_map (enter_map (visitFrom_map (g := g) h g.size)) g.roots
    (⟨.fresh g.size, .yield s⟩ : Walk σ)
  change (g.roots.foldlM (Walk.enter g visit' g.size) _ >>= _) =
    (g.roots.foldlM (Walk.enter g visit g.size) _ >>= _).map f
  rw [show (⟨.fresh g.size, .yield (f s)⟩ : Walk τ) = Walk.map f ⟨.fresh g.size, .yield s⟩ from rfl,
    hroots]
  cases g.roots.foldlM (Walk.enter g visit g.size) ⟨.fresh g.size, .yield s⟩ with
  | error e => rfl
  | ok w =>
    obtain ⟨seen, s | s⟩ := w <;> rfl

end Map

/-- The search that also notes each call: the block it is made at, and the state it is given. -/
def logged (visit : Block → σ → ForInStep σ) (block : Block) :
    σ × List (Block × σ) → ForInStep (σ × List (Block × σ))
  | (s, calls) => answerMap (·, calls ++ [(block, s)]) (visit block s)

theorem visit_fst (visit : Block → σ → ForInStep σ) (block : Block)
    (p : σ × List (Block × σ)) : visit block p.1 = answerMap Prod.fst (logged visit block p) := by
  obtain ⟨s, calls⟩ := p
  simp only [logged]
  cases visit block s <;> rfl

/-- **The two searches agree.** In a graph without defects both searches answer, with the same
state; and with the same calls, made at the same blocks in the same states. -/
theorem searches_agree (hg : g.check = .ok ()) (visit : Block → σ → ForInStep σ) (s : σ) :
    ∃ s' calls, g.dfs visit s = .ok s' ∧ g.dfsStack visit s = .ok s' ∧
      g.dfs (logged visit) (s, []) = .ok (s', calls) ∧
      g.dfsStack (logged visit) (s, []) = .ok (s', calls) := by
  have hg := check_eq_ok_iff.1 hg
  obtain ⟨s', hrec, hiter⟩ := hg.exists_dfs_eq_ok visit s
  obtain ⟨⟨s'', calls⟩, hrec', hiter'⟩ := hg.exists_dfs_eq_ok (logged visit) (s, [])
  have hstate := dfs_map (g := g) (visit_fst visit) (s, [])
  rw [hrec, hrec'] at hstate
  obtain rfl : s' = s'' := Except.ok.inj hstate
  exact ⟨s', calls, hrec, hiter, hrec', hiter'⟩

/-- Two roots, a loop back to the first, two edges over one slot and two between the same blocks. -/
def twoRoots : Graph where
  blocks := #[{ id := 0, successors := [0, 1, 2] }, { id := 1, successors := [2] },
    { id := 2, successors := [3] }, { id := 3, successors := [2, 0] }]
  slots := #[1, 1, 2, 0]
  roots := [0, 3]

theorem searches_agree_twoRoots : twoRoots.check = .ok () ∧
    ∃ n calls, twoRoots.dfs (fun _ n => if n = 2 then .done 3 else .yield (n + 1)) 0 = .ok n ∧
      twoRoots.dfsStack (fun _ n => if n = 2 then .done 3 else .yield (n + 1)) 0 = .ok n ∧
      twoRoots.dfs (logged fun _ n => if n = 2 then .done 3 else .yield (n + 1)) (0, []) =
        .ok (n, calls) ∧
      twoRoots.dfsStack (logged fun _ n => if n = 2 then .done 3 else .yield (n + 1)) (0, []) =
        .ok (n, calls) :=
  ⟨by rfl, searches_agree (by rfl) _ _⟩

end Graph

end CobolFlow
