import CobolFlow.Proofs.Trace.Search

/-!
# Closing a search

The tests of a search are closed from the innermost outwards. Each join leads what is open to a
new block, its *joint*. Once the last test leads back to the root, every branch can be reached from
every test, so that each further join takes all that is open; and what was open and led to an
earlier joint goes on to the next. In the end all ends of branches that can be reached flow to one
joint, through joints that say nothing.

## Main definitions

* `Chart.Flows` — leading to a block over blocks that say nothing
* `Closing` — a search some of whose tests are closed

## Main results

* `Closing.begin`, `Closing.drain` — closing the innermost test, and leading all to one joint
-/

namespace CobolFlow

namespace Chart

variable {χ χ' : Chart} {a b c t : ℕ}

/-- A block leads to `t`, and nowhere else, over blocks that say nothing. -/
inductive Flows (χ : Chart) (t : ℕ) : ℕ → Prop
  | refl : Flows χ t t
  | step {b c : ℕ} (h : (χ b).next = [c]) (hnodes : (χ c).nodes = []) (ht : Flows χ t c) :
    Flows χ t b

theorem Flows.reaches (h : χ.Flows t b) : χ.Reaches b t := by
  induction h with
  | refl => exact .refl
  | step h _ _ ih => exact .head (by simp [h]) ih

/-- What flows to an open block flows on from there. -/
theorem Flows.extend {P : ℕ → Prop} (h : χ.Flows t b) (hb : P b)
    (hclosed : ∀ b, P b → ∀ c ∈ (χ b).next, P c)
    (hsame : ∀ b, P b → (χ b).next ≠ [] → (χ' b).next = (χ b).next)
    (hnodes : ∀ b, P b → (χ' b).nodes = (χ b).nodes) {u : ℕ} (ht : χ'.Flows u t) :
    χ'.Flows u b := by
  induction h with
  | refl => exact ht
  | @step b c h hc _ ih =>
    have hPc := hclosed b hb c (by simp [h])
    exact .step (by rw [hsame b hb (by simp [h]), h]) (by rw [hnodes c hPc, hc]) (ih hPc)

/-- What comes after a block that flows to another is what is read there. -/
theorem Flows.onward {G : Chart} {P : ℕ → Prop} (h : χ.Flows t b) (hne : b ≠ t) (hb : P b)
    (hclosed : ∀ b, P b → ∀ c ∈ (χ b).next, P c)
    (hG : ∀ b, P b → b ≠ t → (G b).nodes = (χ b).nodes ∧ (G b).next = (χ b).next) :
    G.onward b = G.reading t := by
  induction h with
  | refl => exact absurd rfl hne
  | @step b c h hc _ ih =>
    have hnext : (G b).next = [c] := by rw [(hG b hb hne).2, h]
    rw [onward_of_next_ne_nil (by simp [hnext]), hnext, List.map_singleton, List.sum_singleton]
    by_cases hct : c = t
    · rw [hct]
    · have hPc := hclosed b hb c (by simp [h])
      rw [reading_eq, (hG c hPc hct).1, hc, just_nil, one_mul, ih hct hPc]

theorem Spine.congr {last : List ℕ} {rest : List Rung} (h : χ.Spine last rest)
    (hsame : ∀ b, Heads rest b → χ' b = χ b) : χ'.Spine last rest := by
  induction rest with
  | nil => trivial
  | cons r rest ih =>
    obtain ⟨hnodes, hnext, hspine⟩ := h
    have hr := hsame r.head ⟨r, by simp, rfl⟩
    refine ⟨by rw [hr, hnodes], by rw [hr, hnext], ih hspine ?_⟩
    rintro b ⟨r', hr', rfl⟩
    exact hsame _ ⟨r', by simp [hr'], rfl⟩

theorem Spine.mem_next {rest : List Rung} {root : ℕ} (h : χ.Spine [root] rest)
    (hb : Heads rest b) (hc : c ∈ (χ b).next) :
    c = root ∨ Heads rest c ∨ ∃ r ∈ rest, c = r.branch.entry := by
  induction rest with
  | nil =>
    obtain ⟨r, hr, -⟩ := hb
    simp at hr
  | cons r rest ih =>
    obtain ⟨-, hnext, hspine⟩ := h
    obtain ⟨r', hr', rfl⟩ := hb
    obtain rfl | hr' := List.mem_cons.1 hr'
    · rw [hnext, List.mem_cons] at hc
      obtain rfl | hc := hc
      · exact .inr (.inr ⟨r', by simp, rfl⟩)
      · cases rest with
        | nil => exact .inl (List.mem_singleton.1 hc)
        | cons r'' rest => exact .inr (.inl ⟨r'', by simp, List.mem_singleton.1 hc⟩)
    · obtain hc | ⟨r'', hr'', hc⟩ | ⟨r'', hr'', hc⟩ := ih hspine ⟨r', hr', rfl⟩
      · exact .inl hc
      · exact .inr (.inl ⟨r'', by simp [hr''], hc⟩)
      · exact .inr (.inr ⟨r'', by simp [hr''], hc⟩)

/-- From the head of a spine all its tests can be reached, and from each of them its end. -/
theorem Spine.reaches {rest : List Rung} {root : ℕ} (h : χ.Spine [root] rest) :
    (∀ c ∈ link rest [root], χ.Reaches c root) ∧
      ∀ c ∈ link rest [root], ∀ r ∈ rest, χ.Reaches c r.head ∧ χ.Reaches r.head r.branch.entry ∧
        χ.Reaches r.head root := by
  induction rest with
  | nil => exact ⟨fun c hc => by rw [List.mem_singleton.1 hc], fun _ _ r hr => by simp at hr⟩
  | cons r rest ih =>
    obtain ⟨-, hnext, hspine⟩ := h
    obtain ⟨ihroot, ihheads⟩ := ih hspine
    have hlink : ∃ c, link rest [root] = [c] := by
      cases rest <;> exact ⟨_, rfl⟩
    obtain ⟨c₁, hc₁⟩ := hlink
    have hstep : χ.Reaches r.head c₁ := .single (by simp [hnext, hc₁])
    have hentry : χ.Reaches r.head r.branch.entry := .single (by simp [hnext])
    have hroot : χ.Reaches r.head root := hstep.trans (ihroot c₁ (by simp [hc₁]))
    refine ⟨fun c hc => ?_, fun c hc r' hr' => ?_⟩
    · obtain rfl : c = r.head := List.mem_singleton.1 hc
      exact hroot
    · obtain rfl : c = r.head := List.mem_singleton.1 hc
      obtain rfl | hr' := List.mem_cons.1 hr'
      · exact ⟨.refl, hentry, hroot⟩
      · obtain ⟨hhead, hbranch, hback⟩ := ihheads c₁ (by simp [hc₁]) r' hr'
        exact ⟨hstep.trans hhead, hbranch, hback⟩

end Chart

/-- A search, as it was in `Γ`, some of whose tests have been closed since. Its body also leads to
`post`. -/
structure Closing (Γ₀ Γ Δ : Sketch) (phrases : List Instruction) (pre : List Branch)
    (main : Branch) (rest : List Rung) (root : ℕ) (post : List ℕ) : Prop where
  size_le : Γ.size ≤ Δ.size
  firm : ∀ b < Γ.size, b ≠ Γ₀.here → ¬ Heads rest b →
    ¬ Exits (pre ++ main :: rest.map (·.branch)) b → Δ.chart b = Γ.chart b
  body : Δ.chart Γ₀.here = { Γ₀.chart Γ₀.here with
    nodes := (Γ₀.chart Γ₀.here).nodes ++ phrases
    next := pre.map (·.entry) ++ main.entry :: link rest [root] ++ post }
  spine : Δ.chart.Spine [root] rest
  heads : ∀ b, Heads rest b → Δ.chart b = { Γ.chart b with next := (Δ.chart b).next }
  exits : ∀ b, Exits (pre ++ main :: rest.map (·.branch)) b →
    Δ.chart b = { Γ.chart b with next := (Δ.chart b).next }
  joints : ∀ b, Γ.size ≤ b → b < Δ.size → (Δ.chart b).nodes = [] ∧ (Δ.chart b).Calm
  onto : ∀ b, Exits (pre ++ main :: rest.map (·.branch)) b ∨ Γ.size ≤ b ∧ b < Δ.size →
    ∀ c ∈ (Δ.chart b).next, Γ.size ≤ c ∧ c < Δ.size
  /-- What falls through flows to an open end. -/
  flows : ∀ br ∈ pre ++ main :: rest.map (·.branch), br.behaviour.falls ≠ 0 →
    ∃ t, Δ.chart.Flows t br.exit ∧ (Δ.chart t).next = [] ∧ (Δ.chart t).flags.ending = false

/-- The root of a search leads to its body. -/
structure Rooted (Γ₀ : Sketch) (root : ℕ) : Prop where
  here_lt : Γ₀.here < Γ₀.size
  lt : root < Γ₀.size
  ne : root ≠ Γ₀.here
  next : (Γ₀.chart root).next = [Γ₀.here]

/-- All that can be reached and is open is the one joint, and all that falls through flows there. -/
structure Drained (χ : Chart) (root t : ℕ) (branches : List Branch) : Prop where
  next : (χ t).next = []
  ending : (χ t).flags.ending = false
  flows : ∀ br ∈ branches, br.behaviour.falls ≠ 0 → χ.Flows t br.exit
  eq_or_ending : ∀ b, χ.Reaches root b → (χ b).next = [] → b = t ∨ (χ b).flags.ending

namespace Closing

variable {Γ₀ Γ Δ : Sketch} {phrases : List Instruction} {marks : Departures} {pre : List Branch}
  {main : Branch} {rest : List Rung} {root t : ℕ} {post sources : List ℕ} {s : Spot}

section Reaching

variable (h : Closing Γ₀ Γ Δ phrases pre main rest root post)
  (hq : Quest Γ₀ Γ phrases marks pre main rest) (hroot : Rooted Γ₀ root)

include hq hroot in
/-- The root is none of the blocks that the search has made. -/
theorem root_notMem : ¬ Heads rest root ∧ ¬ Exits (pre ++ main :: rest.map (·.branch)) root := by
  refine ⟨fun hhead => (hq.heads _ hhead).1.not_gt hroot.lt, ?_⟩
  rintro ⟨br, hbr, heq⟩
  exact (heq ▸ (hq.fits br hbr).exit.1.1).not_gt hroot.lt

include h hq hroot in
theorem next_root : (Δ.chart root).next = [Γ₀.here] := by
  obtain ⟨hhead, hexit⟩ := root_notMem hq hroot
  rw [h.firm root (hroot.lt.trans_le hq.size_le) hroot.ne hhead hexit,
    hq.frame root hroot.lt hroot.ne, hroot.next]

include h hq hroot

/-- What a branch reaches it still reaches. -/
theorem reaches_of_reaches {br : Branch} (hbr : br ∈ pre ++ main :: rest.map (·.branch)) {b : ℕ}
    (hb : Γ.chart.Reaches br.entry b) : Δ.chart.Reaches br.entry b := by
  refine hb.transfer (P := fun b => Γ.chart.Reaches br.entry b) .refl fun b hb _ c hc => ?_
  refine ⟨hb.tail hc, ?_⟩
  obtain ⟨hmade, hhead⟩ := hq.made_of_reaches hbr hb
  by_cases hexit : Exits (pre ++ main :: rest.map (·.branch)) b
  · obtain ⟨br', hbr', rfl⟩ := hexit
    simp [(hq.fits br' hbr').next] at hc
  · have hne : b ≠ Γ₀.here := by
      rintro rfl
      exact hmade.1.not_gt hroot.here_lt
    rwa [h.firm b hmade.2 hne hhead hexit]

/-- Every branch can be reached from the root, and every test, which leads back to it. -/
theorem reaches_all : (∀ br ∈ pre ++ main :: rest.map (·.branch), Δ.chart.Reaches root br.entry) ∧
    ∀ r ∈ rest, Δ.chart.Reaches root r.head ∧ Δ.chart.Reaches r.head root := by
  have hbody : Δ.chart.Reaches root Γ₀.here := .single (by simp [h.next_root hq hroot])
  have hstep : ∀ c ∈ pre.map (·.entry) ++ main.entry :: link rest [root] ++ post,
      Δ.chart.Reaches root c := fun c hc => hbody.tail (by rwa [h.body])
  have hlink : ∃ c, link rest [root] = [c] := by
    cases rest <;> exact ⟨_, rfl⟩
  obtain ⟨c, hc⟩ := hlink
  have hc' : c ∈ link rest [root] := by simp [hc]
  have hc'' : Δ.chart.Reaches root c := hstep c (by simp [hc])
  have hspine := h.spine.reaches.2 c hc'
  refine ⟨fun br hbr => ?_, fun r hr => ⟨hc''.trans (hspine r hr).1, (hspine r hr).2.2⟩⟩
  obtain hbr | hbr := List.mem_append.1 hbr
  · exact hstep br.entry (by simp; exact .inl ⟨br, hbr, rfl⟩)
  · obtain rfl | hbr := List.mem_cons.1 hbr
    · exact hstep br.entry (by simp)
    · obtain ⟨r, hr, rfl⟩ := List.mem_map.1 hbr
      exact hc''.trans ((hspine r hr).1.trans (hspine r hr).2.1)

/-- The blocks that can be reached from the root. -/
theorem cases_of_reaches (hpost : ∀ c ∈ post, Γ.size ≤ c ∧ c < Δ.size) {b : ℕ}
    (hb : Δ.chart.Reaches root b) : b = root ∨ b = Γ₀.here ∨ Heads rest b ∨
      (∃ br ∈ pre ++ main :: rest.map (·.branch), Γ.chart.Reaches br.entry b) ∨
      Γ.size ≤ b ∧ b < Δ.size := by
  have hlink : ∀ c ∈ link rest [root], c = root ∨ Heads rest c := fun c hc => by
    cases rest with
    | nil => exact .inl (List.mem_singleton.1 hc)
    | cons r rest => exact .inr ⟨r, by simp, List.mem_singleton.1 hc⟩
  refine hb.mem (P := fun b => b = root ∨ b = Γ₀.here ∨ Heads rest b ∨
      (∃ br ∈ pre ++ main :: rest.map (·.branch), Γ.chart.Reaches br.entry b) ∨
      Γ.size ≤ b ∧ b < Δ.size) (.inl rfl) fun b hb c hc => ?_
  obtain rfl | rfl | hb | ⟨br, hbr, hb⟩ | hb := hb
  · rw [h.next_root hq hroot, List.mem_singleton] at hc
    exact .inr (.inl hc)
  · rw [h.body] at hc
    simp only [List.mem_append, List.mem_map, List.mem_cons] at hc
    obtain (⟨br, hbr, rfl⟩ | rfl | hc) | hc := hc
    · exact .inr (.inr (.inr (.inl ⟨br, by simp [hbr], .refl⟩)))
    · exact .inr (.inr (.inr (.inl ⟨main, by simp, .refl⟩)))
    · exact (hlink c hc).elim .inl fun hc => .inr (.inr (.inl hc))
    · exact .inr (.inr (.inr (.inr (hpost c hc))))
  · obtain hc | hc | hc := h.spine.mem_next hb hc
    · exact .inl hc
    · exact .inr (.inr (.inl hc))
    · obtain ⟨r, hr, rfl⟩ := hc
      exact .inr (.inr (.inr (.inl ⟨r.branch, by simp; exact .inr (.inr ⟨r, hr, rfl⟩), .refl⟩)))
  · by_cases hexit : Exits (pre ++ main :: rest.map (·.branch)) b
    · exact .inr (.inr (.inr (.inr (h.onto b (.inl hexit) c hc))))
    · obtain ⟨hmade, hhead⟩ := hq.made_of_reaches hbr hb
      have hne : b ≠ Γ₀.here := by
        rintro rfl
        exact hmade.1.not_gt hroot.here_lt
      rw [h.firm b hmade.2 hne hhead hexit] at hc
      exact .inr (.inr (.inr (.inl ⟨br, hbr, hb.tail hc⟩)))
  · exact .inr (.inr (.inr (.inr (h.onto b (.inr hb) c hc))))

/-- What can be reached and is open is the end of a branch or a joint. -/
theorem exits_or_joint (hpost : ∀ c ∈ post, Γ.size ≤ c ∧ c < Δ.size) {b : ℕ}
    (hb : Δ.chart.Reaches root b) (hnil : (Δ.chart b).next = [])
    (hending : (Δ.chart b).flags.ending = false) :
    Exits (pre ++ main :: rest.map (·.branch)) b ∨ Γ.size ≤ b ∧ b < Δ.size := by
  by_contra hnot
  rw [not_or] at hnot
  obtain rfl | rfl | hb | ⟨br, hbr, hb⟩ | hb := h.cases_of_reaches hq hroot hpost hb
  · simp [h.next_root hq hroot] at hnil
  · simp [h.body] at hnil
  · exact h.spine.next_ne_nil hb hnil
  · obtain ⟨hmade, hhead⟩ := hq.made_of_reaches hbr hb
    have hne : b ≠ Γ₀.here := by
      rintro rfl
      exact hmade.1.not_gt hroot.here_lt
    rw [h.firm b hmade.2 hne hhead hnot.1] at hnil hending
    obtain rfl | hend := hq.eq_exit_of_reaches hbr hb hnil
    · exact hnot.1 ⟨br, hbr, rfl⟩
    · simp [hend] at hending
  · exact hnot.2 hb

end Reaching

section Steps

/-- The blocks over which the ends of branches flow on. -/
abbrev Stream (Γ Δ : Sketch) (branches : List Branch) (b : ℕ) : Prop :=
  Exits branches b ∨ Γ.size ≤ b ∧ b < Δ.size

/-- A block is added. -/
theorem fresh (h : Closing Γ₀ Γ Δ phrases pre main rest root post)
    (hq : Quest Γ₀ Γ phrases marks pre main rest) (hroot : Rooted Γ₀ root) (hs : s.Blank) :
    Closing Γ₀ Γ (Δ.fresh s) phrases pre main rest root post := by
  have hsize := h.size_le
  have hsize₀ := hq.size_le
  have hlt := hroot.here_lt
  have hexit : ∀ b, Exits (pre ++ main :: rest.map (·.branch)) b → b < Γ.size := by
    rintro _ ⟨br, hbr, rfl⟩
    exact (hq.fits br hbr).exit.1.2
  have hchart : ∀ b, b ≠ Δ.size → (Δ.fresh s).chart b = Δ.chart b := fun b hb => by
    simp [Sketch.fresh, hb]
  have hlast : (Δ.fresh s).chart Δ.size = s := by simp [Sketch.fresh]
  have hsize' : (Δ.fresh s).size = Δ.size + 1 := rfl
  have hheads : ∀ b, Heads rest b → b ≠ Δ.size := fun b hb => by
    have := (hq.heads b hb).2
    omega
  refine ⟨by omega, fun b hb hb' hhead hex => ?_, ?_, ?_, fun b hb => ?_, fun b hb => ?_,
    fun b hb hb' => ?_, fun b hb c hc => ?_, fun br hbr hfalls => ?_⟩
  · rw [hchart b (by omega), h.firm b hb hb' hhead hex]
  · rw [hchart _ (by omega), h.body]
  · exact h.spine.congr fun b hb => hchart b (hheads b hb)
  · rw [hchart b (hheads b hb)]
    exact h.heads b hb
  · have := hexit b hb
    rw [hchart b (by omega)]
    exact h.exits b hb
  · by_cases hb'' : b = Δ.size
    · rw [hb'', hlast]
      exact ⟨hs.nodes, hs.calm⟩
    · rw [hchart b hb'']
      exact h.joints b hb (by omega)
  · by_cases hb' : b = Δ.size
    · rw [hb', hlast, hs.next] at hc
      simp at hc
    · rw [hchart b hb'] at hc
      have := h.onto b (hb.imp_right fun hb => ⟨hb.1, by omega⟩) c hc
      omega
  · obtain ⟨t, hflows, hnil, hending⟩ := h.flows br hbr hfalls
    have hP : ∀ b, Stream Γ Δ (pre ++ main :: rest.map (·.branch)) b → b ≠ Δ.size := by
      rintro b (hb | hb)
      · have := hexit b hb
        omega
      · omega
    have ht : Stream Γ Δ (pre ++ main :: rest.map (·.branch)) t :=
      hflows.reaches.mem (P := Stream Γ Δ _) (.inl ⟨br, hbr, rfl⟩) fun b hb c hc =>
        .inr (h.onto b hb c hc)
    refine ⟨t, ?_, by rw [hchart t (hP t ht), hnil], by rw [hchart t (hP t ht), hending]⟩
    exact hflows.extend (P := Stream Γ Δ _) (.inl ⟨br, hbr, rfl⟩)
      (fun b hb c hc => .inr (h.onto b hb c hc)) (fun b hb _ => by rw [hchart b (hP b hb)])
      (fun b hb => by rw [hchart b (hP b hb)]) .refl

/-- All that can be reached and is open is led to one joint. -/
theorem drain (h : Closing Γ₀ Γ Δ phrases pre main rest root post)
    (hq : Quest Γ₀ Γ phrases marks pre main rest) (hroot : Rooted Γ₀ root)
    (hpost : ∀ c ∈ post, Γ.size ≤ c ∧ c < Δ.size) (ht : Γ.size ≤ t ∧ t < Δ.size)
    (hnil : (Δ.chart t).next = []) (hending : (Δ.chart t).flags.ending = false)
    (sources : List ℕ) (hsources : ∀ b, b ∈ sources ↔ b ≠ t ∧ Δ.chart.OpenEnd [root] b) :
    Closing Γ₀ Γ (Δ.lead sources t) phrases pre main rest root post ∧
      Drained (Δ.lead sources t).chart root t (pre ++ main :: rest.map (·.branch)) := by
  have hsize := h.size_le
  have hsize₀ := hq.size_le
  have hlt := hroot.here_lt
  have hopen : ∀ b, b ∈ sources → (Δ.chart b).next = [] ∧ (Δ.chart b).flags.ending = false ∧
      Stream Γ Δ (pre ++ main :: rest.map (·.branch)) b := fun b hb => by
    obtain ⟨-, hnil, hending, e, he, hreach⟩ := (hsources b).1 hb
    obtain rfl := List.mem_singleton.1 he
    exact ⟨hnil, hending, h.exits_or_joint hq hroot hpost hreach hnil hending⟩
  have hkeep : ∀ b, (Δ.chart b).next ≠ [] → (Δ.lead sources t).chart b = Δ.chart b :=
    fun b hb => by simp [Sketch.lead, mt (fun hmem => (hopen b hmem).1) hb]
  have hsame : ∀ b, (Δ.lead sources t).chart b =
      { Δ.chart b with next := ((Δ.lead sources t).chart b).next } := fun b => by
    simp only [Sketch.lead]
    split <;> rfl
  have hlast : (Δ.lead sources t).chart t = Δ.chart t := by
    simp [Sketch.lead, mt (hsources t).1 fun h => h.1 rfl]
  have hbody : (Δ.chart Γ₀.here).next ≠ [] := by simp [h.body]
  have honto : ∀ b, Stream Γ Δ (pre ++ main :: rest.map (·.branch)) b →
      ∀ c ∈ ((Δ.lead sources t).chart b).next, Γ.size ≤ c ∧ c < Δ.size := fun b hb c hc => by
    simp only [Sketch.lead] at hc
    split at hc
    · obtain hc | hc := List.mem_append.1 hc
      · exact h.onto b hb c hc
      · rwa [List.mem_singleton.1 hc]
    · exact h.onto b hb c hc
  have hflows : ∀ br ∈ pre ++ main :: rest.map (·.branch), br.behaviour.falls ≠ 0 →
      (Δ.lead sources t).chart.Flows t br.exit := fun br hbr hfalls => by
    obtain ⟨u, hu, hunil, huending⟩ := h.flows br hbr hfalls
    have hreach : Δ.chart.Reaches root u :=
      ((h.reaches_all hq hroot).1 br hbr).trans
        ((h.reaches_of_reaches hq hroot hbr ((hq.fits br hbr).reaches hfalls)).trans hu.reaches)
    refine hu.extend (P := fun _ => True) trivial (fun _ _ _ _ => trivial)
      (fun b _ hb => by rw [hkeep b hb]) (fun b _ => by rw [hsame b]) ?_
    by_cases hut : u = t
    · exact hut ▸ .refl
    · have hmem : u ∈ sources :=
        (hsources u).2 ⟨hut, hunil, huending, root, List.mem_singleton_self _, hreach⟩
      refine .step ?_ (by rw [hlast, (h.joints t ht.1 ht.2).1]) .refl
      simp [Sketch.lead, hmem, hunil]
  refine ⟨⟨hsize, fun b hb hb' hhead hex => ?_, ?_, ?_, fun b hb => ?_, fun b hb => ?_,
    fun b hb hb' => ?_, honto, fun br hbr hfalls => ⟨t, hflows br hbr hfalls, ?_, ?_⟩⟩,
    ⟨by rw [hlast, hnil], by rw [hlast, hending], hflows, fun b hb hbnil => ?_⟩⟩
  · have hmem : b ∉ sources := fun hmem => (hopen b hmem).2.2.elim hex fun hb'' => by omega
    simp only [Sketch.lead, hmem, if_false]
    exact h.firm b hb hb' hhead hex
  · rw [hkeep _ hbody, h.body]
  · exact h.spine.congr fun b hb => hkeep b (h.spine.next_ne_nil hb)
  · rw [hkeep b (h.spine.next_ne_nil hb)]
    exact h.heads b hb
  · rw [hsame b, h.exits b hb]
  · obtain ⟨hnodes, hcalm⟩ := h.joints b hb hb'
    refine ⟨by rw [hsame b, hnodes], by rw [hsame b]; exact hcalm.finish, fun hend => ?_⟩
    have hmem : b ∉ sources := fun hmem => by
      rw [hsame b] at hend
      simp [(hopen b hmem).2.1] at hend
    simp only [Sketch.lead, hmem, if_false] at hend ⊢
    exact hcalm.next hend
  · rw [hlast, hnil]
  · rw [hlast, hending]
  · have hb' : b = t ∨ Δ.chart.Reaches root b := by
      refine hb.mem (P := fun b => b = t ∨ Δ.chart.Reaches root b) (.inr .refl) ?_
      rintro b (rfl | hb) c hc
      · simp [hlast, hnil] at hc
      · simp only [Sketch.lead] at hc
        split at hc
        · obtain hc | hc := List.mem_append.1 hc
          · exact .inr (hb.tail hc)
          · exact .inl (List.mem_singleton.1 hc)
        · exact .inr (hb.tail hc)
    obtain hb' | hb' := hb'
    · exact .inl hb'
    · by_contra hnot
      rw [not_or] at hnot
      have hmem : b ∉ sources := fun hmem => by simp [Sketch.lead, hmem] at hbnil
      simp only [Sketch.lead, hmem, if_false] at hbnil hnot
      exact hmem ((hsources b).2 ⟨hnot.1, hbnil, Bool.eq_false_of_not_eq_true hnot.2, root,
        List.mem_singleton_self _, hb'⟩)

/-- The innermost test is closed, and leads back to the root. -/
theorem begin (hq : Quest Γ₀ Γ phrases marks pre main rest) (hroot : Rooted Γ₀ root)
    (hs : s.Blank)
    (hsources : ∀ b ∈ sources, Exits (pre ++ main :: rest.map (·.branch)) b) :
    Closing Γ₀ Γ ((Γ.join s sources).edge (tail Γ₀.here rest) root) phrases pre main rest root
      [] := by
  have hsize₀ := hq.size_le
  have hlt := hroot.here_lt
  have hexit : ∀ b, Exits (pre ++ main :: rest.map (·.branch)) b →
      b < Γ.size ∧ b ≠ Γ₀.here ∧ ¬ Heads rest b ∧ (Γ.chart b).next = [] ∧
        (Γ.chart b).flags.ending = false := by
    rintro _ ⟨br, hbr, rfl⟩
    have hfits := hq.fits br hbr
    exact ⟨hfits.exit.1.2, (hlt.trans_le hfits.exit.1.1).ne', hfits.exit.2, hfits.next,
      hfits.ending⟩
  have htail : tail Γ₀.here rest < Γ.size ∧
      ¬ Exits (pre ++ main :: rest.map (·.branch)) (tail Γ₀.here rest) := by
    obtain ⟨heq, -⟩ | ⟨hhead, hmade⟩ := hq.tail_cases
    · exact ⟨by omega, fun hex => (hexit _ hex).2.1 heq⟩
    · exact ⟨hmade.2, fun hex => (hexit _ hex).2.2.1 hhead⟩
  set Δ := (Γ.join s sources).edge (tail Γ₀.here rest) root with hΔ
  have hsize : Δ.size = Γ.size + 1 := rfl
  have hchart : ∀ b, b ≠ tail Γ₀.here rest → Δ.chart b = (Γ.join s sources).chart b :=
    fun b hb => by simp [hΔ, Sketch.edge, hb]
  have hmem : ∀ b, ¬ Exits (pre ++ main :: rest.map (·.branch)) b → b ∉ sources :=
    fun b hb hmem => hb (hsources b hmem)
  have hkeep : ∀ b, b ≠ Γ.size → b ≠ tail Γ₀.here rest →
      ¬ Exits (pre ++ main :: rest.map (·.branch)) b → Δ.chart b = Γ.chart b :=
    fun b hb hb' hex => by
      rw [hchart b hb', Bundle.chart_join hb, if_neg (hmem b hex)]
  have hlast : Δ.chart (tail Γ₀.here rest) = { Γ.chart (tail Γ₀.here rest) with
      next := (Γ.chart (tail Γ₀.here rest)).next ++ [root] } := by
    simp only [hΔ, Sketch.edge, if_true]
    rw [Bundle.chart_join (by omega), if_neg (hmem _ htail.2)]
  have hnew : Δ.chart Γ.size = s := by
    rw [hchart _ (by omega), Bundle.chart_join_size]
  have hends : ∀ b, Exits (pre ++ main :: rest.map (·.branch)) b →
      Δ.chart b = { Γ.chart b with next := if b ∈ sources then [Γ.size] else [] } :=
    fun b hb => by
      have hne : b ≠ tail Γ₀.here rest := fun h => htail.2 (h ▸ hb)
      obtain ⟨hbsize, -, -, hnil, -⟩ := hexit b hb
      rw [hchart b hne, Bundle.chart_join (by omega)]
      split
      · rw [hnil]
        rfl
      · rw [← hnil]
  have hheads : ∀ b, Heads rest b → b ≠ Γ.size ∧
      ¬ Exits (pre ++ main :: rest.map (·.branch)) b := fun b hb =>
    ⟨(hq.heads b hb).2.ne, fun hex => (hexit b hex).2.2.1 hb⟩
  refine ⟨by omega, fun b hb hb' hhead hex => ?_, ?_, ?_, fun b hb => ?_, fun b hb => ?_,
    fun b hb hb' => ?_, fun b hb c hc => ?_, fun br hbr hfalls => ?_⟩
  · refine hkeep b hb.ne ?_ hex
    rintro rfl
    obtain ⟨heq, -⟩ | ⟨hhead', -⟩ := hq.tail_cases
    · exact hb' heq
    · exact hhead hhead'
  · cases rest with
    | nil =>
      change Δ.chart Γ₀.here = { Γ.chart Γ₀.here with
        next := (Γ.chart Γ₀.here).next ++ [root] } at hlast
      rw [hlast, hq.origin]
      simp [link]
    | cons r rest =>
      have hne : Γ₀.here ≠ tail Γ₀.here (r :: rest) := by
        obtain ⟨-, hnil⟩ | ⟨-, hmade⟩ := hq.tail_cases
        · simp at hnil
        · exact (hlt.trans_le hmade.1).ne
      rw [hkeep _ (by omega) hne fun hex => (hexit _ hex).2.1 rfl, hq.origin]
      simp [link]
  · refine hq.spine.lead Γ₀.here hq.ascending (fun b hb hne => ?_) fun _ => hlast
    exact hkeep b (hheads b hb).1 hne (hheads b hb).2
  · by_cases hne : b = tail Γ₀.here rest
    · rw [hne, hlast]
    · rw [hkeep b (hheads b hb).1 hne (hheads b hb).2]
  · rw [hends b hb]
  · obtain rfl : b = Γ.size := by omega
    rw [hnew]
    exact ⟨hs.nodes, hs.calm⟩
  · obtain hb | hb := hb
    · rw [hends b hb] at hc
      split at hc
      · have := List.mem_singleton.1 hc
        omega
      · simp at hc
    · obtain rfl : b = Γ.size := by omega
      rw [hnew, hs.next] at hc
      simp at hc
  · have hex : Exits (pre ++ main :: rest.map (·.branch)) br.exit := ⟨br, hbr, rfl⟩
    have hchart' := hends _ hex
    by_cases hb : br.exit ∈ sources
    · refine ⟨Γ.size, .step ?_ (by rw [hnew, hs.nodes]) .refl, by rw [hnew, hs.next],
        by rw [hnew, hs.ending]⟩
      rw [hchart', if_pos hb]
    · exact ⟨br.exit, .refl, by rw [hchart', if_neg hb], by rw [hchart', (hexit _ hex).2.2.2.2]⟩

end Steps

end Closing

end CobolFlow
