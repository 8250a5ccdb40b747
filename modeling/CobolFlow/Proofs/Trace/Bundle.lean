import CobolFlow.Proofs.Trace.Fragment

/-!
# Branches that meet again

While a decision is open, its branches lie side by side: each is entered over an edge from the
origin of the decision, does what a behaviour says, and comes to an end that leads nowhere yet. A
`Bundle` is this state. A further branch is a fragment from a new block on, and when the decision
is closed, what can be reached and leads nowhere is led to one new block, which makes the whole
bundle a fragment again.

## Main definitions

* `Branch`, `Bundle` — an open decision
* `Sketch.join` — leading some blocks to a new one

## Main results

* `Bundle.open`, `Bundle.add`, `Bundle.close` — the life of a decision
-/

namespace CobolFlow

/-- An alternative of a decision. -/
structure Branch where
  entry : ℕ
  exit : ℕ
  behaviour : Behaviour

/-- The blocks made between two sketches. -/
def Sketch.Made (Γ Γ' : Sketch) (b : ℕ) : Prop := Γ.size ≤ b ∧ b < Γ'.size

/-- The blocks where a search from one of `entries` ends, and the program does not. -/
def Chart.OpenEnd (χ : Chart) (entries : List ℕ) (b : ℕ) : Prop :=
  (χ b).next = [] ∧ (χ b).flags.ending = false ∧ ∃ e ∈ entries, χ.Reaches e b

/-- Adds a block with an edge from `b`, which becomes the current one. -/
def Sketch.branch (Γ : Sketch) (b : ℕ) (s : Spot) : Sketch :=
  ((Γ.fresh s).edge b Γ.size).goTo Γ.size

theorem Sketch.chart_branch {Γ : Sketch} {b : ℕ} (hne : b ≠ Γ.size) (s : Spot) (c : ℕ) :
    (Γ.branch b s).chart c =
      if c = Γ.size then s
      else if c = b then { Γ.chart c with next := (Γ.chart c).next ++ [Γ.size] }
      else Γ.chart c := by
  by_cases hsize : c = Γ.size
  · simp [Sketch.branch, Sketch.fresh, Sketch.goTo, Sketch.edge, hsize, hne.symm]
  · by_cases hb : c = b <;>
      simp [Sketch.branch, Sketch.fresh, Sketch.goTo, Sketch.edge, hsize, hb, hne]

/-- Adds a block and leads others to it, which becomes the current one. -/
def Sketch.join (Γ : Sketch) (s : Spot) (sources : List ℕ) : Sketch where
  chart b :=
    if b = Γ.size then s
    else if b ∈ sources then { Γ.chart b with next := (Γ.chart b).next ++ [Γ.size] }
    else Γ.chart b
  size := Γ.size + 1
  here := Γ.size

/-- The branch lies in `region` and does what its behaviour says. -/
structure Branch.Fits (br : Branch) (χ : Chart) (region loose : ℕ → Prop) (marks : Departures) :
    Prop where
  entry : region br.entry
  exit : region br.exit
  next : (χ br.exit).next = []
  ending : (χ br.exit).flags.ending = false
  ends : ∃ S : Set ℕ, br.entry ∈ S ∧ (∀ b ∈ S, region b) ∧
    (∀ b ∈ S, ∀ c ∈ (χ b).next, c ∈ S) ∧
    ∀ b ∈ S, (χ b).next = [] → b = br.exit ∨ (χ b).flags.ending
  reaches : br.behaviour.falls ≠ 0 → χ.Reaches br.entry br.exit
  reads : ∀ G K, Chart.Settles G χ region loose marks K →
    G.reading br.entry = br.behaviour.into (G.rest (χ br.exit).nodes.length br.exit) K

/-- The ends of some branches. -/
def Exits (branches : List Branch) (b : ℕ) : Prop := ∃ br ∈ branches, b = br.exit

/-- Some branches among the blocks made between two sketches, and `heads` that are no part of
them. -/
structure Brood (Γ₀ Γ : Sketch) (heads : ℕ → Prop) (marks : Departures) (branches : List Branch) :
    Prop where
  size_le : Γ₀.size ≤ Γ.size
  frame : ∀ b < Γ₀.size, b ≠ Γ₀.here → Γ.chart b = Γ₀.chart b
  marked : ∀ e b, marks e b → Γ₀.Made Γ b ∧ ¬ heads b ∧ ¬ Exits branches b
  signed : ∀ e b, marks e b → e.Signs (Γ.chart b).nodes
  closed : ∀ b, Γ₀.Made Γ b → ∀ c ∈ (Γ.chart b).next, Γ₀.Made Γ c
  calm : ∀ b, Γ₀.Made Γ b → (Γ.chart b).Calm
  fits : ∀ br ∈ branches, br.Fits Γ.chart (fun b => Γ₀.Made Γ b ∧ ¬ heads b) (Exits branches) marks

/-- A decision whose origin has said `ext` and has the given branches. -/
structure Bundle (Γ₀ Γ : Sketch) (ext : List Instruction) (marks : Departures)
    (branches : List Branch) : Prop extends Brood Γ₀ Γ (fun _ => False) marks branches where
  origin : Γ.chart Γ₀.here = { Γ₀.chart Γ₀.here with
    nodes := (Γ₀.chart Γ₀.here).nodes ++ ext, next := branches.map (·.entry) }

variable {Γ₀ Γ Γ₁ Γ' : Sketch} {ext : List Instruction} {marks marks' : Departures}
  {branches : List Branch} {B : Behaviour} {s : Spot} {heads : ℕ → Prop}

/-- A branch is not affected by what is made after it. -/
theorem Branch.Fits.mono {br : Branch} {χ χ' : Chart} {region region' loose loose' : ℕ → Prop}
    (h : br.Fits χ region loose marks) (hregion : ∀ b, region b → region' b)
    (hchart : ∀ b, region b → χ' b = χ b)
    (hloose : ∀ b, loose b → region b ∧ loose' b)
    (hloose' : ∀ b, region b → loose' b → loose b)
    (hmarks : ∀ e b, marks e b → region b ∧ marks' e b)
    (hmarks' : ∀ e b, region b → marks' e b → marks e b) : br.Fits χ' region' loose' marks' where
  entry := hregion _ h.entry
  exit := hregion _ h.exit
  next := by rw [hchart _ h.exit, h.next]
  ending := by rw [hchart _ h.exit, h.ending]
  ends := by
    obtain ⟨S, hentry, hS, hclosed, hends⟩ := h.ends
    refine ⟨S, hentry, fun b hb => hregion b (hS b hb), fun b hb => ?_, fun b hb => ?_⟩
    · rw [hchart b (hS b hb)]
      exact hclosed b hb
    · rw [hchart b (hS b hb)]
      exact hends b hb
  reaches hfalls := by
    obtain ⟨S, hentry, hS, hclosed, -⟩ := h.ends
    refine (h.reaches hfalls).transfer (P := (· ∈ S)) hentry fun b hb _ c hc => ?_
    exact ⟨hclosed b hb c hc, by rwa [hchart b (hS b hb)]⟩
  reads G K hG := by
    have hG' : G.Settles χ region loose marks K := by
      refine hG.restrict (fun b hb hl => ⟨⟨hregion b hb, fun hl' => hl (hloose' b hb hl')⟩,
        (hchart b hb).symm, fun e => hmarks' e b hb⟩) (fun b hb => ?_) fun e b he => ?_
      · rw [← hchart b (hloose b hb).1]
        exact hG.grows b (hloose b hb).2
      · exact ⟨(hmarks e b he).2, (hchart b (hmarks e b he).1).symm⟩
    rw [h.reads G K hG', hchart _ h.exit]

/-- A fragment whose first block begins with `lead` is a branch that says so first. -/
theorem Fragment.fits {region loose : ℕ → Prop} (hf : Fragment Γ₁ Γ' marks' B)
    (hregion : ∀ b, Γ₁.Between Γ' b → region b)
    (hloose : ∀ b, Γ₁.Between Γ' b → loose b → b = Γ'.here) (hhere : loose Γ'.here)
    (hmarks : ∀ e b, marks' e b → marks e b)
    (hmarks' : ∀ e b, Γ₁.Between Γ' b → marks e b → marks' e b) {lead : List Instruction}
    (hlead : (Γ₁.chart Γ₁.here).nodes = lead) :
    Branch.Fits ⟨Γ₁.here, Γ'.here, B.saying lead⟩ Γ'.chart region loose marks where
  entry := hregion _ (.inl rfl)
  exit := hregion _ hf.here_between
  next := hf.opened.next
  ending := hf.opened.ending
  ends := by
    obtain ⟨S, hentry, hclosed, hends⟩ := hf.ends
    refine ⟨{b | Γ₁.Between Γ' b ∧ b ∈ S}, ⟨.inl rfl, hentry⟩, fun b hb => hregion b hb.1,
      fun b hb c hc => ⟨hf.closed b hb.1 c hc, hclosed b hb.2 c hc⟩, fun b hb => hends b hb.2⟩
  reaches hfalls := hf.reaches fun h => hfalls (by simp [Behaviour.saying, Behaviour.after, h])
  reads G K hG := by
    have hG' : G.Settles Γ'.chart (Γ₁.Between Γ') (· = Γ'.here) marks' K := by
      refine hG.restrict (fun b hb hne => ⟨⟨hregion b hb, fun hl => hne (hloose b hb hl)⟩, rfl,
        fun e => hmarks' e b hb⟩) (fun b hb => hG.grows b (hb ▸ hhere)) fun e b he =>
          ⟨hmarks e b he, rfl⟩
    have hprefix : (Γ₁.chart Γ₁.here).nodes <+: (G Γ₁.here).nodes := by
      refine hf.nodes.trans ?_
      by_cases hsame : Γ₁.here = Γ'.here
      · exact hG'.grows _ hsame
      · rw [hG'.nodes _ (.inl rfl) hsame]
    rw [Chart.reading_eq_just_mul_rest hprefix, hf.reads G K hG', Behaviour.saying,
      Behaviour.into_after, hlead]

namespace Brood

/-- What a branch reaches is made since the decision began, and no head. -/
theorem made_of_reaches (h : Brood Γ₀ Γ heads marks branches) {br : Branch} (hbr : br ∈ branches)
    {b : ℕ} (hb : Γ.chart.Reaches br.entry b) : Γ₀.Made Γ b ∧ ¬ heads b := by
  obtain ⟨S, hentry, hS, hclosed, -⟩ := (h.fits br hbr).ends
  exact hS b (Chart.Reaches.mem (P := (· ∈ S)) hb hentry hclosed)

/-- What a branch reaches and leads nowhere is its end, or ends the program. -/
theorem eq_exit_of_reaches (h : Brood Γ₀ Γ heads marks branches) {br : Branch}
    (hbr : br ∈ branches) {b : ℕ} (hb : Γ.chart.Reaches br.entry b)
    (hnil : (Γ.chart b).next = []) : b = br.exit ∨ (Γ.chart b).flags.ending := by
  obtain ⟨S, hentry, -, hclosed, hends⟩ := (h.fits br hbr).ends
  exact hends b (Chart.Reaches.mem (P := (· ∈ S)) hb hentry hclosed) hnil

/-- A block that is added does not change what is open. -/
theorem openEnd_fresh (h : Brood Γ₀ Γ heads marks branches) {br : Branch} (hbr : br ∈ branches)
    {b : ℕ} : (Γ.fresh s).chart.OpenEnd [br.entry] b ↔ Γ.chart.OpenEnd [br.entry] b := by
  have hsame : ∀ c, Γ.chart.Reaches br.entry c → (Γ.fresh s).chart c = Γ.chart c := fun c hc => by
    simp [Sketch.fresh, (h.made_of_reaches hbr hc).1.2.ne]
  have hreach : (Γ.fresh s).chart.Reaches br.entry b ↔ Γ.chart.Reaches br.entry b :=
    Chart.reaches_congr (P := Γ.chart.Reaches br.entry) .refl (fun _ hb _ hc => hb.tail hc)
      fun c hc => by rw [hsame c hc]
  simp only [Chart.OpenEnd, List.mem_singleton, exists_eq_left, hreach]
  constructor
  · rintro ⟨hnil, hending, hb⟩
    rw [hsame b hb] at hnil hending
    exact ⟨hnil, hending, hb⟩
  · rintro ⟨hnil, hending, hb⟩
    rw [hsame b hb]
    exact ⟨hnil, hending, hb⟩

/-- The open end of a branch is where it falls through. -/
theorem exits_of_openEnd (h : Brood Γ₀ Γ heads marks branches) {br : Branch}
    (hbr : br ∈ branches) {b : ℕ} (hb : Γ.chart.OpenEnd [br.entry] b) : Exits branches b := by
  obtain ⟨hnil, hending, e, he, hreach⟩ := hb
  obtain rfl := List.mem_singleton.1 he
  obtain rfl | hend := h.eq_exit_of_reaches hbr hreach hnil
  · exact ⟨br, hbr, rfl⟩
  · simp [hend] at hending

end Brood

/-! ### A further branch -/

/-- A block has been made for a further branch. The blocks made right before it are heads, and only
heads may have changed meanwhile. -/
structure Prepared (Γ₀ Γ Γ₁ : Sketch) (heads heads' : ℕ → Prop) : Prop where
  le : Γ.size ≤ Γ₁.here
  newest : Γ₁.here + 1 = Γ₁.size
  frame : ∀ b < Γ₀.size, b ≠ Γ₀.here → Γ₁.chart b = Γ₀.chart b
  chart : ∀ b, Γ₀.Made Γ b → ¬ heads b → Γ₁.chart b = Γ.chart b
  heads_iff : ∀ b, heads' b ↔ heads b ∨ Γ.size ≤ b ∧ b < Γ₁.here
  made : ∀ b, heads b → Γ₀.Made Γ b
  closed : ∀ b, heads' b → ∀ c ∈ (Γ₁.chart b).next, Γ₀.Made Γ₁ c
  calm : ∀ b, heads' b → (Γ₁.chart b).Calm

namespace Prepared

variable {heads' : ℕ → Prop} (hp : Prepared Γ₀ Γ Γ₁ heads heads')
  (hf : Fragment Γ₁ Γ' marks' B) {b : ℕ}

include hp

theorem heads_iff_of_made (hb : Γ₀.Made Γ b) : heads' b ↔ heads b := by
  rw [hp.heads_iff, or_iff_left fun hb' => hb'.1.not_gt hb.2]

theorem lt_of_heads (hsize : Γ₀.size ≤ Γ.size) (hb : heads' b) : Γ₀.size ≤ b ∧ b < Γ₁.here := by
  obtain hb | hb := (hp.heads_iff b).1 hb
  · have hmade := hp.made b hb
    exact ⟨hmade.1, hmade.2.trans_le hp.le⟩
  · exact ⟨hsize.trans hb.1, hb.2⟩

include hf

/-- The blocks of the branch are the one that was made for it and later ones. -/
theorem between_iff : Γ₁.Between Γ' b ↔ Γ₁.here ≤ b ∧ b < Γ'.size := by
  have hnew := hp.newest
  have hsize := hf.size_le
  simp only [Sketch.Between]
  omega

theorem size_le : Γ.size < Γ'.size := by
  have hle := hp.le
  have hnew := hp.newest
  have hsize := hf.size_le
  omega

theorem chart_of_lt (hb : b < Γ₁.here) : Γ'.chart b = Γ₁.chart b :=
  hf.frame b (hb.trans_le (hp.newest ▸ Nat.le_succ _)) hb.ne

theorem chart_of_made (hb : Γ₀.Made Γ b) (hhead : ¬ heads b) : Γ'.chart b = Γ.chart b := by
  rw [hp.chart_of_lt hf (hb.2.trans_le hp.le), hp.chart b hb hhead]

omit hf in
/-- A block made since the decision began is old, a head, or in the new branch. -/
theorem cases_of_made (hb : Γ₀.Made Γ' b) :
    (Γ₀.Made Γ b ∧ ¬ heads b) ∨ heads' b ∨ Γ₁.here ≤ b := by
  by_cases hlt : b < Γ.size
  · by_cases hhead : heads b
    · exact .inr (.inl ((hp.heads_iff b).2 (.inl hhead)))
    · exact .inl ⟨⟨hb.1, hlt⟩, hhead⟩
  · by_cases hlt' : b < Γ₁.here
    · exact .inr (.inl ((hp.heads_iff b).2 (.inr ⟨not_lt.1 hlt, hlt'⟩)))
    · exact .inr (.inr (not_lt.1 hlt'))

end Prepared

namespace Brood

variable {heads' : ℕ → Prop} (h : Brood Γ₀ Γ heads marks branches)
  (hp : Prepared Γ₀ Γ Γ₁ heads heads') (hf : Fragment Γ₁ Γ' marks' B) {lead : List Instruction}

omit hp in
theorem exits_append_iff {b : ℕ} : Exits (branches ++ [⟨Γ₁.here, Γ'.here, B.saying lead⟩]) b ↔
    Exits branches b ∨ b = Γ'.here := by
  simp [Exits, or_and_right, exists_or]

include h hp hf

theorem marked_add (e : Exit) (b : ℕ) (he : marks e b ∨ marks' e b) :
    Γ₀.Made Γ' b ∧ ¬ heads' b ∧
      ¬ Exits (branches ++ [⟨Γ₁.here, Γ'.here, B.saying lead⟩]) b := by
  have hsize := hp.size_le hf
  have hexit := ((hp.between_iff hf).1 hf.here_between).1
  have hle := hp.le
  rw [exits_append_iff, not_or]
  obtain he | he := he
  · obtain ⟨hb, hhead, hnot⟩ := h.marked e b he
    have hlt := hb.2
    exact ⟨⟨hb.1, by omega⟩, mt (hp.heads_iff_of_made hb).1 hhead, hnot, by omega⟩
  · obtain ⟨hb, hne⟩ := hf.marked e b he
    have hb := (hp.between_iff hf).1 hb
    refine ⟨⟨h.size_le.trans (hle.trans hb.1), hb.2⟩,
      fun hhead => (hp.lt_of_heads h.size_le hhead).2.not_ge hb.1, ?_, hne⟩
    rintro ⟨br, hbr, rfl⟩
    exact (h.fits br hbr).exit.1.2.not_ge (hle.trans hb.1)

theorem closed_add {b : ℕ} (hb : Γ₀.Made Γ' b) {c : ℕ} (hc : c ∈ (Γ'.chart b).next) :
    Γ₀.Made Γ' c := by
  have hsize := hp.size_le hf
  have hsize₀ := h.size_le
  obtain ⟨hb, hhead⟩ | hb | hge := hp.cases_of_made hb
  · rw [hp.chart_of_made hf hb hhead] at hc
    obtain ⟨hge, hlt⟩ := h.closed b hb c hc
    exact ⟨hge, by omega⟩
  · rw [hp.chart_of_lt hf (hp.lt_of_heads h.size_le hb).2] at hc
    obtain ⟨hge, hlt⟩ := hp.closed b hb c hc
    exact ⟨hge, hlt.trans_le hf.size_le⟩
  · have hc' := (hp.between_iff hf).1 (hf.closed b ((hp.between_iff hf).2 ⟨hge, hb.2⟩) c hc)
    exact ⟨hsize₀.trans (hp.le.trans hc'.1), hc'.2⟩

theorem calm_add {b : ℕ} (hb : Γ₀.Made Γ' b) : (Γ'.chart b).Calm := by
  obtain ⟨hb, hhead⟩ | hb | hge := hp.cases_of_made hb
  · rw [hp.chart_of_made hf hb hhead]
    exact h.calm b hb
  · rw [hp.chart_of_lt hf (hp.lt_of_heads h.size_le hb).2]
    exact hp.calm b hb
  · exact hf.calm b ((hp.between_iff hf).2 ⟨hge, hb.2⟩)

/-- An old branch is not affected by the new one. -/
theorem fits_add {br : Branch} (hbr : br ∈ branches) : br.Fits Γ'.chart
    (fun b => Γ₀.Made Γ' b ∧ ¬ heads' b) (Exits (branches ++ [⟨Γ₁.here, Γ'.here, B.saying lead⟩]))
    fun e b => marks e b ∨ marks' e b := by
  have hsize := hp.size_le hf
  have hexit := ((hp.between_iff hf).1 hf.here_between).1
  have hle := hp.le
  refine (h.fits br hbr).mono (fun b hb => ⟨⟨hb.1.1, hb.1.2.trans hsize⟩, ?_⟩)
    (fun b hb => hp.chart_of_made hf hb.1 hb.2) (fun b hb => ⟨?_, exits_append_iff.2 (.inl hb)⟩)
    (fun b hb hb' => (exits_append_iff.1 hb').resolve_right ?_) (fun e b he => ?_)
    fun e b hb he => he.resolve_right fun he' => ?_
  · exact mt (hp.heads_iff_of_made hb.1).1 hb.2
  · obtain ⟨br', hbr', rfl⟩ := hb
    exact (h.fits br' hbr').exit
  · have hlt := hb.1.2
    omega
  · obtain ⟨hb, hhead, -⟩ := h.marked e b he
    exact ⟨⟨hb, hhead⟩, .inl he⟩
  · have hge := ((hp.between_iff hf).1 (hf.marked e b he').1).1
    have hlt := hb.1.2
    omega

theorem fits_add_new (hlead : (Γ₁.chart Γ₁.here).nodes = lead) :
    Branch.Fits ⟨Γ₁.here, Γ'.here, B.saying lead⟩ Γ'.chart
      (fun b => Γ₀.Made Γ' b ∧ ¬ heads' b)
      (Exits (branches ++ [⟨Γ₁.here, Γ'.here, B.saying lead⟩]))
      fun e b => marks e b ∨ marks' e b := by
  have hle := hp.le
  refine hf.fits (fun b hb => ?_) (fun b hb hb' => ?_) (exits_append_iff.2 (.inr rfl))
    (fun e b he => .inr he) (fun e b hb he => he.resolve_left fun he' => ?_) hlead
  · have hb := (hp.between_iff hf).1 hb
    exact ⟨⟨h.size_le.trans (hle.trans hb.1), hb.2⟩,
      fun hhead => (hp.lt_of_heads h.size_le hhead).2.not_ge hb.1⟩
  · refine (exits_append_iff.1 hb').resolve_left ?_
    rintro ⟨br, hbr, rfl⟩
    exact (h.fits br hbr).exit.1.2.not_ge (hle.trans ((hp.between_iff hf).1 hb).1)
  · exact (h.marked e b he').1.2.not_ge (hle.trans ((hp.between_iff hf).1 hb).1)

/-- A further branch is a fragment from the block on that was made for it. -/
theorem add (hlead : (Γ₁.chart Γ₁.here).nodes = lead) :
    Brood Γ₀ Γ' heads' (fun e b => marks e b ∨ marks' e b)
      (branches ++ [⟨Γ₁.here, Γ'.here, B.saying lead⟩]) where
  size_le := h.size_le.trans (hp.size_le hf).le
  frame b hb hne := by
    rw [hp.chart_of_lt hf (hb.trans_le (h.size_le.trans hp.le)), hp.frame b hb hne]
  marked := h.marked_add hp hf
  signed e b he := by
    obtain he | he := he
    · obtain ⟨hb, hhead, -⟩ := h.marked e b he
      rw [hp.chart_of_made hf hb hhead]
      exact h.signed e b he
    · exact hf.signed e b he
  closed _ hb _ hc := h.closed_add hp hf hb hc
  calm _ hb := h.calm_add hp hf hb
  fits br hbr := by
    obtain hbr | hbr := List.mem_append.1 hbr
    · exact h.fits_add hp hf hbr
    · exact List.mem_singleton.1 hbr ▸ h.fits_add_new hp hf hlead

end Brood

namespace Bundle

/-- A decision begins with what its origin says. -/
theorem «open» (h : Γ₀.Open) (ext : List Instruction) :
    Bundle Γ₀ (Γ₀.say ext) ext (fun _ _ => False) [] where
  size_le := le_rfl
  frame b _ hne := by simp [Sketch.say, Sketch.sayAt, hne]
  origin := by simp [Sketch.say, Sketch.sayAt, h.next]
  marked _ _ h := h.elim
  signed _ _ h := h.elim
  closed b hb := by
    simp only [Sketch.Made, Sketch.say, Sketch.sayAt] at hb
    omega
  calm b hb := by
    simp only [Sketch.Made, Sketch.say, Sketch.sayAt] at hb
    omega
  fits := by simp

/-- A block is made for a further branch. -/
theorem prepared (h : Bundle Γ₀ Γ ext marks branches) (h₀ : Γ₀.here < Γ₀.size) (s : Spot) :
    Prepared Γ₀ Γ (Γ.branch Γ₀.here s) (fun _ => False) fun _ => False := by
  have hsize₀ := h.size_le
  have hne : Γ₀.here ≠ Γ.size := (h₀.trans_le hsize₀).ne
  refine ⟨le_rfl, rfl, fun b hb hb' => ?_, fun b hb _ => ?_, fun b => ?_, fun _ h => h.elim,
    fun _ h => h.elim, fun _ h => h.elim⟩
  · rw [Sketch.chart_branch hne, if_neg (by omega), if_neg hb', h.frame b hb hb']
  · rw [Sketch.chart_branch hne, if_neg hb.2.ne, if_neg (h₀.trans_le hb.1).ne']
  · simp only [false_or, false_iff, not_and]
    exact fun hle hlt => hlt.not_ge hle

/-- A further branch: a block that begins with `lead`, and a fragment from there on. -/
theorem add (h : Bundle Γ₀ Γ ext marks branches) (h₀ : Γ₀.here < Γ₀.size)
    (hf : Fragment (Γ.branch Γ₀.here s) Γ' marks' B) :
    Bundle Γ₀ Γ' ext (fun e b => marks e b ∨ marks' e b)
      (branches ++ [⟨Γ.size, Γ'.here, B.saying s.nodes⟩]) := by
  have hsize₀ := h.size_le
  have hne : Γ₀.here ≠ Γ.size := (h₀.trans_le hsize₀).ne
  have hlead : ((Γ.branch Γ₀.here s).chart Γ.size).nodes = s.nodes := by
    simp [Sketch.chart_branch hne]
  refine ⟨h.toBrood.add (h.prepared h₀ s) hf hlead, ?_⟩
  rw [hf.frame _ (by change _ < Γ.size + 1; omega) hne, Sketch.chart_branch hne, if_neg hne,
    if_pos rfl, h.origin]
  simp

/-! ### Closing a decision -/

section Close

variable {sources : List ℕ} {onward : Bool} (h : Bundle Γ₀ Γ ext marks branches)
  (h₀ : Γ₀.here < Γ₀.size)
  (hsources : ∀ b, b ∈ sources ↔
    b ≠ Γ.size ∧ (Γ.fresh s).chart.OpenEnd (branches.map (·.entry)) b ∨
      onward = true ∧ b = Γ₀.here)

omit h in
theorem chart_fresh {b : ℕ} (hb : Γ₀.Made Γ b) : (Γ.fresh s).chart b = Γ.chart b := by
  simp [Sketch.fresh, hb.2.ne]

include h h₀ hsources

/-- Among the blocks made since the decision began, those go on that a branch reaches. -/
theorem mem_sources_iff {b : ℕ} (hb : Γ₀.Made Γ b) : b ∈ sources ↔ (Γ.chart b).next = [] ∧
    (Γ.chart b).flags.ending = false ∧ ∃ br ∈ branches, Γ.chart.Reaches br.entry b := by
  have hreach : ∀ br ∈ branches, (Γ.fresh s).chart.Reaches br.entry b ↔
      Γ.chart.Reaches br.entry b := fun br hbr =>
    Chart.reaches_congr (h.fits br hbr).entry.1 h.closed fun c hc => by rw [chart_fresh hc]
  have hb₀ : b ≠ Γ₀.here := (h₀.trans_le hb.1).ne'
  simp only [hsources, hb₀, and_false, or_false, hb.2.ne, ne_eq, not_false_eq_true, true_and,
    Chart.OpenEnd, chart_fresh hb, List.mem_map, exists_exists_and_eq_and]
  exact and_congr_right fun _ => and_congr_right fun _ => exists_congr fun br =>
    and_congr_right fun hbr => hreach br hbr

omit h₀ in
theorem made_or_eq_of_mem_sources {b : ℕ} (hb : b ∈ sources) :
    Γ₀.Made Γ b ∨ onward = true ∧ b = Γ₀.here := by
  obtain ⟨-, -, -, e, he, hreach⟩ | hb := (hsources b).1 hb
  · obtain ⟨br, hbr, rfl⟩ := List.mem_map.1 he
    refine .inl (hreach.mem (h.fits br hbr).entry.1 fun c hc => ?_)
    rw [chart_fresh hc]
    exact h.closed c hc
  · exact .inr hb

theorem exit_mem_sources {br : Branch} (hbr : br ∈ branches) (hfalls : br.behaviour.falls ≠ 0) :
    br.exit ∈ sources :=
  (h.mem_sources_iff h₀ hsources (h.fits br hbr).exit.1).2
    ⟨(h.fits br hbr).next, (h.fits br hbr).ending, br, hbr, (h.fits br hbr).reaches hfalls⟩

theorem exits_of_mem_sources {b : ℕ} (hb : Γ₀.Made Γ b) (hmem : b ∈ sources) :
    Exits branches b := by
  obtain ⟨hnil, hending, br, hbr, hreach⟩ := (h.mem_sources_iff h₀ hsources hb).1 hmem
  obtain rfl | hend := h.eq_exit_of_reaches hbr hreach hnil
  · exact ⟨br, hbr, rfl⟩
  · simp [hend] at hending

theorem chart_join_origin : (Γ.join s sources).chart Γ₀.here =
    { Γ₀.chart Γ₀.here with
      nodes := (Γ₀.chart Γ₀.here).nodes ++ ext
      next := branches.map (·.entry) ++ if onward then [Γ.size] else [] } := by
  have hne : Γ₀.here ≠ Γ.size := (h₀.trans_le h.size_le).ne
  have hmem : Γ₀.here ∈ sources ↔ onward = true := by
    constructor
    · intro hb
      obtain hmade | ⟨hon, -⟩ := h.made_or_eq_of_mem_sources hsources hb
      · exact absurd h₀ hmade.1.not_gt
      · exact hon
    · exact fun hon => (hsources _).2 (.inr ⟨hon, rfl⟩)
  cases onward <;> simp [Sketch.join, hne, hmem, h.origin]

end Close

theorem chart_join {sources : List ℕ} {b : ℕ} (hb : b ≠ Γ.size) :
    (Γ.join s sources).chart b = if b ∈ sources then
      { Γ.chart b with next := (Γ.chart b).next ++ [Γ.size] } else Γ.chart b := by
  simp [Sketch.join, hb]

theorem nodes_join {sources : List ℕ} {b : ℕ} (hb : b ≠ Γ.size) :
    ((Γ.join s sources).chart b).nodes = (Γ.chart b).nodes := by
  rw [chart_join hb]
  split <;> rfl

theorem chart_join_size {sources : List ℕ} : (Γ.join s sources).chart Γ.size = s := by
  simp [Sketch.join]

theorem mem_next_join {sources : List ℕ} {b c : ℕ} (hb : b ≠ Γ.size) :
    c ∈ ((Γ.join s sources).chart b).next ↔
      c ∈ (Γ.chart b).next ∨ b ∈ sources ∧ c = Γ.size := by
  rw [chart_join hb]
  split <;> simp [*]

section Joined

variable {sources : List ℕ} {onward : Bool} (h : Bundle Γ₀ Γ ext marks branches)
  (hsources : ∀ b, b ∈ sources ↔
    b ≠ Γ.size ∧ (Γ.fresh s).chart.OpenEnd (branches.map (·.entry)) b ∨
      onward = true ∧ b = Γ₀.here)

theorem between_of_made {b : ℕ} (hb : Γ₀.Made Γ b) : Γ₀.Between (Γ.join s sources) b :=
  .inr ⟨hb.1, hb.2.trans (Nat.lt_succ_self _)⟩

/-- The blocks of a closed decision: its origin, what follows it, and what was made in between. -/
theorem cases_of_between_join {b : ℕ} (hb : Γ₀.Between (Γ.join s sources) b) :
    b = Γ.size ∨ b ≠ Γ.size ∧ (b = Γ₀.here ∨ Γ₀.Made Γ b) := by
  have hsize : (Γ.join s sources).size = Γ.size + 1 := rfl
  by_cases hne : b = Γ.size
  · exact .inl hne
  · exact .inr ⟨hne, hb.imp_right fun hb => ⟨hb.1, by omega⟩⟩

include h hsources

theorem frame_join {b : ℕ} (hb : b < Γ₀.size) (hne : b ≠ Γ₀.here) :
    (Γ.join s sources).chart b = Γ₀.chart b := by
  have hnot : b ∉ sources := fun hmem => by
    obtain hmade | ⟨-, heq⟩ := h.made_or_eq_of_mem_sources hsources hmem
    · exact hmade.1.not_gt hb
    · exact hne heq
  rw [chart_join (hb.trans_le h.size_le).ne, if_neg hnot, h.frame b hb hne]

omit hsources in
/-- No edge leads out of a closed decision. -/
theorem closed_join (hs : s.Blank) {b : ℕ} (hb : Γ₀.Between (Γ.join s sources) b) {c : ℕ}
    (hc : c ∈ ((Γ.join s sources).chart b).next) : Γ₀.Between (Γ.join s sources) c := by
  obtain rfl | ⟨hne, hb⟩ := cases_of_between_join hb
  · rw [chart_join_size, hs.next] at hc
    simp at hc
  · obtain hc | ⟨-, rfl⟩ := (mem_next_join hne).1 hc
    · obtain rfl | hb := hb
      · rw [h.origin] at hc
        obtain ⟨br, hbr, rfl⟩ := List.mem_map.1 hc
        exact between_of_made (h.fits br hbr).entry.1
      · exact between_of_made (h.closed b hb c hc)
    · exact .inr ⟨h.size_le, Nat.lt_succ_self _⟩

theorem calm_join (h₀ : Γ₀.Open) (hs : s.Blank) {b : ℕ}
    (hb : Γ₀.Between (Γ.join s sources) b) : ((Γ.join s sources).chart b).Calm := by
  obtain rfl | ⟨hne, rfl | hb⟩ := cases_of_between_join hb
  · rw [chart_join_size]
    exact hs.calm
  · rw [h.chart_join_origin h₀.here_lt hsources]
    exact ⟨h₀.finish, fun hending => absurd hending (by simp [h₀.ending])⟩
  · rw [chart_join hne]
    split
    · next hmem =>
      have hending := ((h.mem_sources_iff h₀.here_lt hsources hb).1 hmem).2.1
      exact ⟨(h.calm b hb).finish, fun h => absurd h (by simp [hending])⟩
    · exact h.calm b hb

/-- From a decision one comes to what follows it, or to an end of the program. -/
theorem ends_join (h₀ : Γ₀.here < Γ₀.size) (hs : s.Blank)
    (hne : branches ≠ [] ∨ onward = true) : ∃ S : Set ℕ, Γ₀.here ∈ S ∧
    (∀ b ∈ S, ∀ c ∈ ((Γ.join s sources).chart b).next, c ∈ S) ∧
    ∀ b ∈ S, ((Γ.join s sources).chart b).next = [] →
      b = Γ.size ∨ ((Γ.join s sources).chart b).flags.ending := by
  refine ⟨{b | b = Γ₀.here ∨ b = Γ.size ∨ ∃ br ∈ branches, Γ.chart.Reaches br.entry b},
    .inl rfl, fun b hb c hc => ?_, fun b hb hnil => ?_⟩
  · by_cases hsize : b = Γ.size
    · rw [hsize, chart_join_size, hs.next] at hc
      simp at hc
    · obtain hc | ⟨-, rfl⟩ := (mem_next_join hsize).1 hc
      · obtain rfl | rfl | ⟨br, hbr, hreach⟩ := hb
        · rw [h.origin] at hc
          obtain ⟨br, hbr, rfl⟩ := List.mem_map.1 hc
          exact .inr (.inr ⟨br, hbr, .refl⟩)
        · exact absurd rfl hsize
        · exact .inr (.inr ⟨br, hbr, hreach.tail hc⟩)
      · exact .inr (.inl rfl)
  · obtain rfl | rfl | ⟨br, hbr, hreach⟩ := hb
    · rw [h.chart_join_origin h₀ hsources] at hnil
      obtain hne | rfl := hne
      · simp [hne] at hnil
      · simp at hnil
    · exact .inl rfl
    · have hb := (h.made_of_reaches hbr hreach).1
      rw [chart_join hb.2.ne] at hnil ⊢
      split at hnil
      · simp at hnil
      · next hmem =>
        rw [if_neg hmem]
        refine .inr (Bool.eq_true_of_not_eq_false fun hending => hmem ?_)
        exact (h.mem_sources_iff h₀ hsources hb).2 ⟨hnil, hending, br, hbr, hreach⟩

/-- What follows a decision is reached, if one of its branches falls through or none is taken. -/
theorem reaches_join (h₀ : Γ₀.here < Γ₀.size) (hfalls :
    ((branches.map (·.behaviour)).sum + if onward then .skip else 0 : Behaviour).falls ≠ 0) :
    (Γ.join s sources).chart.Reaches Γ₀.here Γ.size := by
  have horigin := h.chart_join_origin h₀ hsources
  cases onward with
  | true => exact .single (by rw [horigin]; simp)
  | false =>
    have hsum : (branches.map Branch.behaviour).sum.falls ≠ 0 := by simpa using hfalls
    obtain ⟨B, hB, hfallsB⟩ := Behaviour.exists_falls_ne_zero_of_sum hsum
    obtain ⟨br, hbr, rfl⟩ := List.mem_map.1 hB
    have hfits := h.fits br hbr
    have hpath : (Γ.join s sources).chart.Reaches br.entry br.exit :=
      (hfits.reaches hfallsB).transfer hfits.entry.1
        fun b hb _ c hc => ⟨h.closed b hb c hc, (mem_next_join hb.2.ne).2 (.inl hc)⟩
    refine Relation.ReflTransGen.head (b := br.entry) ?_ (hpath.tail ?_)
    · rw [horigin]
      simpa using ⟨br, hbr, rfl⟩
    · exact (mem_next_join hfits.exit.1.2.ne).2
        (.inr ⟨h.exit_mem_sources h₀ hsources hbr hfallsB, rfl⟩)

/-- What is read from a branch of a closed decision goes on in the new block. -/
theorem reading_entry (h₀ : Γ₀.here < Γ₀.size) {G : Chart} {K : Exit → Language Instruction}
    (hG : G.Settles (Γ.join s sources).chart (Γ₀.Between (Γ.join s sources)) (· = Γ.size) marks K)
    {br : Branch} (hbr : br ∈ branches) :
    G.reading br.entry = br.behaviour.into (G.reading Γ.size) K := by
  have hfits := h.fits br hbr
  have hfirm : ∀ b, Γ₀.Made Γ b → ¬ Exits branches b →
      (Γ.join s sources).chart b = Γ.chart b := fun b hb hne => by
    rw [chart_join hb.2.ne, if_neg fun hmem => hne (h.exits_of_mem_sources h₀ hsources hb hmem)]
  have hnodes : ∀ b, Γ₀.Made Γ b → (G b).nodes = (Γ.chart b).nodes := fun b hb => by
    rw [hG.nodes b (between_of_made hb) hb.2.ne, nodes_join hb.2.ne]
  have hG' : G.Settles Γ.chart (fun b => Γ₀.Made Γ b ∧ ¬ False) (Exits branches) marks K := by
    refine hG.restrict (fun b hb hne => ⟨⟨between_of_made hb.1, hb.1.2.ne⟩,
      (hfirm b hb.1 hne).symm, fun e he => he⟩) ?_ fun e b he => ⟨he, ?_⟩
    · rintro _ ⟨br, hbr, rfl⟩
      rw [hnodes _ (h.fits br hbr).exit.1]
    · obtain ⟨hb, -, hne⟩ := h.marked e b he
      exact (hfirm b hb hne).symm
  rw [hfits.reads G K hG']
  refine br.behaviour.into_congr _ _ K fun hfalls => ?_
  have hmem := h.exit_mem_sources h₀ hsources hbr hfalls
  have hnext : (G br.exit).next = [Γ.size] := by
    rw [hG.next _ (between_of_made hfits.exit.1) hfits.exit.1.2.ne fun e he =>
      (h.marked e _ he).2.2 ⟨br, hbr, rfl⟩, chart_join hfits.exit.1.2.ne, if_pos hmem, hfits.next]
    rfl
  rw [← hnodes _ hfits.exit.1, Chart.rest_length, Chart.onward_of_next_ne_nil (by simp [hnext]),
    hnext, List.map_singleton, List.sum_singleton]

/-- What is read from the origin of a closed decision, after what it had said before. -/
theorem reads_join (h₀ : Γ₀.here < Γ₀.size) (hne : branches ≠ [] ∨ onward = true) {G : Chart}
    {K : Exit → Language Instruction}
    (hG : G.Settles (Γ.join s sources).chart (Γ₀.Between (Γ.join s sources)) (· = Γ.size) marks K) :
    G.rest (Γ₀.chart Γ₀.here).nodes.length Γ₀.here =
      (((branches.map (·.behaviour)).sum + if onward then .skip else 0).saying ext).into
        (G.reading Γ.size) K := by
  have horigin : Γ₀.here ≠ Γ.size := (h₀.trans_le h.size_le).ne
  have hnodes := hG.nodes Γ₀.here (.inl rfl) horigin
  have hnext := hG.next Γ₀.here (.inl rfl) horigin fun e he => h₀.not_ge (h.marked e _ he).1.1
  simp only [h.chart_join_origin h₀ hsources] at hnodes hnext
  have hprefix : (Γ₀.chart Γ₀.here).nodes ++ ext <+: (G Γ₀.here).nodes :=
    hnodes ▸ List.prefix_rfl
  have hbranches : (branches.map (·.entry)).map G.reading =
      (branches.map (·.behaviour)).map (·.into (G.reading Γ.size) K) := by
    rw [List.map_map, List.map_map]
    exact List.map_congr_left fun br hbr => h.reading_entry hsources h₀ hG hbr
  have honward : G.onward Γ₀.here = ((branches.map (·.behaviour)).sum +
      if onward then .skip else 0 : Behaviour).into (G.reading Γ.size) K := by
    rw [Chart.onward_of_next_ne_nil, hnext, List.map_append, List.sum_append, hbranches,
      Behaviour.into_add, Behaviour.into_sum]
    · cases onward <;> simp
    · rw [hnext]
      obtain hne | rfl := hne <;> simp [*]
  rw [Chart.rest_eq_just_mul_rest hprefix, ← hnodes, Chart.rest_length, honward,
    Behaviour.saying, Behaviour.into_after]

end Joined

/-- **What a decision comes to when it is closed.** What can be reached and leads nowhere goes on
in a new block, and so does the origin if `onward` says so. -/
theorem close (h : Bundle Γ₀ Γ ext marks branches) (h₀ : Γ₀.Open) (hs : s.Blank) {onward : Bool}
    (hne : branches ≠ [] ∨ onward = true) (sources : List ℕ)
    (hsources : ∀ b, b ∈ sources ↔
      b ≠ Γ.size ∧ (Γ.fresh s).chart.OpenEnd (branches.map (·.entry)) b ∨
        onward = true ∧ b = Γ₀.here) :
    Fragment Γ₀ (Γ.join s sources) marks
      (((branches.map (·.behaviour)).sum + if onward then .skip else 0).saying ext) := by
  have hsize₀ := h.size_le
  have hhere : (Γ.join s sources).here = Γ.size := rfl
  have hsize : (Γ.join s sources).size = Γ.size + 1 := rfl
  exact
    { size_le := by omega
      opened := ⟨Nat.lt_succ_self _, by rw [hhere, chart_join_size, hs.next],
        by rw [hhere, chart_join_size, hs.ending], by rw [hhere, chart_join_size, hs.finish]⟩
      newest := .inl ⟨hsize₀, rfl⟩
      frame := fun b hb hb' => h.frame_join hsources hb hb'
      nodes := by
        rw [h.chart_join_origin h₀.here_lt hsources]
        exact List.prefix_append _ _
      closed := fun b hb c hc => h.closed_join hs hb hc
      calm := fun b hb => h.calm_join hsources h₀ hs hb
      marked := fun e b he => ⟨between_of_made (h.marked e b he).1, (h.marked e b he).1.2.ne⟩
      signed := fun e b he => by
        rw [nodes_join (h.marked e b he).1.2.ne]
        exact h.signed e b he
      ends := h.ends_join hsources h₀.here_lt hs hne
      reaches := fun hfalls => h.reaches_join hsources h₀.here_lt fun hzero =>
        hfalls (by simp [Behaviour.saying, Behaviour.after, hzero])
      reads := fun G K hG => by
        rw [h.reads_join hsources h₀.here_lt hne hG, hhere, chart_join_size, hs.nodes,
          Chart.reading_eq_rest]
        rfl }

end Bundle

end CobolFlow
