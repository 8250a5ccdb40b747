import CobolFlow.CommandLine.Commands

/-!
# Where the options of a build come from

The options of a build are those of a configuration, either the one that is named or the one that
is there, or else the defaults. Then the command line has its say. Finding them changes no file and
says nothing.

Neither a configuration that is accepted nor the defaults contradict themselves. The command line
comes after that check, so there is one way in which the options of a build can: the configuration
is one of normal mode without graft depth, and the command line asks for extended mode.

## Main definitions

* `Work.within` — what a command comes to in a folder
* `Folder.load` — the options that a configuration in a folder says
* `Invocation.configured` — the options that the command line overrides

## Main results

* `Invocation.within_options` — the options of a build are those, overridden
* `Invocation.check_options_iff` — when they do not contradict each other
-/

namespace CobolFlow.CommandLine

/-! ### Commands in a folder -/

namespace Work

variable {α β : Type} {said : Output} {f : Folder}

/-- What a command at work comes to in a folder, with what it has said before. -/
def within (x : Work (StateM Folder) α) (said : Output) (f : Folder) :
    Except Failure α × Output × Folder :=
  match (x.run.run said).run f with
  | ((result, said), f) => (result, said, f)

theorem within_bind (x : Work (StateM Folder) α) (k : α → Work (StateM Folder) β) :
    within (x >>= k) said f =
      match within x said f with
      | (.ok a, said, f) => within (k a) said f
      | (.error e, said, f) => (.error e, said, f) := by
  simp only [within, ExceptT.run_bind, StateT.run_bind]
  rcases (x.run.run said).run f with ⟨⟨_ | _, _⟩, _⟩ <;> rfl

theorem within_readFile (path : String) :
    within (Storage.readFile path : StateM Folder _) said f = (.ok (f.read path), said, f) := rfl

theorem within_isThere (path : String) :
    within (Storage.isThere path : StateM Folder _) said f = (.ok (f.isThere path), said, f) := rfl

end Work

/-! ### Options -/

/-- The options that the configuration at a path says. -/
def Folder.load (f : Folder) (path : String) : Except Failure Options :=
  match (f.read path).map Configuration.read with
  | some (.ok o) => .ok o
  | _ => .error (.load path)

/-- The options that the command line overrides: those of the configuration, or the defaults. -/
def Invocation.configured (i : Invocation) (f : Folder) : Except Failure Options :=
  match i.config.or (if f.isThere defaultConfig then some defaultConfig else none) with
  | some path => f.load path
  | none => .ok {}

variable {i : Invocation} {f : Folder} {o : Options} {path : String} {said : Output}

theorem within_loadOptions (path : String) (said : Output) (f : Folder) :
    (loadOptions path).within said f = (f.load path, said, f) := by
  rw [loadOptions, Folder.load, Work.within_bind, Work.within_readFile]
  cases f.read path with
  | none => rfl
  | some text =>
    dsimp only [Option.map_some]
    cases Configuration.read text <;> rfl

/-- **The options of a build are those of the configuration or the defaults, overridden by the
command line.** Nothing is said or written on the way. -/
theorem Invocation.within_options (i : Invocation) (said : Output) (f : Folder) :
    i.options.within said f = ((i.configured f).map i.override, said, f) := by
  have hload : ∀ path, (do return i.override (← loadOptions path) : Work _ _).within said f =
      ((f.load path).map i.override, said, f) := by
    intro path
    rw [Work.within_bind, within_loadOptions]
    cases f.load path <;> rfl
  rw [Invocation.options, Invocation.configured]
  cases i.config with
  | some path => exact hload path
  | none =>
    dsimp only [Option.none_or]
    rw [Work.within_bind, Work.within_isThere]
    cases f.isThere defaultConfig with
    | false => rfl
    | true => exact hload defaultConfig

/-! ### Contradictions -/

theorem check_eq_ok_iff (o : Options) :
    o.check = .ok () ↔ ¬ (o.mode = .extended ∧ o.maxGraftDepth = 0) := by
  simp [Options.check, Options.isExtended]

theorem Folder.check_of_load (h : f.load path = .ok o) : o.check = .ok () := by
  unfold Folder.load at h
  split at h
  · next o' hread =>
    obtain rfl := Except.ok.inj h
    obtain ⟨text, -, htext⟩ := Option.map_eq_some_iff.1 hread
    exact Configuration.check_of_read htext
  · cases h

/-- Before the command line has its say, the options do not contradict each other. -/
theorem Invocation.check_of_configured (h : i.configured f = .ok o) : o.check = .ok () := by
  unfold Invocation.configured at h
  split at h
  · exact Folder.check_of_load h
  · obtain rfl := Except.ok.inj h
    rfl

/-- **The options of a build contradict each other in one case only**: they come from a
configuration of normal mode without graft depth, and the command line asks for extended mode. -/
theorem Invocation.check_options_iff (h : (i.options.within said f).1 = .ok o) :
    ∃ configured, i.configured f = .ok configured ∧ o = i.override configured ∧
      (o.check = .ok () ↔ ¬ (i.mode = some .extended ∧ configured.mode = .normal ∧
        configured.maxGraftDepth = 0)) := by
  rw [within_options] at h
  cases hconfigured : i.configured f with
  | error e => simp [hconfigured, Except.map] at h
  | ok configured =>
    rw [hconfigured] at h
    obtain rfl := Except.ok.inj h
    have hcheck := check_of_configured hconfigured
    rw [check_eq_ok_iff] at hcheck
    refine ⟨configured, rfl, rfl, ?_⟩
    rw [check_eq_ok_iff, Invocation.override]
    -- A mode that is not given is that of the configuration, which has been checked.
    rcases i.mode with _ | _ | _ <;> cases hmode : configured.mode <;> simp_all

/-- Where there is no configuration they never do. -/
theorem Invocation.check_options_of_default (h : (i.options.within said f).1 = .ok o)
    (hnone : i.config = none) (hthere : f.isThere defaultConfig = false) : o.check = .ok () := by
  obtain ⟨configured, hconfigured, -, hiff⟩ := check_options_iff h
  have hdefault : i.configured f = .ok {} := by
    rw [Invocation.configured, hnone, hthere]
    rfl
  obtain rfl := Except.ok.inj (hdefault.symm.trans hconfigured)
  exact hiff.2 fun ⟨_, _, hdepth⟩ => absurd hdepth (by decide)

end CobolFlow.CommandLine
