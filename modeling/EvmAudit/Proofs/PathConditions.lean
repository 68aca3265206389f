import EvmAudit.Proofs.Runs

/-!
# Path conditions

The conditions of a path only grow. Whatever meets the conditions of a state meets those of the state that it follows:
while a frame goes on, where a nested frame starts, and where it ends, in whatever way. So a caller that goes on after a
nested frame is under its own conditions and under those that were met in the frame.
-/

namespace EvmAudit

/-! ## One instruction -/

namespace GState

variable {g g' : GState} {p : Footprint} {isMetered advances : Bool}

lemma Passes.entails (h : g.Passes p isMetered advances g') : g'.world.constraints.Entails g.world.constraints := by
  obtain ⟨g1, g2, node, hg1, hg2, rfl⟩ := h
  obtain ⟨_, _, _, rfl⟩ := hg2.rest
  exact hg1.world.entails

/-- The frame ends and takes back what it did: by a fault, or because an instruction says so. -/
def TakesBack (g : GState) (s : Session) : Prop :=
  (∃ op s₁, g.Faults op s s₁) ∨ ∃ op final data s₁, g.Performs op s (.halt final data true) s₁

end GState

namespace Explore

variable {g g' c c' last waiting : GState} {op : Opcode} {tx : Tx} {s s' s₁ : Session} {r : GState.Executed}

lemma waiting_entails (h : g.Performs op s (.call tx waiting) s₁) :
    waiting.world.constraints.Entails g.world.constraints := by
  cases hcreates : op.creates with
  | true =>
    obtain ⟨-, -, hmakes⟩ := ((g.perform_creates hcreates s).ok h.run).2
    exact hmakes.entails
  | false =>
    obtain ⟨-, -, -, hwaiting⟩ := performs_within true h (fun _ _ _ => nofun) hcreates nofun
    exact hwaiting.world.entails

/-! ## Ends of frames -/

lemma Recalls.entails (h : Recalls c last c') : c'.world.constraints.Entails last.world.constraints := by
  cases h with
  | fails => exact .of_subset (List.subset_append_right _ _)
  | @hands data reverted _ hhanded =>
    cases reverted with
    | true =>
      obtain ⟨w, -, hworld⟩ := hhanded.reverts rfl
      rw [hworld]
      exact .of_subset (List.subset_append_right _ _)
    | false =>
      rw [(hhanded.commits rfl).2.1]
      exact .refl _

lemma takesBack_entails (hbacks : s.Backs g.frames) (htakes : g.TakesBack s) (h : execute {} g s = .ok r s')
    (hg' : g' ∈ r.successors) : ∃ tx n c, g.frames = ⟨tx, some n⟩ :: c.frames ∧ s.shared.suspended[n]? = some c ∧
      g'.world.constraints.Entails c.world.constraints := by
  obtain ⟨op, s₁, hfaults⟩ | ⟨op, final, data, s₁, hperforms⟩ := htakes
  · obtain ⟨tx, n, _, c, s₂, hframes, hc, rfl, -, hresume⟩ := faults_returns hbacks hfaults h hg'
    refine ⟨tx, n, c, hframes, hc, (resume_passes hresume hg').entails.trans ?_⟩
    exact .of_subset (List.subset_append_left _ _)
  · obtain ⟨tx, n, _, c, c', s₂, hframes, hc, rfl, hhanded, -, hresume⟩ := halts_returns hbacks hperforms h hg'
    obtain ⟨w, -, hworld⟩ := hhanded.reverts rfl
    refine ⟨tx, n, c, hframes, hc, (resume_passes hresume hg').entails.trans ?_⟩
    rw [hworld]
    exact .of_subset (List.subset_append_left _ _)

/-! ## Steps and paths -/

lemma Succeeds.entails (h : Succeeds g s g' s') : g'.world.constraints.Entails g.world.constraints := by
  cases h with
  | goesOn hperforms hg' => exact (performs_passes hperforms hg').entails
  | starts hperforms hstart =>
    obtain ⟨-, -, -, hbegins⟩ := startFrame_run hstart
    exact .trans (.of_added hbegins.constraints) (waiting_entails hperforms)
  | returns hframes hcaller hrecalls hs1 hresume hg' => exact (resume_passes hresume hg').entails.trans hrecalls.entails

/-- The frames on a path from a state stay above its own, with callers that wait, until its own frame ends. -/
lemma Succeeds.nested {base : List Frame} (h : Succeeds g s g' s') (hnested : Nested (fun _ _ => True) base s g.frames)
    (hs' : s.Evolves (g.EndsCreation s) s') (hinside : base.length ≤ g'.frames.length) :
    Nested (fun _ _ => True) base s' g'.frames := by
  rcases h.frames with hframes | ⟨tx, n, hframes, hsaved⟩ | ⟨tx, n, c, hframes, hc, hback⟩
  · rw [hframes]
    exact hnested.evolves (fun _ _ => trivial) hs'
  · rw [hframes]
    exact .deeper hsaved trivial (hnested.evolves (fun _ _ => trivial) hs')
  rw [hframes] at hnested
  rw [hback] at hinside ⊢
  generalize hall : (⟨tx, some n⟩ :: c.frames : List Frame) = frames at hnested
  cases hnested with
  | base =>
    -- the frame that the path began in cannot have ended
    rw [← hall, List.length_cons] at hinside
    omega
  | deeper hcaller _ hrest =>
    rw [(List.cons.inj hall).2]
    exact hrest.evolves (fun _ _ => trivial) hs'

variable {K : GState → Session → Prop} {entry : GState} {s₀ : Session}

/-- What is known of a state on a path from an earlier one. -/
structure Later (entry : GState) (s : Session) (g : GState) : Prop where
  entails : g.world.constraints.Entails entry.world.constraints
  nested : Nested (fun _ _ => True) entry.frames s g.frames
  backs : s.Backs entry.frames

lemma Later.step (h : Later entry s g) (hr : execute {} g s = .ok r s') (hg' : g' ∈ r.successors)
    (hinside : entry.frames.length ≤ g'.frames.length) : Later entry s' g' := by
  have hs' := execute_evolves_run hr
  have hsucceeds := execute_succeeds (h.nested.backs h.backs) hr g' hg'
  exact ⟨hsucceeds.entails.trans h.entails, hsucceeds.nested h.nested hs' hinside, backs_evolves h.backs hs'⟩

/-- All states on a path are under the conditions of the one that it began in, whatever other states did meanwhile. -/
lemma Inside.later (h : Inside K entry s₀ g s) (hbacks : s₀.Backs entry.frames) : Later entry s g := by
  induction h with
  | enter => exact ⟨.refl _, .base, hbacks⟩
  | others _ hworks ih =>
    exact ⟨ih.entails, ih.nested.evolves (fun _ _ => trivial) hworks.evolves, backs_evolves ih.backs hworks.evolves⟩
  | label _ hlabels ih =>
    refine ⟨?_, ?_, ih.backs⟩
    · obtain ⟨_, _, _, rfl⟩ := hlabels
      exact ih.entails
    · rw [hlabels.spares.frames]
      exact ih.nested
  | step _ hr hg' hinside ih => exact ih.step hr hg' hinside

variable {gs : List GState} {s₂ : Session}

/-- Conditions only grow. On a path from any state of any run, a state is under the conditions of the one that it
follows, also where a nested frame starts or ends, and under those of the state that the path began in, such as the caller
that is gone back to. Where the nested frame took back what it did, this is also true of that caller with the conditions
that other ends of the frame have left to it. -/
theorem conditions_only_grow (h₀ : s₀.shared.suspended = #[])
    (hrun : Run (fun _ _ => True) (fun _ _ => True) s₀ gs s) (hentry : entry ∈ gs)
    (hpath : Inside (fun _ _ => True) entry s g s₁) (hr : execute {} g s₁ = .ok r s₂) (hg' : g' ∈ r.successors) :
    g'.world.constraints.Entails g.world.constraints ∧ g'.world.constraints.Entails entry.world.constraints ∧
    (g.TakesBack s₁ → ∃ tx n c, g.frames = ⟨tx, some n⟩ :: c.frames ∧ s₁.shared.suspended[n]? = some c ∧
      g'.world.constraints.Entails c.world.constraints) := by
  have hlater := hpath.later ((hrun.backed h₀).states entry hentry)
  have hbacks := hlater.nested.backs hlater.backs
  have hentails := (execute_succeeds hbacks hr g' hg').entails
  exact ⟨hentails, hentails.trans hlater.entails, fun htakes => takesBack_entails hbacks htakes hr hg'⟩

/-- An account calls another one, which meets a fault at once: the caller goes on under the conditions of both. -/
theorem failed_call_keeps_conditions : ∃ gs caller s g s₁ r s₂ g',
    Run (fun _ _ => True) (fun _ _ => True) (.ofCodes ["6000600060006000600061020061fffff1", "fe"]) gs s ∧
    caller ∈ gs ∧ Inside (fun _ _ => True) caller s g s₁ ∧ execute {} g s₁ = .ok r s₂ ∧ r.successors = [g'] ∧
    g'.frames.length = caller.frames.length ∧ caller.world.constraints ≠ [] ∧
    caller.world.constraints.length < g.world.constraints.length ∧
    g'.world.constraints.Entails g.world.constraints ∧ g'.world.constraints.Entails caller.world.constraints ∧
    ∃ tx n c, g.frames = ⟨tx, some n⟩ :: c.frames ∧ s₁.shared.suspended[n]? = some c ∧
      g'.world.constraints.Entails c.world.constraints := by
  obtain ⟨gs, caller, s, hrun, hcaller, hsome, r₁, s₁, hr₁, g, hsuccessors₁, hdepth, hmore, hfaults, r, s₂, hr, g',
      hsuccessors, hback⟩ := exists_run ["6000600060006000600061020061fffff1", "fe"] 7 (B := fun _ _ => True)
    (T := fun caller s => caller.world.constraints.isEmpty = false ∧ LeadsTo caller s fun g s₁ =>
      caller.frames.length ≤ g.frames.length ∧ caller.world.constraints.length < g.world.constraints.length ∧
      (∃ s', g.Faults .invalid s₁ s') ∧ LeadsTo g s₁ fun g' _ => g'.frames.length = caller.frames.length)
    trivial (by decide +kernel)
  have hpath : Inside (fun _ _ => True) caller s g s₁ :=
    .step .enter hr₁ (by rw [hsuccessors₁]; exact List.mem_singleton_self g) hdepth
  have hg' : g' ∈ r.successors := by
    rw [hsuccessors]
    exact List.mem_singleton_self g'
  obtain ⟨hcallee, hentry, htakes⟩ := conditions_only_grow rfl hrun hcaller hpath hr hg'
  refine ⟨gs, caller, s, g, s₁, r, s₂, g', hrun, hcaller, hpath, hr, hsuccessors, hback, ?_, hmore, hcallee, hentry,
    htakes (.inl ⟨.invalid, hfaults⟩)⟩
  intro hnil
  rw [hnil] at hsome
  cases hsome

end Explore
end EvmAudit
