import EvmAudit.Explore.Plugin
import EvmAudit.Proofs.Runs

/-!
# The limit on nested calls

The limit on the depth of calls drops a state that is about to make a call with value when it has as many callers as
are allowed, and no other. So the frames of a run stay within the limit as long as calls with value are the only
instructions that start a frame there; every other instruction that starts one goes beyond it.
-/

namespace EvmAudit.Explore

open Engine

variable {g : GState} {limit : Nat}

variable {s s' : Session}

/-! ## The limit -/

/-- A call is due in a state that has as many callers as are allowed. -/
def IsCut (limit : Nat) (g : GState) (s : Session) : Prop :=
  g.frames.length = limit + 1 ∧ ∃ i, g.due s = some i ∧ i.opcode = .call ∧ i.opcode.needs ≤ g.machine.stack.length

section

variable (hlimit : s.options.callDepthLimit = limit)
include hlimit

lemma tell_depthHooks (g : GState) :
    Hooks.tell (Plugin.depthHooks.before .call) g s =
      if g.frames.length = limit + 1 then .error .skipState s else .ok g s := by
  have hdepth : ((g.frames.length : Int) - 1 == s.options.callDepthLimit) = decide (g.frames.length = limit + 1) := by
    rw [Bool.eq_iff_iff]
    simp
    omega
  unfold Hooks.tell Plugin.depthHooks
  simp only [List.foldlM_cons, List.foldlM_nil, bind_pure]
  refine (bind_ok (get_run s)).trans ?_
  rw [hdepth]
  by_cases h : g.frames.length = limit + 1 <;> simp [h] <;> rfl

lemma execute_cut (hcut : IsCut limit g s) : execute Plugin.depthHooks g s = .ok { state := g } s := by
  obtain ⟨hdepth, i, hi, hcall, hroom⟩ := hcut
  have hdrop : Hooks.tell (Plugin.depthHooks.before i.opcode) g s = .error .skipState s := by
    rw [hcall, tell_depthHooks hlimit, if_pos hdepth]
  have htell : attempt (Hooks.tell [] g) s = .ok (.ok g) s := rfl
  refine (bind_ok htell).trans ?_
  refine (bind_ok (g.instrAt?_run s)).trans ?_
  rw [hi]
  refine (congrFun (if_neg (Nat.not_lt.2 hroom)) s).trans ?_
  exact bind_ok (attempt_error hdrop)

lemma execute_not_cut (hcut : ¬ IsCut limit g s) : execute Plugin.depthHooks g s = execute {} g s := by
  refine bind_congr_run rfl fun r s1 hr => ?_
  cases hr
  refine bind_congr_run rfl fun i s2 hi => ?_
  cases (g.instrAt?_run s).symm.trans hi
  cases hdue : g.due s with
  | none => rfl
  | some i =>
    dsimp only
    split
    · rfl
    rename_i hroom
    refine bind_congr_run ?_ fun _ _ _ => rfl
    by_cases hcall : i.opcode = .call
    · have hdepth : g.frames.length ≠ limit + 1 := fun hdepth => hcut ⟨hdepth, i, hdue, hcall, Nat.not_lt.1 hroom⟩
      rw [hcall, attempt, tell_depthHooks hlimit, if_neg hdepth]
      rfl
    have hbefore : Plugin.depthHooks.before i.opcode = [] := by
      unfold Plugin.depthHooks
      dsimp only
      split
      · exact absurd ‹_› hcall
      · rfl
    rw [hbefore]

end

/-! ## Frames -/

/-- The state starts a frame, and not by a call with value. -/
def Nests (g : GState) (s : Session) : Prop := ∃ op tx waiting s', op ≠ .call ∧ g.Performs op s (.call tx waiting) s'

/-- The state is neither cut off by the limit nor starts a frame beyond it. -/
structure Stays (limit : Nat) (g : GState) (s : Session) : Prop where
  passes : ¬ IsCut limit g s
  inside : g.frames.length = limit + 1 → ¬ Nests g s

lemma Succeeds.frames_le {g' : GState} (h : Succeeds g s g' s') (hg : g.frames.length ≤ limit + 1)
    (hstays : Stays limit g s) : g'.frames.length ≤ limit + 1 := by
  cases h with
  | goesOn hperforms hg' =>
    rw [(performs_passes hperforms hg').stays.frames]
    exact hg
  | @starts op tx waiting s1 hperforms hstart =>
    rw [(startFrame_run hstart).1]
    refine Nat.succ_le_of_lt (Nat.lt_of_le_of_ne hg fun hdepth => ?_)
    by_cases hop : op = .call
    · subst hop
      obtain ⟨i, hi, hcall⟩ := hperforms.isAt
      exact hstays.passes ⟨hdepth, i, hi, hcall, hcall ▸ hperforms.room⟩
    · exact hstays.inside hdepth ⟨op, tx, waiting, s1, hop, hperforms⟩
  | returns hframes hcaller hrecalls hs1 hresume hg' =>
    have hpasses := resume_passes hresume hg'
    rw [hpasses.stays.frames, hrecalls.frames]
    rw [hframes] at hg
    exact Nat.le_of_succ_le hg

lemma stays_kept {B : Tx → World → Prop} (limit : Nat) :
    Kept B (Stays limit) (fun _ => True) fun g => g.frames.length ≤ limit + 1 where
  tends _ _ := trivial
  opens _ h := by
    obtain ⟨tx, hframes⟩ := h.frames
    exact ⟨trivial, by simp [hframes]⟩
  labels hg h := by rwa [h.spares.frames]
  saves hc _ := ⟨hc, hc⟩
  after _ _ _ _ := trivial
  step _ hg hK _ h := h.frames_le hg hK

lemma Nests.exceeds {r : GState.Executed} (hnests : Nests g s) (hr : execute {} g s = .ok r s') :
    ∃ g', r.successors = [g'] ∧ g'.frames.length = g.frames.length + 1 := by
  obtain ⟨op, tx, waiting, s1, -, hperforms⟩ := hnests
  rw [execute_performs hperforms] at hr
  obtain ⟨start, s2, hstart, hpure⟩ := of_bind_ok hr
  cases hpure
  exact ⟨start, rfl, by rw [(startFrame_run hstart).1, List.length_cons]⟩

/-- The limit drops calls with value in states that have as many callers as are allowed, and nothing else. All states
of a run stay within it unless one of these starts a frame by another instruction, and where one does, it is exceeded. -/
theorem depth_limit_bounds_calls_with_value (limit : Nat) :
    (∀ g s, s.options.callDepthLimit = (limit : Int) →
      (IsCut limit g s → execute Plugin.depthHooks g s = .ok { state := g } s) ∧
      (¬ IsCut limit g s → execute Plugin.depthHooks g s = execute {} g s)) ∧
    (∀ B s₀ gs s, Run B (Stays limit) s₀ gs s → s₀.shared.suspended = #[] → ∀ g ∈ gs, g.frames.length ≤ limit + 1) ∧
    ∀ g s r s', s.options.callDepthLimit = (limit : Int) → Nests g s → execute Plugin.depthHooks g s = .ok r s' →
      ∃ g', r.successors = [g'] ∧ g'.frames.length = g.frames.length + 1 := by
  refine ⟨fun g s hlimit => ⟨execute_cut hlimit, execute_not_cut hlimit⟩, fun B s₀ gs s hrun h₀ g hg => ?_, ?_⟩
  · exact (hrun.holds h₀ (stays_kept limit) trivial).states g hg
  intro g s r s' hlimit hnests hr
  refine hnests.exceeds ((execute_not_cut hlimit ?_).symm.trans hr)
  rintro ⟨-, i, hi, hcall, -⟩
  obtain ⟨op, tx, waiting, s₁, hop, hperforms⟩ := hnests
  obtain ⟨i', hi', rfl⟩ := hperforms.isAt
  cases hi.symm.trans hi'
  exact hop hcall

theorem call_at_the_limit_is_dropped :
    let g : GState := .ofOperands [100000, 512, 0, 0, 0, 0, 0]
    let s : Session := { Session.ofCodes ["f1"] with options := { callDepthLimit := 0 } }
    IsCut 0 g s ∧ execute Plugin.depthHooks g s = .ok { state := g } s := by
  intro g s
  obtain ⟨i, hi, hcall⟩ : g.IsAt .call s := by decide +kernel
  have hcut : IsCut 0 g s := ⟨rfl, i, hi, hcall, hcall ▸ by decide⟩
  exact ⟨hcut, ((depth_limit_bounds_calls_with_value 0).1 g s rfl).1 hcut⟩

/-- With no calls allowed, a delegated call still leads to a second frame. -/
theorem delegated_call_exceeds_the_limit : Engine.passes (do
      begin {} plainMessage (GState.ofOperands []).world fun _ => return []
      work Plugin.depthHooks {} false 7 [])
    { Session.ofCodes ["6000600060006000610200620ffffff4", "00"] with options := { callDepthLimit := 0 } }
    (fun _ s => s.work.states.any (·.frames.length == 2)) = true := by
  decide +kernel

end EvmAudit.Explore
