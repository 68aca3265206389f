import EvmAudit.Proofs.StaticFrames

/-!
# Runs

A run takes steps with any of the states that have come up so far, in any order, beside other work that leaves programs and
callers alone. What holds of the first states of transactions and is kept by every step holds of every state of a run and
of every caller that waits.
-/

namespace EvmAudit

open List

variable {s s' : Session} {n : Nat}

/-! ## Runs -/

/-- Work beside the states of a run: callers wait as they are, and programs are only added, with a code in text or bytes or
with that of a program that is there. -/
structure Session.Tends (s s' : Session) : Prop where
  suspended : s'.shared.suspended = s.shared.suspended
  loader : s'.loader.isNone = s.loader.isNone
  programs : ∀ {i : Nat} {p : Program}, s.code.programs[i]? = some p → s'.code.programs[i]? = some p
  added : ∀ {i : Nat} {p : Program}, s'.code.programs[i]? = some p → s.code.programs[i]? = some p ∨
    ∃ code, p.IsOf code ∧ ∀ items, code = .cells items → ∃ (j : Nat) (q : Program),
      s.code.programs[j]? = some q ∧ q.code = code

lemma Session.Tends.evolves (h : s.Tends s') : s.Evolves False s' :=
  ⟨fun {_ c} hn => ⟨c, by rw [h.suspended, hn], .refl c⟩, h.loader, fun _ {_ _} => h.programs⟩

namespace Explore

variable {g g' c : GState} {gs : List GState} {s₀ : Session} {B : Tx → World → Prop} {K : GState → Session → Prop}

/-- A transaction begins in a world, under whatever conditions. -/
def Opens (B : Tx → World → Prop) (s : Session) (g : GState) (s' : Session) : Prop :=
  ∃ tx w g₀ cs txs node, B tx w ∧ tx.start w s = .ok g₀ s' ∧
    g = { g₀ with frames := [⟨tx, none⟩], node := node, world := { g₀.world with constraints := cs, txs := txs } }

/-- The states that have come up in a run from a session, and the session that it has got to. A state may be executed at
any time after it has come up, and it may get other labels. -/
inductive Run (B : Tx → World → Prop) (K : GState → Session → Prop) (s₀ : Session) : List GState → Session → Prop
  | start : Run B K s₀ [] s₀
  | idle {gs : List GState} {s s' : Session} (h : Run B K s₀ gs s) (hs : s.Tends s') : Run B K s₀ gs s'
  | opens {gs : List GState} {g : GState} {s s' : Session} (h : Run B K s₀ gs s) (hg : Opens B s g s') :
      Run B K s₀ (g :: gs) s'
  | label {gs : List GState} {g g' : GState} {s : Session} (h : Run B K s₀ gs s) (hg : g ∈ gs)
      (hlabels : g.Relabels g') : Run B K s₀ (g' :: gs) s
  | step {gs : List GState} {g : GState} {s s' : Session} {r : GState.Executed} (h : Run B K s₀ gs s) (hg : g ∈ gs)
      (hK : K g s) (hr : execute {} g s = .ok r s') : Run B K s₀ (r.successors ++ gs) s'
  /-- An instruction that is not supported is passed over. -/
  | skip {gs : List GState} {g : GState} {s s' : Session} (h : Run B K s₀ gs s) (hg : g ∈ gs) (hK : K g s)
      (hr : execute {} g s = .error (.failure .unsupported "") s') : Run B K s₀ gs s'

lemma Opens.grows (h : Opens B s g s') : s.Grows s' := by
  obtain ⟨tx, w, g0, cs, txs, node, -, hstart, -⟩ := h
  exact ((tx.start_yields w s).ok hstart).1

lemma Opens.frames (h : Opens B s g s') : ∃ tx, g.frames = [⟨tx, none⟩] := by
  obtain ⟨tx, w, g0, cs, txs, node, -, -, rfl⟩ := h
  exact ⟨tx, rfl⟩

structure Backed (gs : List GState) (s : Session) : Prop where
  states : ∀ g ∈ gs, s.Backs g.frames
  suspended : ∀ (n : Nat) (c : GState), s.shared.suspended[n]? = some c → s.Backs c.frames

lemma Backed.after (h : Backed gs s) (hg : g ∈ gs) (hs : s.Evolves (g.EndsCreation s) s') (hfiles : Files g s s') :
    Backed gs s' where
  states g' hg' := backs_evolves (h.states g' hg') hs
  suspended n c' hc' := by
    rcases hfiles n c' hc' with hc | rfl | ⟨c, hc, rfl | rfl⟩
    · exact backs_evolves (h.suspended n c' hc) hs
    · exact backs_evolves (h.states c' hg) hs
    iterate 2 exact backs_evolves (h.suspended n c hc) hs

lemma Succeeds.backs (h : Succeeds g s g' s') (hg : s'.Backs g.frames)
    (hcallers : ∀ (n : Nat) (c : GState), s.shared.suspended[n]? = some c → s'.Backs c.frames) : s'.Backs g'.frames := by
  rcases h.frames with hframes | ⟨tx, n, hframes, hsaved⟩ | ⟨tx, n, c, -, hc, hframes⟩
  · rw [hframes]
    exact hg
  · rw [hframes]
    rintro _ _ _ ⟨⟩
    exact ⟨g, hsaved, rfl⟩
  · rw [hframes]
    exact hcallers n c hc

/-- In a run that begins without callers, every frame but the outermost ones has a caller that waits for it. -/
lemma Run.backed (h : Run B K s₀ gs s) (h0 : s₀.shared.suspended = #[]) : Backed gs s := by
  induction h with
  | start => exact ⟨forall_mem_nil _, fun n c hc => by simp [h0] at hc⟩
  | idle _ hs ih =>
    have hevolves := hs.evolves
    exact ⟨fun g hg => backs_evolves (ih.states g hg) hevolves, fun n c hc =>
      backs_evolves (ih.suspended n c (hs.suspended ▸ hc)) hevolves⟩
  | opens _ hg ih =>
    have hgrows := hg.grows
    have hevolves : Session.Evolves False _ _ := .of_grows hgrows
    obtain ⟨tx, hframes⟩ := hg.frames
    refine ⟨forall_mem_cons.2 ⟨?_, fun g hg => backs_evolves (ih.states g hg) hevolves⟩, fun n c hc =>
      backs_evolves (ih.suspended n c (hgrows.suspended ▸ hc)) hevolves⟩
    rw [hframes]
    rintro _ _ _ ⟨⟩
  | label _ hg hlabels ih =>
    refine ⟨forall_mem_cons.2 ⟨?_, ih.states⟩, ih.suspended⟩
    rw [hlabels.spares.frames]
    exact ih.states _ hg
  | @step _ g s s' _ _ hg _ hr ih =>
    have hevolves := execute_evolves_run hr
    have hfiles := execute_files g s fun f s' hf => nomatch hr.symm.trans hf
    rw [Engine.after_ok hr] at hfiles
    have hbacked := ih.after hg hevolves hfiles
    refine ⟨fun g' hg' => ?_, hbacked.suspended⟩
    rcases mem_append.1 hg' with hg' | hg'
    · exact (execute_succeeds (ih.states g hg) hr g' hg').backs (hbacked.states g hg) fun n c hc =>
        backs_evolves (ih.suspended n c hc) hevolves
    · exact hbacked.states g' hg'
  | @skip _ g s s' _ hg _ hr ih =>
    have hevolves := execute_evolves g s
    have hfiles := execute_files g s fun f s' hf => by
      cases hr.symm.trans hf
      exact not_isFinal_unsupported ""
    rw [Engine.after_error hr] at hevolves hfiles
    exact ih.after hg hevolves hfiles

/-- What every step of a run keeps: a property of sessions, and one of states and of the callers that wait. -/
structure Kept (B : Tx → World → Prop) (K : GState → Session → Prop) (J : Session → Prop) (P : GState → Prop) : Prop where
  tends : ∀ {s s' : Session}, J s → s.Tends s' → J s'
  opens : ∀ {s s' : Session} {g : GState}, J s → Opens B s g s' → J s' ∧ P g
  labels : ∀ {g g' : GState}, P g → g.Relabels g' → P g'
  saves : ∀ {c g : GState}, P c → P g → P (failed c g) ∧ P (noted c g)
  after : ∀ {g : GState} {s : Session}, J s → P g → K g s →
    (∀ (n : Nat) (c : GState), s.shared.suspended[n]? = some c → P c) → J ((execute {} g).after s)
  step : ∀ {g g' : GState} {s s' : Session}, J s → P g → K g s →
    (∀ (n : Nat) (c : GState), s.shared.suspended[n]? = some c → P c) → Succeeds g s g' s' → P g'

structure Holds (J : Session → Prop) (P : GState → Prop) (gs : List GState) (s : Session) : Prop where
  session : J s
  states : ∀ g ∈ gs, P g
  suspended : ∀ (n : Nat) (c : GState), s.shared.suspended[n]? = some c → P c

variable {J : Session → Prop} {P : GState → Prop}

lemma Holds.after (h : Holds J P gs s) (hkept : Kept B K J P) (hg : g ∈ gs) (hK : K g s)
    (hf : ∀ f s', execute {} g s = .error f s' → ¬ f.IsFinal) : Holds J P gs ((execute {} g).after s) where
  session := hkept.after h.session (h.states g hg) hK h.suspended
  states := h.states
  suspended n c' hc' := by
    rcases execute_files g s hf n c' hc' with hc | rfl | ⟨c, hc, rfl | rfl⟩
    · exact h.suspended n c' hc
    · exact h.states c' hg
    · exact (hkept.saves (h.suspended n c hc) (h.states g hg)).1
    · exact (hkept.saves (h.suspended n c hc) (h.states g hg)).2

lemma Run.holds (h : Run B K s₀ gs s) (h0 : s₀.shared.suspended = #[]) (hkept : Kept B K J P) (hJ : J s₀) :
    Holds J P gs s := by
  induction h with
  | start => exact ⟨hJ, forall_mem_nil _, fun n c hc => by simp [h0] at hc⟩
  | idle _ hs ih => exact ⟨hkept.tends ih.session hs, ih.states, fun n c hc => ih.suspended n c (hs.suspended ▸ hc)⟩
  | opens _ hg ih =>
    obtain ⟨hs, hfirst⟩ := hkept.opens ih.session hg
    exact ⟨hs, forall_mem_cons.2 ⟨hfirst, ih.states⟩, fun n c hc => ih.suspended n c (hg.grows.suspended ▸ hc)⟩
  | label _ hg hlabels ih =>
    exact ⟨ih.session, forall_mem_cons.2 ⟨hkept.labels (ih.states _ hg) hlabels, ih.states⟩, ih.suspended⟩
  | @step _ g s s' _ hrun hg hK hr ih =>
    have hafter := ih.after hkept hg hK fun f s' hf => nomatch hr.symm.trans hf
    rw [Engine.after_ok hr] at hafter
    refine ⟨hafter.session, fun g' hg' => ?_, hafter.suspended⟩
    rcases mem_append.1 hg' with hg' | hg'
    · have hsucceeds := execute_succeeds ((hrun.backed h0).states g hg) hr g' hg'
      exact hkept.step ih.session (ih.states g hg) hK ih.suspended hsucceeds
    · exact ih.states g' hg'
  | @skip _ g s s' _ hg hK hr ih =>
    have hafter := ih.after hkept hg hK fun f s' hf => by
      cases hr.symm.trans hf
      exact not_isFinal_unsupported ""
    rw [Engine.after_error hr] at hafter
    exact hafter

/-! ## Runs that can be run -/

/-- The state leads to just one, this often, and the last one is like this. -/
def LeadsOn (T : GState → Session → Prop) : Nat → GState → Session → Prop
  | 0 => T
  | n + 1 => fun g s => LeadsTo g s (LeadsOn T n)

variable {T : GState → Session → Prop}

instance LeadsOn.decidable [∀ g s, Decidable (T g s)] : ∀ n g s, Decidable (LeadsOn T n g s)
  | 0, g, s => inferInstanceAs (Decidable (T g s))
  | n + 1, g, s =>
    have := LeadsOn.decidable n
    inferInstanceAs (Decidable (LeadsTo g s (LeadsOn T n)))

lemma Run.leadsOn (h : Run B (fun _ _ => True) s₀ gs s) (hg : g ∈ gs) (hleads : LeadsOn T n g s) :
    ∃ gs' g' s', Run B (fun _ _ => True) s₀ gs' s' ∧ g' ∈ gs' ∧ T g' s' := by
  induction n generalizing g gs s with
  | zero => exact ⟨gs, g, s, h, hg, hleads⟩
  | succ n ih =>
    obtain ⟨r, s1, hr, g1, hsuccessors, hleads⟩ := hleads
    refine ih (h.step hg trivial hr) (mem_append_left _ ?_) hleads
    rw [hsuccessors]
    exact mem_singleton_self g1

/-- A message without data or value to the account at 256, from the one at 512. -/
def plainMessage : Tx where
  id := "1"
  kind := .message
  callee := .bare 256 0
  caller := .expr (.literal 512)
  calldata := .listed "1" []
  gasPrice := .int 1
  baseFee := .int 1
  origin := .expr (.literal 512)
  value := .int 0
  gasLimit := .int 8000000
  code := none

/-- A message, where the two accounts have these codes, leads on to a state that is like this. -/
lemma exists_run (codes : List String) (n : Nat) (hB : B plainMessage (GState.ofOperands []).world)
    (h : ∃ g s, plainMessage.start (GState.ofOperands []).world (.ofCodes codes) = .ok g s ∧
      LeadsOn T n { g with frames := [⟨plainMessage, none⟩] } s) :
    ∃ gs g s, Run B (fun _ _ => True) (.ofCodes codes) gs s ∧ g ∈ gs ∧ T g s := by
  obtain ⟨g, s, hstart, hleads⟩ := h
  have hopens : Opens B (.ofCodes codes) { g with frames := [⟨plainMessage, none⟩] } s :=
    ⟨plainMessage, _, g, _, _, _, hB, hstart, rfl⟩
  exact (Run.start.opens hopens).leadsOn mem_cons_self hleads

end Explore
end EvmAudit
