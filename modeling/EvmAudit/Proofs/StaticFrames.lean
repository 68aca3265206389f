import EvmAudit.Proofs.Steps
import EvmAudit.Proofs.WorkList

/-!
# Static frames

A static frame writes nothing. One step in it goes on in the frame, starts a deeper frame, which is static too, or ends the
frame; from this it follows for every run that from the moment a frame is static until it ends, every account keeps its
storage, its nonce and its program, whatever the deeper frames do and however they end.
-/

namespace EvmAudit

variable {g g' c : GState} {P : Tx → GState → Prop} {base frames : List Frame}

/-! ## States in which nothing has been written -/

/-- A state of the same frame in which no account has been written. -/
structure GState.Spares (g g' : GState) : Prop where
  frames : g'.frames = g.frames
  isStatic : g'.env.isStatic = g.env.isStatic
  world : g.world.Unwritten g'.world

namespace GState

variable {g'' : GState} {p : Footprint} {isMetered advances : Bool}

lemma Spares.trans (h : g.Spares g') (h' : g'.Spares g'') : g.Spares g'' :=
  ⟨h'.frames.trans h.frames, h'.isStatic.trans h.isStatic, h.world.trans h'.world⟩

lemma Relabels.spares (h : g.Relabels g') : g.Spares g' := by
  obtain ⟨node, notes, function, rfl⟩ := h
  exact ⟨rfl, rfl, .refl _⟩

lemma Waits.spares (h : g.Waits g') : g.Spares g' := by
  obtain ⟨cs, r, ns, rfl⟩ := h
  exact ⟨rfl, rfl, .of_accounts rfl⟩

lemma Within.spares (h : g.Within p g') (hloads : p.loads = false) (hwrites : p.writes = false) : g.Spares g' :=
  ⟨h.frames, by rw [h.env], h.world.unwritten hloads hwrites⟩

lemma Passes.spares (h : g.Passes p isMetered advances g') (hloads : p.loads = false) (hwrites : p.writes = false) :
    g.Spares g' := by
  obtain ⟨g1, g2, node, hg1, hg2, rfl⟩ := h
  obtain ⟨_, _, _, rfl⟩ := hg2.rest
  exact (hg1.spares hloads hwrites).trans ⟨rfl, rfl, .refl _⟩

end GState

/-- Only one instruction writes storage, and it is not allowed in a static frame. -/
lemma Opcode.writes_footprint (op : Opcode) (h : op.mutates = false) : (op.footprint false).writes = false := by
  cases op with
  | sstore => cases h
  | _ => rfl

lemma Opcode.creates_of_mutates (op : Opcode) (h : op.mutates = false) : op.creates = false := by
  cases op with
  | create | create2 => cases h
  | _ => rfl

lemma Opcode.loads_footprint (op : Opcode) (loads : Bool) : (op.footprint loads).loads = loads := by
  cases op <;> rfl

/-! ## One step -/

namespace Explore

variable {last : GState} {op : Opcode} {n : Nat} {s s' s₁ : Session} {r : GState.Executed} {o : Outcome}

lemma perform_mutating (hstatic : g.env.isStatic = true) (hop : op.mutates = true) (s : Session) :
    g.perform op s = .error
      (.vm .writeProtection ("The function " ++ op.plainName ++ " cannot be executed in a static call")) s := by
  unfold GState.perform
  rw [hstatic, hop]
  rfl

lemma mutates_of_performs (hstatic : g.env.isStatic = true) (h : g.Performs op s o s₁) : op.mutates = false := by
  cases hop : op.mutates with
  | false => rfl
  | true =>
    have hrun := h.run
    rw [perform_mutating hstatic hop] at hrun
    cases hrun

lemma performs_static (hstatic : g.env.isStatic = true) (hoff : s.loader.isNone = true) (h : g.Performs op s o s₁)
    (ho : ∀ final data reverted, o ≠ .halt final data reverted) : ¬ g.EndsCreation s ∧
      (op.footprint false).writes = false ∧ o.Within (op.footprint false) op.isMetered op.advances g := by
  have hmutates := mutates_of_performs hstatic h
  refine ⟨?_, op.writes_footprint hmutates, performs_within false h ho (op.creates_of_mutates hmutates) fun _ => hoff⟩
  rintro ⟨-, j, hj, hdata⟩
  obtain ⟨i, hi, rfl⟩ := h.isAt
  cases hi.symm.trans hj
  obtain ⟨_, _, hhalt, -⟩ := GState.perform_halts (j.opcode.halts_of_returnsData hdata) h.run
  exact ho _ _ _ hhalt

lemma Recalls.unwritten (h : Recalls c last g) : c.world.Unwritten g.world ∨ last.world.Unwritten g.world := by
  cases h with
  | fails => exact .inl (.of_accounts rfl)
  | @hands data reverted _ hhanded =>
    cases reverted with
    | true =>
      obtain ⟨w, hcopy, hworld⟩ := hhanded.reverts rfl
      rw [hworld]
      exact .inl ((World.Unwritten.of_copyFor hcopy).trans (.of_accounts rfl))
    | false => exact .inr (.of_copyFor ((hhanded.commits rfl).1.copyFor none))

/-! ## From the entry of a frame to its end -/

/-- The frames above some others: their callers wait, and each of them has a property. -/
inductive Nested (P : Tx → GState → Prop) (base : List Frame) (s : Session) : List Frame → Prop
  | base : Nested P base s base
  | deeper {tx : Tx} {n : Nat} {c : GState} (hcaller : s.shared.suspended[n]? = some c) (hc : P tx c)
      (h : Nested P base s c.frames) : Nested P base s (⟨tx, some n⟩ :: c.frames)

lemma Nested.evolves {assigns : Prop} (h : Nested P base s frames) (hP : ∀ {tx c c'}, P tx c → c.Waits c' → P tx c')
    (hs : s.Evolves assigns s') : Nested P base s' frames := by
  induction h with
  | base => exact .base
  | deeper hcaller hc _ ih =>
    obtain ⟨c', hcaller', hwaits⟩ := hs.suspended hcaller
    rw [← hwaits.spares.frames] at ih ⊢
    exact .deeper hcaller' (hP hc hwaits) ih

lemma backs_evolves {assigns : Prop} (h : s.Backs frames) (hs : s.Evolves assigns s') : s'.Backs frames := by
  intro tx n rest hframes
  obtain ⟨c, hc, hrest⟩ := h tx n rest hframes
  obtain ⟨c', hc', hwaits⟩ := hs.suspended hc
  exact ⟨c', hc', hwaits.spares.frames.trans hrest⟩

/-- The frames of a nested state have callers to go back to, if the frames that it is nested in have one. -/
lemma Nested.backs (h : Nested P base s frames) (hbase : s.Backs base) : s.Backs frames := by
  cases h with
  | base => exact hbase
  | deeper hcaller =>
    rintro _ _ _ ⟨⟩
    exact ⟨_, hcaller, rfl⟩

/-- A caller waits for a message, in a static frame in which nothing was written. -/
structure Shields (entry : GState) (tx : Tx) (c : GState) : Prop where
  kind : tx.kind = .message
  isStatic : c.env.isStatic = true
  world : entry.world.Unwritten c.world

lemma Shields.waits {tx : Tx} {c' : GState} (h : Shields entry tx c) (hwaits : c.Waits c') : Shields entry tx c' :=
  ⟨h.kind, hwaits.spares.isStatic.trans h.isStatic, h.world.trans hwaits.spares.world⟩

/-- What is true in a static frame and in the frames above it. -/
structure Undisturbed (entry : GState) (s : Session) (g : GState) : Prop where
  isStatic : g.env.isStatic = true
  world : entry.world.Unwritten g.world
  nested : Nested (Shields entry) entry.frames s g.frames
  backs : s.Backs entry.frames
  offline : s.loader.isNone = true

lemma Undisturbed.evolves {assigns : Prop} (h : Undisturbed entry s g) (hs : s.Evolves assigns s') :
    Undisturbed entry s' g :=
  ⟨h.isStatic, h.world, h.nested.evolves .waits hs, backs_evolves h.backs hs, hs.loader.trans h.offline⟩

lemma Undisturbed.step (hg : Undisturbed entry s g) (h : execute {} g s = .ok r s') (hg' : g' ∈ r.successors)
    (hinside : entry.frames.length ≤ g'.frames.length) : Undisturbed entry s' g' ∧ ¬ g.EndsCreation s := by
  have hs' := execute_evolves_run h
  obtain ⟨-, -, hnested, hbacks, hoff⟩ := hg.evolves hs'
  cases execute_succeeds (hg.nested.backs hg.backs) h g' hg' with
  | @goesOn op _ hperforms hg' =>
    obtain ⟨hends, hwrites, -, hwithin⟩ := performs_static hg.isStatic hg.offline hperforms fun _ _ _ => nofun
    have hspares := (hwithin g' hg').spares (op.loads_footprint false) hwrites
    refine ⟨⟨hspares.isStatic.trans hg.isStatic, hg.world.trans hspares.world, ?_, hbacks, hoff⟩, hends⟩
    rw [hspares.frames]
    exact hnested
  | @starts op tx _ _ hperforms hstart =>
    obtain ⟨hends, hwrites, -, hkind, htx, hwaiting⟩ :=
      performs_static hg.isStatic hg.offline hperforms fun _ _ _ => nofun
    obtain ⟨hframes, hsuspended, -, hbegins⟩ := startFrame_run hstart
    have hworld := (hwaiting.spares (op.loads_footprint false) hwrites).world.trans (.of_accounts hbegins.accounts)
    refine ⟨⟨hbegins.isStatic.trans (htx hg.isStatic), hg.world.trans hworld, ?_, hbacks, hoff⟩, hends⟩
    rw [hframes]
    exact .deeper (by rw [hsuspended, Array.getElem?_push_size]) ⟨hkind, hg.isStatic, hg.world⟩ hnested
  | @returns tx n c c' _ s₁ hframes hcaller hrecalls hs1 hresume hg' =>
    have hpasses := ((resume_within c' g.node false fun _ => hs1.trans hg.offline).ok hresume).2 g' hg'
    have hspares := hpasses.spares rfl rfl
    have hback := hspares.frames.trans hrecalls.frames
    have hnested0 := hg.nested
    rw [hframes] at hnested0
    generalize hall : (⟨tx, some n⟩ :: c.frames : List Frame) = frames at hnested0
    cases hnested0 with
    | base =>
      -- the frame itself has ended
      rw [hback, ← hall, List.length_cons] at hinside
      omega
    | @deeper _ _ c1 hcaller' hshields hnested' =>
      obtain ⟨⟨⟨⟩⟩, -⟩ := List.cons_eq_cons.1 hall
      obtain rfl := Option.some.inj (hcaller.symm.trans hcaller')
      have hstatic : g'.env.isStatic = c.env.isStatic := by rw [hspares.isStatic, hrecalls.env]
      refine ⟨⟨hstatic.trans hshields.isStatic, ?_, ?_, hbacks, hoff⟩, ?_⟩
      · rcases hrecalls.unwritten with hworld | hworld
        · exact (hshields.world.trans hworld).trans hspares.world
        · exact (hg.world.trans hworld).trans hspares.world
      · rw [hback]
        exact hnested'.evolves .waits hs'
      · exact fun hends => GState.not_isCreation hframes hshields.kind hends.1

/-- The states of a run that are in the frame of a state or in one above it, up to the end of that frame. Other states
have their turns in between, and states may get other labels. -/
inductive Inside (K : GState → Session → Prop) (entry : GState) (s₀ : Session) : GState → Session → Prop
  | enter : Inside K entry s₀ entry s₀
  | others {g : GState} {s s' : Session} (h : Inside K entry s₀ g s) (hworks : Works K s s') : Inside K entry s₀ g s'
  | label {g g' : GState} {s : Session} (h : Inside K entry s₀ g s) (hlabels : g.Relabels g') : Inside K entry s₀ g' s
  | step {g g' : GState} {s s' : Session} {r : GState.Executed} (h : Inside K entry s₀ g s)
      (hrun : execute {} g s = .ok r s') (hg' : g' ∈ r.successors) (hinside : entry.frames.length ≤ g'.frames.length) :
      Inside K entry s₀ g' s'

variable {K : GState → Session → Prop} {entry : GState} {s₀ : Session}

lemma Inside.undisturbed (h : Inside K entry s₀ g s) (hentry : Undisturbed entry s₀ entry) : Undisturbed entry s g := by
  induction h with
  | enter => exact hentry
  | others _ hworks ih => exact ih.evolves hworks.evolves
  | label _ hlabels ih =>
    have hspares := hlabels.spares
    refine ⟨hspares.isStatic.trans ih.isStatic, ih.world.trans hspares.world, ?_, ih.backs, ih.offline⟩
    rw [hspares.frames]
    exact ih.nested
  | step _ hrun hg' hinside ih => exact (ih.step hrun hg' hinside).1

lemma Inside.keepsCode (h : Inside K entry s₀ g s) (hentry : Undisturbed entry s₀ entry)
    (hK : ∀ g s, K g s → g.LeavesCode s) : s₀.KeepsCode s := by
  induction h with
  | enter => exact id
  | others _ hworks ih =>
    have hassigns : ¬ ∃ g s, K g s ∧ g.EndsCreation s := by
      rintro ⟨g, s, hg, hends⟩
      exact hK g s hg hends
    exact fun {_ _} hp => hworks.evolves.programs hassigns (ih hp)
  | label _ _ ih => exact ih
  | step hinside0 hrun hg' hinside ih =>
    have hends := ((hinside0.undisturbed hentry).step hrun hg' hinside).2
    exact fun {_ _} hp => (execute_evolves_run hrun).programs hends (ih hp)

/-- From the moment a frame is static until it ends, the frames above it are static and every account keeps its storage,
its nonce and its program; programs keep their code, unless a creation ends elsewhere. An instruction that changes the
world is refused and ends the frame that it is met in. -/
theorem static_frames_write_nothing (hstatic : entry.env.isStatic = true) (hoff : s₀.loader.isNone = true)
    (hbacks : s₀.Backs entry.frames) (h : Inside K entry s₀ g s) :
    g.env.isStatic = true ∧ entry.world.Unwritten g.world ∧
    ((∀ g s, K g s → g.LeavesCode s) → s₀.KeepsCode s) ∧
    ∀ op, op.mutates = true → g.IsAt op s →
      (op.needs ≤ g.machine.stack.length → ∃ text, g.perform op s = .error (.vm .writeProtection text) s) ∧
      execute {} g s = (do return ended op (← fail {} g op) : Engine GState.Executed) s ∧
      ∀ r s', execute {} g s = .ok r s' → ∀ g' ∈ r.successors, g'.frames = g.frames.tail := by
  have hentry : Undisturbed entry s₀ entry := ⟨hstatic, .refl _, .base, hbacks, hoff⟩
  have hg := h.undisturbed hentry
  refine ⟨hg.isStatic, hg.world, h.keepsCode hentry, fun op hop hat => ?_⟩
  have hrefused := perform_mutating hg.isStatic hop s
  have hfaults : g.Faults op s s := by
    by_cases hroom : g.machine.stack.length < op.needs
    · exact ⟨hat, .inl ⟨hroom, rfl⟩⟩
    · exact ⟨hat, .inr ⟨Nat.not_lt.1 hroom, _, _, hrefused⟩⟩
  refine ⟨fun _ => ⟨_, hrefused⟩, execute_faults hfaults, fun r s' hr g' hg' => ?_⟩
  obtain ⟨tx, n, _, c, s₁, hframes, -, rfl, -, hresume⟩ := faults_returns (hg.nested.backs hg.backs) hfaults hr hg'
  rw [(((resume_within _ _ true nofun).ok hresume).2 g' hg').stays.frames, hframes]
  rfl

/-- A static call without value, to an account that would write its storage. -/
def viewing : GState :=
  { GState.ofOperands [100000, 512, 0, 0, 0, 0, 0] with
    env := { (GState.ofOperands []).env with isStatic := true } }

/-- The account that is called meets the instruction in a static frame, and the caller goes on. -/
theorem viewing_writes_nothing : ∃ g s, Inside (fun _ _ => False) viewing (.ofCodes ["f1", "343455"]) g s ∧
    g.frames.length = 2 ∧ g.env.isStatic = true ∧ viewing.world.Unwritten g.world ∧
    Session.KeepsCode (.ofCodes ["f1", "343455"]) s ∧
    (∃ text, g.perform .sstore s = .error (.vm .writeProtection text) s) ∧
    ∃ r s', execute {} g s = .ok r s' ∧ r.successors.length = 1 ∧ ∀ g' ∈ r.successors, g'.frames = g.frames.tail := by
  have hrun : LeadsTo viewing (.ofCodes ["f1", "343455"]) fun g₁ s₁ => 1 ≤ g₁.frames.length ∧
      LeadsTo g₁ s₁ fun g₂ s₂ => 1 ≤ g₂.frames.length ∧
      LeadsTo g₂ s₂ fun g₃ s₃ => g₃.frames.length = 2 ∧ g₃.isReady .sstore s₃ ∧
        ∃ r s', execute {} g₃ s₃ = .ok r s' ∧ r.successors.length = 1 := by decide +kernel
  obtain ⟨r₁, s₁, hr₁, g₁, hg₁, hlength₁, r₂, s₂, hr₂, g₂, hg₂, hlength₂, r₃, s₃, hr₃, g₃, hg₃, hlength₃, hready, r, s',
    hr, hone⟩ := hrun
  obtain ⟨hat, hroom⟩ := GState.isReady_iff.1 hready
  have hinside : Inside (fun _ _ => False) viewing (.ofCodes ["f1", "343455"]) g₃ s₃ := by
    have h₁ : Inside (fun _ _ => False) viewing (.ofCodes ["f1", "343455"]) g₁ s₁ :=
      .step .enter hr₁ (by rw [hg₁]; exact List.mem_singleton_self _) hlength₁
    have h₂ := h₁.step hr₂ (by rw [hg₂]; exact List.mem_singleton_self g₂) hlength₂
    exact h₂.step hr₃ (by rw [hg₃]; exact List.mem_singleton_self g₃) (by rw [hlength₃]; decide)
  have hbacks : Session.Backs (.ofCodes ["f1", "343455"]) viewing.frames := by
    intro tx n rest h
    cases congrArg Frame.caller (List.cons.inj h).1
  obtain ⟨hstatic, hworld, hcode, hmutates⟩ := static_frames_write_nothing rfl rfl hbacks hinside
  obtain ⟨hrefused, -, hends⟩ := hmutates .sstore rfl hat
  exact ⟨g₃, s₃, hinside, hlength₃, hstatic, hworld, hcode fun _ _ => False.elim, hrefused hroom, r, s', hr,
    hone, hends r s' hr⟩

end Explore
end EvmAudit
