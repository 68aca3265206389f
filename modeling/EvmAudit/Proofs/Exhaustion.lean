import EvmAudit.Proofs.Constructors

/-!
# Gas runs out

As long as no other frame is started, every instruction goes on to the next one, or is a jump. A jump may go back, but it
is paid for, and where it lands the gas that was used is compared with the limit. So the gas that is left, and then the
part of the program that is left, bounds how long a path can be; and as no state has more than two successors, it bounds
how many states an exploration can look at before none is left.
-/

namespace EvmAudit

open List Nat
open Engine (bind_ok)

variable {op : Opcode} {g g' : GState} {s s' s1 : Session} {limit : Int} {c : Program} {n : Nat} {p : ProgramId}
  {o : Outcome}

/-! ## Instructions that stay in their frame -/

namespace Opcode

/-- Instructions that start no other frame, and neither enter nor leave a subroutine. -/
def staysInFrame : Opcode → Bool
  | .call | .callcode | .delegatecall | .staticcall | .create | .create2 | .jumpsub | .returnsub => false
  | _ => true

/-- Instructions after which the state is at the next one. -/
def goesOn (op : Opcode) : Bool := op.staysInFrame && !op.halts && op != .jump && op != .jumpi

lemma creates_of_staysInFrame (h : op.staysInFrame = true) : op.creates = false := by
  cases op with
  | create | create2 => cases h
  | _ => rfl

/-- An instruction that goes on keeps its place until it is done, and pays for what it does. -/
lemma footprint_of_goesOn (h : op.goesOn = true) : (op.footprint true).jumps = false ∧
    (op.footprint true).books = false ∧ (op.footprint true).calls = false ∧ op.advances = true := by
  cases op with
  | call | callcode | delegatecall | staticcall | jumpsub | returnsub | jump | jumpi => cases h
  | _ => exact ⟨rfl, rfl, rfl, rfl⟩

end Opcode

def Program.StaysInFrame (c : Program) : Prop := ∀ i ∈ c.instrs, i.opcode.staysInFrame = true

instance (c : Program) : Decidable c.StaysInFrame := inferInstanceAs (Decidable (∀ i ∈ c.instrs, _))

/-! ## What is left -/

namespace GState

variable {i : Instr}

/-- The gas is used up, and that is about to be noticed. -/
def isSpent (limit : Int) (c : Program) (g : GState) : Bool :=
  decide (limit < g.machine.minGas) && (c.instrs[g.machine.pc.toNat]?).any (·.opcode == .jumpdest)

/-- How many steps there can be after a state: the gas that is left, once for each place of the program, and then the rest
of the program. -/
def remaining (limit : Int) (c : Program) (g : GState) : Nat :=
  (limit + 1 - g.machine.minGas).toNat * (c.instrs.size + 2) +
    if g.isSpent limit c then 1 else c.instrs.size + 1 - g.machine.pc.toNat

/-- How many steps there can be with this much gas in a program of this many instructions. -/
def pathBound (limit : Int) (size : Nat) : Nat := (limit + 1).toNat * (size + 2) + (size + 1)

lemma remaining_le (h : 0 ≤ g.machine.minGas) : g.remaining limit c ≤ pathBound limit c.instrs.size := by
  have hgas : (limit + 1 - g.machine.minGas).toNat ≤ (limit + 1).toNat := by omega
  have hmul := mul_le_mul_right (c.instrs.size + 2) hgas
  unfold remaining pathBound
  split <;> omega

lemma due_instr (hc : s.code.programs[g.env.code]? = some c) (hi : g.due s = some i) :
    0 ≤ g.machine.pc ∧ c.instrs[g.machine.pc.toNat]? = some i := by
  unfold due at hi
  split at hi
  · cases hi
  · rename_i hpc
    rw [Array.getD_eq_getD_getElem?, hc] at hi
    exact ⟨Int.not_lt.1 hpc, hi⟩

section

variable (hi : c.instrs[g.machine.pc.toNat]? = some i)
include hi

lemma not_isSpent (hgas : i.opcode = .jumpdest → g.machine.minGas ≤ limit) : g.isSpent limit c = false := by
  unfold isSpent
  rw [hi, Option.any_some, Bool.and_eq_false_iff, decide_eq_false_iff_not, beq_eq_false_iff_ne]
  by_cases hop : i.opcode = .jumpdest
  · exact .inl (Int.not_lt.2 (hgas hop))
  · exact .inr hop

variable (hspent : g.isSpent limit c = false)
include hspent

lemma remaining_next (hpc : 0 ≤ g.machine.pc) (hnext : g'.machine.pc = g.machine.pc + 1)
    (hgas : g.machine.minGas ≤ g'.machine.minGas) : g'.remaining limit c < g.remaining limit c := by
  have hsize := (getElem?_eq_some_iff.1 hi).1
  have hleft : (limit + 1 - g'.machine.minGas).toNat ≤ (limit + 1 - g.machine.minGas).toNat := by omega
  have hmul := mul_le_mul_right (c.instrs.size + 2) hleft
  unfold remaining
  rw [hspent, if_neg Bool.false_ne_true]
  split <;> omega

lemma remaining_leap {j : Instr} (hn : g'.machine.pc = n) (hj : c.instrs[n]? = some j) (hop : j.opcode = .jumpdest)
    (hgas : g.machine.minGas < g'.machine.minGas) : g'.remaining limit c < g.remaining limit c := by
  have hsize := (getElem?_eq_some_iff.1 hi).1
  by_cases hlimit : g.machine.minGas ≤ limit
  · have hleft : (limit + 1 - g'.machine.minGas).toNat + 1 ≤ (limit + 1 - g.machine.minGas).toNat := by omega
    have hmul := mul_le_mul_right (c.instrs.size + 2) hleft
    rw [succ_mul] at hmul
    unfold remaining
    split <;> omega
  · have hspent' : g'.isSpent limit c = true := by
      unfold isSpent
      rw [hn, Int.toNat_natCast, hj, Option.any_some, hop, Bool.and_eq_true_iff, decide_eq_true_iff]
      exact ⟨by omega, rfl⟩
    have hleft : (limit + 1 - g'.machine.minGas).toNat = 0 := by omega
    unfold remaining
    rw [hspent, hspent', if_pos rfl, if_neg Bool.false_ne_true, hleft]
    omega

end

/-! ## One instruction -/

variable {fp : Footprint} {isMetered : Bool}

/-- A state that goes on is at the next instruction. It has used no less gas than before, and where the cost was booked,
not more than there is. -/
lemma Passes.next (h : g.Passes fp isMetered true g') (hjumps : fp.jumps = false) (hbooks : fp.books = false)
    (hlimit : g.machine.gasLimit = .int limit) : g'.machine.gasLimit = .int limit ∧ g'.machine.pc = g.machine.pc + 1 ∧
    g.machine.minGas ≤ g'.machine.minGas ∧ (isMetered = true → g'.machine.minGas ≤ limit) := by
  have hpc := h.pc hjumps
  obtain ⟨g1, _, node, hg1, ⟨g2, hg2, rfl⟩, rfl⟩ := h
  obtain ⟨fee, hfee, -⟩ := hg1.machine.gas hbooks
  have hlimit := hg1.machine.gasLimit.trans hlimit
  cases isMetered with
  | false =>
    obtain rfl : g2 = g1 := hg2
    refine ⟨hlimit, hpc, ?_, nofun⟩
    show _ ≤ g2.machine.minGas
    omega
  | true =>
    obtain ⟨op, rfl, haffords⟩ := hg2
    refine ⟨hlimit, hpc, ?_, fun _ => haffords.machine limit hlimit⟩
    show _ ≤ g1.machine.minGas + op.cost.1
    omega

lemma perform_leaps (h : op = .jump ∨ op = .jumpi) (g : GState) (s : Session) : (g.perform op).Yields s fun o => ∃ gs,
    o = .states gs ∧ gs.length ≤ 2 ∧ ∀ g' ∈ gs, g.Within (op.footprint true) g' ∧ Step.Leaps s g g' := by
  have hstep g1 s1 (hs1 : s.Grows s1) (hcopy : g.CopyOf g1)
      (hconstraints : g1.world.constraints = g.world.constraints) (_ : g1.machine.Nonneg) :
      op.effectOf.Yields g1 s1 fun e _ => ∃ gs, e = .branch gs ∧ gs.length ≤ 2 ∧
        ∀ g' ∈ gs, g.Within (op.footprint true) g' ∧ Step.Leaps s g g' := by
    have hg1 : g.Within {} g1 := .of_copyOf hcopy fun _ => hconstraints
    have hends : op.effectOf.Tames g1 s1 (Step.Branched (op.footprint true) s1 g1) := by
      rcases h with rfl | rfl
      · exact Step.jump_ends rfl
      · exact Step.jumpIf_ends rfl
    refine Step.Ends.yields (hends.mono ?_)
    rintro _ _ _ - ⟨-, gs, rfl, hlength, -, hgs⟩
    exact ⟨gs, rfl, hlength, fun g' hg' => ⟨hg1.of_empty.trans (hgs g' hg').within, (hgs g' hg').leaps.of_within hs1 hg1⟩⟩
  have hsettles : op.isMetered = false ∧ op.advances = false := by
    rcases h with rfl | rfl <;> exact ⟨rfl, rfl⟩
  simp only [perform, hsettles]
  split
  · exact .throw _
  refine (run_leads hstep false false).mono ?_
  rintro o ⟨_, g', ⟨gs, rfl, hlength, hgs⟩, gs', rfl, hsame, hgs'⟩
  refine ⟨gs', rfl, hsame ▸ hlength, fun g'' hg'' => ?_⟩
  -- nothing is booked afterwards, and the place is left as it is
  obtain ⟨g1, hg1, _, rfl, rfl⟩ := hgs' g'' hg''
  exact hgs _ hg1

/-- The state runs a program in an outermost frame, under a limit of gas. An account that the frame makes has another
program. -/
structure Confined (limit : Int) (p : ProgramId) (g : GState) : Prop where
  gasLimit : g.machine.gasLimit = .int limit
  outermost : g.IsOutermost
  code : g.env.code = p
  made : g.IsCreation → ∃ a, g.world.find? g.env.active = some a ∧ a.code ≠ p

lemma Confined.stays (h : g.Confined limit p) (hg : g.Stays g') (hlimit : g'.machine.gasLimit = .int limit) :
    g'.Confined limit p where
  gasLimit := hlimit
  outermost := by
    obtain ⟨tx, rest, hframes⟩ := h.outermost
    exact ⟨tx, rest, hg.frames.trans hframes⟩
  code := by rw [hg.env, h.code]
  made hc := by
    obtain ⟨a, ha, hcode⟩ := h.made ((isCreation_congr hg.frames).1 hc)
    obtain ⟨a', ha', hcode'⟩ := hg.world.found ha
    rw [hg.env]
    exact ⟨a', ha', hcode' ▸ hcode⟩

lemma Confined.relabels (h : g.Confined limit p) (hg : g.Relabels g') : g'.Confined limit p := by
  obtain ⟨node, notes, function, rfl⟩ := hg
  exact { h with }

lemma remaining_relabels (h : g.Relabels g') : g'.remaining limit c = g.remaining limit c := by
  obtain ⟨node, notes, function, rfl⟩ := h
  rfl

structure Descends (limit : Int) (p : ProgramId) (c : Program) (g g' : GState) : Prop where
  confined : g'.Confined limit p
  remaining : g'.remaining limit c < g.remaining limit c

section

variable (hg : g.Confined limit p) (hc : s.code.programs[p]? = some c) (hi : g.due s = some i)
include hg hc hi

lemma Confined.goesOn (hop : i.opcode.goesOn = true)
    (hg' : g.Passes (i.opcode.footprint true) i.opcode.isMetered i.opcode.advances g') : g.Descends limit p c g' := by
  obtain ⟨hjumps, hbooks, -, hadvances⟩ := Opcode.footprint_of_goesOn hop
  obtain ⟨hpc, hinstr⟩ := due_instr (hg.code ▸ hc) hi
  have hstays := hg'.stays
  rw [hadvances] at hg'
  obtain ⟨hlimit, hnext, hgas, henough⟩ := hg'.next hjumps hbooks hg.gasLimit
  refine ⟨hg.stays hstays hlimit, remaining_next hinstr (not_isSpent hinstr fun hdest => ?_) hpc hnext hgas⟩
  rw [hdest] at henough
  exact Int.le_trans hgas (henough rfl)

lemma Confined.leaps (hop : i.opcode ≠ .jumpdest) (hstays : g.Within fp g') (hg' : Step.Leaps s g g') :
    g.Descends limit p c g' := by
  rw [← hg.code] at hc
  obtain ⟨hpc, hinstr⟩ := due_instr hc hi
  have hspent : g.isSpent limit c = false := not_isSpent hinstr fun h => absurd h hop
  refine ⟨hg.stays hstays.stays (hstays.machine.gasLimit.trans hg.gasLimit), ?_⟩
  obtain hnext | ⟨n, j, hn, hj, hplace⟩ := hg'.place
  · exact remaining_next hinstr hspent hpc hnext (Int.le_of_lt hg'.gas)
  · exact remaining_leap hinstr hspent hn (hplace c hc) hj hg'.gas

/-- An instruction that does not end the frame leads to at most two states, with less to do. -/
lemma Confined.perform (hop : i.opcode.staysInFrame = true) (hhalts : i.opcode.halts = false)
    (h : g.perform i.opcode s = .ok o s') :
    s.Grows s' ∧ ∃ gs, o = .states gs ∧ gs.length ≤ 2 ∧ ∀ g' ∈ gs, g.Descends limit p c g' := by
  by_cases hjump : i.opcode = .jump ∨ i.opcode = .jumpi
  · obtain ⟨hs', gs, rfl, hlength, hgs⟩ := (perform_leaps hjump g s).ok h
    have hdest : i.opcode ≠ .jumpdest := by
      rcases hjump with hj | hj <;> rw [hj] <;> nofun
    exact ⟨hs', gs, rfl, hlength, fun g' hg' => hg.leaps hc hi hdest (hgs g' hg').1 (hgs g' hg').2⟩
  · have hgoesOn : i.opcode.goesOn = true := by
      simp only [not_or] at hjump
      simp [Opcode.goesOn, hop, hhalts, hjump]
    have hcreates := Opcode.creates_of_staysInFrame hop
    obtain ⟨hs', ho⟩ := (perform_within true hhalts hcreates nofun).ok h
    cases o with
    | states gs => exact ⟨hs', gs, rfl, ho.1, fun g' hg' => hg.goesOn hc hi hgoesOn (ho.2 g' hg')⟩
    | call tx waiting => exact nomatch (Opcode.footprint_of_goesOn hgoesOn).2.2.1.symm.trans ho.1
    | halt => exact ho.elim

end

lemma Confined.halts (hg : g.Confined limit p) (hop : op.halts = true) (h : g.perform op s = .ok o s') :
    s.Holds p s' ∧ ∃ final data reverted, o = .halt final data reverted ∧ final.frames = g.frames := by
  by_cases hc : g.IsCreation ∧ op.returnsData = true
  · obtain ⟨a, ha, hcode⟩ := hg.made hc.1
    obtain ⟨final, hfinal, ⟨rfl, hs'⟩ | ⟨text, items, s1, rfl, -, hassigns⟩⟩ := perform_hands hc.1 hc.2 ha h
    · exact ⟨.of_grows hs', final, _, _, rfl, hfinal.frames⟩
    · exact ⟨.of_assigns hassigns hcode.symm, final, _, _, rfl, hfinal.frames⟩
  · obtain ⟨hs', final, data, rfl, -, hframes⟩ := (perform_closes hop hc s).ok h
    exact ⟨.of_grows hs', final, _, _, rfl, hframes⟩

end GState

/-! ## One state -/

namespace Explore

variable {gs : List GState}

lemma finishFrame_outermost {final : GState} (hfinal : final.IsOutermost) (g : GState) (op : Opcode)
    (data : Option ReturnData) (reverted : Bool) (s : Session) : ∃ ws,
      finishFrame {} g final op data reverted s = .ok (g, []) { s with openWorlds := s.openWorlds ++ ws } := by
  obtain ⟨tx, rest, hframes⟩ := hfinal
  rw [finishFrame_unobserved, hframes]
  dsimp only
  split
  · exact ⟨_, rfl⟩
  · refine ⟨[], ?_⟩
    rw [append_nil]
    rfl

lemma fail_outermost (hg : g.IsOutermost) (op : Opcode) (s : Session) : ∃ g', fail {} g op s = .ok (g', []) s := by
  obtain ⟨tx, rest, hframes⟩ := hg
  rw [fail_unobserved, hframes]
  exact ⟨_, rfl⟩

lemma Leads.of_ok {r : GState.Executed} (h : Leads g s gs s') (hr : execute {} g s = .ok r s1) :
    r.successors = gs ∧ s' = s1 := by
  obtain ⟨r', hr', rfl⟩ | ⟨hr', -⟩ := h
  all_goals cases hr.symm.trans hr'
  exact ⟨rfl, rfl⟩

/-- A state leads to at most two states, with less to do, while the program and the list of work stay as they are. -/
structure Narrows (limit : Int) (p : ProgramId) (c : Program) (g : GState) (s : Session) (gs : List GState)
    (s' : Session) : Prop where
  program : s'.code.programs[p]? = some c
  work : s'.work = s.work
  branches : gs.length ≤ 2
  states : ∀ g' ∈ gs, g.Descends limit p c g'

lemma Narrows.nowhere (hc : s.code.programs[p]? = some c) (hs : s.Holds p s') : Narrows limit p c g s [] s' :=
  ⟨hs.program hc, hs.work, zero_le 2, forall_mem_nil _⟩

section

variable (hg : g.Confined limit p) (hc : s.code.programs[p]? = some c) (hown : c.StaysInFrame)
include hg hc hown

lemma performs_narrows (hperforms : g.Performs op s o s1) (h : Leads g s gs s') : Narrows limit p c g s gs s' := by
  obtain ⟨i, hi, rfl⟩ := hperforms.isAt
  have hop : i.opcode.staysInFrame = true := hown i (Array.mem_of_getElem? (GState.due_instr (hg.code ▸ hc) hi).2)
  have hexecute := execute_performs hperforms
  cases hhalts : i.opcode.halts with
  | false =>
    obtain ⟨hs1, gs', rfl, hlength, hgs'⟩ := hg.perform hc hi hop hhalts hperforms.run
    obtain ⟨rfl, rfl⟩ := h.of_ok hexecute
    exact ⟨hs1.programs hc, hs1.work, hlength, hgs'⟩
  | true =>
    obtain ⟨hs1, final, data, reverted, rfl, hframes⟩ := hg.halts hhalts hperforms.run
    obtain ⟨tx, rest, houtermost⟩ := hg.outermost
    obtain ⟨ws, hfinish⟩ := finishFrame_outermost ⟨tx, rest, hframes.trans houtermost⟩ g i.opcode data reverted s1
    dsimp only at hexecute
    rw [bind_ok hfinish] at hexecute
    obtain ⟨rfl, rfl⟩ := h.of_ok hexecute
    exact ⟨hs1.program hc, hs1.work, zero_le 2, forall_mem_nil _⟩

/-- Whatever a state of the program does, it leads to at most two states, with less to do. -/
lemma leads_narrows (h : Leads g s gs s') : Narrows limit p c g s gs s' := by
  obtain hdue | ⟨op, s1, hfaults | ⟨o, hperforms⟩ | ⟨f, hstops⟩⟩ := execute_split g s
  · obtain ⟨rfl, rfl⟩ := h.of_ok (execute_beyond hdue)
    exact ⟨hc, rfl, zero_le 2, forall_mem_nil _⟩
  · obtain ⟨g', hfail⟩ := fail_outermost hg.outermost op s1
    have hexecute := execute_faults hfaults
    rw [bind_ok hfail] at hexecute
    obtain ⟨rfl, rfl⟩ := h.of_ok hexecute
    exact .nowhere hc (.of_grows hfaults.grows)
  · exact performs_narrows hg hc hown hperforms h
  · obtain ⟨r, hr, -⟩ | ⟨hr, rfl⟩ := h
    all_goals cases (execute_stops hstops).symm.trans hr
    exact .nowhere hc (.of_grows ((GState.perform_error hstops.run).resolve_left (not_isFinal_unsupported "")))

end

/-! ## Paths -/

/-- States that follow one another, each executed in some session that has the program, with a number of steps between the
first and the last. On the way their labels may change. -/
inductive Path (c : Program) (g : GState) : Nat → GState → Prop
  | start : Path c g 0 g
  | label {n : Nat} {g₁ g₂ : GState} : Path c g n g₁ → g₁.Relabels g₂ → Path c g n g₂
  | step {n : Nat} {g₁ g₂ : GState} {r : GState.Executed} {s s' : Session} : Path c g n g₁ →
    s.code.programs[g₁.env.code]? = some c → execute {} g₁ s = .ok r s' → g₂ ∈ r.successors → Path c g (n + 1) g₂

lemma Path.descends (h : Path c g n g') (hg : g.Confined limit p) (hown : c.StaysInFrame) :
    g'.Confined limit p ∧ n + g'.remaining limit c ≤ g.remaining limit c := by
  induction h with
  | start => exact ⟨hg, Nat.le_of_eq (Nat.zero_add _)⟩
  | label _ hrel ih =>
    rw [GState.remaining_relabels hrel]
    exact ⟨ih.1.relabels hrel, ih.2⟩
  | step _ hc hr hmem ih =>
    rw [ih.1.code] at hc
    have hdescends := (leads_narrows ih.1 hc hown (.inl ⟨_, hr, rfl⟩)).states _ hmem
    have hless := hdescends.remaining
    exact ⟨hdescends.confined, by omega⟩

lemma Path.of_leads {g1 : GState} {T : GState → Session → Prop} (hpath : Path c g n g1) (hg : g.Confined limit p)
    (hown : c.StaysInFrame) (hc : s.code.programs[p]? = some c) (h : LeadsTo g1 s T) :
    ∃ g2 s', Path c g (n + 1) g2 ∧ s'.code.programs[p]? = some c ∧ T g2 s' := by
  have hg1 := (hpath.descends hg hown).1
  obtain ⟨r, s', hr, g2, hsuccessors, htest⟩ := h
  have hnarrows := leads_narrows hg1 hc hown (.inl ⟨r, hr, rfl⟩)
  exact ⟨g2, s', hpath.step (hg1.code ▸ hc) hr (by simp [hsuccessors]), hnarrows.program, htest⟩

/-! ## The whole exploration -/

/-- States are taken one by one, the last or the first that waits, for as long as there are any. -/
structure Plan.IsExhaustive (plan : Plan) : Prop where
  search : plan.search = .depthFirst ∨ plan.search = .breadthFirst
  extensions : plan.extensions = []
  maxDepth : plan.maxDepth = none
  isOver : plan.isOver = false
  isCreationOver : plan.isCreationOver = false
  taker : plan.taker = none

variable {plan : Plan} {isCreation : Bool} {i m : Nat}

abbrev without (s : Session) (i : Nat) : Session := { s with work := { s.work with queue := s.work.queue.eraseIdx i } }

lemma takeNext_run {search : Search} (h : search = .depthFirst ∨ search = .breadthFirst) (s : Session) :
    s.work.queue = [] ∧ takeNext search s = .ok none s ∨
      ∃ i g, s.work.queue[i]? = some g ∧ takeNext search s = .ok (some g) (without s i) := by
  obtain ⟨i, hi, hrun⟩ : ∃ i ≤ s.work.queue.length - 1, takeNext search s = Engine.onWork (handOut (·.takeAt i)) s := by
    rcases h with rfl | rfl
    · exact ⟨_, Nat.le_refl _, rfl⟩
    · exact ⟨0, zero_le _, rfl⟩
  rw [hrun]
  cases hg : s.work.queue[i]? with
  | none =>
    have hlength := getElem?_eq_none_iff.1 hg
    have hqueue : s.work.queue = [] := eq_nil_of_length_eq_zero (by omega)
    exact .inl ⟨hqueue, by simp [Engine.onWork, Work.takeAt, hg, ← hqueue]⟩
  | some g =>
    refine .inr ⟨i, g, hg, ?_⟩
    simp [Engine.onWork, Work.takeAt, hg]

section

variable (hplan : plan.IsExhaustive)
include hplan

lemma takeShallow_run (n : Nat) (s : Session) :
    s.work.queue = [] ∧ takeShallow plan (n + 1) s = .ok none s ∨
      ∃ i g, s.work.queue[i]? = some g ∧ takeShallow plan (n + 1) s = .ok (some g) (without s i) := by
  unfold takeShallow
  rw [hplan.taker, hplan.extensions, hplan.maxDepth]
  obtain ⟨hqueue, hrun⟩ | ⟨i, g, hg, hrun⟩ := takeNext_run hplan.search s
  · exact .inl ⟨hqueue, bind_ok hrun⟩
  · exact .inr ⟨i, g, hg, bind_ok hrun⟩

lemma isTimeOver_run (isCreation : Bool) (s : Session) : isTimeOver plan isCreation s = .ok false s := by
  unfold isTimeOver
  rw [hplan.isOver, hplan.isCreationOver]
  cases isCreation with
  | false => rfl
  | true =>
    show (if true && !s.openWorlds.isEmpty then _ else _ : Engine Bool) s = _
    split <;> rfl

/-- The exploration looks at no more states than this, and however long it might go on, it ends there: because no state is
left, or by a fault. -/
structure EndsWithin (plan : Plan) (isCreation : Bool) (m : Nat) (s : Session) : Prop where
  turns : ∀ n, (history plan isCreation n s).length ≤ m
  same : ∀ n finals, m ≤ n → work {} plan isCreation n finals s = work {} plan isCreation m finals s
  empty : ∀ finals finals' s', work {} plan isCreation m finals s = .ok finals' s' → s'.work.queue = []

lemma EndsWithin.idle (hs : s.work.queue = []) : EndsWithin plan isCreation m s := by
  have htake n : takeShallow plan (n + 1) s = .ok none s := by
    obtain ⟨-, hrun⟩ | ⟨i, g, hg, -⟩ := takeShallow_run hplan n s
    · exact hrun
    · rw [hs] at hg
      cases hg
  have hwork n finals : work {} plan isCreation n finals s = .ok finals.reverse s := by
    cases n with
    | zero => rfl
    | succ n => exact bind_ok (htake s.work.size)
  refine ⟨fun n => ?_, fun n finals _ => (hwork n finals).trans (hwork m finals).symm, fun finals finals' s' h => ?_⟩
  · cases n with
    | zero => exact zero_le m
    | succ n =>
      rw [history, htake]
      exact zero_le m
  · cases (hwork m finals).symm.trans h
    exact hs

lemma EndsWithin.turn (htake : takeShallow plan (s.work.size + 1) s = .ok (some g) s')
    (hrest : ∀ final s2, expand {} plan g s' = .ok final s2 → EndsWithin plan isCreation n s2) :
    EndsWithin plan isCreation (n + 1) s := by
  have hover := isTimeOver_run hplan isCreation s'
  have hwork := work_turn (h := {}) htake hover
  refine ⟨fun k => ?_, fun k finals hk => ?_, fun finals finals' s1 h => ?_⟩
  · cases k with
    | zero => exact zero_le _
    | succ k =>
      simp only [history, htake, hover]
      cases hexpand : expand {} plan g s' with
      | error f s2 => exact succ_le_succ (zero_le n)
      | ok final s2 => exact succ_le_succ ((hrest final s2 hexpand).turns k)
  · obtain ⟨k, rfl⟩ := Nat.exists_eq_add_of_le' (Nat.le_trans (le_add_left 1 n) hk)
    rw [hwork, hwork]
    exact Engine.bind_congr_run rfl fun final s2 hexpand => (hrest final s2 hexpand).same k _ (le_of_succ_le_succ hk)
  · rw [hwork] at h
    obtain ⟨final, s2, hexpand, h⟩ := Engine.of_bind_ok h
    exact (hrest final s2 hexpand).empty _ _ _ h

end

/-- How many states there can be from these on: a state weighs more than the two that it may lead to. -/
def weight (limit : Int) (c : Program) : List GState → Nat
  | [] => 0
  | g :: gs => 3 ^ g.remaining limit c + weight limit c gs

lemma weight_append (gs gs' : List GState) : weight limit c (gs ++ gs') = weight limit c gs + weight limit c gs' := by
  induction gs with
  | nil => exact (Nat.zero_add _).symm
  | cons g gs ih => rw [cons_append, weight, weight, ih, Nat.add_assoc]

lemma weight_eraseIdx (h : gs[i]? = some g) :
    weight limit c gs = 3 ^ g.remaining limit c + weight limit c (gs.eraseIdx i) := by
  induction gs generalizing i with
  | nil => cases h
  | cons a gs ih =>
    cases i with
    | zero =>
      cases h
      rfl
    | succ i =>
      have hrest := ih h
      rw [eraseIdx_cons_succ, weight, weight]
      omega

lemma weight_lt (hlength : gs.length ≤ 2) (hgs : ∀ g ∈ gs, g.remaining limit c < n) : weight limit c gs < 3 ^ n := by
  have hpow {k} (hk : k < n) : 3 * 3 ^ k ≤ 3 ^ n := by
    rw [← pow_succ']
    exact Nat.pow_le_pow_right (by decide) hk
  have hpos : 0 < 3 ^ n := Nat.pow_pos (by decide)
  match gs with
  | [] => exact hpos
  | [a] =>
    have ha := hpow (hgs a (by simp))
    simp only [weight]
    omega
  | [a, b] =>
    have ha := hpow (hgs a (by simp))
    have hb := hpow (hgs b (by simp))
    simp only [weight]
    omega
  | _ :: _ :: _ :: _ => simp at hlength

lemma weight_le (hgs : ∀ g ∈ gs, g.remaining limit c ≤ n) : weight limit c gs ≤ gs.length * 3 ^ n := by
  induction gs with
  | nil => exact zero_le _
  | cons g gs ih =>
    obtain ⟨hg, hgs⟩ := forall_mem_cons.1 hgs
    have hrest := ih hgs
    have hfirst : 3 ^ g.remaining limit c ≤ 3 ^ n := Nat.pow_le_pow_right (by decide) hg
    rw [weight, length_cons, succ_mul]
    omega

structure Underway (limit : Int) (p : ProgramId) (c : Program) (s : Session) : Prop where
  program : s.code.programs[p]? = some c
  states : ∀ g ∈ s.work.queue, g.Confined limit p

/-- When a state has been expanded, the states that wait weigh less than before. -/
lemma Underway.expand (hs : Underway limit p c s) (hown : c.StaysInFrame) (hg : s.work.queue[i]? = some g)
    {final : Option GState} (h : expand {} plan g (without s i) = .ok final s') :
    Underway limit p c s' ∧ weight limit c s'.work.queue < weight limit c s.work.queue := by
  obtain ⟨gs, s1, gs', hleads, hgs', hpushes⟩ := expand_run h
  have hnarrows := leads_narrows (s := without s i) (hs.states g (mem_of_getElem? hg)) hs.program hown hleads
  have hqueue : s'.work.queue = s.work.queue.eraseIdx i ++ gs' := by
    rw [hpushes.work, hnarrows.work]
    rfl
  have hstates : ∀ g' ∈ gs', g'.Confined limit p ∧ g'.remaining limit c < g.remaining limit c := by
    intro g' hg'
    obtain ⟨g1, hg1, hrel⟩ := hgs'.states g' hg'
    rw [GState.remaining_relabels hrel]
    exact ⟨(hnarrows.states g1 hg1).confined.relabels hrel, (hnarrows.states g1 hg1).remaining⟩
  refine ⟨⟨hpushes.programs hnarrows.program, ?_⟩, ?_⟩
  · rw [hqueue]
    refine forall_mem_append.2 ⟨fun g' hg' => ?_, fun g' hg' => (hstates g' hg').1⟩
    exact hs.states g' (mem_of_mem_eraseIdx hg')
  · have hless := weight_lt (Nat.le_trans hgs'.length hnarrows.branches) fun g' hg' => (hstates g' hg').2
    rw [hqueue, weight_append, weight_eraseIdx hg]
    omega

/-- An exploration ends when as many states have been looked at as the states that wait weigh. -/
lemma Underway.ends (hplan : plan.IsExhaustive) (hown : c.StaysInFrame) (hs : Underway limit p c s)
    (hm : weight limit c s.work.queue ≤ m) : EndsWithin plan isCreation m s := by
  induction m generalizing s with
  | zero =>
    -- a state that waits weighs something
    obtain ⟨hqueue, -⟩ | ⟨i, g, hg, -⟩ := takeShallow_run hplan s.work.size s
    · exact .idle hplan hqueue
    · have hpos : 0 < 3 ^ g.remaining limit c := Nat.pow_pos (by decide)
      rw [weight_eraseIdx hg] at hm
      omega
  | succ m ih =>
    obtain ⟨hqueue, -⟩ | ⟨i, g, hg, htake⟩ := takeShallow_run hplan s.work.size s
    · exact .idle hplan hqueue
    · refine .turn hplan htake fun final s2 hexpand => ?_
      obtain ⟨hs2, hless⟩ := hs.expand hown hg hexpand
      exact ih hs2 (by omega)

/-- **Gas alone ends an exploration.**  When no instruction of a program starts another frame or leaves a subroutine, its
states lead to at most two states each, no path is longer than the gas and the length of the program allow, and an
exploration, of whichever end of the list of work, ends when it has looked at a number of states that depends on nothing
else. -/
theorem gas_ends_exploration {limit : Int} {p : ProgramId} {c : Program} (hown : c.StaysInFrame) :
    (∀ g s r s', g.Confined limit p → s.code.programs[p]? = some c → execute {} g s = .ok r s' →
      r.successors.length ≤ 2) ∧
    (∀ g n g', g.Confined limit p → 0 ≤ g.machine.minGas → Path c g n g' → n ≤ GState.pathBound limit c.instrs.size) ∧
    ∀ plan isCreation s, plan.IsExhaustive → Underway limit p c s → (∀ g ∈ s.work.queue, 0 ≤ g.machine.minGas) →
      EndsWithin plan isCreation (s.work.queue.length * 3 ^ GState.pathBound limit c.instrs.size) s := by
  refine ⟨fun g s r s' hg hc hr => ?_, fun g n g' hg hgas hpath => ?_, fun plan isCreation s hplan hs hgas => ?_⟩
  · exact (leads_narrows hg hc hown (.inl ⟨r, hr, rfl⟩)).branches
  · exact Nat.le_trans (le_of_add_right_le (hpath.descends hg hown).2) (GState.remaining_le hgas)
  · exact hs.ends hplan hown (weight_le fun g hg => GState.remaining_le (hgas g hg))

/-- The first program of a session is about to be run, with this much gas. -/
def ofGas (limit : Int) : GState := { GState.ofOperands [] with machine := { gasLimit := .int limit } }

/-- A program that jumps back to its beginning forever, with thirty units of gas: after three steps it is where it was, but
no path is longer than 159 steps. -/
theorem loop_ends_by_gas : ∃ c, (Session.ofCodes ["5b600056"]).code.programs[0]? = some c ∧ c.StaysInFrame ∧
    (ofGas 30).Confined 30 0 ∧ (∃ g, Path c (ofGas 30) 3 g ∧ g.machine.pc = 0 ∧ g.machine.stack = []) ∧
    (∀ n g, Path c (ofGas 30) n g → n ≤ 159) ∧
    EndsWithin {} false (3 ^ 159) { Session.ofCodes ["5b600056"] with work := { queue := [ofGas 30] } } := by
  have hg : (ofGas 30).Confined 30 0 := ⟨rfl, ⟨_, _, rfl⟩, rfl, nofun⟩
  have hown : (Program.ofHex "5b600056").StaysInFrame := by decide +kernel
  have hbound : GState.pathBound 30 (Program.ofHex "5b600056").instrs.size = 159 := by decide +kernel
  have hends := @gas_ends_exploration 30 0 _ hown
  rw [hbound] at hends
  refine ⟨.ofHex "5b600056", rfl, hown, hg, ?_, fun n g => hends.2.1 _ n g hg (by decide), ?_⟩
  · have hround : LeadsTo (ofGas 30) (.ofCodes ["5b600056"]) fun g s => LeadsTo g s fun g s => LeadsTo g s fun g _ =>
        g.machine.pc = 0 ∧ g.machine.stack.isEmpty := by decide +kernel
    obtain ⟨g₁, s₁, hpath, hc, h₁⟩ := Path.start.of_leads hg hown rfl hround
    obtain ⟨g₂, s₂, hpath, hc, h₂⟩ := hpath.of_leads hg hown hc h₁
    obtain ⟨g₃, s₃, hpath, -, hpc, hstack⟩ := hpath.of_leads hg hown hc h₂
    exact ⟨g₃, hpath, hpc, isEmpty_iff.1 hstack⟩
  · exact hends.2.2 {} false { Session.ofCodes ["5b600056"] with work := { queue := [ofGas 30] } }
      ⟨.inl rfl, rfl, rfl, rfl, rfl, rfl⟩ ⟨rfl, forall_mem_singleton.2 hg⟩
      (forall_mem_singleton.2 (Int.le_refl 0))

end Explore
end EvmAudit
