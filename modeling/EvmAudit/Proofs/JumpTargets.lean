import EvmAudit.Proofs.InternalFaults

/-!
# Jumps as instructions

What follows a state at a jump. A conditional jump splits the inputs between its two sides, and each side has what the
state had, but for two things that copying forgets: memory of size zero is new, and no account is deleted. A jump is
accepted not only at a destination but also inside of the instruction right before one. A subroutine is entered at the
wrong place, because an address is taken for a place, and never left.
-/

namespace EvmAudit

open Evm (Word)

variable {g g₁ g' : GState} {s s' : Session} {instrs : List Instr} {σ : Valuation} {e c : Expr} {a x : Word} {st : Stack}
  {code : Bytecode}

lemma Memory.copy_copy (m : Memory) : m.copy.copy = m.copy := by
  unfold copy
  split <;> simp [*]

lemma KeySet.Mirrors.trans {ks ks' ks'' : KeySet} (h : ks.Mirrors ks') (h' : ks'.Mirrors ks'') : ks.Mirrors ks'' where
  kept k hk :=
    have ⟨k', hk', hsame⟩ := h.kept k hk
    have ⟨k'', hk'', hsame'⟩ := h'.kept k' hk'
    ⟨k'', hk'', hsame.trans hsame'⟩
  known k'' hk'' :=
    have ⟨k', hk', hsame'⟩ := h'.known k'' hk''
    have ⟨k, hk, hsame⟩ := h.known k' hk'
    ⟨k, hk, hsame.trans hsame'⟩

lemma Account.Preserved.trans {a a' a'' : Account} (h : a.Preserved a') (h' : a'.Preserved a'') : a.Preserved a'' where
  address := h'.address.trans h.address
  name := h'.name.trans h.name
  nonce := h'.nonce.trans h.nonce
  code := h'.code.trans h.code
  concrete := h'.concrete.trans h.concrete
  storage := by rw [h'.storage, h.storage]
  written := h.written.trans h'.written
  read := h.read.trans h'.read
  deleted := h'.deleted

lemma GState.CopyOf.balances (h : g.CopyOf g') : g'.world.balances = g.world.balances := by
  obtain ⟨w, hw, hworld | ⟨-, key, a, -, hworld⟩⟩ := h.world
  · rw [hworld, hw.rest]
  · rw [hworld]
    show w.balances = _
    rw [hw.rest]

namespace GState

/-- An instruction that moves on by itself is performed on a copy of the state. -/
lemma run_leap (hg : g.machine.Sound) (step : Step Effect) (s : Session) : ∃ g₁ s1, s.Grows s1 ∧ g.CopyOf g₁ ∧
    g.Retains g₁ ∧ (∀ gs g2 s2, step g₁ s1 = .ok (.branch gs, g2) s2 → g.run step false false s = .ok (.states gs) s2) ∧
    ∀ f s2, step g₁ s1 = .error f s2 → g.run step false false s = .error f s2 := by
  obtain ⟨g₁, s1, hcopy, hs, hg1, -, hkept⟩ := copy_does hg false
  refine ⟨g₁, s1, hs, hg1, hkept, fun gs g2 s2 hstep => ?_, fun f s2 hstep => ?_⟩
  · exact (Engine.bind_ok hcopy).trans (Engine.bind_ok hstep)
  · exact (Engine.bind_ok hcopy).trans (Engine.bind_error hstep)

lemma CopyOf.lists (h : g.CopyOf g') (hg : g.Lists s instrs) : g'.Lists s instrs := by
  rw [h.rest]
  exact hg

/-! ## The two sides of a conditional jump -/

def IsMet (σ : Valuation) (g : GState) : Prop := ∀ e ∈ g.world.constraints, e.Says σ true

/-- The state goes on from another one at a place with a stack, and has its memory and its world. -/
structure Follows (g : GState) (pc : Int) (st : Stack) (g' : GState) : Prop where
  pc : g'.machine.pc = pc
  stack : g'.machine.stack = st
  memory : g'.machine.memory = g.machine.memory.copy
  accounts : ∀ key, Option.Rel Account.Preserved (g.world.find? key) (g'.world.find? key)
  balances : g'.world.balances = g.world.balances

lemma Branches.isMet {pc : Int} (h : g.Branches pc e g') (hg : g.IsMet σ) {b : Bool} (he : e.Says σ b) :
    g'.IsMet σ ↔ b = true := by
  obtain ⟨g₁, hcopy, -, rfl⟩ := h
  show (∀ e' ∈ g₁.world.constraints ++ [e], e'.Says σ true) ↔ _
  rw [List.forall_mem_append, List.forall_mem_singleton]
  constructor
  · intro h
    have hsame := he.denote.symm.trans h.2.denote
    cases b with
    | true => rfl
    | false => cases hsame
  · rintro rfl
    exact ⟨hcopy.constraints_true hg, he⟩

lemma Branches.follows {pc : Int} (h : (g₁.withStack st).Branches pc e g') (hsound : (g₁.withStack st).machine.Sound)
    (hg : g.machine.Sound) (hcopy : g.CopyOf g₁) (hactive : g.world.find? g.env.active ≠ none)
    (hkept : ∀ key, Option.Rel Account.Preserved (g.world.find? key) (g₁.world.find? key)) : g.Follows pc st g' := by
  obtain ⟨g2, hcopy2, hkept2, rfl⟩ := h
  have hmachine := hcopy2.machine.of_sound hsound
  have henv : g₁.env = g.env := by rw [hcopy.rest]
  have hactive1 : g₁.world.find? g₁.env.active ≠ none := by
    rw [henv]
    exact mt (none_iff_of_rel (hkept _)).1 hactive
  refine ⟨rfl, ?_, ?_, fun key => ?_, ?_⟩
  · show g2.machine.stack = st
    rw [hmachine]
    rfl
  · show g2.machine.memory = _
    rw [hmachine]
    show g₁.machine.memory.copy = _
    rw [hcopy.machine.of_sound hg, Memory.copy_copy]
  · show Option.Rel _ _ (g2.world.find? key)
    have hrel := hkept key
    have hrel2 : Option.Rel _ (g₁.world.find? key) _ := hkept2 hactive1 key
    generalize g.world.find? key = r, g₁.world.find? key = r1, g2.world.find? key = r2 at hrel hrel2 ⊢
    cases hrel with
    | none =>
      cases hrel2
      exact .none
    | some h =>
      cases hrel2 with
      | some h' => exact .some (h.trans h')
  · exact hcopy2.balances.trans hcopy.balances

/-- A conditional jump to a destination splits the inputs. Of those that meet the conditions of the state, each meets
those of exactly one successor: of the one at the next instruction if the operand is zero, of the one at the destination
otherwise. Both have the rest of the stack, and of memory and world what a copy keeps. -/
theorem conditional_jump_splits (hcode : Instr.ofCode code = .ok instrs) (hlists : g.Lists s instrs)
    (hsound : g.machine.Sound) (hactive : g.world.find? g.env.active ≠ none)
    (hst : g.machine.stack = .expr e :: .expr c :: st) (he : e.Equals a) {i : Nat} {d : Instr}
    (hd : instrs[i]? = some d) (hop : d.opcode = .jumpdest) (haddress : d.address = a.toNat)
    (hc : c.Denotes σ x) (hmet : g.IsMet σ) : (g.perform .jumpi).Does s fun o => ∃ passed taken : Option GState,
      o = .states (passed.toList ++ taken.toList) ∧
      (∀ g' ∈ passed, g.Follows (g.machine.pc + 1) st g' ∧ (g'.IsMet σ ↔ x = 0)) ∧
      (∀ g' ∈ taken, g.Follows i st g' ∧ (g'.IsMet σ ↔ x ≠ 0)) ∧
      (passed = none → x ≠ 0) ∧ (taken = none → x = 0) := by
  have hl : Instr.landing instrs a.toNat = some (i, d) := by
    rw [Instr.landing, ← haddress, Instr.indexOf?_address (Instr.laid_ofCode hcode).1 hd, Option.bind_some, hd]
    rfl
  obtain ⟨g₁, s₁, hs, hcopy, hkept, hstates, -⟩ := run_leap hsound .jumpIf s
  obtain ⟨hsound₁, hstack⟩ := hsound.copy hcopy.machine
  have hst₁ := hstack.trans hst
  have hpc : (g₁.withStack st).machine.pc = g.machine.pc := by
    show g₁.machine.pc = _
    rw [hcopy.machine.of_sound hsound]
  have hmet₁ := hcopy.constraints_true hmet
  have hfollows {pc e' g'} (h : (g₁.withStack st).Branches pc e' g') : g.Follows pc st g' :=
    h.follows (hsound₁.withStack (t := [.expr e, .expr c]) hst₁) hsound hcopy hactive (hkept hactive)
  obtain ⟨_, g₂, s₂, hrun, hs₂, passed, taken, rfl, hsplits⟩ :=
    Step.jumpIf_does hsound₁ ((hcopy.lists hlists).grow hs) hst₁ he hc
  refine ⟨_, s₂, hstates _ _ _ hrun, hs.trans hs₂, passed, taken, rfl, fun g' hg' => ?_, fun g' hg' => ?_,
    hsplits.notPassed, fun hnone => ?_⟩
  · obtain ⟨e', he', hbranch⟩ := hsplits.pass g' hg'
    rw [hpc] at hbranch
    rw [hbranch.isMet hmet₁ he', beq_iff_eq]
    exact ⟨hfollows hbranch, .rfl⟩
  · obtain ⟨i', d', e', hl', -, he', hbranch⟩ := hsplits.turn g' hg'
    obtain rfl : i = i' := congrArg Prod.fst (Option.some.inj (hl.symm.trans hl'))
    rw [hbranch.isMet hmet₁ he', bne_iff_ne]
    exact ⟨hfollows hbranch, .rfl⟩
  · exact BitVec.eq_of_toNat_eq (hc.eq_of_value? (hsplits.notTaken i d hl hop hnone)).symm

/-- With a zero as its operand, the jump passes on to the next instruction. -/
theorem zero_passes : ((ofOperands [1, 0]).perform .jumpi).Does (Session.ofCodes ["575b00"]) fun o =>
    ∃ gs, o = .states gs ∧ ∃ g' ∈ gs, (ofOperands [1, 0]).Follows 1 [] g' ∧ g'.IsMet default := by
  have hcode : Instr.ofCode (.hex "575b00") = .ok [⟨0, .jumpi, none⟩, ⟨1, .jumpdest, none⟩, ⟨2, .stop, none⟩] := by
    with_unfolding_all rfl
  refine (conditional_jump_splits (σ := default) (x := 0) hcode ⟨_, rfl, by with_unfolding_all rfl⟩
    (ofOperands_sound (by decide)) (by simp [ofOperands, World.find?]) rfl (a := 1) ⟨rfl, rfl, rfl, rfl⟩ (i := 1) rfl rfl rfl
    ⟨rfl, rfl, rfl, rfl⟩ (List.forall_mem_nil _)).mono ?_
  rintro _ ⟨passed, taken, rfl, hpassed, -, hnone, -⟩
  obtain ⟨g', rfl⟩ := Option.ne_none_iff_exists'.1 fun h => hnone h rfl
  exact ⟨_, rfl, g', by simp, (hpassed g' rfl).1, (hpassed g' rfl).2.2 rfl⟩

/-- A byte that was stored at an unknown index before memory was in use is gone behind a conditional jump. -/
theorem unknown_byte_is_lost : Engine.passes (perform { ofOperands [] with machine := { stack :=
      [.expr ⟨0, 0, .symbol "i" 256⟩, .expr ⟨1, 0, .symbol "v" 256⟩, .expr (.literal 2), .expr (.literal 1)] } } .mstore8)
    (.ofCodes ["53575b00"]) (fun o s => match o with
      | .states [g] => g.machine.memory.odd.length == 1 && g.performs .jumpi s fun o => match o with
        | .states [g'] => g'.machine.pc == 2 && g'.machine.memory.odd.isEmpty
        | _ => false
      | _ => false) = true := by
  decide +kernel

/-! ## Destinations -/

def Assumes (σ : Valuation) (b : Bool) (g : GState) : Prop := ∃ e, g.world.constraints.getLast? = some e ∧ e.Says σ b

lemma Branches.assumes_iff {pc : Int} (h : g.Branches pc e g') {b b' : Bool} (he : e.Says σ b) :
    g'.Assumes σ b' ↔ b = b' := by
  obtain ⟨g₁, -, -, rfl⟩ := h
  constructor
  · rintro ⟨e', hlast, he'⟩
    obtain rfl : e = e' := by simpa using hlast
    have hsame := he.denote.symm.trans he'.denote
    cases b <;> cases b' <;> first | rfl | cases hsame
  · rintro rfl
    exact ⟨e, by simp, he⟩

/-- A jump is accepted exactly if there is a destination at its address or right behind the instruction that the address
is inside of. -/
theorem jumps_land_ahead (hcode : Instr.ofCode code = .ok instrs) (hlists : g.Lists s instrs) (hsound : g.machine.Sound)
    (he : e.Equals a) :
    (∀ st, g.machine.stack = .expr e :: st →
      ((∃ g' s', g.perform .jump s = .ok (.states [g']) s') ↔ Instr.Heads .jumpdest instrs a.toNat) ∧
      (¬ Instr.Heads .jumpdest instrs a.toNat → ∃ text s', g.perform .jump s = .error (Step.invalidJump text) s')) ∧
    ∀ (c : Expr) (x : Word) (st : Stack), g.machine.stack = .expr e :: .expr c :: st → c.Denotes σ x →
      c.term.value? ≠ some 0 →
      ((∃ gs s', g.perform .jumpi s = .ok (.states gs) s' ∧ ∃ g' ∈ gs, g'.Assumes σ (x != 0)) ↔
        Instr.Heads .jumpdest instrs a.toNat) := by
  rw [← Instr.heads_iff hcode]
  refine ⟨fun st hst => ?_, fun c x st hst hc hvalue => ?_⟩
  · obtain ⟨g₁, s₁, hs, hcopy, -, hstates, hfault⟩ := run_leap hsound .jump s
    obtain ⟨hsound₁, hstack⟩ := hsound.copy hcopy.machine
    have hlists₁ := (hcopy.lists hlists).grow hs
    have hst₁ := hstack.trans hst
    have hfails (hno : ¬ ∃ i d, Instr.landing instrs a.toNat = some (i, d) ∧ d.opcode = .jumpdest) :
        ∃ text s', g.perform .jump s = .error (Step.invalidJump text) s' := by
      obtain ⟨_, s₂, hrun, text, rfl⟩ := Step.jump_fails hlists₁ hst₁ he fun i d hl hd => hno ⟨i, d, hl, hd⟩
      exact ⟨text, s₂, hfault _ _ hrun⟩
    refine ⟨⟨fun ⟨g', s', hg'⟩ => ?_, fun ⟨i, d, hl, hd⟩ => ?_⟩, hfails⟩
    · by_contra hno
      obtain ⟨text, s'', herror⟩ := hfails hno
      cases hg'.symm.trans herror
    · obtain ⟨_, g₂, s₂, hrun, -, g', rfl, -⟩ := Step.jump_does hlists₁ hst₁ he hsound₁ hl hd
      exact ⟨g', s₂, hstates _ _ _ hrun⟩
  · obtain ⟨g₁, s₁, hs, hcopy, -, hstates, -⟩ := run_leap hsound .jumpIf s
    obtain ⟨hsound₁, hstack⟩ := hsound.copy hcopy.machine
    obtain ⟨_, g₂, s₂, hrun, -, passed, taken, rfl, hsplits⟩ :=
      Step.jumpIf_does hsound₁ ((hcopy.lists hlists).grow hs) (hstack.trans hst) he hc
    have hperform := hstates _ _ _ hrun
    constructor
    · rintro ⟨gs, s', hgs, g', hg', hassumes⟩
      cases hperform.symm.trans hgs
      rcases List.mem_append.1 hg' with hg' | hg'
      · obtain ⟨e', he', hbranch⟩ := hsplits.pass g' (Option.mem_toList.1 hg')
        have hsame := (hbranch.assumes_iff he').1 hassumes
        simp [bne] at hsame
      · obtain ⟨i, d, -, hl, hd, -⟩ := hsplits.turn g' (Option.mem_toList.1 hg')
        exact ⟨i, d, hl, hd⟩
    · rintro ⟨i, d, hl, hd⟩
      obtain ⟨g', rfl⟩ := Option.ne_none_iff_exists'.1 fun hnone => hvalue (hsplits.notTaken i d hl hd hnone)
      obtain ⟨_, _, e', -, -, he', hbranch⟩ := hsplits.turn g' rfl
      exact ⟨_, s₂, hperform, g', by simp, (hbranch.assumes_iff he').2 rfl⟩

/-- A jump into the immediate of a push is refused if a stop is behind the push. -/
theorem jump_into_push_is_refused : ∃ text s', (ofOperands [1]).perform .jump (Session.ofCodes ["60010056"]) =
    .error (Step.invalidJump text) s' := by
  have hcode : Instr.ofCode (.hex "60010056") =
      .ok [⟨0, .push 1, some (.hex "0x01")⟩, ⟨2, .stop, none⟩, ⟨3, .jump, none⟩] := by with_unfolding_all rfl
  refine ((jumps_land_ahead (σ := default) (a := 1) hcode ⟨_, rfl, by with_unfolding_all rfl⟩ (ofOperands_sound (by decide))
    ⟨rfl, rfl, rfl, rfl⟩).1 [] rfl).2 ?_
  rintro ⟨_ | _ | _ | i, d, hd, hop, -⟩ <;> cases hd <;> cases hop

/-- A jump into the immediate of a push is accepted if a destination is behind the push. -/
theorem jump_into_push_is_accepted : Engine.passes ((ofOperands [1]).perform .jump) (Session.ofCodes ["60015b56"])
    (fun o _ => match o with
      | .states [g'] => g'.machine.pc == 1
      | _ => false) = true := by
  decide +kernel

end GState

/-! ## Subroutines -/

namespace Step

section

variable (hlists : g.Lists s instrs) (hst : g.machine.stack = .expr e :: st) (he : e.Equals a)
include hlists hst he

/-- A subroutine is entered at the place that has the number of its address. -/
lemma jumpSub_does (σ : Valuation) {i : Nat} {d : Instr} (hl : Instr.landing instrs a.toNat = some (i, d))
    (hd : d.opcode = .beginsub) (hroom : g.machine.returns.length < 1024) : Does jumpSub g s (fun eff g' =>
      eff = .next ∧ ∃ r, r.IsWord σ (BitVec.ofInt 256 (g.machine.pc + 1)) ∧ g' = { g with machine :=
        { g.machine with stack := st, returns := r :: g.machine.returns, pc := a.toNat } }) := by
  refine .pop hst (.given (Item.number?_gives he) ?_)
  rintro _ s1 hs1 rfl
  refine .step (destination_run (g := g.withStack st) (hlists.grow hs1) a.toNat) ?_
  simp only [hl, hd]
  have hlim : ¬ (g.withStack st).machine.returns.length ≥ Stack.limit := Nat.not_le.2 hroom
  refine (Does.onMachine (P := fun _ m => ∃ r, Item.IsWord σ r (BitVec.ofInt 256 (g.machine.pc + 1)) ∧ m =
    { g.machine with stack := st, returns := r :: g.machine.returns, pc := a.toNat }) ?_).bind ?_
  · simp only [Stack.push, hlim, bind_assoc]
    exact (Stack.toWord_gives (σ := σ) (i := .int _) ⟨_, rfl, rfl⟩).bind fun r hr => .pure ⟨r, hr, rfl⟩
  · rintro _ _ s4 _ ⟨_, rfl, r, hr, rfl⟩
    exact .pure ⟨rfl, r, hr, rfl⟩

lemma jumpSub_fails (hno : ∀ i d, Instr.landing instrs a.toNat = some (i, d) → d.opcode ≠ .beginsub) :
    Fails jumpSub g s (fun f => ((∃ d ∈ instrs, a.toNat ≤ d.address) → ∃ text, f = .vm .general text) ∧
      ((∀ d ∈ instrs, d.address < a.toNat) → f = Fault.wrongSort)) := by
  obtain ⟨_, s1, hnumber, hs1, rfl⟩ := Engine.Does.calc (Item.number?_gives he)
  refine .step (pop_run hst) (.step (lift_ok hnumber) ?_)
  refine .step (destination_run (g := g.withStack st) (hlists.grow hs1) a.toNat) ?_
  cases hl : Instr.landing instrs a.toNat with
  | none => exact .throw ⟨fun ⟨d, hd, hle⟩ => absurd hl (Instr.landing_ne_none hd (Int.ofNat_le.2 hle)), fun _ => rfl⟩
  | some p =>
    obtain ⟨hmem, hle, -⟩ := Instr.landing_eq_some_iff.1 hl
    have hd := beq_false_of_ne (hno p.1 p.2 hl)
    simp only [hd]
    refine ⟨_, _, rfl, fun _ => ⟨_, rfl⟩, fun hless => ?_⟩
    have := hless p.2 (List.mem_of_getElem? hmem)
    omega

end

end Step

/-- A subroutine is never left, and it is entered behind the instruction whose place has the number of its address, not
behind its beginning. It is entered from inside of the instruction right before its beginning as well; behind the last
instruction the attempt is no fault of the machine. -/
theorem GState.subroutines_enter_at_wrong_place (hcode : Instr.ofCode code = .ok instrs) (hlists : g.Lists s instrs)
    (hsound : g.machine.Sound) :
    (∀ (e : Expr) (a : Word) (st : Stack), g.machine.stack = .expr e :: st → e.Equals a →
      (Instr.Heads .beginsub instrs a.toNat → g.machine.returns.length < 1024 →
        Step.jumpSub.Does g s (fun eff g' => eff = .next ∧ ∃ r, r.IsWord σ (BitVec.ofInt 256 (g.machine.pc + 1)) ∧
          g' = { g with machine := { g.machine with stack := st, returns := r :: g.machine.returns, pc := a.toNat } }) ∧
        ∀ o s', g.perform .jumpsub s = .ok o s' → ∃ g', o = .states [g'] ∧ g'.machine.pc = a.toNat + 1) ∧
      (¬ Instr.Heads .beginsub instrs a.toNat → ∃ f s', g.perform .jumpsub s = .error f s' ∧
        ((∃ d ∈ instrs, a.toNat ≤ d.address) → ∃ text, f = .vm .general text) ∧
        ((∀ d ∈ instrs, d.address < a.toNat) → f = Fault.wrongSort))) ∧
    ∀ o s', g.perform .returnsub s ≠ .ok o s' := by
  obtain ⟨g₁, s₁, hcopy, hs, hg₁, -⟩ := copy_does hsound false
  have hmachine := hg₁.machine.of_sound hsound
  have hlists₁ := (hg₁.lists hlists).grow hs
  refine ⟨fun e a st hst he => ?_, fun o s' h => ?_⟩
  · have hst₁ := (hsound.copy hg₁.machine).2.trans hst
    rw [← Instr.heads_iff hcode]
    refine ⟨fun ⟨i, d, hl, hd⟩ hroom => ⟨Step.jumpSub_does hlists hst he σ hl hd hroom, fun o s' h => ?_⟩, fun hno => ?_⟩
    · obtain ⟨_, g₂, s₂, hrun, -, rfl, r, -, rfl⟩ := Step.jumpSub_does hlists₁ hst₁ he σ hl hd (by rw [hmachine]; exact hroom)
      have hsettle : g.perform .jumpsub s = _ := (Engine.bind_ok hcopy).trans (Engine.bind_ok hrun)
      obtain ⟨-, gs, rfl, hlength, hgs⟩ := (settle_yields true true [_] s₂).ok (hsettle.symm.trans h)
      obtain ⟨g', rfl⟩ := List.length_eq_one_iff.1 hlength
      obtain ⟨_, hmem, g₃, ⟨op, hop⟩, rfl⟩ := hgs g' (by simp)
      obtain rfl := List.mem_singleton.1 hmem
      refine ⟨_, rfl, ?_⟩
      show g₃.machine.pc + 1 = _
      rw [hop.booked]
      rfl
    · obtain ⟨f, s₂, hrun, hf⟩ := Step.jumpSub_fails hlists₁ hst₁ he fun i d hl hd => hno ⟨i, d, hl, hd⟩
      exact ⟨f, s₂, (Engine.bind_ok hcopy).trans (Engine.bind_error hrun), hf⟩
  · have hrun : ∃ f s₂, Step.returnSub g₁ s₁ = .error f s₂ := by
      cases hreturns : g₁.machine.returns with
      | nil =>
        refine ⟨Stack.popFault, s₁, (Step.bind_ok (x := .machine) rfl).trans ?_⟩
        rw [hreturns]
        rfl
      | cons i rest => exact ⟨_, s₁, Step.returnSub_leaks_fault hreturns⟩
    obtain ⟨f, s₂, hrun⟩ := hrun
    have herror : g.perform .returnsub s = .error f s₂ := (Engine.bind_ok hcopy).trans (Engine.bind_error hrun)
    cases herror.symm.trans h

/-- A subroutine that begins at address 3 goes on at place 4. -/
theorem GState.subroutine_at_three : ∃ o s', (ofOperands [3]).perform .jumpsub (Session.ofCodes ["5e60005c5d00"]) = .ok o s' ∧
    ∃ g', o = .states [g'] ∧ g'.machine.pc = 4 := by
  have hcode : Instr.ofCode (.hex "5e60005c5d00") = .ok [⟨0, .jumpsub, none⟩, ⟨1, .push 1, some (.hex "0x00")⟩,
      ⟨3, .beginsub, none⟩, ⟨4, .returnsub, none⟩, ⟨5, .stop, none⟩] := by with_unfolding_all rfl
  have hentry := ((subroutines_enter_at_wrong_place (σ := default) (g := ofOperands [3]) (s := .ofCodes ["5e60005c5d00"])
    hcode ⟨_, rfl, by with_unfolding_all rfl⟩ (ofOperands_sound (by decide))).1 (.literal 3) 3 [] rfl ⟨rfl, rfl, rfl, rfl⟩).1
  obtain ⟨o, s', hrun, -⟩ : ∃ o s', (ofOperands [3]).perform .jumpsub (.ofCodes ["5e60005c5d00"]) = .ok o s' ∧ True := by
    decide +kernel
  exact ⟨o, s', hrun, (hentry ⟨2, _, rfl, rfl, .inl rfl⟩ (by decide)).2 o s' hrun⟩

/-- It does go on there, and misses the instruction behind its beginning, which is at place 3. -/
theorem GState.subroutine_misses_start : (ofOperands [3]).performs .jumpsub (Session.ofCodes ["5e60005c5d00"]) (fun o => match o with
      | .states [g'] => g'.machine.pc == 4
      | _ => false) = true := by
  decide +kernel

end EvmAudit
