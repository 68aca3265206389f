import EvmAudit.Proofs.TypedRuns

/-!
# Calls and returns

A caller that is called back goes on behind its call, in its own frames, with one word in place of the operands of an
instruction. That instruction is looked up in the program of the caller only then. It is the call, unless a constructor
has assigned that program another code in the meantime.
-/

namespace EvmAudit

variable {g c : GState} {s s' : Session} {i : Instr} {k : CallKind} {n : Nat} {p : ProgramId} {q : Program}
  {K : GState → Session → Prop}

/-- How many operands an instruction has, if it waits for another frame. -/
def Opcode.awaited : Opcode → Option Nat
  | .call | .callcode => some 7
  | .delegatecall | .staticcall => some 6
  | .create => some 3
  | .create2 => some 4
  | _ => none

lemma CallKind.awaited_opcode (k : CallKind) : k.opcode.awaited = some k.arity := by
  cases k <;> rfl

def Machine.Trades (n : Nat) (m m' : Machine) : Prop :=
  ∃ (operands rest : Stack) (word : Expr), m.stack = operands ++ rest ∧ operands.length = n ∧ word.IsBits 256 ∧
    m'.stack = .expr word :: rest

/-- The state goes on behind an instruction of a caller, with one word in place of so many operands. -/
structure GState.Resumed (n : Nat) (caller g : GState) : Prop where
  frames : g.frames = caller.frames
  pc : g.machine.pc = caller.machine.pc + 1
  stack : caller.machine.Trades n g.machine

/-! ## Finishing an instruction -/

namespace Step

variable {g' : GState}

lemma outRange_room {r : Item × Item} (h : outRange k g s = .ok (r, g') s') : k.arity ≤ g.machine.stack.length := by
  obtain ⟨m, g1, s₁, hm, h⟩ := of_bind_ok h
  cases hm
  dsimp only at h
  cases hsize : g.machine.stack[k.arity - 1]? with
  | none =>
    rw [hsize] at h
    cases hstart : g.machine.stack[k.arity - 2]? with
    | none | some =>
      rw [hstart] at h
      cases h
  | some size =>
    have hlt := (getElem?_eq_some_iff.1 hsize).1
    omega

lemma finishCall_room {e : Effect} (h : finishCall k g s = .ok (e, g') s') : k.arity ≤ g.machine.stack.length := by
  obtain ⟨r, g1, s₁, hrange, -⟩ := of_bind_ok h
  exact outRange_room hrange

lemma finishCall_trades (k : CallKind) (hi : g.due s = some i) : (finishCall k).Yields g s fun e g' =>
    e = .next ∧ g.machine.Trades k.arity g'.machine := by
  refine ((finishCall_yields k hi).and fun _ _ _ h => finishCall_room h).mono ?_
  rintro e g' ⟨⟨he, found, hfinished, -⟩, hroom⟩
  obtain ⟨word, hword, hstack⟩ := hfinished.stack
  refine ⟨he, g.machine.stack.take k.arity, _, word, (List.take_append_drop _ _).symm, ?_, ?_, hstack⟩
  · rw [List.length_take]
    omega
  · exact .of_term hword ⟨rfl, rfl⟩

lemma leave_trades {rest operands : Stack} {word : Expr} (hword : word.IsBits 256)
    (hstack : g.machine.stack = operands ++ rest) (hn : operands.length = n) (s : Session) :
    (leave word).Yields (g.withStack rest) s fun e g' => e = .next ∧ g.machine.Trades n g'.machine := by
  refine (pushExpr_yields hword.not_isProp).bind ?_
  rintro _ _ s₁ _ rfl
  exact .pure ⟨rfl, operands, rest, word, hstack, hn, hword, rfl⟩

lemma finishCreate_trades (hn : 0 < n) : (finishCreate n).Yields g s fun e g' =>
    e = .next ∧ g.machine.Trades n g'.machine := by
  refine (take_yields n hn).bind ?_
  rintro operands _ s₁ _ ⟨hlength, rest, hstack, rfl⟩
  refine .get ?_
  split
  · exact .given (Expr.word_isBits 0) fun word s₃ _ hword => leave_trades hword hstack hlength s₃
  · exact .throw _
  · split
    · exact .given (Expr.ofInt_isBits _ 256) fun word s₃ _ hword => leave_trades hword hstack hlength s₃
    · exact .throw _

end Step

lemma GState.run_trades {step : Step Effect} (hsound : c.machine.Sound)
    (h : ∀ c1 s₁, s.Grows s₁ → c.CopyOf c1 → step.Yields c1 s₁ fun e g => e = .next ∧ c1.machine.Trades n g.machine) :
    (c.run step true true).Yields s fun o => ∀ gs, o = .states gs → ∀ g ∈ gs, c.machine.Trades n g.machine := by
  refine (run_leads (P := fun e g => e = .next ∧ c.machine.Trades n g.machine) ?_ true true).mono ?_
  · intro c1 s₁ hs1 hcopy _ _
    have hstack := (hsound.copy hcopy.machine).2
    refine (h c1 s₁ hs1 hcopy).mono ?_
    rintro e g ⟨he, htrades⟩
    unfold Machine.Trades at htrades
    rw [hstack] at htrades
    exact ⟨he, htrades⟩
  · rintro o ⟨_, g', ⟨rfl, htrades⟩, gs', rfl, -, hgs'⟩ _ ⟨⟩ g hg
    -- booking the cost and moving on leave the operands alone
    obtain ⟨g1, hg1, hsettles⟩ := hgs' g hg
    obtain rfl := List.mem_singleton.1 hg1
    obtain ⟨_, _, _, rfl⟩ := hsettles.rest
    exact htrades

/-- Finishing the instruction that is due trades its operands for a word. Only instructions that wait can be finished. -/
lemma GState.finish_trades (hsound : c.machine.Sound) (hi : c.due s = some i) :
    (c.finish i.opcode).Yields s fun o => ∃ n, i.opcode.awaited = some n ∧
      ∀ gs, o = .states gs → ∀ g ∈ gs, c.machine.Trades n g.machine := by
  have hcall k : (c.run (.finishCall k) true true).Yields s fun o =>
      ∃ n, k.opcode.awaited = some n ∧ ∀ gs, o = .states gs → ∀ g ∈ gs, c.machine.Trades n g.machine := by
    refine (run_trades hsound fun c1 s₁ hs1 hcopy => ?_).mono fun o ho => ⟨k.arity, k.awaited_opcode, ho⟩
    exact Step.finishCall_trades k (due_of_programs (hcopy.due.trans hi) hs1.programs)
  have hcreate {n} (hn : 0 < n) : (c.run (.finishCreate n) true true).Yields s fun o =>
      ∃ m, some n = some m ∧ ∀ gs, o = .states gs → ∀ g ∈ gs, c.machine.Trades m g.machine :=
    (run_trades hsound fun c1 s₁ _ _ => Step.finishCreate_trades hn).mono fun o ho => ⟨n, rfl, ho⟩
  cases i.opcode with
  | call => exact hcall .call
  | callcode => exact hcall .callcode
  | delegatecall => exact hcall .delegatecall
  | staticcall => exact hcall .staticcall
  | create => exact hcreate (show 0 < 3 by decide)
  | create2 => exact hcreate (show 0 < 4 by decide)
  -- the others have nothing to wait for
  | _ => exact .throw _

/-- The state does not end the creation of an account with this program. -/
def GState.Preserves (p : ProgramId) (g : GState) (s : Session) : Prop :=
  g.EndsCreation s → ∃ a, g.world.find? g.env.active = some a ∧ a.code ≠ p

namespace Explore

variable {caller c' start last g : GState} {k : CallKind} {s s₁ s₂ s₃ : Session}

lemma resume_trades (hsound : c.machine.Sound) (node : Option Nat) (s : Session) :
    (resume c node).Yields s fun gs => ∀ g ∈ gs, ∃ i n, c.due s = some i ∧ i.opcode.awaited = some n ∧
      c.machine.Trades n g.machine := by
  refine resume_of_finish fun i s₁ hi hs1 => ?_
  refine (GState.finish_trades hsound (GState.due_of_programs hi hs1.programs)).mono ?_
  rintro _ ⟨n, hn, hgs⟩ gs rfl g hg
  exact ⟨i, n, hi, hn, hgs gs rfl g hg⟩

/-- The states that a caller is called back in follow the instruction that is due there now. -/
lemma resume_resumed (hsound : c.machine.Sound) (node : Option Nat) (s : Session) :
    (resume c node).Yields s fun gs => ∀ g ∈ gs, ∃ i n, c.due s = some i ∧ i.opcode.awaited = some n ∧
      c.Resumed n g := by
  refine ((resume_trades hsound node s).and (resume_within c node true nofun)).mono ?_
  rintro gs ⟨htrades, hwithin⟩ g hg
  obtain ⟨i, n, hi, hn, hstack⟩ := htrades g hg
  exact ⟨i, n, hi, hn, (hwithin g hg).stays.frames, (hwithin g hg).pc rfl, hstack⟩

lemma Recalls.machine (h : Recalls c last c') (hsound : c.machine.Sound) :
    c'.machine.Sound ∧ c'.machine.stack = c.machine.stack ∧ c'.machine.pc = c.machine.pc := by
  cases h with
  | fails => exact ⟨hsound, rfl, rfl⟩
  | hands h =>
    obtain ⟨m, hcopy, hm⟩ := h.paid
    have ⟨hm', hstack⟩ := hsound.copy hcopy
    have hpc : m.pc = c.machine.pc := by
      obtain ⟨_, _, rfl, -⟩ := hcopy
      rfl
    -- the gas of a creation is booked in the copy
    rcases hm with hm | hm
    · rw [hm]
      exact ⟨hm', hstack, hpc⟩
    · rw [hm]
      exact ⟨{ hm' with }, hstack, hpc⟩

/-- One step: a state with fewer frames than the one before it follows the instruction that is due in the caller of that
frame. -/
lemma execute_resumed {r : GState.Executed} (hbacks : s.Backs last.frames) (hr : execute {} last s = .ok r s')
    (hg : g ∈ r.successors) (hback : g.frames.length < last.frames.length) : ∃ tx n c,
      last.frames = ⟨tx, some n⟩ :: c.frames ∧ s.shared.suspended[n]? = some c ∧
      (c.machine.Sound → ∃ i m, c.due s' = some i ∧ i.opcode.awaited = some m ∧ c.Resumed m g) := by
  cases execute_succeeds hbacks hr g hg with
  | goesOn hperforms hg =>
    rw [(performs_passes hperforms hg).stays.frames] at hback
    omega
  | starts hperforms hstart =>
    rw [(startFrame_run hstart).1, List.length_cons] at hback
    omega
  | @returns tx n c c' gs s₁ hframes hc hrecalls _ hresume hg =>
    refine ⟨tx, n, c, hframes, hc, fun hsound => ?_⟩
    obtain ⟨hsound', hstack, hpc⟩ := hrecalls.machine hsound
    obtain ⟨hs', hresumed⟩ := (resume_resumed hsound' last.node s₁).ok hresume
    obtain ⟨i, m, hi, hm, hg⟩ := hresumed g hg
    refine ⟨i, m, ?_, hm, hg.frames.trans hrecalls.frames, by rw [hg.pc, hpc], ?_⟩
    · rw [← GState.due_congr hrecalls.env hpc]
      exact GState.due_of_programs hi hs'.programs
    · unfold Machine.Trades
      rw [← hstack]
      exact hg.stack

lemma execute_preserves (h : g.Preserves p s) (hq : s.code.programs[p]? = some q) :
    ((execute {} g).after s).code.programs[p]? = some q := by
  obtain ⟨s₁, worlds, hs1, hturns⟩ := execute_turns g s
  have hq1 : s₁.code.programs[p]? = some q := by
    rcases hs1 with rfl | ⟨i, hi, -, rfl⟩
    · exact hq
    by_cases hends : g.IsCreation ∧ i.opcode.returnsData = true
    · -- the data go to the program of the account, whether or not it takes them
      obtain ⟨a, ha, hp⟩ := h ⟨hends.1, i, hi, hends.2⟩
      exact GState.perform_others hends.1 hends.2 ha hp.symm hq
    · exact ((g.perform_mild i.opcode).goes s).programs hends hq
  have hevolves : s₁.Evolves False _ := hturns.evolves
  exact hevolves.programs id hq1

lemma Works.preserves (h : Works K s s') (hK : ∀ g s, K g s → g.Preserves p s) (hq : s.code.programs[p]? = some q) :
    s'.code.programs[p]? = some q := by
  induction h with
  | start => exact hq
  | idle _ hs ih => exact hs.programs id ih
  | execute _ hg ih => exact execute_preserves (hK _ _ hg) ih

/-! ## From the call to the return -/

/-- Whatever has been executed since a call of a run, and however its frame ends: a state that goes on in the caller has the
frames of the caller, is at the next place, and has one word in place of the operands of the instruction that is due in
the caller now. These are the operands of the call, seven with a value and six without, unless a constructor has given
the caller's program another code. -/
theorem calls_return_one_word {K₀ K : GState → Session → Prop} {gs : List GState} {s₀ : Session} {r : GState.Executed}
    (h₀ : s₀.shared.suspended = #[]) (hcode : ∀ p ∈ s₀.code.programs, p.Typed)
    (hrun : Run (fun tx w => tx.Typed ∧ w.Typed) K₀ s₀ gs s) (hcaller : caller ∈ gs)
    (hstart : Starts caller k s start s₁) (hworks : Works K s₁ s₂) (hlast : last.frames = start.frames)
    (hr : execute {} last s₂ = .ok r s₃) (hg : g ∈ r.successors) (hback : g.frames.length < last.frames.length) :
    (∃ i n, caller.due s₃ = some i ∧ i.opcode.awaited = some n ∧ caller.Resumed n g) ∧
    ((∀ g s, K g s → g.Preserves caller.env.code s) → caller.Resumed (if k.hasValue then 7 else 6) g) := by
  have hs₀ : s₀.Typed := ⟨hcode, by simp [h₀]⟩
  have hsound := ((hrun.typed h₀ hs₀).2 caller hcaller).machine.sound
  obtain ⟨tx, n, hkind, hframes, hsuspended, hs₁⟩ := hstart.frame
  -- the caller waits as it is, but for conditions, notes and what was returned to it
  obtain ⟨_, hc, _, _, _, rfl⟩ := hworks.evolves.suspended hsuspended
  have hbacks : s₂.Backs last.frames := by
    rw [hlast, hframes]
    rintro _ _ _ ⟨⟩
    exact ⟨_, hc, rfl⟩
  -- the number of the frame leads back to that very caller
  obtain ⟨_, _, c, hframes', hc', hresumed⟩ := execute_resumed hbacks hr hg hback
  rw [hlast, hframes] at hframes'
  obtain ⟨⟨⟨⟩⟩, -⟩ := List.cons_eq_cons.1 hframes'
  cases hc'.symm.trans hc
  obtain ⟨i, m, hi, hm, hg⟩ := hresumed hsound
  have hg : caller.Resumed m g := ⟨hg.frames, hg.pc, hg.stack⟩
  refine ⟨⟨i, m, hi, hm, hg⟩, fun hK => ?_⟩
  -- its program is still that of the call, so the instruction is the call
  obtain ⟨_, _, _, hperforms⟩ := hstart.call
  obtain ⟨j, hj, hop⟩ := hperforms.isAt
  have hcreation := GState.not_isCreation (hlast.trans hframes) hkind
  have hj : caller.due s₃ = some j := by
    refine GState.due_of_programs hj fun hq => ?_
    rw [← Engine.after_ok hr]
    exact execute_preserves (fun hends => absurd hends.1 hcreation) (hworks.preserves hK (hs₁ hq))
  cases hi.symm.trans hj
  rw [hop, k.awaited_opcode] at hm
  cases hm
  exact hg

/-- The account at 256 calls the one at 512, over a word that it keeps on the stack. -/
def callOverWord : String := "600760008080808061020061fffff1"

theorem call_over_word_returns : ∃ gs caller start r s s₁ s₃,
    Run (fun tx w => tx.Typed ∧ w.Typed) (fun _ _ => True) (.ofCodes [callOverWord, "00"]) gs s ∧ caller ∈ gs ∧
    Starts caller .call s start s₁ ∧ execute {} start s₁ = .ok r s₃ ∧ r.successors.length = 1 ∧
    ∀ g ∈ r.successors, caller.Resumed 7 g := by
  obtain ⟨gs, caller, s, hrun, hcaller, start, s₁, hstart, r, s₃, hr, g, hsuccessors, hback⟩ :=
    exists_typed_run [callOverWord, "00"] 8 (T := fun caller s => ∃ start s₁, Starts caller .call s start s₁ ∧
      LeadsTo start s₁ fun g _ => g.frames.length < start.frames.length) (by decide +kernel)
  have hcode : ∀ p ∈ (Session.ofCodes [callOverWord, "00"]).code.programs, p.Typed := ofCodes_typed (by decide +kernel)
  refine ⟨gs, caller, start, r, s, s₁, s₃, hrun, hcaller, hstart, hr, by rw [hsuccessors]; rfl, fun g' hg' => ?_⟩
  obtain rfl : g' = g := List.mem_singleton.1 (hsuccessors ▸ hg')
  exact (calls_return_one_word rfl hcode hrun hcaller hstart .start rfl hr hg' hback).2 fun _ _ => False.elim

/-- The creation of the account at 256 again, with a program of the session as its constructor. -/
def plainCreation : Tx := { plainMessage with kind := .creation, code := some 2 }

/-- The constructor returns the same code, but for a static call in place of the call. -/
def staticCallMaker : String := "6e600760008080808061020061fffffa600052600f6011f3"

lemma Works.leadsOn {T : GState → Session → Prop} {m : Nat} (h : Works (fun _ _ => True) s s')
    (hleads : LeadsOn T m g s') : ∃ g' s'', Works (fun _ _ => True) s s'' ∧ T g' s'' := by
  induction m generalizing g s' with
  | zero => exact ⟨g, s', h, hleads⟩
  | succ m ih =>
    obtain ⟨r, s₁, hr, g1, -, hleads⟩ := hleads
    refine ih ?_ hleads
    rw [← Engine.after_ok hr]
    exact h.execute trivial

-- an instance is as large as the run that it decides
set_option synthInstance.maxSize 512

/-- While the account at 256 waits for the one at 512, a constructor returns another code for it. The caller goes on with
one operand of its call left on the stack. -/
theorem caller_keeps_operand : ∃ gs caller start g r s s₁ s₂ s₃,
    Run (fun tx w => tx.Typed ∧ w.Typed) (fun _ _ => True) (.ofCodes [callOverWord, "00", staticCallMaker]) gs s ∧
    caller ∈ gs ∧ Starts caller .call s start s₁ ∧ Works (fun _ _ => True) s₁ s₂ ∧
    execute {} start s₂ = .ok r s₃ ∧ g ∈ r.successors ∧ g.frames.length < start.frames.length ∧
    ¬ caller.Resumed 7 g := by
  obtain ⟨gs, caller, s, hrun, hcaller, start, s₁, hstart, maker, s₂, hmaker, hmakes⟩ :=
    exists_typed_run [callOverWord, "00", staticCallMaker] 8 (T := fun caller s =>
      ∃ start s₁, Starts caller .call s start s₁ ∧
        ∃ maker s₂, plainCreation.start (GState.ofOperands []).world s₁ = .ok maker s₂ ∧
          LeadsOn (fun maker s₂ => LeadsTo start ((execute {} maker).after s₂) fun g _ =>
            g.frames.length < start.frames.length ∧ g.machine.stack.length = 3 ∧ caller.machine.stack.length = 8)
            5 { maker with frames := [⟨plainCreation, none⟩] } s₂) (by decide +kernel)
  have hopened : Works (fun _ _ => True) s₁ s₂ := Works.start.idle (.of_grows ((Tx.start_yields _ _ s₁).ok hmaker).1)
  obtain ⟨maker, s₂, hworks, r, s₃, hr, g, hsuccessors, hback, hthree, hcallers⟩ := hopened.leadsOn hmakes
  refine ⟨gs, caller, start, g, r, s, s₁, _, s₃, hrun, hcaller, hstart, hworks.execute trivial, hr, ?_, hback, ?_⟩
  · rw [hsuccessors]
    exact List.mem_singleton_self g
  intro hresumed
  obtain ⟨operands, rest, word, hstack, hseven, -, hg⟩ := hresumed.stack
  rw [hg, List.length_cons] at hthree
  rw [hstack, List.length_append] at hcallers
  omega

end Explore
end EvmAudit
