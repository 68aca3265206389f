import EvmAudit.Proofs.TypedRuns

/-!
# Faults that end the analysis

A fault that is not one of the machine ends the whole analysis. Two instructions let one out whatever the code is: the
balance of an account that the world does not have is asked from a node even when there is none, and the place that a
subroutine returns to is never usable.
-/

namespace EvmAudit

variable {e : Expr} {g : GState} {gs : List GState} {s s₀ : Session} {rest : Stack} {op : Opcode} {f : Fault}

/-- There is nobody to ask for an account. -/
def World.noLoader : Fault := .failure .malformed "dynamic_loader is None"

lemma World.findOrLoad_nobody (hs : s.loader.isNone = true) {w : World} {v : Nat}
    (hfind : w.find? (some (v % 2 ^ 256)) = none) : (w.findOrLoad (.int v)).Does s (· = (w, .error noLoader)) := by
  refine .given (Expr.ofInt_equals v 256) fun word s1 hs1 hword => .given hword.value?_gives ?_
  rintro _ s2 hs2 rfl
  have hkey : (BitVec.ofInt 256 v).toNat = v % 2 ^ 256 := rfl
  rw [hkey, hfind]
  refine .get ?_
  rw [if_pos ((hs1.trans hs2).loader.trans hs)]
  exact .pure rfl

/-- The instruction lets a fault out of the analysis: there is no node to ask for the account that is on top, or there is
a place to return to. -/
inductive GState.LeaksFault (g : GState) : Opcode → Fault → Prop
  | balance {e : Expr} {rest : Stack} {n : Nat} (stack : g.machine.stack = .expr e :: rest)
    (value : e.term.evaluate .empty = .ok (some n)) (nobody : g.world.find? (some (n % 2 ^ 256)) = none) :
    g.LeaksFault .balance World.noLoader
  | returnsub {i : Item} {rest : Stack} (returns : g.machine.returns = i :: rest) :
    g.LeaksFault .returnsub Fault.wrongSort

lemma Step.balance_leaks_fault {n : Nat} (he : e.IsBits 256) (hs : s.loader.isNone = true)
    (hst : g.machine.stack = .expr e :: rest) (hvalue : e.term.evaluate .empty = .ok (some n))
    (hfind : g.world.find? (some (n % 2 ^ 256)) = none) : ∃ s', balance g s = .error World.noLoader s' := by
  obtain ⟨hroom, hn⟩ := Term.evaluate_eq_ok.1 hvalue
  obtain ⟨r, s2, hvalue, hs2, hr⟩ := Engine.Does.calc (Expr.value?_reads hroom he.not_isProp)
  obtain ⟨v, rfl, hv⟩ : ∃ v, r = some v ∧ v % 2 ^ 256 = n % 2 ^ 256 := by
    rw [hn, he.width_eq] at hr
    rcases hr with rfl | rfl
    · exact ⟨n, rfl, rfl⟩
    · exact ⟨n % 2 ^ 256, rfl, Nat.mod_mod n _⟩
  rw [← hv] at hfind
  obtain ⟨_, s3, hfound, -, rfl⟩ := World.findOrLoad_nobody (hs2.loader.trans hs) hfind
  have haccount : account v (g.withStack rest) s2 = .ok (.error World.noLoader, g.withStack rest) s3 :=
    (bind_ok rfl).trans (bind_ok (lift_ok hfound))
  exact ⟨s3, (bind_ok (pop_run hst)).trans ((bind_ok rfl).trans
    ((bind_ok (lift_ok hvalue)).trans (bind_ok haccount)))⟩

lemma Step.returnSub_leaks_fault {i : Item} (h : g.machine.returns = i :: rest) :
    returnSub g s = .error .wrongSort s := by
  have hpop : (liftM (g.machine.returns.pop) : Step (Item × Stack)) g s = .ok ((i, rest), g) s := by
    rw [h]
    rfl
  exact (bind_ok rfl).trans (bind_ok hpop)

namespace GState

variable {g1 : GState}

lemma LeaksFault.copy (h : g.LeaksFault op f) (hg : g.Typed) (hcopy : g.CopyOf g1)
    (hactive : (g.world.find? g.env.active).isSome = true) : g1.LeaksFault op f := by
  have hmachine := hcopy.machine.of_sound hg.machine.sound
  cases h with
  | @balance e rest n hst hn hfind =>
    refine .balance (by rw [hmachine]; exact hst) hn ?_
    obtain ⟨w, hw, hsame | ⟨hnone, -⟩⟩ := hcopy.world
    · rw [hsame]
      exact (none_iff_of_rel (hw.find? _)).2 hfind
    · rw [hnone] at hactive
      cases hactive
  | returnsub hreturns => exact .returnsub (by rw [hmachine]; exact hreturns)

lemma LeaksFault.perform (h : g.LeaksFault op f) (hg : g.Typed) (hs : s.loader.isNone = true)
    (hactive : (g.world.find? g.env.active).isSome = true) : ∃ s', g.perform op s = .error f s' := by
  obtain ⟨g1, s1, hrun, hgrows, hcopy, -⟩ := copy_does hg.machine.sound false
  have hg1 := ((hg.copy false s).ok hrun).2
  obtain ⟨s', hstep⟩ : ∃ s', op.effectOf g1 s1 = .error f s' := by
    cases h.copy hg hcopy hactive with
    | balance hst hn hfind =>
      have he : Expr.IsBits 256 _ := hg1.machine.stack (.expr _) (by rw [hst]; exact List.mem_cons_self)
      exact Step.balance_leaks_fault he (hgrows.loader.trans hs) hst hn hfind
    | returnsub hreturns => exact ⟨s1, Step.returnSub_leaks_fault hreturns⟩
  have hmutates : op.mutates = false := by cases h <;> rfl
  refine ⟨s', ?_⟩
  unfold GState.perform
  rw [hmutates]
  exact (Engine.bind_ok hrun).trans (Engine.bind_error hstep)

end GState

/-- In every run of messages in a session without a node: where the balance of an account is asked for that is not there,
or where a subroutine would return, the fault that the instruction lets out ends the analysis, and it does not say that
something is unsupported. -/
theorem Explore.leaked_fault_ends_the_analysis (h₀ : s₀.shared.suspended = #[]) (hcode : ∀ p ∈ s₀.code.programs, p.Typed)
    (h : Run (fun tx w => tx.Typed ∧ w.Typed) (fun _ _ => True) s₀ gs s) (hloader : s.loader.isNone = true) (hg : g ∈ gs)
    (hat : g.IsAt op s) (hactive : (g.world.find? g.env.active).isSome = true) (hf : g.LeaksFault op f) :
    (∃ s', execute {} g s = .error f s') ∧ f.cause? ≠ some .unsupported := by
  obtain ⟨hs, htyped⟩ := h.typed h₀ ⟨hcode, by simp [h₀]⟩
  obtain ⟨s', hrun⟩ := hf.perform (htyped g hg) hloader hactive
  have hroom : op.needs ≤ g.machine.stack.length := by
    cases hf with
    | balance hst =>
      rw [hst]
      exact Nat.le_add_left 1 _
    | returnsub => exact Nat.zero_le _
  refine ⟨⟨s', execute_stops ⟨hat, hroom, hrun, ?_⟩⟩, by cases hf <;> decide⟩
  cases hf <;> nofun

theorem Explore.return_from_a_subroutine : ∃ gs g s, Run (fun tx w => tx.Typed ∧ w.Typed) (fun _ _ => True)
    (.ofCodes ["60045e005c5d5d", ""]) gs s ∧ g ∈ gs ∧ g.IsAt .returnsub s ∧
    ∃ s', execute {} g s = .error .wrongSort s' := by
  obtain ⟨gs, g, s, hrun, hg, hat, hloader, hactive, hused⟩ := exists_typed_run ["60045e005c5d5d", ""] 2
    (T := fun g s => g.IsAt .returnsub s ∧ s.loader.isNone ∧ (g.world.find? g.env.active).isSome ∧
      !g.machine.returns.isEmpty) (by decide +kernel)
  obtain ⟨i, rest, hreturns⟩ : ∃ i rest, g.machine.returns = i :: rest :=
    List.exists_cons_of_ne_nil fun hnil => by simp [hnil] at hused
  have hcode : ∀ p ∈ (Session.ofCodes ["60045e005c5d5d", ""]).code.programs, p.Typed := ofCodes_typed (by decide +kernel)
  exact ⟨gs, g, s, hrun, hg, hat, (leaked_fault_ends_the_analysis rfl hcode hrun hloader hg hat hactive (.returnsub hreturns)).1⟩

theorem Explore.balance_of_nobody_ends_the_analysis : ∃ gs g s f s',
    Run (fun tx w => tx.Typed ∧ w.Typed) (fun _ _ => True) (.ofCodes ["600531", ""]) gs s ∧ s.loader.isNone = true ∧
    g ∈ gs ∧ g.IsAt .balance s ∧ execute {} g s = .error f s' ∧ f.isVm = false ∧ f.cause? ≠ some .unsupported := by
  obtain ⟨gs, g, s, hrun, hg, hat, hloader, _, s', hf, rfl⟩ := exists_typed_run ["600531", ""] 1 (T := fun g s =>
    g.IsAt .balance s ∧ s.loader.isNone ∧ ∃ f s', execute {} g s = .error f s' ∧ f = World.noLoader) (by decide +kernel)
  exact ⟨gs, g, s, _, s', hrun, hloader, hg, hat, hf, rfl, nofun⟩

end EvmAudit
