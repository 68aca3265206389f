import EvmAudit.Proofs.Ether
import EvmAudit.Proofs.Returns

/-!
# Self-destruction

An account that gives itself up pays what it has to another one, but is not charged for it: the payment comes out of
nowhere. In a call, what the instruction does is lost altogether: the caller goes on in the world before it, in which no
account is deleted.
-/

namespace EvmAudit

open Evm (Word)

variable {σ : Valuation} {f : Word → Word} {g : GState} {s : Session} {a b : Word} {target : Expr} {rest : Stack}
  {account : Account}

/-! ## The instruction -/

lemma Engine.copyProgram_does (id : ProgramId) : (copyProgram id).Does s fun _ => True :=
  ⟨_, _, rfl, .programs_push s s.code.selectors (program_mem s _), trivial⟩

lemma Storage.copy_succeeds (st : Storage) : st.copy.Gives fun _ => True :=
  (KeySet.copy_mirrors _).bind fun _ _ => (KeySet.copy_mirrors _).bind fun _ _ => .pure trivial

def bequeathed (f : Word → Word) (a b : Word) : Word → Word := Function.update f b (f b + f a)

lemma bequeathed_eq_iff : bequeathed f a b = f ↔ f a = 0 := by
  unfold bequeathed
  rw [Function.update_eq_self_iff, add_eq_left]

/-- The state of a frame whose account has given itself up. -/
structure GState.SelfDestructed (g : GState) (σ : Valuation) (f : Word → Word) (a b : Word) (g' : GState) : Prop where
  balances : g'.world.balances.Denotes σ (bequeathed f a b)
  deleted : ∃ account, g'.world.find? g.env.active = some account ∧ account.deleted = true

section

variable (hsound : g.machine.Sound) (hstatic : g.env.isStatic = false)
  (hstack : g.machine.stack = .expr target :: rest) (hb : target.Equals b)
  (hactive : g.world.find? g.env.active = some account) (ha : account.address.Equals a)
  (hw : g.world.balances.Denotes σ f)
include hstack hb hactive ha hw

lemma Step.selfDestruct_does : Does selfDestruct g s fun eff g' => eff = .halt none false ∧ g.SelfDestructed σ f a b g' := by
  refine .pop hstack (.given (.pure rfl) ?_)
  rintro _ s₂ _ rfl
  have haccount : (g.withStack rest).active = account := by
    show (g.world.find? g.env.active).getD default = account
    rw [hactive]
    rfl
  refine .get ?_
  rw [haccount]
  refine .given (World.balance_gives hw ha.denotes) fun amount s4 _ hamount => ?_
  refine .given (World.addBalance_gives hw hb hamount) fun w s5 _ hw' => ?_
  refine .after (Engine.copyProgram_does account.code) fun code s6 _ _ => ?_
  refine .given (account.storage.copy_succeeds) fun storage s7 _ _ => .set ?_
  exact ⟨_, _, _, halt_empty _ _ _, .refl _, rfl, hw'.1, _, World.find?_put_self _ _ _, rfl⟩

include hsound hstatic in
lemma GState.perform_selfdestruct :
    (g.perform .selfdestruct).Does s fun o => ∃ g', o = .halt g' none false ∧ g.SelfDestructed σ f a b g' := by
  unfold perform
  rw [hstatic]
  refine (copy_does hsound false).bind ?_
  rintro g1 s₁ _ ⟨hcopy, -⟩
  have hstack1 : g1.machine.stack = .expr target :: rest := by rw [hcopy.machine.of_sound hsound, hstack]
  have henv : g1.env = g.env := by rw [hcopy.rest]
  have hfound : (g.world.find? g.env.active).isSome := by rw [hactive]; rfl
  obtain ⟨account', hactive', written, read, rfl⟩ := (hcopy.world.copyOf hfound).find?_some hactive
  have hbalances := (World.Intact.of_copyFor hcopy.world).balances
  rw [← henv] at hactive'
  obtain ⟨eff, g2, s₂, hrun, hs2, rfl, hgiven⟩ := Step.selfDestruct_does hstack1 hb hactive' ha (hbalances ▸ hw)
  refine .bind ⟨_, s₂, hrun, hs2, rfl⟩ ?_
  rintro _ s₃ _ rfl
  exact .pure ⟨g2, rfl, hgiven.balances, henv ▸ hgiven.deleted⟩

end

/-- Self-destruction pays the balance of the account to the beneficiary and leaves it where it was as well. So the ether
that there is grows by that balance, and nothing but an empty account is left empty. -/
theorem selfdestruct_mints (hsound : g.machine.Sound) (hstatic : g.env.isStatic = false)
    (hstack : g.machine.stack = .expr target :: rest) (hb : target.Equals b)
    (hactive : g.world.find? g.env.active = some account) (ha : account.address.Equals a) (hne : a ≠ b)
    (hw : g.world.balances.Denotes σ f) :
    (g.perform .selfdestruct).Does s fun o => ∃ g' f', o = .halt g' none false ∧ g'.world.balances.Denotes σ f' ∧
      f' b = f b + f a ∧ (∀ x, x ≠ b → f' x = f x) ∧ total f' = total f + f a ∧
      (f' a = 0 ↔ f a = 0) ∧ (total f' = total f ↔ f a = 0) := by
  refine (GState.perform_selfdestruct hsound hstatic hstack hb hactive ha hw).mono ?_
  rintro _ ⟨g', rfl, hgiven⟩
  have hother x (hx : x ≠ b) : bequeathed f a b x = f x := Function.update_of_ne hx _ _
  have htotal : total (bequeathed f a b) = total f + f a := by
    unfold bequeathed
    rw [total_update]
    abel
  refine ⟨g', _, rfl, hgiven.balances, Function.update_self .., hother, htotal, ?_, ?_⟩
  · rw [hother a hne]
  · rw [htotal, add_eq_left]

theorem selfdestruct_mints_ten :
    ((GState.ofOperands [512]).perform .selfdestruct).Does {} fun o => ∃ g' f', o = .halt g' none false ∧
      g'.world.balances.Denotes sevenOfTen f' ∧ f' 512 = 10 + 10 ∧ (∀ x, x ≠ 512 → f' x = 10) ∧
      total f' = total (fun _ => 10) + 10 ∧ (f' 256 = 0 ↔ (10 : Word) = 0) ∧
      (total f' = total (fun _ => 10) ↔ (10 : Word) = 0) := by
  have hb : (Expr.literal 512).Equals (512 : Word) := ⟨rfl, rfl, rfl, rfl⟩
  have ha : (Account.bare 256 0).address.Equals (256 : Word) := ⟨rfl, rfl, rfl, rfl⟩
  have hw : (GState.ofOperands [512]).world.balances.Denotes sevenOfTen fun _ => 10 := ⟨rfl, fun _ => rfl⟩
  exact selfdestruct_mints (GState.ofOperands_sound (by decide)) rfl rfl hb rfl ha (by decide) hw

/-- An account that has ten still has it after it was deleted, and there is more ether than before. -/
theorem selfdestruct_leaves_ten : ∃ g' s' f', (GState.ofOperands [512]).perform .selfdestruct {} = .ok (.halt g' none false) s' ∧
    (GState.ofOperands [512]).world.balances.Denotes sevenOfTen (fun _ => 10) ∧
    g'.world.balances.Denotes sevenOfTen f' ∧ f' 256 ≠ 0 ∧ total f' ≠ total fun _ => 10 := by
  have hb : (Expr.literal 512).Equals (512 : Word) := ⟨rfl, rfl, rfl, rfl⟩
  have ha : (Account.bare 256 0).address.Equals (256 : Word) := ⟨rfl, rfl, rfl, rfl⟩
  have hw : (GState.ofOperands [512]).world.balances.Denotes sevenOfTen fun _ => 10 := ⟨rfl, fun _ => rfl⟩
  obtain ⟨_, s', hrun, -, g', rfl, hgiven⟩ :=
    GState.perform_selfdestruct (GState.ofOperands_sound (by decide)) rfl rfl hb rfl ha hw
  refine ⟨g', s', _, hrun, hw, hgiven.balances, ?_, ?_⟩
  · rw [bequeathed]
    decide
  · rw [bequeathed, total_update, Ne, add_eq_left]
    decide

/-! ## In a call -/

namespace Explore

variable {caller start last : GState} {k : CallKind} {i : Instr} {n : Nat} {s' s₀ s₁ s₂ s₃ : Session} {op : Opcode}
  {o : Outcome} {r : GState.Executed}

lemma Awaits.forgets (h : Awaits caller i n last s) (hk : i.opcode = k.opcode) (hoffline : s.loader.isNone = true)
    (hop : op.halts = true) (hrevert : op ≠ .revert) (hperforms : last.Performs op s o s₁)
    (hr : execute {} last s = .ok r s') :
    ∀ g ∈ r.successors, ∀ key account, g.world.find? key = some account → account.deleted = false := by
  intro g hg key account hkey
  obtain ⟨c, hc, -⟩ := h.suspended
  obtain ⟨-, data, c', s₂, -, hhanded, hs2, hresumes⟩ := h.halts hk hc hop hperforms hr
  obtain ⟨hcommits, -, hactive⟩ := hhanded.commits (beq_eq_false_iff_ne.2 hrevert)
  obtain ⟨c1, found, hcopy, -, hfinished, -⟩ := hresumes g hg
  obtain ⟨w, added, -, hoff, -, hworld⟩ := hfinished.world
  obtain ⟨_, hfound⟩ := Option.isSome_iff_exists.1 hactive
  obtain ⟨_, hfound', -⟩ := hcommits.find?_some hfound
  have hactive' : (c'.world.find? c'.env.active).isSome := by
    rw [hhanded.env, hfound']
    rfl
  rw [hworld, hoff (hs2.trans hoffline)] at hkey
  exact (hcopy.world.copyOf hactive').not_deleted hkey

/-- When a called account gives itself up, its caller does not notice: in every state that goes on in the caller no account
is deleted, and accounts and balances are those from before the instruction. So whoever was to be paid has been paid
only if there was nothing to pay. No creation may end meanwhile. -/
theorem selfdestruct_unnoticed (hoffline : s₀.loader.isNone = true)
    (hstart : Starts caller k s₀ start s₁) (hworks : Works GState.LeavesCode s₁ s₂)
    (hlast : last.frames = start.frames) (hperforms : last.Performs .selfdestruct s₂ o s')
    (hr : execute {} last s₂ = .ok r s₃) :
    ∀ g ∈ r.successors, last.world.Intact caller.env.active g.world ∧
      (∀ key account, g.world.find? key = some account → account.deleted = false) ∧
      ∀ σ f a b, last.world.balances.Denotes σ f → (g.world.balances.Denotes σ (bequeathed f a b) ↔ f a = 0) := by
  obtain ⟨i, n, hk, hawaits, hs₂⟩ := hstart.awaits_last hworks hlast
  have hoffline := hs₂.loader.trans hoffline
  intro g hg
  have hintact := hawaits.commits hk hoffline rfl (by decide) hperforms hr g hg
  refine ⟨hintact, hawaits.forgets hk hoffline rfl (by decide) hperforms hr g hg, fun σ f a b hf => ?_⟩
  rw [← bequeathed_eq_iff, hintact.balances]
  constructor
  · exact hf.unique
  · intro hsame
    rwa [hsame]

/-- An account is paid five and gives itself up for the account at 1. -/
theorem selfdestruct_unnoticed_payment : ∃ start s₁ r s₃, Starts payment .call (.ofCodes ["f1", "ff"]) start s₁ ∧
    execute {} (start.withStack [.expr (.literal 1)]) s₁ = .ok r s₃ ∧ r.successors.length = 1 ∧
    ∀ g ∈ r.successors, start.world.Intact (some 256) g.world ∧
      (∀ key account, g.world.find? key = some account → account.deleted = false) ∧
      ∀ σ f a b, start.world.balances.Denotes σ f → (g.world.balances.Denotes σ (bequeathed f a b) ↔ f a = 0) := by
  obtain ⟨start, s₁, hstart, o, s', hperforms, r, s₃, hr, hone⟩ : ∃ start s₁,
      Starts payment .call (.ofCodes ["f1", "ff"]) start s₁ ∧
      ∃ o s', (start.withStack [.expr (.literal 1)]).Performs .selfdestruct s₁ o s' ∧
      ∃ r s₃, execute {} (start.withStack [.expr (.literal 1)]) s₁ = .ok r s₃ ∧ r.successors.length = 1 := by decide +kernel
  have hframes : (start.withStack [.expr (.literal 1)]).frames = start.frames := rfl
  have hunnoticed := selfdestruct_unnoticed rfl hstart .start hframes hperforms hr
  exact ⟨start, s₁, r, s₃, hstart, hr, hone, hunnoticed⟩

-- an instance is as large as the run that it decides
set_option synthInstance.maxSize 512

/-- An account that has fifteen gives itself up for the account at 1, which has ten. Back in the caller it is not deleted,
and the other account has ten. -/
theorem selfdestruct_undone_in_caller : ∃ start s₁ r₁ s₂ last r₂ s₃ g,
    Starts payment .call (.ofCodes ["f1", "6001ff"]) start s₁ ∧ execute {} start s₁ = .ok r₁ s₂ ∧ last ∈ r₁.successors ∧
    (∃ o s', last.Performs .selfdestruct s₂ o s') ∧ execute {} last s₂ = .ok r₂ s₃ ∧ g ∈ r₂.successors ∧
    last.world.balances.denote sevenOfTen 512 = 15 ∧ last.world.balances.denote sevenOfTen 1 = 10 ∧
    (g.world.find? (some 512)).map (·.deleted) = some false ∧ g.world.balances.denote sevenOfTen 1 = 10 := by
  obtain ⟨start, s₁, hstart, r₁, s₂, hr₁, last, hlast, o, s', hperforms, r₂, s₃, hr₂, g, hg, hends⟩ : ∃ start s₁,
      Starts payment .call (.ofCodes ["f1", "6001ff"]) start s₁ ∧ LeadsTo start s₁ fun last s₂ =>
        ∃ o s', last.Performs .selfdestruct s₂ o s' ∧ LeadsTo last s₂ fun g _ =>
          last.world.balances.denote sevenOfTen 512 = 15 ∧ last.world.balances.denote sevenOfTen 1 = 10 ∧
          (g.world.find? (some 512)).map (·.deleted) = some false ∧ g.world.balances.denote sevenOfTen 1 = 10 := by
    decide +kernel
  exact ⟨start, s₁, r₁, s₂, last, r₂, s₃, g, hstart, hr₁, by simp [hlast], ⟨o, s', hperforms⟩, hr₂, by simp [hg], hends⟩

end Explore

end EvmAudit
