import EvmAudit.Proofs.Ether
import EvmAudit.Proofs.StaticFrames

/-!
# What calls pay

An account that has code is paid when its frame begins, and by then a static frame has made sure that it pays nothing. An
account without code is paid at once, before anyone asks whether the frame is static or whether the call only borrows
code. A call that passes on the value of its own frame has that value paid once more. Nothing else moves ether between
the accounts that are there, unless an account is made or deleted.
-/

namespace EvmAudit

open Option
open Evm (Word)

variable {w : World} {g : GState} {s s' s₁ : Session} {st : Stack} {k : CallKind} {q r : Word} {tx : Tx}
  {ops : CallOperands} {i : Expr} {op : Opcode}

variable {σ : Valuation} {f : Word → Word} {a b v x : Word}

/-! ## Payments that show -/

lemma paid_zero (f : Word → Word) (a b : Word) : paid f a b 0 = f := by
  unfold paid
  rw [add_zero, Function.update_eq_self, sub_zero, Function.update_eq_self]

namespace World

variable {w' : World}

/-- A payment to an account that is there shows unless it is of nothing or to oneself. -/
lemma Balanced.unchanged_iff (h : w.Balanced σ (paid f a b v) w') (hb : (w.find? (some b.toNat)).isSome = true) :
    w.Balanced σ f w' ↔ v = 0 ∨ a = b := by
  constructor
  · rintro ⟨f1, hf1, hsame1⟩
    obtain ⟨f2, hf2, hsame2⟩ := h
    by_cases hab : a = b
    · exact .inr hab
    · have hreceived : f b = f b + v := by
        rw [← paid_receiver hab, ← hsame2 b hb, ← hf2.unique hf1, hsame1 b hb]
      exact .inl (left_eq_add.1 hreceived)
  · rintro (rfl | rfl)
    · rwa [paid_zero] at h
    · rwa [paid_self] at h

lemma Balanced.of_keeps {w1 : World} (hkeeps : w.Keeps w1) (h : w1.Balanced σ f w') : w.Balanced σ f w' := by
  obtain ⟨f', hf', hsame⟩ := h
  refine ⟨f', hf', fun x hx => hsame x ?_⟩
  obtain ⟨account, hfound⟩ := isSome_iff_exists.1 hx
  obtain ⟨account', hfound', -⟩ := hkeeps.found hfound
  rw [hfound']
  rfl

lemma Balanced.of_denotes (h : w'.balances.Denotes σ f) : w.Balanced σ f w' := ⟨f, h, fun _ _ => rfl⟩

lemma transfer_pays (w : World) (sender receiver amount : Expr) :
    (w.transfer sender receiver amount).Yields fun w' => w'.accounts = w.accounts ∧ ∀ {σ f} {a b v : Word},
    w.balances.Denotes σ f → sender.Equals a → receiver.Equals b → amount.Denotes σ v → w.Pays σ f a b v w' := by
  intro l w' l' hr
  refine ⟨by rw [(w.transfer_yields sender receiver amount l w' l' hr).1], fun hw hs hr' hv => ?_⟩
  exact (transfer_gives hw hs hr' hv).yields l w' l' hr

end World

/-! ## The guard of static frames -/

lemma Term.Says.unique {t : Term} {p q : Bool} (h : t.Says σ p) (h' : t.Says σ q) : p = q := by
  have heq := h.denote.symm.trans h'.denote
  revert heq
  cases p <;> cases q <;> decide

namespace Step

/-- What a plain call may send along from a static frame is nothing, if it is known, and otherwise by the conditions. -/
structure Guarded (k : CallKind) (value : Item) (g g' : GState) : Prop where
  rest : ∃ cs, g' = { g with world := { g.world with constraints := cs } }
  nothing : k = .call → g.env.isStatic = true → ∀ {e : Expr} {σ : Valuation} {v : Word}, value = .expr e →
    e.Denotes σ v → (e.Known ∨ ∀ c ∈ g'.world.constraints, c.Says σ true) → v = 0

lemma guardStatic_yields (value : Item) : (guardStatic value).Yields g s fun _ g' => Guarded .call value g g' := by
  have hrest (g : GState) : ∃ cs, g = { g with world := { g.world with constraints := cs } } := ⟨g.world.constraints, rfl⟩
  refine .env ?_
  cases hstatic : g.env.isStatic with
  | false => exact .pure ⟨hrest g, fun _ h => by cases hstatic.symm.trans h⟩
  | true =>
    rw [if_pos rfl]
    cases value with
    | expr e =>
      dsimp only
      split
      · rename_i hprop
        refine .pure ⟨hrest g, ?_⟩
        rintro - - _ _ _ ⟨⟩ he
        cases hprop.symm.trans (he.isProp)
      · have hvalue : e.value?.Yields fun r => ∀ {σ} {v : Word}, e.Denotes σ v → r = e.term.value? :=
          fun l r l' hr _ _ he => (Expr.value?_gives he).yields l r l' hr
        refine .given hvalue fun r s2 _ hr => ?_
        cases r with
        | none =>
          -- what is not known is said to be zero
          refine .given (Expr.const_equals 0 256).yields fun zero s3 _ hzero => ?_
          have heq : (e.eq zero).Yields fun c =>
              ∀ {σ v}, e.Denotes σ v → c.Says σ (CmpOp.eq.eval v.toNat (BitVec.ofNat 256 0).toNat) :=
            fun l c l' hc σ _ he => (Expr.equate_gives .eq CmpOp.flip_eval_eq he hzero.denotes).yields l c l' hc
          refine .given heq fun c s4 _ hc => (constrain_yields c).mono ?_
          rintro _ _ rfl
          refine ⟨⟨_, rfl⟩, ?_⟩
          rintro - - _ σ v ⟨⟩ he (hknown | hall)
          · unfold Expr.Known at hknown
            rw [← hr he] at hknown
            cases hknown
          · have htrue := (hc he).unique (hall c (by simp))
            exact BitVec.eq_of_toNat_eq (eq_of_beq htrue)
        | some n =>
          dsimp only
          split
          · exact .throw _
          rename_i hn
          refine .pure ⟨hrest g, ?_⟩
          rintro - - _ σ v ⟨⟩ he -
          have hv := he.eq_of_value? (hr he).symm
          exact BitVec.eq_of_toNat_eq (hv.symm.trans (Nat.eq_zero_of_not_pos hn))
    | _ =>
      dsimp only
      split
      · exact .throw _
      · exact .pure ⟨hrest g, fun _ _ _ _ _ h => by cases h⟩

lemma guardStatic_refuses (hstatic : g.env.isStatic = true) {e : Expr} (he : e.Equals v) (hv : v ≠ 0) (s : Session) :
    ∃ s', guardStatic (.expr e) g s =
      .error (.vm .writeProtection "Cannot call with non zero value in a static call") s' := by
  have hprop : e.isProp = false := he.isProp
  have hpos : v.toNat > 0 := Nat.pos_of_ne_zero fun h => hv (BitVec.eq_of_toNat_eq h)
  obtain ⟨_, g', s', hrun, -, rfl, rfl⟩ := Does.calc (g := g) (s := s) he.value?_gives
  have henv : env g' s = .ok (g'.env, g') s := rfl
  refine ⟨s', ?_⟩
  unfold guardStatic
  rw [bind_ok henv, hstatic, if_pos rfl]
  dsimp only
  rw [hprop, if_neg Bool.false_ne_true, bind_ok hrun]
  dsimp only
  rw [if_pos hpos]
  rfl

def Pays (g : GState) (callee : Account) (amount : Item) (w : World) : Prop :=
  w.accounts = g.world.accounts ∧ ∀ {σ f} {a b v : Word}, g.world.balances.Denotes σ f → g.active.address.Equals a →
    callee.address.Equals b → amount.IsAmount σ v → g.world.Pays σ f a b v w

inductive Called (k : CallKind) (g : GState) (s : Session) : Effect → GState → Prop
  | lost {f : Fault} {g₁ g' : GState} (htaken : Taken k g s (.error f) g₁) (hrest : g₁.Within { loads := true } g') :
      Called k g s .next g'
  /-- There is no code to run: the account is paid, and nothing is known about the result. -/
  | pays {o : CallOperands} {callee : Account} {g₁ g' : GState} {w : World} (htaken : Taken k g s (.ok o) g₁)
      (hcallee : o.account = some callee)
      (hcode : ∀ p, s.code.programs[callee.code]? = some p → p.code.isEmptyText = true) (hpays : Pays g₁ callee o.value w)
      (hrest : { g₁ with world := w }.Within { loads := true } g') : Called k g s .next g'
  | asks {o : CallOperands} {callee : Account} {g₁ g' : GState} {tx : Tx} (htaken : Taken k g s (.ok o) g₁)
      (hcallee : o.account = some callee)
      (hcode : ∀ p, s.code.programs[callee.code]? = some p → p.code.isEmptyText = false)
      (hguard : Guarded k o.value g₁ g') (htx : tx.Sent k g' o callee) : Called k g s (.call tx) g'
  | computes {o : CallOperands} {g₁ g₂ g' : GState} (htaken : Taken k g s (.ok o) g₁) (hcallee : o.account = none)
      (hguard : Guarded k o.value g₁ g₂) (hrest : g₂.Within { loads := true } g') : Called k g s .next g'

lemma calm_next {x : Step Effect} [hx : Calm { loads := true } x] (g : GState) (s : Session) :
    x.Yields g s fun e g' => e = .next ∧ g.Within { loads := true } g' := by
  refine (hx.keeps g s nofun).mono fun e g' h => ⟨?_, h.1⟩
  cases e with
  | next => rfl
  | branch gs | call tx => cases h.2.1
  | halt data reverted => exact h.2.elim

lemma codeOf_yields (i : ProgramId) (hs : s.Grows s₁) :
    (codeOf i).Yields s₁ fun c => ∀ p, s.code.programs[i]? = some p → c = p.code := by
  have hprogram : (Engine.program i).Yields s₁ fun q => ∀ p, s.code.programs[i]? = some p → q = p := by
    refine (⟨.refl s₁, fun p hp => ?_⟩ : s₁.Grows s₁ ∧ ∀ p, s.code.programs[i]? = some p → _ = p)
    rw [Array.getD_eq_getD_getElem?, hs.programs hp, getD_some]
  exact hprogram.bind fun q s2 _ hq => .pure fun p hp => by rw [hq p hp]

lemma guard_yields (k : CallKind) (value : Item) {rest : Step Effect} {P : Effect → GState → Prop}
    (h : ∀ g' s', s.Grows s' → Guarded k value g g' → rest.Yields g' s' P) :
    (if k == .call then do guardStatic value; rest else rest).Yields g s P := by
  split
  · rename_i hk
    obtain rfl := eq_of_beq hk
    exact (guardStatic_yields value).bind fun _ => h
  · rename_i hk
    exact h g s (.refl s) ⟨⟨g.world.constraints, rfl⟩, fun hcall => absurd (beq_of_eq hcall) hk⟩

lemma call_yields (k : CallKind) : (call k).Yields g s (Called k g s) := by
  refine ((outRange_still k).keeps g s).bind ?_
  rintro range g s₁ hs1 rfl
  refine (operands_yields k).bind ?_
  rintro r g1 s2 hs2 htaken
  have htaken := htaken.of_grows hs1
  cases r with
  | error f =>
    dsimp only
    split
    · refine (calm_next g1 s2).mono ?_
      rintro _ g' ⟨rfl, hrest⟩
      exact .lost htaken hrest
    · exact .throw _
  | ok o =>
    dsimp only
    split
    · rename_i callee hcallee
      refine .upon (codeOf_yields callee.code (hs1.trans hs2)) fun code s3 _ hcode => ?_
      split
      · rename_i hempty
        have hwidth : (o.value.toWidth 256).Yields fun amount =>
            ∀ {σ v}, o.value.IsAmount σ v → amount.Denotes σ v :=
          fun l amount l' hr _ _ hv => (Item.toWidth_amount hv).yields l amount l' hr
        refine .world (.get (.given hwidth fun amount s6 _ hamount => ?_))
        refine .given (World.transfer_pays _ _ _ amount) ?_
        rintro w s7 _ ⟨haccounts, hpays⟩
        refine .modify ((calm_next _ s7).mono ?_)
        rintro _ g' ⟨rfl, hrest⟩
        refine .pays htaken hcallee (fun p hp => ?_) ⟨haccounts, fun hf ha hb hv => hpays hf ha hb (hamount hv)⟩ hrest
        rw [← hcode p hp, hempty]
      · rename_i hsome
        refine guard_yields k o.value fun g2 s4 _ hguard => (frameOf_ends k o callee).yields.bind ?_
        rintro tx g2 s5 _ ⟨rfl, htx⟩
        refine .pure (.asks htaken hcallee (fun p hp => ?_) hguard htx)
        rw [← hcode p hp, Bool.eq_false_iff.2 hsome]
    · rename_i hcallee
      refine guard_yields k o.value fun g2 s3 _ hguard => ?_
      refine (@calm_next _ (.next fun n => by split <;> infer_instance) g2 s3).mono ?_
      rintro _ g' ⟨rfl, hrest⟩
      exact .computes htaken hcallee hguard hrest

end Step

/-! ## Who pays whom -/

structure GState.Calling (g : GState) (a x : Word) (callee : Account) : Prop where
  isActive : g.env.active = some a.toNat
  active : ∃ account, g.world.find? (some a.toNat) = some account ∧ account.address.Equals a
  address : g.env.address.Equals a
  calls : g.Calls x
  ordinary : Callee.isPrecompile x.toNat = false
  found : g.world.find? (some x.toNat) = some callee
  callee : callee.address.Equals x

/-- Who pays whom how much when `a` calls `x`: it depends on the kind of the call and on whether there is code to run. -/
inductive Payment (e : Environment) (st : Stack) (σ : Valuation) (a x : Word) : CallKind → Bool → Word → Word → Word → Prop
  /-- Without code, whatever the kind of the call, what is sent along is paid to the account that is called. -/
  | atOnce {k : CallKind} {i : Item} {v : Word} (hi : k.sent st = some i) (hv : i.IsAmount σ v) :
      Payment e st σ a x k false a x v
  | sent {k : CallKind} {i : Item} {v : Word} (hk : k = .call ∨ k = .staticcall) (hi : k.sent st = some i)
      (hv : i.IsAmount σ v) : Payment e st σ a x k true a x v
  | own {i : Item} {v : Word} (hi : CallKind.callcode.sent st = some i) (hv : i.IsAmount σ v) :
      Payment e st σ a x .callcode true a a v
  /-- The active account gets a frame, and who called it pays once more. -/
  | again {sender : Expr} {c u : Word} (hsender : e.sender = .expr sender) (hc : sender.Equals c)
      (hu : e.callValue.IsAmount σ u) : Payment e st σ a x .delegatecall true c a u

lemma Payment.receiver {e : Environment} {hasCode : Bool} (h : Payment e st σ a x k hasCode q r v) : r = a ∨ r = x := by
  cases h with
  | atOnce | sent => exact .inr rfl
  | own | again => exact .inl rfl

lemma Item.IsAmount.ne_absent {i : Item} (h : i.IsAmount σ v) : i ≠ .absent := by
  rintro rfl
  obtain ⟨n, hn, -⟩ := h
  cases hn

def Tx.Pays (tx : Tx) (σ : Valuation) (q r v : Word) : Prop :=
  (∃ e, tx.caller = .expr e ∧ e.Equals q) ∧ tx.callee.address.Equals r ∧ tx.value.IsAmount σ v

variable {g' : GState} {callee : Account} {p : Program} {e : Effect} {o : Outcome} {result : GState.Executed}

lemma Tx.Sent.pays (h : tx.Sent k g ops callee) (hactive : g.active.address.Equals a)
    (haddress : g.env.address.Equals a) (hcallee : callee.address.Equals x) (hvalue : k.sent st = some ops.value)
    (hpays : Payment g.env st σ a x k true q r v) : tx.Pays σ q r v := by
  cases hpays with
  | @sent _ i _ hk hi hv =>
    obtain rfl : i = ops.value := some.inj (hi.symm.trans hvalue)
    rcases hk with rfl | rfl
    · exact ⟨⟨_, h.caller, hactive⟩, h.callee ▸ hcallee, h.value hv.ne_absent ▸ hv⟩
    · exact ⟨⟨_, h.caller, haddress⟩, h.callee ▸ hcallee, h.value hv.ne_absent ▸ hv⟩
  | @own i _ hi hv =>
    obtain rfl : i = ops.value := some.inj (hi.symm.trans hvalue)
    exact ⟨⟨_, h.caller, haddress⟩, h.callee ▸ hactive, h.value hv.ne_absent ▸ hv⟩
  | again hsender hc hu => exact ⟨⟨_, h.caller.trans hsender, hc⟩, h.callee ▸ hactive, h.value hu.ne_absent ▸ hu⟩

lemma GState.Calls.of_copyOf (h : g.Calls x) (hsound : g.machine.Sound) (hcopy : g.CopyOf g') : g'.Calls x := by
  unfold Calls
  rwa [(hsound.copy hcopy.machine).2]

namespace GState.Calling

variable (h : g.Calling a x callee)
include h

lemma active_equals : g.active.address.Equals a := by
  obtain ⟨account, hfound, haddress⟩ := h.active
  unfold GState.active
  rw [h.isActive, hfound]
  exact haddress

lemma reaches : g.world.Reaches x := .inr (by rw [h.found]; rfl)

lemma known (hr : r = a ∨ r = x) : (g.world.find? (some r.toNat)).isSome = true := by
  rcases hr with rfl | rfl
  · obtain ⟨account, hfound, -⟩ := h.active
    rw [hfound]
    rfl
  · rw [h.found]
    rfl

lemma of_copyOf (hsound : g.machine.Sound) (hcopy : g.CopyOf g') :
    ∃ callee', g'.Calling a x callee' ∧ callee'.code = callee.code := by
  have henv : g'.env = g.env := by rw [hcopy.rest]
  obtain ⟨account, hfound, haddress⟩ := h.active
  have hworld : g.world.CopyOf g'.world := hcopy.world.copyOf (by rw [h.isActive, hfound]; rfl)
  obtain ⟨_, hfound', _, _, rfl⟩ := hworld.find?_some hfound
  obtain ⟨_, hcallee', _, _, rfl⟩ := hworld.find?_some h.found
  exact ⟨_, ⟨henv ▸ h.isActive, ⟨_, hfound', haddress⟩, henv ▸ h.address, h.calls.of_copyOf hsound hcopy, h.ordinary,
    hcallee', h.callee⟩, rfl⟩

end GState.Calling

/-- The payment is made at once, or is left to the frame that is asked for. -/
def Effect.Pays (e : Effect) (w : World) (σ : Valuation) (f : Word → Word) (q r v : Word) (w' : World) : Prop :=
  e = .next ∧ w.Balanced σ (paid f q r v) w' ∨ ∃ tx, e = .call tx ∧ tx.Pays σ q r v ∧ w'.balances = w.balances

lemma Step.Taken.calling (h : Taken k g s (.ok ops) g') (hg : g.Calling a x callee) :
    ops.account = some callee ∧ g'.env = g.env ∧ g'.world = g.world := by
  have hresolves := h.resolves x hg.calls
  refine ⟨Except.ok.inj (hresolves.found hg.ordinary hg.found), ?_, hresolves.kept hg.reaches⟩
  obtain ⟨w, -, -, rfl⟩ := h.state
  rfl

namespace Step.Called

section

variable (h : Called k g s e g') (hg : g.Calling a x callee) (hp : s.code.programs[callee.code]? = some p)
include h hg hp

lemma pays_as (hw : g.world.balances.Denotes σ f)
    (hpays : Payment g.env g.machine.stack σ a x k (!p.code.isEmptyText) q r v) :
    e.Pays g.world σ f q r v g'.world := by
  have hactive {g1 : GState} (henv : g1.env = g.env) (haccounts : g1.world.accounts = g.world.accounts) :
      g1.active.address.Equals a := by
    unfold GState.active World.find?
    rw [henv, haccounts]
    exact hg.active_equals
  cases h with
  | lost htaken hrest => cases (htaken.resolves x hg.calls).found hg.ordinary hg.found
  | @pays ops _ g1 _ w htaken hcallee hcode hpaid hrest =>
    obtain ⟨hfound, henv, hworld⟩ := htaken.calling hg
    obtain rfl := some.inj (hcallee.symm.trans hfound)
    rw [hcode p hp] at hpays
    cases hpays with
    | @atOnce _ i _ hi hv =>
      obtain rfl : i = ops.value := some.inj (hi.symm.trans (htaken.value ops rfl))
      have hpaid := hpaid.2 (hworld ▸ hw) (hactive henv (by rw [hworld])) hg.callee hv
      have hkeeps : g.world.Keeps w := .of_accounts (by rw [hpaid.rest, hworld])
      exact .inl ⟨rfl, (World.Balanced.of_denotes hpaid.balances).settled hkeeps (hrest.world.settled rfl)⟩
  | @asks ops _ g1 _ tx htaken hcallee hcode hguard htx =>
    obtain ⟨hfound, henv, hworld⟩ := htaken.calling hg
    obtain rfl := some.inj (hcallee.symm.trans hfound)
    obtain ⟨cs, rfl⟩ := hguard.rest
    rw [hcode p hp, ← henv] at hpays
    refine .inr ⟨tx, rfl, htx.pays ?_ ?_ hg.callee (htaken.value ops rfl) hpays, by rw [hworld]⟩
    · exact hactive henv (by rw [hworld])
    · show g1.env.address.Equals a
      rw [henv]
      exact hg.address
  | computes htaken hcallee => cases hcallee.symm.trans (htaken.calling hg).1

lemma asks_frame (hcode : p.code.isEmptyText = false) : ∃ tx, e = .call tx := by
  cases h with
  | lost htaken hrest => cases (htaken.resolves x hg.calls).found hg.ordinary hg.found
  | pays htaken hcallee hempty =>
    obtain rfl := some.inj (hcallee.symm.trans (htaken.calling hg).1)
    cases hcode.symm.trans (hempty p hp)
  | @asks _ _ _ _ tx => exact ⟨tx, rfl⟩
  | computes htaken hcallee => cases hcallee.symm.trans (htaken.calling hg).1

end

lemma settled (h : Called k g s e g') (hx : g.Calls x)
    (hnone : Callee.isPrecompile x.toNat = true ∨ ¬ g.world.Reaches x ∧ s.loader.isNone = true) :
    e = .next ∧ g.world.Settled g'.world := by
  have hlost {f g1} (htaken : Taken k g s (.error f) g1) : g1.world = g.world := by
    rcases hnone with hprecompile | ⟨-, hoff⟩
    · cases (htaken.resolves x hx).precompile hprecompile
    · obtain ⟨w, -, hw, rfl⟩ := htaken.state
      exact hw hoff
  have hnobody {ops g1} (htaken : Taken k g s (.ok ops) g1) : ops.account = none ∧ g1.world = g.world := by
    have hresolves := htaken.resolves x hx
    rcases hnone with hprecompile | ⟨hmissing, hoff⟩
    · exact ⟨Except.ok.inj (hresolves.precompile hprecompile), hresolves.kept (.inl hprecompile)⟩
    · exact absurd rfl (hresolves.missing hmissing hoff ops.account)
  cases h with
  | lost htaken hrest => exact ⟨rfl, hlost htaken ▸ hrest.world.settled rfl⟩
  | pays htaken hcallee | asks htaken hcallee => cases hcallee.symm.trans (hnobody htaken).1
  | @computes ops g1 _ _ htaken hcallee hguard hrest =>
    obtain ⟨cs, rfl⟩ := hguard.rest
    have hcs : g.world.Settled { g1.world with constraints := cs } := .of_balances (by rw [(hnobody htaken).2])
    exact ⟨rfl, hcs.trans (.of_accounts (by rw [(hnobody htaken).2])) (hrest.world.settled rfl)⟩

lemma guarded (h : Called .call g s e g') (hstatic : g.env.isStatic = true) (hi : g.machine.stack[2]? = some (.expr i))
    (hv : i.Denotes σ v) (hcond : i.Known ∨ ∀ c ∈ g'.world.constraints, c.Says σ true)
    (hruns : (∃ tx, e = .call tx) ∨ ∃ x, g.Calls x ∧ Callee.isPrecompile x.toNat = true) : v = 0 := by
  have hsame {ops g1} (htaken : Taken .call g s (.ok ops) g1) : ops.value = .expr i ∧ g1.env.isStatic = true := by
    obtain ⟨w, -, -, rfl⟩ := htaken.state
    exact ⟨some.inj ((htaken.value ops rfl).symm.trans hi), hstatic⟩
  cases h with
  | lost htaken hrest =>
    obtain ⟨tx, htx⟩ | ⟨x, hx, hprecompile⟩ := hruns
    · cases htx
    · cases (htaken.resolves x hx).precompile hprecompile
  | pays htaken hcallee =>
    obtain ⟨tx, htx⟩ | ⟨x, hx, hprecompile⟩ := hruns
    · cases htx
    · cases hcallee.symm.trans (Except.ok.inj ((htaken.resolves x hx).precompile hprecompile))
  | asks htaken hcallee hcode hguard => exact hguard.nothing rfl (hsame htaken).2 (hsame htaken).1 hv hcond
  | computes htaken hcallee hguard hrest =>
    refine hguard.nothing rfl (hsame htaken).2 (hsame htaken).1 hv (hcond.imp_right fun hall c hc => ?_)
    exact hall c ((hrest.world.constraints rfl).subset hc)

end Step.Called

/-! ## Performing a call -/

lemma GState.perform_called (g : GState) (k : CallKind) (s : Session) : (g.perform k.opcode).Yields s fun o =>
    ∃ g1 s₁ e g', s.Grows s₁ ∧ g.CopyOf g1 ∧ Step.Called k g1 s₁ e g' ∧ e.Leads true true g' o := by
  have hrun : (g.run (.call k) true true).Yields s fun o =>
      ∃ e g', (∃ g1 s₁, s.Grows s₁ ∧ g.CopyOf g1 ∧ Step.Called k g1 s₁ e g') ∧ e.Leads true true g' o :=
    run_leads (fun g1 s₁ hs1 hcopy _ _ => (Step.call_yields k).mono fun e g' h => ⟨g1, s₁, hs1, hcopy, h⟩) true true
  have hperform : g.perform k.opcode = g.run (.call k) true true := by cases k <;> rfl
  rw [hperform]
  refine hrun.mono ?_
  rintro o ⟨e, g', ⟨g1, s₁, hs1, hcopy, hcalled⟩, hleads⟩
  exact ⟨g1, s₁, e, g', hs1, hcopy, hcalled, hleads⟩

namespace Explore

lemma startFrame_pays {start : GState} (hw : w.balances.Denotes σ f) (htx : tx.Pays σ q r v)
    (h : startFrame g tx w s = .ok start s') : start.world.balances.Denotes σ (paid f q r v) := by
  obtain ⟨⟨sender, hcaller, hq⟩, hr, hv⟩ := htx
  obtain ⟨new, s₁, hnew, h⟩ := Engine.of_bind_ok h
  obtain ⟨new', s1', hnew', -, hpays⟩ := Tx.start_does hw hcaller hq hr hv
  cases hnew.symm.trans hnew'
  cases h
  exact hpays.balances

/-- A call that is performed goes on in the world that it leaves, or in a frame that begins there. -/
lemma execute_called (hperforms : g.Performs k.opcode s o s₁) (hrun : execute {} g s = .ok result s') :
    ∃ g1 s2 e g2, s.Grows s2 ∧ g.CopyOf g1 ∧ Step.Called k g1 s2 e g2 ∧ ∀ g' ∈ result.successors,
      e = .next ∧ g'.world = g2.world ∨ ∃ tx, e = .call tx ∧ startFrame g tx g2.world s₁ = .ok g' s' := by
  obtain ⟨-, g1, s2, e, g2, hs2, hcopy, hcalled, hleads⟩ := (g.perform_called k s).ok hperforms.run
  refine ⟨g1, s2, e, g2, hs2, hcopy, hcalled, fun g' hg' => ?_⟩
  rw [execute_performs hperforms] at hrun
  have hnext (hleads : Outcome.Settles true true [g2] o) : g'.world = g2.world := by
    obtain ⟨gs, rfl, -, hgs⟩ := hleads
    cases hrun
    obtain ⟨g3, hg3, hsettles⟩ := hgs g' hg'
    obtain rfl := List.mem_singleton.1 hg3
    obtain ⟨_, _, _, rfl⟩ := hsettles.rest
    rfl
  cases hcalled with
  | lost | pays | computes => exact .inl ⟨rfl, hnext hleads⟩
  | @asks _ _ _ _ tx =>
    obtain rfl := hleads
    obtain ⟨start, s3, hstart, hpure⟩ := Engine.of_bind_ok hrun
    cases hpure
    obtain rfl := List.mem_singleton.1 hg'
    exact .inr ⟨tx, rfl, hstart⟩

section

variable (hsound : g.machine.Sound)
include hsound

lemma execute_pays (hg : g.Calling a x callee) (hp : s.code.programs[callee.code]? = some p)
    (hw : g.world.balances.Denotes σ f) (hpays : Payment g.env g.machine.stack σ a x k (!p.code.isEmptyText) q r v)
    (hperforms : g.Performs k.opcode s o s₁) (hrun : execute {} g s = .ok result s') : ∀ g' ∈ result.successors,
    g.world.Balanced σ (paid f q r v) g'.world := by
  intro g' hg'
  obtain ⟨g1, s2, e, g2, hs2, hcopy, hcalled, hsuccessors⟩ := execute_called hperforms hrun
  obtain ⟨callee', hcalling, hcode⟩ := hg.of_copyOf hsound hcopy
  have hbalances := hcopy.world.balances
  have hkeeps : g.world.Keeps g1.world := .of_copyFor hcopy.world
  have henv : g1.env = g.env := by rw [hcopy.rest]
  have hstack := (hsound.copy hcopy.machine).2
  rw [← henv, ← hstack] at hpays
  have hmade := hcalled.pays_as hcalling (hcode ▸ hs2.programs hp) (hbalances ▸ hw) hpays
  rcases hsuccessors g' hg' with ⟨rfl, hworld⟩ | ⟨tx, rfl, hstart⟩
  · obtain ⟨-, hpaid⟩ | ⟨tx, htx, -⟩ := hmade
    · rw [hworld]
      exact .of_keeps hkeeps hpaid
    · cases htx
  · obtain ⟨hnext, -⟩ | ⟨tx, ⟨⟩, htx, hsame⟩ := hmade
    · cases hnext
    · refine .of_denotes (startFrame_pays ?_ htx hstart)
      rw [hsame, hbalances]
      exact hw

/-- In a static frame, a plain call that is performed, and has code to run, sends nothing that is known to be something. -/
lemma performs_guarded (hstatic : g.env.isStatic = true)
    (hi : g.machine.stack[2]? = some (.expr i)) (hv : i.Equals v) (hx : g.Calls x) (hperforms : g.Performs .call s o s₁)
    (hruns : Callee.isPrecompile x.toNat = true ∨ ∃ a callee p, g.Calling a x callee ∧
      s.code.programs[callee.code]? = some p ∧ p.code.isEmptyText = false) : v = 0 := by
  obtain ⟨-, g1, s2, e, g2, hs2, hcopy, hcalled, -⟩ := (g.perform_called .call s).ok hperforms.run
  have hstack := (hsound.copy hcopy.machine).2
  have hknown : i.Known := by
    unfold Expr.Known
    rw [hv.value?]
    rfl
  refine hcalled.guarded ?_ (hstack ▸ hi) (hv.denotes (σ := default)) (.inl hknown) ?_
  · rw [hcopy.rest]
    exact hstatic
  · rcases hruns with hprecompile | ⟨a, callee, p, hg, hp, hcode⟩
    · exact .inr ⟨x, hx.of_copyOf hsound hcopy, hprecompile⟩
    · obtain ⟨callee', hg1, hsame⟩ := hg.of_copyOf hsound hcopy
      exact .inl (hcalled.asks_frame hg1 (hsame ▸ hs2.programs hp) hcode)

/-- What is sent along from a static frame to another is nothing, in whatever way the conditions of the other are met. -/
lemma execute_guarded (hstatic : g.env.isStatic = true)
    (hi : g.machine.stack[2]? = some (.expr i)) (hv : i.Denotes σ v) (hg : g.Calling a x callee)
    (hp : s.code.programs[callee.code]? = some p) (hcode : p.code.isEmptyText = false)
    (hperforms : g.Performs .call s o s₁) (hrun : execute {} g s = .ok result s') :
    ∀ g' ∈ result.successors, (∀ c ∈ g'.world.constraints, c.Says σ true) → v = 0 := by
  intro g' hg' hall
  obtain ⟨g1, s2, e, g2, hs2, hcopy, hcalled, hsuccessors⟩ := execute_called (k := .call) hperforms hrun
  have hstack := (hsound.copy hcopy.machine).2
  obtain ⟨callee', hg1, hsame⟩ := hg.of_copyOf hsound hcopy
  obtain ⟨tx, rfl⟩ := hcalled.asks_frame hg1 (hsame ▸ hs2.programs hp) hcode
  obtain ⟨hnext, -⟩ | ⟨tx, -, hstart⟩ := hsuccessors g' hg'
  · cases hnext
  obtain ⟨-, -, -, hbegins⟩ := startFrame_run hstart
  refine hcalled.guarded ?_ (hstack ▸ hi) hv (.inr fun c hc => hall c (hbegins.constraints.subset hc)) (.inl ⟨_, rfl⟩)
  rw [hcopy.rest]
  exact hstatic

/-- A precompiled contract is called, or an account that is not there and cannot be loaded. -/
def CallsNobody (g : GState) (s : Session) : Prop :=
  ∃ x, g.Calls x ∧ (Callee.isPrecompile x.toNat = true ∨ ¬ g.world.Reaches x ∧ s.loader.isNone = true)

lemma execute_unpaid (hactive : (g.world.find? g.env.active).isSome = true)
    (hnobody : CallsNobody g s) (hperforms : g.Performs k.opcode s o s₁) (hrun : execute {} g s = .ok result s') :
    ∀ g' ∈ result.successors, g.world.Settled g'.world := by
  intro g' hg'
  obtain ⟨g1, s2, e, g2, hs2, hcopy, hcalled, hsuccessors⟩ := execute_called hperforms hrun
  obtain ⟨x, hx, hnone⟩ := hnobody
  have hnone1 : Callee.isPrecompile x.toNat = true ∨ ¬ g1.world.Reaches x ∧ s2.loader.isNone = true := by
    refine hnone.imp_right fun ⟨hmissing, hoff⟩ => ⟨?_, hs2.loader.trans hoff⟩
    rintro (hprecompile | hfound)
    · exact hmissing (.inl hprecompile)
    · rw [(hcopy.world.copyOf hactive).isSome_find?] at hfound
      exact hmissing (.inr hfound)
  obtain ⟨rfl, hsettled⟩ := hcalled.settled (hx.of_copyOf hsound hcopy) hnone1
  rcases hsuccessors g' hg' with ⟨-, hworld⟩ | ⟨tx, ⟨⟩, -⟩
  rw [hworld]
  have hsame : g.world.Settled g1.world := .of_balances hcopy.world.balances
  exact hsame.trans (.of_copyFor hcopy.world) hsettled

end

end Explore

/-- Payments are made by calls only, as far as a frame goes on or starts another one. -/
lemma Opcode.calls_footprint (h : ∀ k : CallKind, op ≠ k.opcode) (loads : Bool) :
    (op.footprint loads).calls = false := by
  cases op with
  | call => exact absurd rfl (h .call)
  | callcode => exact absurd rfl (h .callcode)
  | delegatecall => exact absurd rfl (h .delegatecall)
  | staticcall => exact absurd rfl (h .staticcall)
  | _ => rfl

lemma GState.Passes.settled {p : Footprint} {isMetered advances : Bool} (h : g.Passes p isMetered advances g')
    (hcalls : p.calls = false) : g.world.Settled g'.world := by
  obtain ⟨g1, g2, node, hg1, hg2, rfl⟩ := h
  obtain ⟨_, _, _, rfl⟩ := hg2.rest
  exact hg1.world.settled hcalls

/-- What neither calls nor makes an account nor takes back what was done leaves all balances alone. -/
lemma Explore.execute_settled (hcalls : ∀ k : CallKind, op ≠ k.opcode) (hcreates : op.creates = false)
    (hreverts : op ≠ .revert) (hbacks : s.Backs g.frames) (hperforms : g.Performs op s o s₁)
    (hrun : execute {} g s = .ok result s') : ∀ g' ∈ result.successors, g.world.Settled g'.world := by
  intro g' hg'
  cases hhalts : op.halts with
  | false =>
    have hyields := GState.perform_within (g := g) (s := s) true hhalts hcreates nofun
    obtain ⟨-, hwithin⟩ := hyields.ok hperforms.run
    have hnone := op.calls_footprint hcalls true
    rw [execute_performs hperforms] at hrun
    cases o with
    | states gs =>
      cases hrun
      exact (hwithin.2 g' hg').settled hnone
    | call tx waiting => cases hnone.symm.trans hwithin.1
    | halt => exact hwithin.elim
  | true =>
    obtain ⟨final, data, rfl, -⟩ := GState.perform_halts hhalts hperforms.run
    obtain ⟨_, _, _, _, c, _, -, -, -, hhanded, -, hresume⟩ := halts_returns hbacks hperforms hrun hg'
    obtain ⟨hcopy, -⟩ := hhanded.commits (beq_eq_false_iff_ne.2 hreverts)
    have hsame : g.world.Settled c.world := .of_balances (by rw [hcopy.rest])
    have hpasses := resume_passes hresume hg'
    exact hsame.trans (.of_copyFor (hcopy.copyFor none)) (hpasses.settled rfl)

/-! ## Payments that can be run -/

namespace GState

/-- The account at 256 is running, with these operands; the account at 768 has called it and has given it three. -/
def given (operands : List Nat) (isStatic : Bool) : GState :=
  { ofOperands operands with
    env := { (ofOperands []).env with sender := .expr (.literal 768), callValue := .int 3, isStatic := isStatic } }

variable {operands : List Nat} {isStatic : Bool}

lemma given_sound (h : operands.length ≤ 1024) : (given operands isStatic).machine.Sound := ofOperands_sound h

lemma given_calling (h : operands[1]? = some 512) : (given operands isStatic).Calling 256 512 (.bare 512 1) where
  isActive := rfl
  active := ⟨.bare 256 0, rfl, rfl, rfl, rfl, rfl⟩
  address := ⟨rfl, rfl, rfl, rfl⟩
  calls := by
    refine ⟨.literal 512, ?_, rfl, rfl, rfl, rfl⟩
    show (operands.map _)[1]? = _
    rw [List.getElem?_map, h]
    rfl
  ordinary := by decide
  found := rfl
  callee := ⟨rfl, rfl, rfl, rfl⟩

/-- Are the conditions met if every balance was ten, and has the account at 256 paid five to the one at 512? -/
def hasPaidFive (g : GState) : Bool :=
  g.world.constraints.all (fun c => c.term.isProp && c.term.denote sevenOfTen == Term.ofBool true &&
    (c.term.overrun .empty).isNone) &&
    g.world.balances.denote sevenOfTen 256 == 5 && g.world.balances.denote sevenOfTen 512 == 15

lemma of_hasPaidFive (h : g.hasPaidFive = true) : (∀ c ∈ g.world.constraints, c.Says sevenOfTen true) ∧
    g.world.balances.denote sevenOfTen 256 = 5 ∧ g.world.balances.denote sevenOfTen 512 = 15 := by
  simp only [hasPaidFive, Bool.and_eq_true, List.all_eq_true, beq_iff_eq, Option.isNone_iff_eq_none] at h
  obtain ⟨⟨hall, hpayer⟩, hpayee⟩ := h
  exact ⟨fun c hc => ⟨(hall c hc).1.1, (hall c hc).1.2, (hall c hc).2⟩, hpayer, hpayee⟩

end GState

namespace Explore

/-! ## Calls that borrow code -/

/-- A call that only borrows the code of another account pays all the same: what it sends along, if there is no code to
run, and what its own frame was given, if it passes that on. Apart from that it pays itself or nothing, and nobody is
paid if there is no account to call. -/
theorem borrowed_code_pays (hsound : g.machine.Sound) (hactive : (g.world.find? g.env.active).isSome = true)
    (hperforms : g.Performs k.opcode s o s₁) (hrun : execute {} g s = .ok result s') :
    (CallsNobody g s → ∀ g' ∈ result.successors, g.world.Settled g'.world) ∧
    ∀ {a x callee p σ f}, g.Calling a x callee → s.code.programs[callee.code]? = some p →
      g.world.balances.Denotes σ f → ∀ g' ∈ result.successors,
      (k = .callcode → ∀ {i v}, g.machine.stack[2]? = some i → i.IsAmount σ v →
        (p.code.isEmptyText = true →
          g.world.Balanced σ (paid f a x v) g'.world ∧ (g.world.Balanced σ f g'.world ↔ v = 0 ∨ a = x)) ∧
        (p.code.isEmptyText = false → g.world.Balanced σ f g'.world)) ∧
      (k = .delegatecall →
        (p.code.isEmptyText = true → g.world.Balanced σ f g'.world) ∧
        (p.code.isEmptyText = false → ∀ {sender c u}, g.env.sender = .expr sender → sender.Equals c →
          g.env.callValue.IsAmount σ u →
          g.world.Balanced σ (paid f c a u) g'.world ∧ (g.world.Balanced σ f g'.world ↔ u = 0 ∨ c = a))) := by
  refine ⟨fun hnobody => execute_unpaid hsound hactive hnobody hperforms hrun, ?_⟩
  intro a x callee p σ f hg hp hw g' hg'
  have hpaid {q r v} (hpays : Payment g.env g.machine.stack σ a x k (!p.code.isEmptyText) q r v) :
      g.world.Balanced σ (paid f q r v) g'.world ∧ (g.world.Balanced σ f g'.world ↔ v = 0 ∨ q = r) := by
    have hbalanced := execute_pays hsound hg hp hw hpays hperforms hrun g' hg'
    exact ⟨hbalanced, hbalanced.unchanged_iff (hg.known hpays.receiver)⟩
  constructor
  · rintro rfl i v hi hv
    constructor
    · intro hcode
      rw [hcode] at hpaid
      exact hpaid (.atOnce hi hv)
    · intro hcode
      rw [hcode] at hpaid
      exact (hpaid (.own hi hv)).2.2 (.inr rfl)
  · rintro rfl
    constructor
    · intro hcode
      rw [hcode] at hpaid
      exact (hpaid (.atOnce rfl ⟨0, rfl, rfl⟩)).2.2 (.inl rfl)
    · intro hcode sender c u hsender hc hu
      rw [hcode] at hpaid
      exact hpaid (.again hsender hc hu)

/-- The account at 256 gets the three once more when the code that it borrows begins to run. -/
theorem borrowed_code_pays_again : ∃ result s',
    execute {} (.given [100000, 512, 0, 0, 0, 0] false) (.ofCodes ["f4", "00"]) = .ok result s' ∧
    result.successors.length = 1 ∧ ∀ g' ∈ result.successors,
      World.Balanced (GState.given [] false).world sevenOfTen (paid (fun _ => 10) 768 256 3) g'.world ∧
      (World.Balanced (GState.given [] false).world sevenOfTen (fun _ => 10) g'.world ↔
        (3 : Word) = 0 ∨ (768 : Word) = 256) := by
  let g : GState := .given [100000, 512, 0, 0, 0, 0] false
  let s : Session := .ofCodes ["f4", "00"]
  obtain ⟨o, s₁, hperforms, result, s', hrun, hlength⟩ : ∃ o s₁, g.Performs .delegatecall s o s₁ ∧
      ∃ result s', execute {} g s = .ok result s' ∧ result.successors.length = 1 := by decide +kernel
  have hw : g.world.balances.Denotes sevenOfTen fun _ => 10 := ⟨rfl, fun _ => rfl⟩
  refine ⟨result, s', hrun, hlength, fun g' hg' => ?_⟩
  obtain ⟨-, hcalls⟩ := borrowed_code_pays (k := .delegatecall) (GState.given_sound (by decide)) rfl hperforms hrun
  obtain ⟨-, hdelegates⟩ := hcalls (GState.given_calling rfl) rfl hw g' hg'
  exact (hdelegates rfl).2 (by decide +kernel) rfl ⟨rfl, rfl, rfl, rfl⟩ ⟨3, rfl, rfl⟩

/-- Borrowing the code of an account that has none, with five, gives that account the five. -/
theorem borrowing_nothing_pays_five : ∃ result s' g',
    execute {} (.given [100000, 512, 5, 0, 0, 0, 0] false) (.ofCodes ["f2", ""]) = .ok result s' ∧
    result.successors = [g'] ∧ (∀ c ∈ g'.world.constraints, c.Says sevenOfTen true) ∧
    g'.world.balances.denote sevenOfTen 256 = 5 ∧ g'.world.balances.denote sevenOfTen 512 = 15 := by
  have hleads : LeadsTo (.given [100000, 512, 5, 0, 0, 0, 0] false) (.ofCodes ["f2", ""]) fun g' _ => g'.hasPaidFive := by
    decide +kernel
  obtain ⟨result, s', hrun, g', hg', htest⟩ := hleads
  exact ⟨result, s', g', hrun, hg', GState.of_hasPaidFive htest⟩

/-! ## Static frames -/

/-- In a static frame nothing but a call moves ether. A call pays as in any other frame: an account without code at once,
and otherwise when the new frame begins. Only a plain call that has code to run is guarded: its frame is given nothing, in
whatever way its conditions are met, and what is known to be something is refused. -/
theorem static_frames_pay {op : Opcode} (hstatic : g.env.isStatic = true) (hbacks : s.Backs g.frames)
    (hperforms : g.Performs op s o s₁) (hrun : execute {} g s = .ok result s') :
    ((∀ k : CallKind, op ≠ k.opcode) → op ≠ .revert → ∀ g' ∈ result.successors, g.world.Settled g'.world) ∧
    (∀ k : CallKind, op = k.opcode → g.machine.Sound →
      ((g.world.find? g.env.active).isSome = true → CallsNobody g s →
        ∀ g' ∈ result.successors, g.world.Settled g'.world) ∧
      ∀ {a x callee p σ f q r v}, g.Calling a x callee → s.code.programs[callee.code]? = some p →
        g.world.balances.Denotes σ f → Payment g.env g.machine.stack σ a x k (!p.code.isEmptyText) q r v →
        ∀ g' ∈ result.successors, g.world.Balanced σ (paid f q r v) g'.world ∧
          (g.world.Balanced σ f g'.world ↔ v = 0 ∨ q = r) ∧
          (k = .call → p.code.isEmptyText = false → (∀ c ∈ g'.world.constraints, c.Says σ true) →
            g.world.Balanced σ f g'.world)) ∧
    (op = .call → g.machine.Sound → ∀ {i : Expr} {v x : Word}, g.machine.stack[2]? = some (.expr i) → i.Equals v →
      v ≠ 0 → g.Calls x → Callee.isPrecompile x.toNat = false ∧ ∀ {a callee p}, g.Calling a x callee →
        s.code.programs[callee.code]? = some p → p.code.isEmptyText = true) ∧
    ∀ {i : Expr} {v : Word} (s : Session), i.Equals v → v ≠ 0 → ∃ s', Step.guardStatic (.expr i) g s =
      .error (.vm .writeProtection "Cannot call with non zero value in a static call") s' := by
  refine ⟨fun hcalls hreverts => ?_, ?_, ?_, fun s hv hne => Step.guardStatic_refuses hstatic hv hne s⟩
  · have hcreates := op.creates_of_mutates (mutates_of_performs hstatic hperforms)
    exact execute_settled hcalls hcreates hreverts hbacks hperforms hrun
  · rintro k rfl hsound
    refine ⟨fun hactive hnobody => execute_unpaid hsound hactive hnobody hperforms hrun, ?_⟩
    intro a x callee p σ f q r v hg hp hw hpays g' hg'
    have hbalanced := execute_pays hsound hg hp hw hpays hperforms hrun g' hg'
    have hunchanged := hbalanced.unchanged_iff (hg.known hpays.receiver)
    refine ⟨hbalanced, hunchanged, ?_⟩
    rintro rfl hcode hall
    rw [hcode] at hpays
    cases hpays with
    | @sent _ i _ hk hi hv =>
      have hpushed := hsound.stack i (List.mem_of_getElem? hi)
      cases i with
      | expr i => exact hunchanged.2 (.inl (execute_guarded hsound hstatic hi hv hg hp hcode hperforms hrun g' hg' hall))
      | _ => exact hpushed.elim
  · rintro rfl hsound i v x hi hv hne hx
    constructor
    · by_contra hprecompile
      exact hne (performs_guarded hsound hstatic hi hv hx hperforms (.inl (Bool.not_eq_false _ ▸ hprecompile)))
    · intro a callee p hg hp
      by_contra hcode
      exact hne (performs_guarded hsound hstatic hi hv hx hperforms
        (.inr ⟨a, callee, p, hg, hp, Bool.not_eq_true _ ▸ hcode⟩))

/-- From a static frame, the account at 512, which has no code, gets five; that it has none is why this is not refused. -/
theorem static_frames_pay_without_code : ∃ result s',
    execute {} (.given [100000, 512, 5, 0, 0, 0, 0] true) (.ofCodes ["f1", ""]) = .ok result s' ∧
    result.successors.length = 1 ∧ (Program.ofHex "").code.isEmptyText = true ∧ ∀ g' ∈ result.successors,
      World.Balanced (GState.given [] true).world sevenOfTen (paid (fun _ => 10) 256 512 5) g'.world ∧
      (World.Balanced (GState.given [] true).world sevenOfTen (fun _ => 10) g'.world ↔
        (5 : Word) = 0 ∨ (256 : Word) = 512) := by
  let g : GState := .given [100000, 512, 5, 0, 0, 0, 0] true
  let s : Session := .ofCodes ["f1", ""]
  obtain ⟨o, s₁, hperforms, result, s', hrun, hlength⟩ : ∃ o s₁, g.Performs .call s o s₁ ∧
      ∃ result s', execute {} g s = .ok result s' ∧ result.successors.length = 1 := by decide +kernel
  have hw : g.world.balances.Denotes sevenOfTen fun _ => 10 := ⟨rfl, fun _ => rfl⟩
  have hsound : g.machine.Sound := GState.given_sound (by decide)
  have hbacks : s.Backs g.frames := by
    intro tx n rest h
    cases congrArg Frame.caller (List.cons.inj h).1
  have hfive : (Expr.literal 5).Equals (5 : Word) := ⟨rfl, rfl, rfl, rfl⟩
  obtain ⟨-, hcalls, hrefused, -⟩ := static_frames_pay rfl hbacks hperforms hrun
  have hcalling : g.Calling 256 512 (.bare 512 1) := GState.given_calling rfl
  have hprogram : s.code.programs[(Account.bare 512 1).code]? = some (.ofHex "") := rfl
  have hempty := (hrefused rfl hsound rfl hfive (by decide) hcalling.calls).2 hcalling hprogram
  refine ⟨result, s', hrun, hlength, hempty, fun g' hg' => ?_⟩
  have hpays : Payment g.env g.machine.stack sevenOfTen 256 512 .call (!(Program.ofHex "").code.isEmptyText) 256 512 5 := by
    rw [hempty]
    exact .atOnce rfl hfive.denotes
  obtain ⟨hpaid, hunchanged, -⟩ := (hcalls .call rfl hsound).2 hcalling hprogram hw hpays g' hg'
  exact ⟨hpaid, hunchanged⟩

/-- A static frame calls an account without code, with five. The account has them, and the frame goes on. -/
theorem static_frame_pays_five : ∃ result s' g',
    execute {} (.given [100000, 512, 5, 0, 0, 0, 0] true) (.ofCodes ["f1", ""]) = .ok result s' ∧
    result.successors = [g'] ∧ (∀ c ∈ g'.world.constraints, c.Says sevenOfTen true) ∧
    g'.world.balances.denote sevenOfTen 256 = 5 ∧ g'.world.balances.denote sevenOfTen 512 = 15 := by
  have hleads : LeadsTo (.given [100000, 512, 5, 0, 0, 0, 0] true) (.ofCodes ["f1", ""]) fun g' _ => g'.hasPaidFive := by
    decide +kernel
  obtain ⟨result, s', hrun, g', hg', htest⟩ := hleads
  exact ⟨result, s', g', hrun, hg', GState.of_hasPaidFive htest⟩

end Explore
end EvmAudit
