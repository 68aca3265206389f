import EvmAudit.Proofs.Calls

/-!
# Commit and rollback

What a frame has done is there in the caller when it stops or returns, and nothing of it is there when it reverts or
fails: storage, balances, codes and nonces are those of the frame's last state, or those that the caller had when it
reached the call.
-/

namespace EvmAudit

variable {g g' : GState} {k : CallKind} {i : Instr} {s : Session}

/-! ## Accounts that hold the same -/

/-- All accounts of a world are there and hold the same, and every balance reads the same. There are no other accounts,
unless the one at the given place was missing. -/
structure World.Intact (active : Option Nat) (w w' : World) : Prop where
  accounts : ∀ {key a}, w.find? key = some a → ∃ a', w'.find? key = some a' ∧ a.Intact a'
  balances : w'.balances = w.balances
  complete : (w.find? active).isSome → ∀ {key}, w.find? key = none → w'.find? key = none

namespace World.Intact

variable {active : Option Nat} {w w' w'' : World}

lemma refl (active : Option Nat) (w : World) : w.Intact active w := ⟨(Unwritten.refl w).found, rfl, fun _ _ h => h⟩

lemma trans (h : w.Intact active w') (h' : w'.Intact active w'') : w.Intact active w'' where
  accounts := (Unwritten.trans ⟨h.accounts⟩ ⟨h'.accounts⟩).found
  balances := h'.balances.trans h.balances
  complete hactive _ hkey := by
    obtain ⟨a, ha⟩ := Option.isSome_iff_exists.1 hactive
    obtain ⟨a', ha', -⟩ := h.accounts ha
    exact h'.complete (by rw [ha']; rfl) (h.complete hactive hkey)

lemma of_copyFor (h : w.CopyFor active w') : w.Intact active w' where
  accounts := (Unwritten.of_copyFor h).found
  balances := h.balances
  complete hactive key := (none_iff_of_rel ((h.copyOf hactive).find? key)).2

lemma constrained (h : w.Intact active w') (cs : Constraints) : w.Intact active { w' with constraints := cs } := { h with }

end World.Intact

lemma GState.Waits.intact (h : g.Waits g') (active : Option Nat) : g.world.Intact active g'.world := by
  obtain ⟨cs, _, _, rfl⟩ := h
  exact (World.Intact.refl active g.world).constrained cs

lemma GState.Waits.env (h : g.Waits g') : g'.env = g.env := by
  obtain ⟨_, _, _, rfl⟩ := h
  rfl

lemma GState.Resumes.intact {c : GState} (h : c.Resumes k i s g) (hs : s.loader.isNone = true) :
    c.world.Intact c.env.active g.world := by
  obtain ⟨c1, found, hcopy, -, hfinished, -⟩ := h
  obtain ⟨w, added, -, hoff, -, hworld⟩ := hfinished.world
  rw [hworld, hoff hs]
  exact (World.Intact.of_copyFor hcopy.world).constrained _

namespace Explore

variable {caller start last : GState} {k : CallKind} {n : Nat} {s' s₀ s₁ s₂ s₃ : Session} {r : GState.Executed}

variable {op : Opcode} {o : Outcome}

section

variable (h : Awaits caller i n last s) (hk : i.opcode = k.opcode) (hoffline : s.loader.isNone = true)
include h hk hoffline

/-- When a frame has halted without reverting, the caller goes on in the world that the frame was in before it halted. -/
lemma Awaits.commits (hop : op.halts = true) (hrevert : op ≠ .revert) (hperforms : last.Performs op s o s₁)
    (hr : execute {} last s = .ok r s') : ∀ g ∈ r.successors, last.world.Intact caller.env.active g.world := by
  intro g hg
  obtain ⟨c, hc, hwaits⟩ := h.suspended
  obtain ⟨-, data, c', s₂, -, hhanded, hs2, hresumes⟩ := h.halts hk hc hop hperforms hr
  have hintact := (hresumes g hg).intact (hs2.trans hoffline)
  rw [hhanded.env, hwaits.env] at hintact
  have hcommits := (hhanded.commits (beq_eq_false_iff_ne.2 hrevert)).1
  exact (World.Intact.of_copyFor (hcommits.copyFor _)).trans hintact

lemma Awaits.reverts (hperforms : last.Performs .revert s o s₁) (hr : execute {} last s = .ok r s') :
    ∀ g ∈ r.successors, caller.world.Intact caller.env.active g.world := by
  intro g hg
  obtain ⟨c, hc, hwaits⟩ := h.suspended
  obtain ⟨-, data, c', s₂, -, hhanded, hs2, hresumes⟩ := h.halts hk hc rfl hperforms hr
  obtain ⟨w, hcopy, hworld⟩ := hhanded.reverts rfl
  have hintact := (hresumes g hg).intact (hs2.trans hoffline)
  rw [hhanded.env, hwaits.env, hworld] at hintact
  rw [hwaits.env] at hcopy
  exact (hwaits.intact _).trans (((World.Intact.of_copyFor hcopy).constrained _).trans hintact)

lemma Awaits.undoes (hfaults : last.Faults op s s₁) (hr : execute {} last s = .ok r s') :
    ∀ g ∈ r.successors, caller.world.Intact caller.env.active g.world := by
  intro g hg
  obtain ⟨c, hc, hwaits⟩ := h.suspended
  obtain ⟨-, s₂, hs2, hresumes⟩ := h.fails hk hc hfaults hr
  have hfailed : caller.Waits (failed c last) := hwaits.trans ⟨_, _, c.notes, rfl⟩
  exact (hfailed.intact _).trans (hfailed.env ▸ (hresumes g hg).intact (hs2.trans hoffline))

end

/-- A call takes effect as a whole or not at all. If its frame stops or returns, every state that goes on in the caller
has the accounts and balances of the last state of the frame; if the frame reverts or fails, it has those that the caller
had at the call. That no creation ends meanwhile is a condition on the run. -/
theorem commits_or_rolls_back (hoffline : s₀.loader.isNone = true)
    (hstart : Starts caller k s₀ start s₁) (hworks : Works GState.LeavesCode s₁ s₂)
    (hlast : last.frames = start.frames) (hr : execute {} last s₂ = .ok r s₃) :
    (∀ op o s', op = .stop ∨ op = .ret → last.Performs op s₂ o s' → ∀ g ∈ r.successors,
      last.world.Intact caller.env.active g.world ∧ s₂.KeepsCode s₃) ∧
    (∀ op s', (∃ o, op = .revert ∧ last.Performs op s₂ o s') ∨ last.Faults op s₂ s' → ∀ g ∈ r.successors,
      caller.world.Intact caller.env.active g.world ∧ s₀.KeepsCode s₃) := by
  obtain ⟨i, n, hk, hawaits, hs₂⟩ := hstart.awaits_last hworks hlast
  have hs₃ : s₂.Evolves False s₃ := (execute_evolves_run hr).mono fun hends => hawaits.not_isCreation hends.1
  have hoffline := hs₂.loader.trans hoffline
  refine ⟨fun op o s' hop hperforms g hg => ⟨?_, hs₃.programs id⟩, fun op s' hend g hg => ⟨?_, ?_⟩⟩
  · rcases hop with rfl | rfl
    · exact hawaits.commits hk hoffline (show Opcode.stop.halts = true from rfl) (by decide) hperforms hr g hg
    · exact hawaits.commits hk hoffline (show Opcode.ret.halts = true from rfl) (by decide) hperforms hr g hg
  · rcases hend with ⟨o, rfl, hperforms⟩ | hfaults
    · exact hawaits.reverts hk hoffline hperforms hr g hg
    · exact hawaits.undoes hk hoffline hfaults hr g hg
  · exact (hs₂.trans hs₃).programs id

def payment : GState := .ofOperands [100000, 512, 5, 0, 0, 0, 0]

/-- A payment is kept by a code that stops at once, and undone by one that fails at once. -/
theorem payment_kept_or_undone :
    (∃ start s₁ r s₃, Starts payment .call (.ofCodes ["f1", "00"]) start s₁ ∧ execute {} start s₁ = .ok r s₃ ∧
      r.successors.length = 1 ∧ ∀ g ∈ r.successors, start.world.Intact (some 256) g.world ∧ s₁.KeepsCode s₃) ∧
    ∃ start s₁ r s₃, Starts payment .call (.ofCodes ["f1", "fe"]) start s₁ ∧ execute {} start s₁ = .ok r s₃ ∧
      r.successors.length = 1 ∧ ∀ g ∈ r.successors,
        payment.world.Intact (some 256) g.world ∧ Session.KeepsCode (.ofCodes ["f1", "fe"]) s₃ := by
  have hstop : ∃ start s₁, Starts payment .call (.ofCodes ["f1", "00"]) start s₁ ∧ ∃ o s', start.Performs .stop s₁ o s' ∧
      ∃ r s₃, execute {} start s₁ = .ok r s₃ ∧ r.successors.length = 1 := by decide +kernel
  have hinvalid : ∃ start s₁, Starts payment .call (.ofCodes ["f1", "fe"]) start s₁ ∧ (∃ s', start.Faults .invalid s₁ s') ∧
      ∃ r s₃, execute {} start s₁ = .ok r s₃ ∧ r.successors.length = 1 := by decide +kernel
  constructor
  · obtain ⟨start, s₁, hstart, o, s', hperforms, r, s₃, hr, hone⟩ := hstop
    refine ⟨start, s₁, r, s₃, hstart, hr, hone, ?_⟩
    exact (commits_or_rolls_back rfl hstart .start rfl hr).1 .stop o s'
      (.inl rfl) hperforms
  · obtain ⟨start, s₁, hstart, ⟨s', hfaults⟩, r, s₃, hr, hone⟩ := hinvalid
    refine ⟨start, s₁, r, s₃, hstart, hr, hone, ?_⟩
    exact (commits_or_rolls_back rfl hstart .start rfl hr).2 .invalid s'
      (.inr hfaults)

end Explore

/-!
# What a call comes back with

Where a call names an account that is there, the states that go on in the caller are determined by how the frame has
ended: the flag stands where the operands stood, and one condition at most is added about it. Whether one is added, and
which, depends on whether data were returned, on the kind of the call, and on whether it says where the answer goes; it
does not depend on whether the frame has succeeded.
-/

open GState

/-! ## Ends of frames -/

/-- How a frame ends: by a fault of the machine, or by an instruction that halts it. -/
inductive Ending where
  | fault
  | halt (op : Opcode)

namespace Ending

def commits : Ending → Bool
  | .fault => false
  | .halt op => op != .revert

def returns : Ending → Bool
  | .fault => false
  | .halt op => op.returnsData

/-- The value that the flag is said to have afterwards. -/
def verdict (e : Ending) (k : CallKind) (knowsRange : Bool) : Option Int :=
  if e.returns then if knowsRange then some 1 else none
  else if k = .callcode ∨ k = .delegatecall then some 0 else none

/-- The conditions that a frame leaves with its caller for good. -/
def left (e : Ending) (last : GState) : Constraints :=
  match e with
  | .fault => last.world.constraints
  | .halt _ => []

/-- The notes that follow a frame back to its caller. -/
def carried (e : Ending) (last : GState) : List Note :=
  match e with
  | .fault => []
  | .halt _ => last.notes.filter Note.followsCalls

end Ending

def GState.Ends (g : GState) (e : Ending) (s : Session) : Prop :=
  match e with
  | .fault => ∃ op s', g.Faults op s s'
  | .halt op => op.halts = true ∧ ∃ o s', g.Performs op s o s'

structure GState.Names (g : GState) (x : BitVec 256) : Prop where
  sound : g.machine.Sound
  calls : g.Calls x
  reaches : g.world.Reaches x

variable {c c' : GState} {x : BitVec 256}

lemma Note.CopyOf.trans {n n' n'' : Note} (h : n.CopyOf n') (h' : n'.CopyOf n'') : n.CopyOf n'' := by
  rcases h with rfl | ⟨r, r', rfl, rfl⟩
  · exact h'
  · rcases h' with rfl | ⟨_, r'', _, rfl⟩
    · exact .inr ⟨r, r', rfl, rfl⟩
    · exact .inr ⟨r, r'', rfl, rfl⟩

lemma Note.copyOf_trans {ns ns' ns'' : List Note} (h : List.Forall₂ CopyOf ns ns') (h' : List.Forall₂ CopyOf ns' ns'') :
    List.Forall₂ CopyOf ns ns'' := by
  induction h generalizing ns'' with
  | nil => exact h'
  | cons h _ ih =>
    cases h' with
    | cons h' hs' => exact .cons (h.trans h') (ih hs')

lemma World.Reaches.of_intact {w w' : World} {active : Option Nat} (h : w.Reaches x) (hw : w.Intact active w') :
    w'.Reaches x := by
  rcases h with h | h
  · exact .inl h
  · obtain ⟨a, ha⟩ := Option.isSome_iff_exists.1 h
    obtain ⟨a', ha', -⟩ := hw.accounts ha
    exact .inr (by rw [ha']; rfl)

/-! ## The flag -/

/-- The flag of the call, and what is said about it, are all that is new in a state. -/
structure GState.Flagged (c : GState) (k : CallKind) (i : Instr) (said : Option Int) (g : GState) : Prop where
  stack : ∃ flag : Expr, flag.term = c.flag i ∧ g.machine.stack = .expr flag :: c.machine.stack.drop k.arity
  constraints : ∃ added, g.world.constraints = c.world.constraints ++ added ∧
    added.map Expr.term = said.toList.map (c.flag i).flagIs
  notes : List.Forall₂ Note.CopyOf c.notes g.notes

/-- A caller that names an account that is there is called back with the flag. -/
lemma GState.Resumes.flagged (h : c.Resumes k i s g) (hc : c.Names x) (hs : s.loader.isNone = true) :
    c.Flagged k i (c.verdict k) g := by
  obtain ⟨c1, found, hcopy, hconstraints, hfinished, hfound⟩ := h
  have hmachine := hcopy.machine.of_sound hc.sound
  have hstack : c1.machine.stack = c.machine.stack := by rw [hmachine]
  have hflag : c1.flag i = c.flag i := by
    unfold flag tx?
    rw [hcopy.rest]
  have hverdict : c1.verdict k = c.verdict k := by
    have hreturn : c1.lastReturn = c.lastReturn := by rw [hcopy.rest]
    unfold verdict knowsRange
    rw [hreturn, hstack]
  have hcalls : c1.Calls x := by
    obtain ⟨e, he, hx⟩ := hc.calls
    exact ⟨e, by rw [hstack, he], hx⟩
  -- the account is still there, so the call is finished as one that was answered
  obtain rfl : found = true := (hfound x hcalls hs).2 (hc.reaches.of_intact (.of_copyFor hcopy.world))
  obtain ⟨flag, hterm, hst⟩ := hfinished.stack
  obtain ⟨w, added, -, -, hadded, hworld⟩ := hfinished.world
  refine ⟨⟨flag, hterm.trans hflag, by rw [hst, hstack]⟩, ⟨added, ?_, ?_⟩, ?_⟩
  · rw [hworld, hconstraints]
  · rw [hadded, hflag, if_pos rfl, hverdict]
  · rw [hfinished.notes]
    exact hcopy.notes

lemma GState.Names.of_waits (h : c.Names x) (hc : c.Waits c') : c'.Names x := by
  obtain ⟨_, _, _, rfl⟩ := hc
  exact { h with }

namespace Explore

variable {caller last : GState} {n : Nat} {e : Ending} {s' : Session} {r : GState.Executed}

/-- The caller after the frame has ended, as it waits for others that it may be called back from. -/
def outlived (c last : GState) : Ending → GState
  | .fault => failed c last
  | .halt _ => noted c last

def conditions (c last : GState) (e : Ending) : Constraints :=
  if e.commits then last.world.constraints else c.world.constraints ++ last.world.constraints

/-- A state that goes on in a suspended caller after a frame has ended. -/
structure Returned (c last : GState) (e : Ending) (k : CallKind) (i : Instr) (g : GState) : Prop where
  stack : ∃ flag : Expr, flag.term = c.flag i ∧ g.machine.stack = .expr flag :: c.machine.stack.drop k.arity
  constraints : ∃ added, g.world.constraints = conditions c last e ++ added ∧
    added.map Expr.term = (e.verdict k (c.knowsRange k)).toList.map (c.flag i).flagIs
  notes : List.Forall₂ Note.CopyOf (c.notes ++ e.carried last) g.notes

/-- After a halt the called account is there, and the conditions are those of the frame, behind those of the caller if the
frame has reverted. -/
lemma Handed.world {op : Opcode} {data : Option ReturnData} (h : Handed c last data (op == .revert) c')
    (hc : c.world.Reaches x) (hlast : last.world.Reaches x) :
    c'.world.Reaches x ∧ c'.world.constraints = conditions c last (.halt op) := by
  have hcommits : (Ending.halt op).commits = !(op == .revert) := rfl
  rw [conditions, hcommits]
  cases hrevert : op == .revert with
  | true =>
    obtain ⟨w, hw, hworld⟩ := h.reverts hrevert
    have hreaches := hc.of_intact (.of_copyFor hw)
    rw [hworld]
    exact ⟨hreaches, rfl⟩
  | false =>
    obtain ⟨hw, hconstraints, -⟩ := h.commits hrevert
    have hintact : last.world.Intact none c'.world := .of_copyFor (hw.copyFor none)
    exact ⟨hlast.of_intact hintact, hconstraints⟩

/-- A state that a caller is called back in, seen from the state that was suspended. -/
lemma Returned.of_flagged (hstack : c'.machine.stack = c.machine.stack) (hframes : c'.frames = c.frames)
    (hreturn : c'.lastReturn.isSome = e.returns) (hconditions : c'.world.constraints = conditions c last e)
    (hnotes : List.Forall₂ Note.CopyOf (c.notes ++ e.carried last) c'.notes) (h : c'.Flagged k i (c'.verdict k) g) :
    Returned c last e k i g := by
  have hflag : c'.flag i = c.flag i := by
    unfold flag tx?
    rw [hframes]
  have hverdict : c'.verdict k = e.verdict k (c.knowsRange k) := by
    unfold verdict Ending.verdict knowsRange
    rw [hreturn, hstack]
  refine ⟨?_, ?_, Note.copyOf_trans hnotes h.notes⟩
  · rw [← hflag, ← hstack]
    exact h.stack
  · rw [← hconditions, ← hflag, ← hverdict]
    exact h.constraints

/-- Whatever a frame ends by, the states that go on in the caller are determined by it, and so is the state that the caller
is kept in. -/
lemma Awaits.returned (h : Awaits caller i n last s) (hk : i.opcode = k.opcode) (hoffline : s.loader.isNone = true)
    (hc : s.shared.suspended[n]? = some c) (hcaller : caller.Names x) (hlast : last.world.Reaches x)
    (hends : last.Ends e s) (hr : execute {} last s = .ok r s') :
    s'.shared.suspended = s.shared.suspended.setIfInBounds n (outlived c last e) ∧
      ∀ g ∈ r.successors, Returned c last e k i g := by
  have hnames := hcaller.of_waits (h.waits hc)
  cases e with
  | fault =>
    obtain ⟨op, s₁, hfaults⟩ := hends
    obtain ⟨hsuspended, s₂, hs2, hresumes⟩ := h.fails hk hc hfaults hr
    refine ⟨hsuspended, fun g hg => ?_⟩
    have hfailed : (failed c last).Names x := hnames.of_waits ⟨_, _, c.notes, rfl⟩
    refine .of_flagged ?_ ?_ ?_ ?_ ?_ ((hresumes g hg).flagged hfailed (hs2.trans hoffline))
    · rfl
    · rfl
    · rfl
    · rfl
    · rw [Ending.carried, List.append_nil]
      exact List.forall₂_same.2 fun _ _ => .inl rfl
  | halt op =>
    obtain ⟨hop, o, s₁, hperforms⟩ := hends
    obtain ⟨hsuspended, data, c', s₂, hdata, hhanded, hs2, hresumes⟩ := h.halts hk hc hop hperforms hr
    refine ⟨hsuspended, fun g hg => ?_⟩
    obtain ⟨hsound, hst⟩ := hnames.sound.copy (hhanded.machine h.not_isCreation)
    have hcalls : c'.Calls x := by
      obtain ⟨e, he, hx⟩ := hnames.calls
      exact ⟨e, by rw [hst, he], hx⟩
    have hreturn : c'.lastReturn.isSome = (Ending.halt op).returns := by rw [hhanded.returned, hdata]; rfl
    obtain ⟨hreaches, hconditions⟩ := hhanded.world hnames.reaches hlast
    have hflagged := (hresumes g hg).flagged ⟨hsound, hcalls, hreaches⟩ (hs2.trans hoffline)
    exact .of_flagged hst hhanded.frames hreturn hconditions hhanded.notes hflagged

/-! ## What the flag tells -/

/-- The conditions can hold while the flag has this value. -/
def Allows (flag : Term) (cs : List Expr) (v : BitVec 256) : Prop :=
  ∃ σ : Valuation, flag.Denotes σ v ∧ ∀ c ∈ cs, c.Says σ true

lemma says_flagIs {σ : Valuation} {flag : Term} {v : BitVec 256} (h : flag.Denotes σ v) (m : Int) :
    (flag.flagIs m).Says σ true ↔ BitVec.ofInt 256 m = v := by
  have hdenote : (flag.flagIs m).denote σ = Term.ofBool (v.toNat == (BitVec.ofInt 256 m).toNat) := by
    unfold Term.flagIs
    rw [Term.denote, h.denote]
    rfl
  constructor
  · intro hsays
    have htrue := hsays.denote
    rw [hdenote] at htrue
    cases heq : v.toNat == (BitVec.ofInt 256 m).toNat with
    | true => exact (BitVec.eq_of_toNat_eq (eq_of_beq heq)).symm
    | false =>
      rw [heq] at htrue
      cases htrue
  · rintro rfl
    exact ⟨rfl, by rw [hdenote, beq_self_eq_true], by simp [Term.flagIs, Term.overrun, Term.ofInt, h.room]⟩

/-- A condition on the value of the flag allows that value only, and no condition allows every value. -/
lemma allows_iff {added : List Expr} {said : Option Int} (h : added.map Expr.term = said.toList.map (c.flag i).flagIs)
    (v : BitVec 256) : Allows (c.flag i) added v ↔ ∀ m ∈ said, BitVec.ofInt 256 m = v := by
  constructor
  · rintro ⟨σ, hflag, hadded⟩ m rfl
    obtain ⟨d, rfl, hd⟩ := List.map_eq_singleton_iff.1 h
    have hsays : d.term.Says σ true := hadded d (List.mem_singleton_self d)
    rw [hd] at hsays
    exact (says_flagIs hflag m).1 hsays
  · intro hsaid
    have hflag : (c.flag i).Denotes ⟨fun _ => v.toNat, fun _ _ => 0⟩ v :=
      ⟨rfl, rfl, by simp only [flag, Term.denote]; omega, rfl⟩
    refine ⟨_, hflag, fun d hd => ?_⟩
    have hterm : d.term ∈ said.toList.map (c.flag i).flagIs := h ▸ List.mem_map_of_mem hd
    obtain ⟨m, hm, hd⟩ := List.mem_map.1 hterm
    have hsays := (says_flagIs hflag m).2 (hsaid m (Option.mem_toList.1 hm))
    rwa [hd] at hsays

lemma verdict_one {b : Bool} : (∀ m ∈ e.verdict k b, BitVec.ofInt 256 m = 1) ↔
    e.returns = true ∨ k = .call ∨ k = .staticcall := by
  unfold Ending.verdict
  cases e.returns <;> cases b <;> cases k <;> decide

lemma verdict_zero {b : Bool} : (∀ m ∈ e.verdict k b, BitVec.ofInt 256 m = 0) ↔ ¬ (e.returns = true ∧ b = true) := by
  unfold Ending.verdict
  cases e.returns <;> cases b <;> cases k <;> decide

variable {start : GState} {s₀ s₁ s₂ s₃ : Session}

/-- The conditions on the flag of a call say whether data were returned, and not whether the call has succeeded. The flag
can be one unless a call with borrowed code has returned nothing, and it can be zero unless data were returned to a
place that is known. No creation may end meanwhile. -/
theorem flag_tells_of_data (hoffline : s₀.loader.isNone = true) (hcaller : caller.Names x)
    (hstart : Starts caller k s₀ start s₁) (hworks : Works GState.LeavesCode s₁ s₂)
    (hlast : last.frames = start.frames) (hreaches : last.world.Reaches x) (hends : last.Ends e s₂)
    (hr : execute {} last s₂ = .ok r s₃) :
    ∃ i, caller.due s₂ = some i ∧ ∀ g ∈ r.successors, ∃ c flag added, caller.Waits c ∧ flag.term = caller.flag i ∧
      g.machine.stack = .expr flag :: caller.machine.stack.drop k.arity ∧
      g.world.constraints = conditions c last e ++ added ∧
      (Allows flag.term added 1 ↔ e.returns = true ∨ k = .call ∨ k = .staticcall) ∧
      (Allows flag.term added 0 ↔ ¬ (e.returns = true ∧ caller.knowsRange k = true)) := by
  obtain ⟨i, n, hk, hawaits, hs₂⟩ := hstart.awaits_last hworks hlast
  obtain ⟨c, hc, hwaits⟩ := hawaits.suspended
  obtain ⟨-, hreturned⟩ := hawaits.returned hk (hs₂.loader.trans hoffline) hc hcaller hreaches hends hr
  refine ⟨i, hawaits.due, fun g hg => ?_⟩
  obtain ⟨flag, hflag, hstack⟩ := (hreturned g hg).stack
  obtain ⟨added, hconstraints, hadded⟩ := (hreturned g hg).constraints
  have hsame : c.machine = caller.machine ∧ c.flag i = caller.flag i := by
    obtain ⟨_, _, _, rfl⟩ := hwaits
    exact ⟨rfl, rfl⟩
  have hknows : c.knowsRange k = caller.knowsRange k := by
    unfold knowsRange
    rw [hsame.1]
  refine ⟨c, flag, added, hwaits, hflag.trans hsame.2, hsame.1 ▸ hstack, hconstraints, ?_, ?_⟩
  · rw [hflag, allows_iff hadded, verdict_one]
  · rw [hflag, allows_iff hadded, verdict_zero, hknows]

/-- A call of the account at 512 with that account's code only. -/
def delegation : GState := .ofOperands [100000, 512, 0, 0, 0, 0]

lemma delegation_names : delegation.Names 512 :=
  ⟨ofOperands_sound (by decide), ⟨.literal 512, rfl, rfl, rfl, rfl, rfl⟩, .inr rfl⟩

lemma delegation_starts : ∃ start s₁, Starts delegation .delegatecall (.ofCodes ["f4", "00"]) start s₁ ∧
    (start.world.find? (some 512)).isSome ∧ ∃ o s', start.Performs .stop s₁ o s' ∧
    ∃ r s₃, execute {} start s₁ = .ok r s₃ ∧ r.successors.length = 1 := by
  decide +kernel

/-- A delegated call of a code that stops at once. -/
theorem flag_tells_of_data_stop : ∃ start s₁ r s₃ i, Starts delegation .delegatecall (.ofCodes ["f4", "00"]) start s₁ ∧
    execute {} start s₁ = .ok r s₃ ∧ r.successors.length = 1 ∧ delegation.due s₁ = some i ∧
    ∀ g ∈ r.successors, ∃ c flag added, delegation.Waits c ∧ flag.term = delegation.flag i ∧
      g.machine.stack = .expr flag :: delegation.machine.stack.drop 6 ∧
      g.world.constraints = conditions c start (.halt .stop) ++ added ∧
      (Allows flag.term added 1 ↔
        (Ending.halt .stop).returns = true ∨ CallKind.delegatecall = .call ∨ CallKind.delegatecall = .staticcall) ∧
      (Allows flag.term added 0 ↔
        ¬ ((Ending.halt .stop).returns = true ∧ delegation.knowsRange .delegatecall = true)) := by
  obtain ⟨start, s₁, hstart, hfound, o, s', hperforms, r, s₃, hr, hone⟩ := delegation_starts
  obtain ⟨i, hi, htells⟩ := flag_tells_of_data (e := .halt .stop) rfl delegation_names hstart .start
    rfl (.inr hfound) ⟨rfl, o, s', hperforms⟩ hr
  exact ⟨start, s₁, r, s₃, i, hstart, hr, hone, hi, htells⟩

/-- A delegated call that has stopped is said to have failed. -/
theorem stopped_delegation_denied : ∃ start s₁ r s₃ g flag added,
    Starts delegation .delegatecall (.ofCodes ["f4", "00"]) start s₁ ∧ (∃ o s', start.Performs .stop s₁ o s') ∧
    execute {} start s₁ = .ok r s₃ ∧ g ∈ r.successors ∧ g.machine.stack = [.expr flag] ∧
    g.world.constraints = start.world.constraints ++ added ∧ ¬ Allows flag.term added 1 := by
  obtain ⟨start, s₁, hstart, hfound, o, s', hperforms, r, s₃, hr, hone⟩ := delegation_starts
  obtain ⟨g, hg⟩ := List.length_eq_one_iff.1 hone
  have hmem : g ∈ r.successors := hg ▸ List.mem_singleton_self g
  obtain ⟨i, n, hk, hawaits⟩ := hstart.awaits
  obtain ⟨c, hc, hwaits⟩ := hawaits.suspended
  have hreturned := (hawaits.returned (e := .halt .stop) hk (hstart.evolves.loader.trans rfl) hc delegation_names
    (.inr hfound) ⟨rfl, o, s', hperforms⟩ hr).2 g hmem
  obtain ⟨flag, hflag, hstack⟩ := hreturned.stack
  obtain ⟨added, hconstraints, hadded⟩ := hreturned.constraints
  refine ⟨start, s₁, r, s₃, g, flag, added, hstart, ⟨o, s', hperforms⟩, hr, hmem, ?_, hconstraints, ?_⟩
  · obtain ⟨_, _, _, rfl⟩ := hwaits
    exact hstack
  · rw [hflag, allows_iff hadded, verdict_one]
    decide

end Explore
end EvmAudit
