import EvmAudit.Proofs.Calls

/-!
# Creations

A new account has a program of its own, without code, which nobody had before. It takes the place of an account that is
at its address already; all other accounts keep their programs.
-/

namespace EvmAudit

open Engine (of_bind_ok Calm)

variable {s s' : Session} {p : ProgramId} {nonce : Int} {a : Account} {w w' w1 : World} {n : NewAccount}
  {address m : Nat} {r : Account × World} {tx : Tx} {op : Opcode}

/-! ## New programs -/

/-- The session has grown, and a program without code has been added to it. -/
structure Session.Adds (s : Session) (p : ProgramId) (s' : Session) : Prop where
  grows : s.Grows s'
  fresh : s.code.programs.size ≤ p
  program : s'.code.programs[p]? = some { code := .hex "" }

namespace Session

variable {s'' : Session}

lemma Grows.size_le (h : s.Grows s') : s.code.programs.size ≤ s'.code.programs.size := by
  by_contra hlt
  exact Nat.lt_irrefl _ (h.size (Nat.lt_of_not_le hlt))

lemma Adds.of_grows (hs : s.Grows s') (h : s'.Adds p s'') : s.Adds p s'' :=
  ⟨hs.trans h.grows, Nat.le_trans hs.size_le h.fresh, h.program⟩

lemma Adds.grow (h : s.Adds p s') (hs : s'.Grows s'') : s.Adds p s'' :=
  ⟨h.grows.trans hs, h.fresh, hs.programs h.program⟩

end Session

lemma Engine.newProgram_adds (h : newProgram (.hex "") s = .ok p s') : s.Adds p s' := by
  have hs := Calm.ok h
  have hrun : newProgram (.hex "") s = .ok s.code.programs.size
      { s with code := { programs := s.code.programs.push { code := .hex "" }, selectors := s.code.selectors } } := by
    rw [newProgram, bind_ok (get_run s), Program.make_empty]
    rfl
  cases hrun.symm.trans h
  exact ⟨hs, Nat.le_refl _, by simp⟩

lemma Account.make_adds {address : Expr} {name : Option String} {concrete live : Bool}
    (h : make address name concrete live nonce none s = .ok a s') : s.Adds a.code s' := by
  obtain ⟨p, s1, hp, h⟩ := of_bind_ok h
  obtain ⟨hs', hcode⟩ : s1.Grows s' ∧ a.code = p := by
    refine Engine.Yields.ok (P := (·.code = p)) ?_ h
    cases name <;> exact .next fun _ _ => .next fun _ _ => .next fun _ _ => .pure rfl
  rw [hcode]
  exact (Engine.newProgram_adds hp).grow hs'

namespace World

lemma create_adds (hn : n.code = none) (h : w.create n address nonce s = .ok r s') : s.Adds r.1.code s' := by
  simp only [create, hn] at h
  obtain ⟨word, s1, hword, h⟩ := of_bind_ok h
  obtain ⟨a, s2, ha, h⟩ := of_bind_ok h
  have hs1 := Calm.ok hword
  obtain ⟨hs', hr⟩ : s2.Grows s' ∧ r.1 = a :=
    Engine.Yields.ok (P := (·.1 = a)) (.next fun _ _ => .next fun _ _ => .next fun _ _ => .pure rfl) h
  rw [hr]
  exact .of_grows hs1 ((Account.make_adds ha).grow hs')

/-! ## New accounts -/

/-- Accounts stay, with the programs that they have or with new ones. -/
abbrev Renews (n : Nat) (w w' : World) : Prop := w.Tracks (fun a a' => a'.code = a.code ∨ n ≤ a'.code) w'

namespace Renews

variable {n : Nat} {w'' : World}

lemma of_keeps (h : w.Keeps w') : w.Renews n w' where
  found ha :=
    have ⟨a', ha', hcode⟩ := h.found ha
    ⟨a', ha', .inl hcode⟩

lemma trans (h : w.Renews n w') (h' : w'.Renews n w'') : w.Renews n w'' :=
  Tracks.trans (fun h h' => h'.elim (fun heq => heq ▸ h) .inr) h h'

lemma mono (h : w.Renews n w') (hm : m ≤ n) : w.Renews m w' where
  found ha :=
    have ⟨a', ha', hcode⟩ := h.found ha
    ⟨a', ha', hcode.imp_right (Nat.le_trans hm)⟩

lemma put {key : Option Nat} (h : n ≤ a.code) : w.Renews n (w.put key a) :=
  Tracks.put (fun _ => .inr h) fun _ => .inl rfl

end Renews

lemma create_renews (hn : n.code = none) (h : w.create n address nonce s = .ok r s') :
    w.Renews s.code.programs.size r.2 := by
  obtain ⟨-, -, -, w1, ⟨hw1, -⟩, hput⟩ := (w.create_puts n address nonce s).ok h
  have haccounts : w1.accounts = w.accounts := by rw [hw1]
  rw [hput]
  exact .trans (.of_keeps (.of_accounts haccounts)) (.put (create_adds hn h).fresh)

lemma count_keeps (w : World) (creator : Option Nat) : w.Keeps (w.count creator) := by
  unfold count
  split
  · rename_i c hc
    obtain ⟨k, rfl, hk⟩ := Option.bind_eq_some_iff.1 hc
    refine .put ?_
    intro b hb
    cases hk.symm.trans hb
    rfl
  · exact .refl w

lemma create_constraints (h : w.create n address nonce s = .ok r s') : r.2.constraints = w.constraints := by
  obtain ⟨-, -, -, w1, ⟨hw1, -⟩, hput⟩ := (w.create_puts n address nonce s).ok h
  rw [hput, put, hw1]

lemma makeAccount_run {creator : Option Nat} {s1 : Session} (hn : n.code = none)
    (hw1 : w.Renews s.code.programs.size w1) (hcs : w1.constraints = w.constraints) (hs1 : s.Grows s1)
    (h : w1.makeAccount n creator nonce s1 = .ok (w', .ok a) s') : s.Adds a.code s' ∧
      w.Renews s.code.programs.size w' ∧ w'.constraints = w.constraints ∧ ∃ x : BitVec 256, a.address.Equals x := by
  unfold makeAccount at h
  cases haddress : w1.addressFor n with
  | error f =>
    rw [haddress] at h
    cases h
  | ok address =>
    rw [haddress] at h
    obtain ⟨⟨a', w2⟩, s2, hcreate, hpure⟩ := of_bind_ok h
    cases hpure
    refine ⟨.of_grows hs1 (create_adds hn hcreate), ?_, ?_, _, ((create_puts _ n address nonce s1).ok hcreate).2.1⟩
    · exact (hw1.trans (.of_keeps (w1.count_keeps creator))).trans ((create_renews hn hcreate).mono hs1.size_le)
    · refine (create_constraints hcreate).trans (.trans ?_ hcs)
      unfold count
      split <;> rfl

lemma createAccount_run (hn : n.code = none) (h : w.createAccount n s = .ok (w', .ok a) s') : s.Adds a.code s' ∧
    w.Renews s.code.programs.size w' ∧ w'.constraints = w.constraints ∧ ∃ x : BitVec 256, a.address.Equals x := by
  unfold createAccount at h
  cases hknown : w.find? n.creator with
  | some c =>
    rw [hknown] at h
    exact makeAccount_run hn (.of_keeps (.refl w)) rfl (.refl s) h
  | none =>
    cases hcreator : n.creator.filter (· != 0) with
    | none =>
      rw [hknown, hcreator] at h
      exact makeAccount_run hn (.of_keeps (.refl w)) rfl (.refl s) h
    | some c =>
      -- the creator is not there yet, and is made first
      rw [hknown, hcreator] at h
      obtain ⟨⟨_, w1⟩, s1, hfirst, h⟩ := of_bind_ok h
      have hs1 := Calm.ok hfirst
      exact makeAccount_run hn (create_renews rfl hfirst) (create_constraints hfirst) hs1 h

end World

/-! ## New frames -/

/-- The transaction makes an account with a new program, which is there at its address. -/
structure Tx.Makes (n : Nat) (w : World) (tx : Tx) (w' : World) : Prop where
  kind : tx.kind = .creation
  fresh : n ≤ tx.callee.code
  renews : w.Renews n w'
  entails : w'.constraints.Entails w.constraints
  placed : ∃ x : BitVec 256, tx.callee.address.Equals x ∧ w'.find? (some x.toNat) = some tx.callee

lemma Tx.Makes.of_within {n : Nat} {p : Footprint} (hw : w.Within p w1) (hm : m ≤ n) (h : tx.Makes n w1 w') :
    tx.Makes m w w' :=
  ⟨h.kind, Nat.le_trans hm h.fresh, (World.Renews.of_keeps hw.keeps).trans (h.renews.mono hm),
    h.entails.trans hw.entails, h.placed⟩

lemma Tx.creation_run {r : TxRequest} {name : String} {address : Option Nat}
    (h : creation w r name address s = .ok (tx, w') s') :
    tx.Makes s.code.programs.size w w' ∧ s.Adds tx.callee.code s' := by
  obtain ⟨caller, s1, hcaller, h⟩ := of_bind_ok h
  obtain ⟨creator, s2, hcreator, h⟩ := of_bind_ok h
  obtain ⟨⟨w1, made⟩, s3, hmade, h⟩ := of_bind_ok h
  have hs1 := Calm.ok hcaller
  have hs2 := hs1.trans (Calm.ok hcreator)
  cases made with
  | error f =>
    obtain ⟨_, _, hfail, _⟩ := of_bind_ok h
    cases hfail
  | ok a =>
    obtain ⟨hadds, hw1, hcs, x, hx⟩ := World.createAccount_run rfl hmade
    have hadds := Session.Adds.of_grows hs2 hadds
    have hw1 := hw1.mono hs2.size_le
    obtain ⟨⟨_, _⟩, _, hfail, h⟩ := of_bind_ok h
    cases hfail
    -- the account may get a name before it is put in its place
    dsimp -zeta only at h
    extract_lets callee at h
    have hcallee : callee.address = a.address ∧ callee.code = a.code := by
      simp only [callee]
      split <;> exact ⟨rfl, rfl⟩
    clear_value callee
    rw [← hcallee.1] at hx
    rw [← hcallee.2] at hadds
    obtain ⟨key, s5, hkey, h⟩ := of_bind_ok h
    obtain ⟨hs5, rfl⟩ := (Engine.Yields.calc hx.value?_gives.yields).ok hkey
    obtain ⟨tx', s6, hmake, hpure⟩ := of_bind_ok h
    cases hpure
    obtain ⟨hs6, hmade⟩ := (make_yields _ _ _ _ _).ok hmake
    obtain rfl := hmade.callee
    refine ⟨⟨hmade.kind, hadds.fresh, hw1.trans (.put hadds.fresh), ?_, x, hx, ?_⟩, hadds.grow (hs5.trans hs6)⟩
    · rw [World.put, hcs]
      exact .refl _
    · exact World.find?_put_self _ _ _

namespace Step

variable {α : Type} {x : Step α} {f : α → Step Effect}

/-- The frame goes on, or waits for the frame of a new account. -/
def Created (g : GState) (n : Nat) (e : Effect) (g' : GState) : Prop :=
  match e with
  | .next => g.Within { loads := true } g'
  | .call tx => g'.frames = g.frames ∧ g'.env = g.env ∧ tx.Makes n g.world g'.world
  | _ => False

lemma Created.of_within {g g1 g' : GState} {n : Nat} {e : Effect} (hg : g.Within { loads := true } g1) (hm : m ≤ n)
    (h : Created g1 n e g') : Created g m e g' := by
  cases e with
  | next => exact hg.trans h
  | call tx => exact ⟨h.1.trans hg.frames, h.2.1.trans hg.env, h.2.2.of_within hg.world hm⟩
  | branch | halt => exact h

def Creates (x : Step Effect) : Prop := ∀ g s, x.Yields g s (Created g s.code.programs.size)

lemma Creates.next [Result α] [hx : Calm { loads := true } x] (hf : ∀ a, Creates (f a)) : Creates (x >>= f) := fun g s =>
  (hx.keeps g s nofun).bind fun a g' s' hs hg => (hf a g' s').mono fun _ _ h => h.of_within hg.1 hs.size_le

lemma Creates.throw (e : Fault) : Creates (throw e) := fun _ _ => .throw e

def OnlyCreates (x : Step Effect) : Prop := ∀ g s, x.Yields g s fun e g' => ∃ tx, e = .call tx ∧
  g'.frames = g.frames ∧ g'.env = g.env ∧ tx.Makes s.code.programs.size g.world g'.world

lemma OnlyCreates.next [Result α] [hx : Calm .all x] (hf : ∀ a, OnlyCreates (f a)) : OnlyCreates (x >>= f) := by
  intro g s
  refine (hx.keeps g s (absurd · (by decide))).bind fun a g1 s1 hs1 hg1 => (hf a g1 s1).mono ?_
  rintro _ g2 ⟨tx, rfl, hframes, henv, hmakes⟩
  exact ⟨tx, rfl, hframes.trans hg1.1.frames, henv.trans hg1.1.env, hmakes.of_within hg1.1.world hs1.size_le⟩

lemma OnlyCreates.creates {x : Step Effect} (h : OnlyCreates x) : Creates x := fun g s => (h g s).mono fun _ _ he => by
  obtain ⟨tx, rfl, hmakes⟩ := he
  exact hmakes

lemma createFrom_onlyCreates (value : Item) (data : Calldata) (length : Nat) (code : List Nat) (salt : Option Item) :
    OnlyCreates (createFrom value data length code salt) := by
  refine .next fun id => .next fun bytes => .next fun arguments => .next fun program => .next fun e =>
    .next fun g => .next fun _ => ?_
  rcases salt with _ | salt
  on_goal 2 => refine .next fun salt => ?_
  all_goals
    refine .next fun address g s => .world (.get (.upon (.of_run fun _ _ h => (Tx.creation_run h).1) ?_))
    rintro ⟨tx, w⟩ s1 _ hmakes
    exact .modify (.pure ⟨tx, rfl, rfl, rfl, hmakes⟩)

lemma createWith_creates (value start size : Item) (salt : Option Item) :
    Creates (createWith value start size salt) := by
  refine .next fun stop => .next fun data => ?_
  split
  on_goal 1 => refine .next fun v => ?_
  all_goals
    refine .next fun length => .next fun code => ?_
    split
    · exact fun g s => ((pushInt_calm 1).keeps g s (Bool.noConfusion ·)).bind fun _ _ _ _ hg => .pure hg.1
    · exact (createFrom_onlyCreates value data length code salt).creates

end Step

lemma Opcode.effectOf_creates (h : op.creates = true) : op.effectOf.Creates := by
  cases op with
  | create =>
    refine .next fun operands => ?_
    split
    · exact Step.createWith_creates _ _ _ none
    · exact .throw _
  | create2 =>
    refine .next fun operands => ?_
    split
    · exact Step.createWith_creates _ _ _ (some _)
    · exact .throw _
  | _ => cases h

/-- The frame goes on in states of its own, or waits for the frame of a new account. -/
def Outcome.Creates (g : GState) (n : Nat) : Outcome → Prop
  | .states gs => ∀ g' ∈ gs, g.Passes { loads := true } true true g'
  | .call tx waiting => waiting.frames = g.frames ∧ waiting.env = g.env ∧ tx.Makes n g.world waiting.world
  | .halt _ _ _ => False

lemma Opcode.settles_of_creates (h : op.creates = true) : op.isMetered = true ∧ op.advances = true := by
  cases op with
  | create | create2 => exact ⟨rfl, rfl⟩
  | _ => cases h

lemma GState.perform_creates (h : op.creates = true) (g : GState) (s : Session) :
    (g.perform op).Yields s (Outcome.Creates g s.code.programs.size) := by
  simp only [perform, op.settles_of_creates h]
  split
  · exact .throw _
  refine (run_leads (P := Step.Created g s.code.programs.size) ?_ true true).mono ?_
  · intro g1 s1 hs1 hcopy hcs _
    have hg1 : g.Within { loads := true } g1 := .of_copyOf hcopy fun _ => hcs
    exact (Opcode.effectOf_creates h g1 s1).mono fun _ _ hcreated => hcreated.of_within hg1 hs1.size_le
  rintro o ⟨e, g', hcreated, hleads⟩
  cases e with
  | next =>
    obtain ⟨gs', rfl, -, hgs'⟩ := hleads
    intro g1 hg1
    obtain ⟨g2, hg2, hsettles⟩ := hgs' g1 hg1
    obtain rfl := List.mem_singleton.1 hg2
    exact ⟨g2, g1, g1.node, hcreated, hsettles, rfl⟩
  | call tx =>
    obtain rfl := hleads
    exact hcreated
  | branch | halt => exact hcreated.elim

/-!
# One step

One step of an exploration, whatever the instruction: the frame of the state goes on, a deeper frame starts and the state
waits for it, or the frame ends and the caller that waits below it goes on. The callers that wait stay where they are.
-/

variable {g final : GState} {o : Outcome} {data : Option ReturnData} {reverted : Bool}

/-- The caller that the innermost frame is to go back to is there, and waits below it. -/
def Session.Backs (s : Session) (frames : List Frame) : Prop :=
  ∀ tx n rest, frames = ⟨tx, some n⟩ :: rest → ∃ c, s.shared.suspended[n]? = some c ∧ c.frames = rest

lemma GState.perform_suspended (h : g.perform op s = .ok o s') : s'.shared.suspended = s.shared.suspended := by
  cases hdata : op.returnsData with
  | false => exact (((g.perform_calm hdata).grows s).ok h).1.suspended
  | true =>
    by_cases hg : g.IsCreation
    · have hends := perform_ends hg hdata s
      rw [h] at hends
      cases hends with
      | dropped _ hs | assigned _ _ _ hs => exact hs.suspended
    · exact ((perform_closes (op.halts_of_returnsData hdata) (fun hc => hg hc.1) s).ok h).1.suspended

/-! ## One step -/

namespace Explore

variable {g' c last : GState} {n : Nat} {s₁ : Session} {r : GState.Executed}

/-- What a waiting caller is called back as, when the frame that it waits for ends in a state. -/
inductive Recalls (c last : GState) : GState → Prop
  | fails : Recalls c last (failed c last)
  | hands {data : Option ReturnData} {reverted : Bool} {c' : GState} (h : Handed c last data reverted c') :
      Recalls c last c'

/-- How a state comes to be followed by another. -/
inductive Succeeds (g : GState) (s : Session) (g' : GState) (s' : Session) : Prop
  | goesOn {op : Opcode} {gs : List GState} (hperforms : g.Performs op s (.states gs) s') (hg' : g' ∈ gs)
  | starts {op : Opcode} {tx : Tx} {waiting : GState} {s₁ : Session} (hperforms : g.Performs op s (.call tx waiting) s₁)
      (hstart : startFrame g tx waiting.world s₁ = .ok g' s')
  /-- The frame has ended, and its caller goes on. -/
  | returns {tx : Tx} {n : Nat} {c c' : GState} {gs : List GState} {s₁ : Session}
      (hframes : g.frames = ⟨tx, some n⟩ :: c.frames) (hcaller : s.shared.suspended[n]? = some c)
      (hrecalls : Recalls c g c') (hs₁ : s₁.loader.isNone = s.loader.isNone)
      (hresume : resume c' g.node s₁ = .ok gs s') (hg' : g' ∈ gs)

lemma Recalls.frames (h : Recalls c last g) : g.frames = c.frames := by
  cases h with
  | fails => rfl
  | hands h => exact h.frames

lemma Recalls.env (h : Recalls c last g) : g.env = c.env := by
  cases h with
  | fails => rfl
  | hands h => exact h.env

lemma halts_of_performs (h : g.Performs op s (.halt final data reverted) s₁) : op.halts = true := by
  by_contra hop
  have hop := Bool.eq_false_iff.2 hop
  cases hcreates : op.creates with
  | true => exact ((g.perform_creates hcreates s).ok h.run).2
  | false => exact ((GState.perform_within true hop hcreates nofun).ok h.run).2

lemma final_frames (h : g.Performs op s (.halt final data reverted) s₁) : final.frames = g.frames := by
  obtain ⟨final', data', heq, hfinal⟩ := GState.perform_halts (halts_of_performs h) h.run
  rw [(Outcome.halt.inj heq).1]
  exact hfinal

section Returns

-- what is known of the caller that the frame is to go back to
variable {F : GState → List Frame → Prop}
  (hcaller : ∀ tx n rest, g.frames = ⟨tx, some n⟩ :: rest → ∃ c, s.shared.suspended[n]? = some c ∧ F c rest)

include hcaller

lemma faults_returns (hfaults : g.Faults op s s₁) (h : execute {} g s = .ok r s') (hg' : g' ∈ r.successors) :
    ∃ tx n rest c s2, g.frames = ⟨tx, some n⟩ :: rest ∧ s.shared.suspended[n]? = some c ∧ F c rest ∧
      s2.loader.isNone = s.loader.isNone ∧ resume (failed c g) g.node s2 = .ok r.successors s' := by
  have hs1 := hfaults.grows
  rw [execute_faults hfaults] at h
  obtain ⟨p, s2, hp, hpure⟩ := Engine.of_bind_ok h
  cases hpure
  rcases hframes : g.frames with _ | ⟨⟨tx, _ | n⟩, rest⟩
  · rw [fail_unobserved, hframes] at hp
    cases hp
  · rw [fail_unobserved, hframes] at hp
    cases hp
    cases hg'
  · obtain ⟨c, hc, hrest⟩ := hcaller tx n rest hframes
    obtain ⟨s2, hs2, hresume⟩ := fail_run hframes (hs1.suspended ▸ hc) hp
    exact ⟨tx, n, rest, c, s2, rfl, hc, hrest, hs2.loader.trans hs1.loader, hresume⟩

lemma halts_returns (hperforms : g.Performs op s (.halt final data reverted) s₁) (h : execute {} g s = .ok r s')
    (hg' : g' ∈ r.successors) : ∃ tx n rest c c' s2, g.frames = ⟨tx, some n⟩ :: rest ∧
      s.shared.suspended[n]? = some c ∧ F c rest ∧ Handed c g data reverted c' ∧
      s2.loader.isNone = s.loader.isNone ∧ resume c' g.node s2 = .ok r.successors s' := by
  have hs1 := (g.perform_mild op).goes s
  rw [Engine.after_ok hperforms.run] at hs1
  rw [execute_performs hperforms] at h
  obtain ⟨p, s2, hp, hpure⟩ := Engine.of_bind_ok h
  cases hpure
  rw [finishFrame_unobserved, final_frames hperforms] at hp
  rcases hframes : g.frames with _ | ⟨⟨tx, _ | n⟩, rest⟩
  · rw [hframes] at hp
    cases hp
  · rw [hframes] at hp
    dsimp only at hp
    split at hp
    all_goals
      cases hp
      cases hg'
  · rw [hframes] at hp
    obtain ⟨gs, s2, hback, hpure⟩ := Engine.of_bind_ok hp
    cases hpure
    obtain ⟨c, hc, hrest⟩ := hcaller tx n rest hframes
    obtain ⟨c', s3, hhanded, hs3, hresume⟩ := handBack_run (GState.perform_suspended hperforms.run ▸ hc) hback
    exact ⟨tx, n, rest, c, c', s3, rfl, hc, hrest, hhanded, hs3.loader.trans hs1.loader, hresume⟩

end Returns

/-- One step: every state that follows another does so in one of three ways. -/
lemma execute_succeeds (hbacks : s.Backs g.frames) (h : execute {} g s = .ok r s') :
    ∀ g' ∈ r.successors, Succeeds g s g' s' := by
  intro g' hg'
  obtain ⟨-, hnone⟩ | ⟨op, s₁, hfaults | ⟨o, hperforms⟩⟩ := execute_cases h
  · rw [hnone] at hg'
    cases hg'
  · obtain ⟨tx, n, _, c, s2, hframes, hc, rfl, hs2, hresume⟩ := faults_returns hbacks hfaults h hg'
    exact .returns hframes hc .fails hs2 hresume hg'
  cases o with
  | states gs =>
    rw [execute_performs hperforms] at h
    cases h
    exact .goesOn hperforms hg'
  | call tx waiting =>
    rw [execute_performs hperforms] at h
    obtain ⟨start, s2, hstart, hpure⟩ := Engine.of_bind_ok h
    cases hpure
    obtain rfl := List.mem_singleton.1 hg'
    exact .starts hperforms hstart
  | halt final data reverted =>
    obtain ⟨tx, n, _, c, c', s2, hframes, hc, rfl, hhanded, hs2, hresume⟩ := halts_returns hbacks hperforms h hg'
    exact .returns hframes hc (.hands hhanded) hs2 hresume hg'

/-! ## Callers after a step -/

/-- The callers that wait after a state has been executed: those that waited before, one of them perhaps with what the end
of the frame left to it, and the state itself. -/
def Files (g : GState) (s s' : Session) : Prop :=
  ∀ (n : Nat) (c' : GState), s'.shared.suspended[n]? = some c' → s.shared.suspended[n]? = some c' ∨ c' = g ∨
    ∃ c, s.shared.suspended[n]? = some c ∧ (c' = failed c g ∨ c' = noted c g)

lemma Turns.files {worlds : List World} (h : Turns g s worlds s') : Files g s s' := by
  obtain ⟨s₁, s2, hs1, hturned, hs2⟩ := h
  intro n c' hc'
  rw [hs2.suspended] at hc'
  rw [← hs1.suspended]
  cases hturned with
  | same | opens => exact .inl hc'
  | waits =>
    change (s₁.shared.suspended.push g)[n]? = some c' at hc'
    rw [Array.getElem?_push] at hc'
    split at hc'
    · cases hc'
      exact .inr (.inl rfl)
    · exact .inl hc'
  | @recalls m c hc =>
    change (s₁.shared.suspended.setIfInBounds m c)[n]? = some c' at hc'
    by_cases hm : m = n
    · subst hm
      rw [Array.getElem?_setIfInBounds_self] at hc'
      split at hc'
      · rename_i hn
        cases hc'
        rw [Array.getD_eq_getD_getElem?, Array.getElem?_eq_getElem hn] at hc
        exact .inr (.inr ⟨_, Array.getElem?_eq_getElem hn, hc⟩)
      · cases hc'
    · rw [Array.getElem?_setIfInBounds_ne hm] at hc'
      exact .inl hc'

/-- What a state leaves to the callers, unless the analysis is at its end. -/
lemma execute_files (g : GState) (s : Session) (h : ∀ f s', execute {} g s = .error f s' → ¬ f.IsFinal) :
    Files g s ((execute {} g).after s) := by
  obtain ⟨s₁, worlds, hs1, hturns⟩ := execute_turns g s
  have hsame : s₁.shared.suspended = s.shared.suspended := by
    rcases hs1 with rfl | ⟨i, hi, hroom, rfl⟩
    · rfl
    cases hrun : g.perform i.opcode s with
    | ok o s₁ =>
      rw [Engine.after_ok hrun]
      exact GState.perform_suspended hrun
    | error f s₁ =>
      rw [Engine.after_error hrun]
      refine ((GState.perform_error hrun).resolve_left ?_).suspended
      cases f with
      | vm v text => exact not_isFinal_vm v text
      | _ => exact h _ _ (execute_stops ⟨⟨i, hi, rfl⟩, hroom, hrun, nofun⟩)
  intro n c' hc'
  rw [← hsame]
  exact hturns.files n c' hc'

/-! ## Frames after a step -/

/-- An instruction that does not end the frame keeps to its footprint, unless it makes an account. -/
lemma performs_within (loads : Bool) (h : g.Performs op s o s')
    (ho : ∀ final data reverted, o ≠ .halt final data reverted) (hcreates : op.creates = false)
    (hoff : loads = false → s.loader.isNone = true) : o.Within (op.footprint loads) op.isMetered op.advances g := by
  cases hop : op.halts with
  | true =>
    obtain ⟨_, _, hhalt, -⟩ := GState.perform_halts hop h.run
    exact absurd hhalt (ho _ _ _)
  | false => exact ((GState.perform_within loads hop hcreates hoff).ok h.run).2

lemma performs_passes {gs : List GState} (h : g.Performs op s (.states gs) s') (hg' : g' ∈ gs) :
    g.Passes (op.footprint true) op.isMetered op.advances g' := by
  cases hcreates : op.creates with
  | true =>
    have hpasses := ((g.perform_creates hcreates s).ok h.run).2 g' hg'
    cases op with
    | create | create2 => exact hpasses
    | _ => cases hcreates
  | false => exact (performs_within true h (fun _ _ _ => nofun) hcreates nofun).2 g' hg'

lemma Succeeds.frames (h : Succeeds g s g' s') : g'.frames = g.frames ∨
    (∃ tx n, g'.frames = ⟨tx, some n⟩ :: g.frames ∧ s'.shared.suspended[n]? = some g) ∨
    ∃ tx n c, g.frames = ⟨tx, some n⟩ :: c.frames ∧ s.shared.suspended[n]? = some c ∧ g'.frames = c.frames := by
  cases h with
  | goesOn hperforms hg' => exact .inl (performs_passes hperforms hg').stays.frames
  | starts hperforms hstart =>
    obtain ⟨hframes, hsuspended, -⟩ := startFrame_run hstart
    exact .inr (.inl ⟨_, _, hframes, by rw [hsuspended, Array.getElem?_push_size]⟩)
  | returns hframes hcaller hrecalls hs1 hresume hg' =>
    have hpasses := resume_passes hresume hg'
    exact .inr (.inr ⟨_, _, _, hframes, hcaller, hpasses.stays.frames.trans hrecalls.frames⟩)

end Explore
end EvmAudit
