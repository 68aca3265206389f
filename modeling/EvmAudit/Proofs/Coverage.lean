import EvmAudit.Proofs.Mirror
import EvmAudit.Proofs.Operations
import EvmAudit.Proofs.Unobserved

/-!
# Coverage of the runs of the machine

Whatever values the variables take, every run of the reference machine is followed by a path of the exploration: after as
many steps there is a state whose conditions are true and whose place, stack and memory mean those of the machine.

One step of the machine is one call of `Explore.execute` (`execute_covers`), and a run follows by induction. The
disassembler drops a trailer of metadata, so the machine must not run into it; where a place in code or memory is needed,
it has to be known without the variables; and a left shift must not form a number that has no room.
-/

namespace EvmAudit

open List GState Instr Evm Step Nat Explore

variable {code : List Nat} {c c' : Config} {s' : Session} {n least most arity : Nat} {step : EvmAudit.Step Effect}
  {ws : List Word} {x y : Word} {f : Word → Word → Word} {ctx : Evm.Context} {g1 g' : GState}

/-! ## The reference machine -/

namespace Evm

lemma Config.Sound.touch (h : c.Sound) (a n : Nat) : (c.touch a n).Sound where
  room := h.room
  aligned := by
    have := h.aligned
    simp only [Config.touch, grownSize]
    omega
  blank i hi := h.blank i (le_trans (le_max_left _ _) hi)
  paid := by
    have := h.paid
    simp only [Config.touch, growthFee]
    omega

lemma Config.Sound.write (h : c.Sound) {memory : Nat → BitVec 8} (hm : ∀ i, c.size ≤ i → memory i = c.memory i) :
    { c with memory := memory }.Sound :=
  { h with blank := fun i hi => (hm i hi).trans (h.blank i hi) }

lemma Config.Sound.next (h : c.Sound) (cost : Nat) (stack : List Word) (hroom : stack.length ≤ 1024) (n : Nat) :
    (c.next cost stack n).Sound :=
  h.update hroom rfl rfl (le_add_right _ _)

lemma sound_initial : ({} : Config).Sound := ⟨by decide, rfl, fun _ _ => rfl, by decide⟩

lemma Step.sound (h : Step code ctx c c') (hc : c.Sound) : c'.Sound := by
  have hroom := hc.room
  cases h with
  | binary _ _ hst | unary _ _ hst | pop _ hst =>
    refine hc.next _ _ ?_ 0
    simp only [hst, length_cons] at hroom ⊢
    omega
  | nullary _ _ h | dup _ _ _ _ h => exact hc.next _ (_ :: c.stack) h 0
  | push _ _ _ h => exact hc.next _ (_ :: c.stack) h _
  | swap => exact hc.next _ _ (by simpa using hroom) 0
  | jumpdest => exact hc.next _ _ hroom 0
  | mload _ hst =>
    refine (hc.touch _ _).next _ _ ?_ 0
    simpa [hst] using hroom
  | @mstore a x rest _ hst | @mstore8 a x rest _ hst =>
    simp only [hst, length_cons] at hroom
    refine ((hc.touch a.toNat _).next 3 rest (by omega) 0).write fun i hi => ?_
    have hfits := le_trans (le_grownSize c.size a.toNat _) hi
    exact if_neg (by omega)
  | jump _ hst _ | branch _ hst _ _ | pass _ hst _ =>
    refine hc.update ?_ rfl rfl (le_add_right _ _)
    simp only [Config.next, hst, length_cons] at hroom ⊢
    omega

lemma Step.gas_le (h : Step code ctx c c') : c.gas ≤ c'.gas := by
  cases h with
  | mload | mstore | mstore8 =>
    simp only [Config.next, Config.touch]
    omega
  | _ => exact le_add_right _ _

end Evm

/-! ## Performing an instruction -/

variable {S : Setting} {g : GState} {s : Session} {b : Nat}

lemma Setting.Affords.mono {m : Nat} (h : S.Affords m) (hle : n ≤ m) : S.Affords n := by
  refine ⟨le_trans (Int.ofNat_le.2 hle) h.machine, ?_⟩
  have htx := h.tx
  split at htx
  · obtain ⟨w, x, hx, hlt⟩ := htx
    exact ⟨w, x, hx, fun hk => lt_of_le_of_lt hle (hlt hk)⟩
  · obtain ⟨n, hn, hlt⟩ := htx
    exact ⟨n, hn, lt_of_le_of_lt (Int.ofNat_le.2 hle) hlt⟩

section

variable (h : g.Mirrors S s c) (hb : S.code[c.pc]? = some b)
include h hb

lemma GState.Mirrors.instr_does : g.instr.Does s (·.opcode = opcodeOf b) := by
  obtain ⟨i, hpc, hi⟩ := h.pc
  refine (GState.instr_does h.runs hpc (hi.getElem? hb)).mono ?_
  rintro _ rfl
  rfl

lemma GState.meter_does (hcost : (opcodeOf b).cost = (least, most)) (hafford : S.Affords (c.gas + least)) :
    g.meter.Does s (· = { g with machine := g.machine.useGas least most }) := by
  refine (h.instr_does hb).bind fun i s1 _ hi => ?_
  rw [hi, hcost]
  have hpaid := h.useGas least most
  refine .given (hafford.checkGas hpaid.limit hpaid.tx hpaid.gas) fun _ _ _ _ => ?_
  exact .pure rfl

lemma GState.run_does (hs : s.Grows s') (hc : c.Sound) (hcost : (opcodeOf b).cost = (least, most))
    (hpc : c'.pc = c.pc) (hafford : S.Affords (c'.gas + least))
    (hkept : c.pc + 1 + immediateLength b < S.code.length → c.pc + 1 + immediateLength b < keptLength S.code)
    (hstep : ∀ g1 s1, s.Grows s1 → g1.Mirrors S s c → g1.machine.stack = g.machine.stack →
      step.Does g1 s1 (fun eff g' => eff = .next ∧ g'.Mirrors S s c')) :
    (g.run step true true).Does s' (fun o => ∃ g', o = .states [g'] ∧
      g'.Mirrors S s { c' with pc := c.pc + 1 + immediateLength b, gas := c'.gas + least }) := by
  refine (copy_does (h.sound hc.room) false).bind ?_
  rintro g1 s1 hs1 ⟨hcopy, -⟩
  have hstack := ((h.sound hc.room).copy hcopy.machine).2
  obtain ⟨eff, g2, s2, hrun, hs2, rfl, hg2⟩ := hstep g1 s1 (hs.trans hs1) (h.copy hc hcopy) hstack
  refine .bind ⟨_, s2, hrun, hs2, rfl⟩ ?_
  rintro _ s3 hs3 rfl
  have hg3 := hg2.grow (hs.trans (hs1.trans hs3))
  refine (Engine.Does.mapM (S := fun g g' => g' = { g with machine := g.machine.useGas least most }) ?_).bind ?_
  · intro g hg s4 hs4
    obtain rfl := mem_singleton.1 hg
    exact meter_does (hg3.grow hs4) (hpc ▸ hb) hcost hafford
  intro gs s4 _ hgs
  obtain ⟨g3, _, rfl, hnil, rfl⟩ := forall₂_cons_left_iff.1 hgs
  cases hnil
  refine .pure ⟨_, rfl, ?_⟩
  obtain ⟨i, hi, hloc⟩ := hg2.pc
  rw [hpc] at hloc
  have hmoved := (hg2.useGas least most).goto (hloc.next hb hkept)
  rw [Int.natCast_add, ← hi] at hmoved
  exact hmoved

/-- A successor that is explored shows the machine in this configuration. -/
def Explore.Covers (S : Setting) (s : Session) (g : GState) (c : Config) : Prop :=
  (execute {} g).Does s fun r => ∃ g' ∈ r.successors, g'.Mirrors S s c

lemma Explore.execute_does (hneeds : (opcodeOf b).needs ≤ c.stack.length) (hquiet : (opcodeOf b).mutates = false)
    (hrun : ∀ s1, s.Grows s1 → (g.run (opcodeOf b).effectOf (opcodeOf b).isMetered
      (opcodeOf b).advances).Does s1 (fun o => ∃ gs, o = .states gs ∧ ∃ g' ∈ gs, g'.Mirrors S s c')) :
    Covers S s g c' := by
  unfold Covers
  rw [execute_unobserved]
  obtain ⟨i, hpc, hi⟩ := h.pc
  rw [hpc]
  refine (instrAt?_does h.runs i).bind ?_
  rintro _ s1 hs1 rfl
  rw [hi.getElem? hb]
  have hop : (ofByte S.code c.pc b).opcode = opcodeOf b := rfl
  have henough : ¬ g.machine.stack.length < (opcodeOf b).needs := by
    rw [h.stack.length_eq]
    exact not_lt.2 hneeds
  simp only [executeAt, hop, henough]
  simp only [perform, hquiet]
  refine (Engine.Does.attempt (hrun s1 hs1)).bind ?_
  rintro _ s2 _ ⟨_, rfl, gs, rfl, hgs⟩
  exact .pure hgs

end

/-- What is common to the bytes of instructions that do not jump: a cost, a number of operands, and the length of an
immediate. -/
structure Evm.Plain (b least arity n : Nat) : Prop where
  cost : (GState.opcodeOf b).cost.1 = least
  needs : (GState.opcodeOf b).needs = arity
  immediate : Evm.immediateLength b = n
  metered : (GState.opcodeOf b).isMetered = true
  advances : (GState.opcodeOf b).advances = true
  quiet : (GState.opcodeOf b).mutates = false

section Plain

variable (h : g.Mirrors S s c) (hc : c.Sound) (hb : S.code[c.pc]? = some b) (hop : Evm.Plain b least arity n)
  (hneeds : arity ≤ c.stack.length) (hkept : c.pc + 1 + n < S.code.length → c.pc + 1 + n < keptLength S.code)
include h hc hb hop hneeds hkept

lemma Explore.execute_plain (c' : Config) (hpc : c'.pc = c.pc) (hafford : S.Affords (c'.gas + least))
    (hstep : ∀ g1 s1, s.Grows s1 → g1.Mirrors S s c → g1.machine.stack = g.machine.stack →
      (opcodeOf b).effectOf.Does g1 s1 (fun eff g' => eff = .next ∧ g'.Mirrors S s c')) :
    Covers S s g (c'.next least c'.stack n) := by
  obtain rfl := hop.immediate
  refine execute_does h hb (hop.needs ▸ hneeds) hop.quiet fun s1 hs1 => ?_
  rw [hop.metered, hop.advances]
  have hcost : (opcodeOf b).cost = (least, (opcodeOf b).cost.2) := by rw [← hop.cost]
  refine (run_does h hb hs1 hc hcost hpc hafford hkept hstep).mono ?_
  rintro _ ⟨g', rfl, hg'⟩
  rw [← hpc] at hg'
  exact ⟨[g'], rfl, g', by simp, hg'⟩

lemma Explore.execute_leaves (hafford : S.Affords (c.gas + least))
    (hstep : ∀ g1 s1, s.Grows s1 → g1.Mirrors S s c → g1.machine.stack = g.machine.stack →
      (opcodeOf b).effectOf.Does g1 s1 (Leaves S.σ g1 ws)) :
    Covers S s g (c.next least ws n) := by
  refine execute_plain h hc hb hop hneeds hkept { c with stack := ws } rfl hafford ?_
  intro g1 s1 hs1 hg1 hst
  refine (hstep g1 s1 hs1 hg1 hst).mono ?_
  rintro _ _ ⟨rfl, st, hws, rfl⟩
  exact ⟨rfl, hg1.withStack hws⟩

end Plain

lemma Evm.Plain.of_opcode {op : Opcode} (hop : Opcode.ofByte? b = some op) (himm : immediateLength b = n)
    (hcost : op.cost.1 = least) (hneeds : op.needs = arity) (hmetered : op.isMetered = true)
    (hadvances : op.advances = true) (hquiet : op.mutates = false) : Plain b least arity n := by
  have heq : opcodeOf b = op := by rw [opcodeOf, hop, Option.getD_some]
  exact ⟨by rw [heq, hcost], by rw [heq, hneeds], himm, by rw [heq, hmetered], by rw [heq, hadvances],
    by rw [heq, hquiet]⟩

/-! ## One instruction of each kind -/

section Kinds

variable {σ : Valuation} {cost : Nat}

lemma Evm.plain_of_binary (hb : binary? b = some (f, cost)) : Plain b cost 2 0 := by
  unfold binary? at hb
  split at hb <;> cases hb <;> exact ⟨rfl, rfl, rfl, rfl, rfl, rfl⟩

lemma binary_leaves (hb : binary? b = some (f, cost)) (hknown : b = 0x1a → g.TopKnown) (hshift : HasRoom b x y)
    (hst : Stack.Words σ g.machine.stack (x :: y :: ws)) (hroom : ws.length < 1024) :
    (opcodeOf b).effectOf.Does g s (Leaves σ g (f x y :: ws)) := by
  obtain ⟨e, _, hstack, he, hst⟩ := hst.uncons
  obtain ⟨e', st, rfl, he', hst⟩ := hst.uncons
  have hroom : st.length < 1024 := hst.length_eq ▸ hroom
  exact (binary_puts hb hroom hstack he he' (fun h => hknown h e _ hstack) hshift).mono fun _ _ h => h.leaves hst

lemma Evm.plain_of_unary {f : Word → Word} (hb : unary? b = some (f, cost)) : Plain b cost 1 0 := by
  unfold unary? at hb
  split at hb <;> cases hb <;> exact ⟨rfl, rfl, rfl, rfl, rfl, rfl⟩

lemma unary_leaves {f : Word → Word} (hb : unary? b = some (f, cost)) (hst : Stack.Words σ g.machine.stack (x :: ws))
    (hroom : ws.length < 1024) : (opcodeOf b).effectOf.Does g s (Leaves σ g (f x :: ws)) := by
  obtain ⟨e, st, hstack, he, hst⟩ := hst.uncons
  exact (unary_puts hb (hst.length_eq ▸ hroom) hstack he).mono fun _ _ h => h.leaves hst

lemma Evm.plain_of_nullary (hx : nullary? ctx c b = some (x, cost)) : Plain b cost 0 0 := by
  unfold nullary? at hx
  split at hx <;> cases hx <;> exact ⟨rfl, rfl, rfl, rfl, rfl, rfl⟩

lemma nullary_leaves (h : g.Mirrors S s c) (hs : s.Grows s') (hb : S.code[c.pc]? = some b)
    (hx : nullary? S.ctx c b = some (x, cost)) (hroom : c.stack.length < 1024) :
    (opcodeOf b).effectOf.Does g s' (Leaves S.σ g (x :: c.stack)) := by
  unfold nullary? at hx
  split at hx <;> cases hx
  · exact .env (leave_leaves (.inl h.address) h.stack hroom)
  · exact .env (leave_leaves h.sender h.stack hroom)
  · exact .env (leave_leaves h.callValue h.stack hroom)
  · obtain ⟨i, hpc, hi⟩ := h.pc
    exact programCounter_leaves (h.runs.grow hs) hpc hi hb h.stack hroom
  · rw [← h.size]
    exact .machine (leave_leaves ⟨_, rfl, rfl⟩ h.stack hroom)

end Kinds

/-! ## Memory -/

lemma GState.Mirrors.touch (h : g.Mirrors S s c) (a n : Nat) : (grown g a n).Mirrors S s (c.touch a n) := by
  refine { h with size := ?_, gas := ?_ }
  · show grownSize g.machine.memory.size a n = grownSize c.size a n
    rw [h.size]
  · show g.machine.minGas + (growthFee g.machine.memory.size a n : Nat) =
      ((c.gas + growthFee c.size a n : Nat) : Int)
    rw [h.size, h.gas, Int.natCast_add]

lemma GState.TopKnown.of_stack (h : g.TopKnown) (hst : g1.machine.stack = g.machine.stack) : g1.TopKnown := by
  unfold TopKnown
  rwa [hst]

lemma GState.Mirrors.canTouch (h : g.Mirrors S s c) (hc : c.Sound) (hlimit : S.limit < 2 ^ 64) (hknown : g.TopKnown)
    {a : Nat} (hafford : S.Affords ((c.touch a n).gas + 3)) : CanTouch S.σ c.memory g a n := by
  have hgas := (hafford.mono (le_add_right _ 3)).machine
  refine ⟨hknown, h.memory, h.size ▸ hc.aligned, ⟨_, h.limit, ?_⟩, ?_⟩
  · rwa [h.size, h.gas]
  · rw [h.size]
    have hpaid := (hc.touch a n).paid
    show (c.touch a n).size < _
    by_contra hlarge
    have hwords : 2 ^ 58 ≤ (c.touch a n).size / 32 := by omega
    -- the fee of so many words is beyond every limit of 64 bits
    have hsquare := Nat.mul_le_mul hwords hwords
    unfold memoryFee at hpaid
    omega

section Memory

variable (h : g.Mirrors S s c) (hc : c.Sound) (hlimit : S.limit < 2 ^ 64) (hknown : g.TopKnown)
  (hkept : c.pc + 1 < S.code.length → c.pc + 1 < keptLength S.code)
include h hc hlimit hknown hkept

lemma Explore.execute_mload (hb : S.code[c.pc]? = some 0x51) (hst : c.stack = x :: ws)
    (hafford : S.Affords ((c.touch x.toNat 32).gas + 3)) :
    Covers S s g ((c.touch x.toNat 32).next 3 (readWord c.memory x.toNat :: ws)) := by
  have hroom := hc.room
  rw [hst, length_cons] at hroom
  have hop : Plain 0x51 3 1 0 := ⟨rfl, rfl, rfl, rfl, rfl, rfl⟩
  refine execute_plain h hc hb hop (by simp [hst]) hkept
    { c.touch x.toNat 32 with stack := readWord c.memory x.toNat :: ws } rfl hafford ?_
  intro g1 s1 hs1 hg1 hstack
  have htouch := hg1.canTouch hc hlimit (hknown.of_stack hstack) hafford
  refine (memoryLoad_leaves htouch (hst ▸ hg1.stack) (by omega)).mono ?_
  rintro _ _ ⟨rfl, st, hws, rfl⟩
  exact ⟨rfl, (hg1.touch x.toNat 32).withStack hws⟩

lemma Explore.execute_store {k : Nat} {f : Nat → BitVec 8} (hb : S.code[c.pc]? = some b) (hop : Plain b 3 2 0)
    (hst : c.stack = x :: y :: ws) (hafford : S.Affords ((c.touch x.toNat k).gas + 3))
    (hstore : ∀ {g1 s1}, CanTouch S.σ c.memory g1 x.toNat k → Stack.Words S.σ g1.machine.stack (x :: y :: ws) →
      (opcodeOf b).effectOf.Does g1 s1 (Writes S.σ (grown g1 x.toNat k) ws f)) :
    Covers S s g { (c.touch x.toNat k).next 3 ws with memory := f } := by
  refine execute_plain h hc hb hop (by simp [hst]) hkept { c.touch x.toNat k with stack := ws, memory := f } rfl hafford ?_
  intro g1 s1 hs1 hg1 hstack
  have htouch := hg1.canTouch hc hlimit (hknown.of_stack hstack) hafford
  have hg2 := hg1.touch x.toNat k
  refine (hstore htouch (hst ▸ hg1.stack)).mono ?_
  rintro _ _ ⟨rfl, st, memory, hst, hsize, hmem, rfl⟩
  exact ⟨rfl, { hg2 with stack := hst, size := hsize.trans hg2.size, memory := hmem }⟩

end Memory

/-! ## Jumps -/

/-- A jump leads to the states that it branches into: its cost is booked and its place is chosen already. -/
lemma GState.run_branch {P : List GState → Prop} (h : g.Mirrors S s c) (hs : s.Grows s') (hc : c.Sound)
    (hstep : ∀ g1 s1, s.Grows s1 → g1.Mirrors S s c → g1.machine.stack = g.machine.stack →
      step.Does g1 s1 (fun eff _ => ∃ gs, eff = .branch gs ∧ P gs)) :
    (g.run step false false).Does s' (fun o => ∃ gs, o = .states gs ∧ P gs) := by
  refine (copy_does (h.sound hc.room) false).bind ?_
  rintro g1 s1 hs1 ⟨hcopy, -⟩
  have hstack := ((h.sound hc.room).copy hcopy.machine).2
  obtain ⟨_, g2, s2, hrun, hs2, gs, rfl, hgs⟩ := hstep g1 s1 (hs.trans hs1) (h.copy hc hcopy) hstack
  refine .bind ⟨_, s2, hrun, hs2, rfl⟩ ?_
  rintro _ s3 _ rfl
  exact .pure ⟨gs, rfl, hgs⟩

section Jumps

variable {a : Word} (h : g.Mirrors S s c) (hc : c.Sound) (hknown : g.TopKnown)
include h hc hknown

lemma Explore.execute_jump (hb : S.code[c.pc]? = some 0x56) (hst : c.stack = a :: ws)
    (htarget : JumpTarget S.code a.toNat) (hkept : a.toNat < S.code.length → a.toNat < keptLength S.code) :
    Covers S s g { c.next 8 ws with pc := a.toNat } := by
  obtain ⟨i, hi⟩ := htarget.located hkept
  have hneeds : (opcodeOf 0x56).needs = 1 := rfl
  refine execute_does h hb (by simp [hst, hneeds]) rfl fun s1 hs1 => run_branch h hs1 hc ?_
  intro g1 s2 hs2 hg1 hstack
  refine (jump_mirrors hg1 hs2 hc hst (hknown.of_stack hstack) htarget hi).mono ?_
  rintro _ _ ⟨g', rfl, hg'⟩
  exact ⟨[g'], rfl, g', by simp, hg'⟩

/-- Both sides of a conditional jump are explored, so the side that the machine takes is. -/
lemma Explore.execute_jumpi (hb : S.code[c.pc]? = some 0x57) (hst : c.stack = a :: x :: ws)
    (hside : x = 0 ∧ c'.pc = c.pc + 1 ∨ x ≠ 0 ∧ c'.pc = a.toNat ∧ JumpTarget S.code a.toNat)
    (hkept : c'.pc < S.code.length → c'.pc < keptLength S.code) : Covers S s g { c.next 10 ws with pc := c'.pc } := by
  have hneeds : (opcodeOf 0x57).needs = 2 := rfl
  refine execute_does h hb (by simp [hst, hneeds]) rfl fun s1 hs1 => run_branch h hs1 hc ?_
  intro g1 s2 hs2 hg1 hstack
  refine (jumpIf_mirrors hg1 hs2 hc hst (hknown.of_stack hstack)).mono ?_
  rintro _ _ ⟨gs, rfl, hpass, hturn⟩
  refine ⟨gs, rfl, ?_⟩
  rcases hside with ⟨hx, hpc⟩ | ⟨hx, hpc, htarget⟩
  · rw [hpc] at hkept ⊢
    exact hpass hx fun i hi => hi.next hb hkept
  · rw [hpc] at hkept ⊢
    obtain ⟨i, hi⟩ := htarget.located hkept
    exact hturn hx i hi htarget.2

end Jumps

/-- Instructions that need to know their first operand: jumps, memory, and the index of a byte. -/
def Evm.needsKnown (b : Nat) : Bool := [0x1a, 0x51, 0x52, 0x53, 0x56, 0x57].contains b

lemma Explore.execute_covers (h : g.Mirrors S s c) (hc : c.Sound) (hbytes : ∀ b ∈ S.code, b < 256)
    (hlimit : S.limit < 2 ^ 64) (hstep : Evm.Step S.code S.ctx c c') (hafford : S.Affords c'.gas)
    (hkept : c'.pc < S.code.length → c'.pc < keptLength S.code)
    (hknown : ∀ b, S.code[c.pc]? = some b → needsKnown b = true → g.TopKnown)
    (hshift : ∀ b x y ws, S.code[c.pc]? = some b → c.stack = x :: y :: ws → HasRoom b x y) : Covers S s g c' := by
  have hroom := hc.room
  cases hstep with
  | @binary b cost f x y rest hb hf hst =>
    simp only [hst, length_cons] at hroom
    refine execute_leaves h hc hb (plain_of_binary hf) (by simp [hst]) hkept hafford ?_
    intro g1 s1 hs1 hg1 hstack
    have htop : b = 0x1a → g1.TopKnown := fun h1a => (hknown b hb (by rw [h1a]; rfl)).of_stack hstack
    exact binary_leaves hf htop (hshift b x y rest hb hst) (hst ▸ hg1.stack) (by omega)
  | @unary b cost f x rest hb hf hst =>
    simp only [hst, length_cons] at hroom
    refine execute_leaves h hc hb (plain_of_unary hf) (by simp [hst]) hkept hafford ?_
    intro g1 s1 hs1 hg1 hstack
    exact unary_leaves hf (hst ▸ hg1.stack) (by omega)
  | nullary hb hx hlt =>
    refine execute_leaves h hc hb (plain_of_nullary hx) (zero_le _) hkept hafford ?_
    intro g1 s1 hs1 hg1 hstack
    exact nullary_leaves hg1 hs1 hb hx hlt
  | @push b hb h1 h2 hlt =>
    have hop : Opcode.ofByte? b = some (.push (b - 0x5f)) := by simp [Opcode.ofByte?, h1, h2]
    refine execute_leaves h hc hb (.of_opcode hop (if_pos ⟨h1, h2⟩) rfl rfl rfl rfl rfl) (zero_le _) hkept hafford ?_
    intro g1 s1 hs1 hg1 hstack
    obtain ⟨i, hpc, hi⟩ := hg1.pc
    rw [opcodeOf, hop]
    exact pushImmediate_leaves (hg1.runs.grow hs1) hpc hi hb hg1.stack hlt hbytes h1 h2
  | @dup b x hb h1 h2 hx hlt =>
    have hop := ofByte?_dup h1 h2
    have himm : immediateLength b = 0 := if_neg (by omega)
    refine execute_leaves h hc hb (.of_opcode hop himm rfl rfl rfl rfl rfl) (zero_le _) hkept hafford ?_
    intro g1 s1 hs1 hg1 hstack
    obtain ⟨i, hpc, hi⟩ := hg1.pc
    rw [opcodeOf, hop]
    exact duplicate_leaves (hg1.runs.grow hs1) hpc hi hb hg1.stack hlt h1 h2 hx
  | @swap b x y hb h1 h2 hx hy =>
    have hop := ofByte?_swap h1 h2
    have himm : immediateLength b = 0 := if_neg (by omega)
    refine execute_leaves h hc hb (.of_opcode hop himm rfl rfl rfl rfl rfl) (zero_le _) hkept hafford ?_
    intro g1 s1 hs1 hg1 hstack
    rw [opcodeOf, hop]
    exact swap_leaves hg1.stack hx hy
  | pop hb hst =>
    have hop : Plain 0x50 2 1 0 := ⟨rfl, rfl, rfl, rfl, rfl, rfl⟩
    refine execute_leaves h hc hb hop (by simp [hst]) hkept hafford ?_
    intro g1 s1 hs1 hg1 hstack
    exact pop_bind (hst ▸ hg1.stack) fun _ st _ hst => .pure ⟨rfl, st, hst, rfl⟩
  | mload hb hst => exact execute_mload h hc hlimit (hknown _ hb rfl) hkept hb hst hafford
  | mstore hb hst =>
    exact execute_store h hc hlimit (hknown _ hb rfl) hkept hb ⟨rfl, rfl, rfl, rfl, rfl, rfl⟩ hst hafford memoryStore_writes
  | mstore8 hb hst =>
    exact execute_store h hc hlimit (hknown _ hb rfl) hkept hb ⟨rfl, rfl, rfl, rfl, rfl, rfl⟩ hst hafford memoryStoreByte_writes
  | jump hb hst htarget => exact execute_jump h hc (hknown _ hb rfl) hb hst htarget hkept
  | branch hb hst hx htarget => exact execute_jumpi h hc (hknown _ hb rfl) hb hst (.inr ⟨hx, rfl, htarget⟩) hkept
  | pass hb hst hx => exact execute_jumpi h hc (hknown _ hb rfl) hb hst (.inl ⟨hx, rfl⟩) hkept
  | jumpdest hb =>
    refine execute_leaves h hc hb ⟨rfl, rfl, rfl, rfl, rfl, rfl⟩ (zero_le _) hkept hafford ?_
    intro g1 s1 hs1 hg1 hstack
    exact .pure ⟨rfl, _, hg1.stack, rfl⟩

/-! ## Runs -/

/-- The state is on a path that is taken under the valuation, at the instruction of the configuration, and its stack, memory
and gas mean those of the configuration. -/
structure GState.Shows (g : GState) (σ : Valuation) (code : List Nat) (c : Config) : Prop where
  constraints : ∀ e ∈ g.world.constraints, e.Says σ true
  pc : ∃ i : Nat, g.machine.pc = i ∧ Instr.Located code i c.pc
  stack : Stack.Words σ g.machine.stack c.stack
  size : g.machine.memory.size = c.size
  memory : g.machine.memory.Holds σ c.memory
  gas : g.machine.minGas = c.gas

lemma GState.Mirrors.shows (h : g.Mirrors S s c) : g.Shows S.σ S.code c := { h with }

/-- The state is the first one of a frame in this setting. -/
structure GState.Starts (g : GState) (S : Setting) : Prop where
  machine : g.machine = { gasLimit := .int S.limit }
  tx : g.tx? = some S.tx
  constraints : ∀ e ∈ g.world.constraints, e.Says S.σ true
  address : g.env.address.Denotes S.σ S.ctx.address
  sender : g.env.sender.Means S.σ S.ctx.caller
  callValue : g.env.callValue.Means S.σ S.ctx.callValue

lemma GState.Starts.mirrors (h : g.Starts S) (hruns : g.Runs s S.code)
    (hkept : 0 < S.code.length → 0 < keptLength S.code) : g.Mirrors S s {} where
  runs := hruns
  pc := ⟨0, by rw [h.machine]; rfl, located_zero hkept⟩
  stack := by rw [h.machine]; exact .nil
  size := by rw [h.machine]
  memory := by rw [h.machine]; exact Memory.holds_empty 0
  gas := by rw [h.machine]; rfl
  constraints := h.constraints
  limit := by rw [h.machine]
  tx := h.tx
  address := h.address
  sender := h.sender
  callValue := h.callValue
  returns := by rw [h.machine]

/-- States that performing one state after the other leads to, with the session that it leaves. -/
inductive Explore.Reaches (s : Session) (g : GState) : Nat → Session → GState → Prop
  | refl : Reaches s g 0 s g
  | step {k : Nat} {s₁ s₂ : Session} {g₁ g₂ : GState} {r : GState.Executed} : Reaches s g k s₁ g₁ →
    Explore.execute {} g₁ s₁ = .ok r s₂ → g₂ ∈ r.successors → Reaches s g (k + 1) s₂ g₂

lemma Evm.gas_le_of_steps {run : Nat → Config} {k j : Nat} (h : ∀ i < k, Step code ctx (run i) (run (i + 1)))
    (hj : j ≤ k) : (run j).gas ≤ (run k).gas := by
  induction k with
  | zero => exact le_zero.1 hj ▸ le_refl _
  | succ k ih =>
    rcases lt_or_eq_of_le hj with hlt | rfl
    · exact le_trans (ih (fun i hi => h i (by omega)) (by omega)) (h k (by omega)).gas_le
    · exact le_refl _

/-- Every run of the machine is followed by a path of the exploration: as long as its code can be disassembled, its gas is
below the limits, which have 64 bits, it does not run into the trailer that the disassembler drops, jump targets, memory
offsets and byte indexes are known when they are used, and left shifts have room. -/
theorem Explore.reaches_of_run {text : String} {known known' : Selectors} {p : Program}
    (htext : Hex.decode? text = some S.code) (hp : Program.make known (.hex text) = .ok (p, known'))
    (hcode : s.code.programs[g.env.code]? = some p) (hstart : g.Starts S) (hlimit : S.limit < 2 ^ 64)
    (run : Nat → Config) (hfirst : run 0 = {}) {k : Nat}
    (hsteps : ∀ j < k, Evm.Step S.code S.ctx (run j) (run (j + 1))) (hafford : S.Affords (run k).gas)
    (hkept : ∀ j ≤ k, (run j).pc < S.code.length → (run j).pc < Instr.keptLength S.code)
    (hknown : ∀ j < k, ∀ b, S.code[(run j).pc]? = some b → Evm.needsKnown b = true →
      ∀ s' g', Reaches s g j s' g' → g'.Shows S.σ S.code (run j) → g'.TopKnown)
    (hshift : ∀ j < k, ∀ b x y ws, S.code[(run j).pc]? = some b → (run j).stack = x :: y :: ws → HasRoom b x y) :
    ∃ s' g', Reaches s g k s' g' ∧ g'.Shows S.σ S.code (run k) := by
  have hbytes := Hex.readBytes_lt htext
  have hruns : g.Runs s S.code := ⟨p, hcode, Program.make_instrs hp htext⟩
  have hsound : ∀ j ≤ k, (run j).Sound := by
    intro j hj
    induction j with
    | zero => exact hfirst ▸ sound_initial
    | succ j ih => exact (hsteps j hj).sound (ih (by omega))
  have hreach : ∀ j ≤ k, ∃ s' g', Reaches s g j s' g' ∧ g'.Mirrors S s' (run j) := by
    intro j hj
    induction j with
    | zero =>
      have hkeptFirst := hkept 0 hj
      rw [hfirst] at hkeptFirst ⊢
      exact ⟨s, g, .refl, hstart.mirrors hruns hkeptFirst⟩
    | succ j ih =>
      obtain ⟨s₁, g₁, hr, hm⟩ := ih (by omega)
      have haff := hafford.mono (gas_le_of_steps hsteps hj)
      obtain ⟨r, s₂, hx, hs, g₂, hmem, hm₂⟩ := execute_covers hm (hsound j (by omega)) hbytes hlimit (hsteps j hj) haff
        (hkept (j + 1) hj) (fun b hb hn => hknown j hj b hb hn s₁ g₁ hr hm.shows) (hshift j hj)
      exact ⟨s₂, g₂, .step hr hx hmem, hm₂.grow hs⟩
  obtain ⟨s', g', hr, hm⟩ := hreach k (le_refl k)
  exact ⟨s', g', hr, hm.shows⟩

namespace Explore

/-- A frame that is sent an unknown value, which turns out to be five. -/
def paidSetting (code : List Nat) : Setting where
  σ := ⟨fun _ => 5, fun _ _ => 0⟩
  ctx := ⟨0, 1, 5⟩
  code := code
  limit := 1000000000
  tx := { (default : Tx) with gasLimit := .int 8000000 }

def paidState : GState := { (default : GState) with
  env := { (default : Environment) with sender := .int 1, callValue := .expr ⟨0, 0, .symbol "value" 256⟩ }
  machine := { gasLimit := .int 1000000000 }
  frames := [⟨{ (default : Tx) with gasLimit := .int 8000000 }, none⟩] }

lemma paidState_starts (code : List Nat) : paidState.Starts (paidSetting code) where
  machine := rfl
  tx := rfl
  constraints := nofun
  address := ⟨rfl, rfl, rfl, rfl⟩
  sender := ⟨1, rfl, rfl⟩
  callValue := .inl ⟨rfl, rfl, rfl, rfl⟩

/-- A jump that is taken unless the value is zero. -/
def branching : List Nat := [0x34, 0x60, 0x05, 0x57, 0x00, 0x5b]

def branchingProgram : Program where
  code := .hex "34600557005b"
  instrs := #[⟨0, .callvalue, none⟩, ⟨1, .push 1, some (.hex "0x05")⟩, ⟨3, .jumpi, none⟩, ⟨4, .stop, none⟩,
    ⟨5, .jumpdest, none⟩]

lemma make_branching : Program.make {} (.hex "34600557005b") = .ok (branchingProgram, {}) := by
  have hbytes : Hex.decode? "34600557005b" = some branching := by decide
  have hinstrs : ofBytes branching = branchingProgram.instrs.toList := by with_unfolding_all rfl
  simp only [Program.make, Program.assign, ofCode, hbytes, hinstrs]
  rfl

def topIsNumber (g : GState) : Bool :=
  match g.machine.stack with
  | .expr e :: _ => e.term.isConst
  | _ => true

lemma topKnown_of_topIsNumber (h : topIsNumber g = true) : g.TopKnown := by
  intro e st hst
  simp only [topIsNumber] at h
  unfold Expr.Known
  cases ht : e.term <;> simp_all [Term.isConst, Term.value?, Term.eval]

lemma branching_topKnown (h : Reaches { code := { programs := #[branchingProgram] } } paidState 2 s' g') :
    g'.TopKnown := by
  have hall : (match execute {} paidState { code := { programs := #[branchingProgram] } } with
      | .ok r1 s1 => r1.successors.all (fun g1 => match execute {} g1 s1 with
        | .ok r2 _ => r2.successors.all topIsNumber
        | .error _ _ => true)
      | .error _ _ => true) = true := by decide +kernel
  obtain _ | ⟨_ | ⟨_ | _, h1, hg1⟩, h2, hg'⟩ := h
  rw [h1] at hall
  have hnext := all_eq_true.1 hall _ hg1
  rw [h2] at hnext
  exact topKnown_of_topIsNumber (all_eq_true.1 hnext g' hg')

def branchingRun : Nat → Config
  | 0 => {}
  | 1 => { pc := 1, stack := [5], gas := 2 }
  | 2 => { pc := 3, stack := [5, 5], gas := 5 }
  | 3 => { pc := 5, gas := 15 }
  | _ => { pc := 6, gas := 16 }

/-- The side of the jump that an unknown value of five takes. -/
theorem reaches_of_branching : ∃ s' g', Reaches { code := { programs := #[branchingProgram] } } paidState 4 s' g' ∧
    g'.Shows ⟨fun _ => 5, fun _ _ => 0⟩ branching { pc := 6, gas := 16 } := by
  refine reaches_of_run (by decide) make_branching rfl (paidState_starts _) (by decide)
    branchingRun rfl ?_ ⟨by decide, 8000000, rfl, by decide⟩ ?_ ?_ ?_
  · intro j hj
    match j with
    | 0 => exact .nullary (b := 0x34) rfl rfl (by decide)
    | 1 => exact .push (b := 0x60) rfl (by decide) (by decide) (by decide)
    | 2 =>
      have htarget : JumpTarget branching 5 :=
        ⟨.next (b := 0x00) (.next (b := 0x57) (.next (b := 0x60) (.next (b := 0x34) .zero rfl) rfl) rfl) rfl, rfl⟩
      exact .branch (a := 5) rfl rfl (by decide) htarget
    | 3 => exact .jumpdest rfl
  · have hkept : keptLength branching = branching.length := by decide
    exact fun j _ h => hkept ▸ h
  · intro j hj b hb hn s' g' hr _
    match j with
    | 0 | 1 | 3 => cases hb; cases hn
    | 2 => exact branching_topKnown hr
  · intro j hj b x y ws hb _
    match j with
    | 0 | 1 | 2 | 3 =>
      cases hb
      trivial

/-- Code that ends in the mark of a metadata trailer. -/
def trailing : List Nat := [0x5b, 0x62, 0x7a, 0x7a, 0x72]

/-- Within the trailer the machine runs on, and nothing is explored: all of this code is dropped. -/
theorem not_reaches_in_trailer : Hex.decode? "5b627a7a72" = some trailing ∧ ∃ p, Program.make {} (.hex "5b627a7a72") =
      .ok (p, {}) ∧ paidState.Starts (paidSetting trailing) ∧
    Evm.Step trailing (paidSetting trailing).ctx {} { pc := 1, gas := 1 } ∧ (paidSetting trailing).Affords 1 ∧
    ¬ ∃ s' g', Reaches { code := { programs := #[p] } } paidState 1 s' g' := by
  have hbytes : Hex.decode? "5b627a7a72" = some trailing := by decide
  have hinstrs : ofBytes trailing = [] := by with_unfolding_all rfl
  refine ⟨hbytes, { code := .hex "5b627a7a72" }, ?_, paidState_starts _, .jumpdest rfl,
    ⟨by decide, 8000000, rfl, by decide⟩, ?_⟩
  · simp only [Program.make, Program.assign, ofCode, hbytes, hinstrs]
    rfl
  rintro ⟨s', g', h⟩
  cases h with
  | step h hx hg' =>
    cases h
    cases hx
    cases hg'

end Explore

end EvmAudit
