import EvmAudit.Proofs.Jumps

/-!
# Instructions on memory

At a known index, the instructions that read and write memory do what the reference machine does: memory grows to hold the
range, its price is booked, and the bytes that are read or written are the bytes of the word.
-/

namespace EvmAudit

namespace Step

open Evm

variable {σ : Valuation} {g : GState} {s : Session} {x y : Word} {ws : List Word} {f : Nat → BitVec 8}

def grown (g : GState) (a n : Nat) : GState := { g with machine := g.machine.grown a n }

lemma extend_does {e : Expr} {limit : Int} (h : e.Equals x) (n : Nat) (halign : g.machine.memory.size % 32 = 0)
    (hlimit : g.machine.gasLimit = .int limit)
    (hgas : g.machine.minGas + growthFee g.machine.memory.size x.toNat n ≤ limit) :
    Does (extend (.expr e) (.int n)) g s (fun _ g' => g' = grown g x.toNat n) := by
  refine (Does.onMachine (P := fun _ m => m = g.machine.grown x.toNat n) ?_).mono ?_
  · simp only [Machine.extend, bind_assoc]
    refine (Machine.grow_gives _ h n halign hlimit hgas).bind ?_
    rintro _ rfl
    exact .pure rfl
  · rintro _ _ ⟨_, rfl, rfl⟩
    rfl

lemma le_grownSize (size a n : Nat) : a + n ≤ grownSize size a n := by
  unfold grownSize
  omega

lemma setByte_does {e : Expr} {content : Item} {b : BitVec 8} (hmem : g.machine.memory.Holds σ f) (h : e.Equals x)
    (hx : x.toNat < g.machine.memory.size) (hsize : g.machine.memory.size < 2 ^ 63) (hb : content.IsByte σ b) :
    Does (setByte (.expr e) content) g s (fun _ g' => ∃ memory, memory.size = g.machine.memory.size ∧
      memory.Holds σ (writeByte f x.toNat b) ∧ g' = { g with machine := { g.machine with memory := memory } }) := by
  refine (Does.onMachine (P := fun _ m => ∃ memory, memory.size = g.machine.memory.size ∧
    memory.Holds σ (writeByte f x.toNat b) ∧ m = { g.machine with memory := memory }) ?_).mono ?_
  · have hset := Memory.set_gives hsize hmem (i := .expr e) h hb
    rw [Memory.put_singleton hsize, if_pos hx] at hset
    refine hset.bind ?_
    rintro memory ⟨hsz, hholds⟩
    exact .pure ⟨memory, hsz, hholds, rfl⟩
  · rintro _ _ ⟨_, rfl, memory, hsz, hholds, rfl⟩
    exact ⟨memory, hsz, hholds, rfl⟩

/-- The index is known, and the price of the bytes behind it can be paid and leaves memory that can be written. -/
structure CanTouch (σ : Valuation) (f : Nat → BitVec 8) (g : GState) (x n : Nat) : Prop where
  known : g.TopKnown
  memory : g.machine.memory.Holds σ f
  aligned : g.machine.memory.size % 32 = 0
  gas : ∃ limit : Int, g.machine.gasLimit = .int limit ∧ g.machine.minGas + growthFee g.machine.memory.size x n ≤ limit
  size : grownSize g.machine.memory.size x n < 2 ^ 63

lemma memoryLoad_leaves (h : CanTouch σ f g x.toNat 32) (hst : Stack.Words σ g.machine.stack (x :: ws))
    (hroom : ws.length < 1024) :
    Does memoryLoad g s (Leaves σ (grown g x.toNat 32) (readWord f x.toNat :: ws)) := by
  obtain ⟨hknown, hmem, halign, ⟨limit, hlimit, hgas⟩, hsize⟩ := h
  have hfits := le_grownSize g.machine.memory.size x.toNat 32
  refine pop_bind_known hst hknown fun e st he hst => ?_
  refine (extend_does (g := g.withStack st) he 32 halign hlimit hgas).bind ?_
  rintro _ _ s2 _ rfl
  refine .machine (.given (Memory.word_gives hmem he) fun e' s3 _ he' => ?_)
  rw [Memory.ofBytes_bytesFrom (by omega)] at he'
  exact leave_leaves (g := grown g x.toNat 32) (.inl he') hst hroom

/-- The frame goes on with a stack and a memory that mean this, and nothing else has changed. -/
def Writes (σ : Valuation) (g : GState) (ws : List Word) (f : Nat → BitVec 8) (eff : Effect) (g' : GState) : Prop :=
  eff = .next ∧ ∃ st memory, st.Words σ ws ∧ memory.size = g.machine.memory.size ∧ memory.Holds σ f ∧
    g' = { g with machine := { g.machine with stack := st, memory := memory } }

lemma memoryStore_writes (h : CanTouch σ f g x.toNat 32) (hst : Stack.Words σ g.machine.stack (x :: y :: ws)) :
    Does memoryStore g s (Writes σ (grown g x.toNat 32) ws (writeWord f x.toNat y)) := by
  obtain ⟨hknown, hmem, halign, ⟨limit, hlimit, hgas⟩, hsize⟩ := h
  have hfits := le_grownSize g.machine.memory.size x.toNat 32
  refine pop_bind_known hst hknown fun e st he hst => pop_bind hst fun v st hv hst => ?_
  have hgrow := Machine.grow_gives (g.withStack st).machine he 32 halign hlimit hgas
  refine .machine (.after (.attempt (.calc hgrow)) ?_)
  rintro _ s1 _ ⟨_, rfl, rfl⟩
  let m := ((g.withStack st).machine.grown x.toNat 32).memory
  have hwrite := Memory.writeWord_gives (m := m) (i := .expr e) (v := .expr v) hsize ⟨.inl hv, nofun⟩ he hmem
  rw [Memory.put_wordBytes (show _ ≤ m.size from hfits) hsize] at hwrite
  refine .modify <| (Does.onMachine (P := fun _ m => ∃ memory, memory.size = grownSize g.machine.memory.size x.toNat 32 ∧
    memory.Holds σ (writeWord f x.toNat y) ∧
    m = { (g.withStack st).machine.grown x.toNat 32 with memory := memory }) ?_).bind ?_
  · refine hwrite.bind ?_
    rintro r ⟨hfault, hsz, hholds⟩
    rw [hfault]
    exact .pure ⟨r.memory, hsz, hholds, rfl⟩
  · rintro _ _ s2 _ ⟨_, rfl, memory, hsz, hholds, rfl⟩
    exact .pure ⟨rfl, st, memory, hst, hsz, hholds, rfl⟩

lemma memoryStoreByte_writes (h : CanTouch σ f g x.toNat 1) (hst : Stack.Words σ g.machine.stack (x :: y :: ws)) :
    Does memoryStoreByte g s (Writes σ (grown g x.toNat 1) ws (writeByte f x.toNat (y.setWidth 8))) := by
  obtain ⟨hknown, hmem, halign, ⟨limit, hlimit, hgas⟩, hsize⟩ := h
  have hfits := le_grownSize g.machine.memory.size x.toNat 1
  refine pop_bind_known hst hknown fun e st he hst => pop_bind hst fun v st hv hst => ?_
  refine (extend_does (g := g.withStack st) he 1 halign hlimit hgas).bind ?_
  rintro _ _ s3 _ rfl
  have hset item (hitem : item.IsByte σ (y.setWidth 8)) s : Does (do
      setByte (.expr e) item
      return .next) (grown (g.withStack st) x.toNat 1) s
      (Writes σ (grown g x.toNat 1) ws (writeByte f x.toNat (y.setWidth 8))) := by
    refine (setByte_does (g := grown (g.withStack st) x.toNat 1) hmem he hfits hsize hitem).bind ?_
    rintro _ _ s4 _ ⟨memory, hsz, hholds, rfl⟩
    exact .pure ⟨rfl, st, memory, hst, hsz, hholds, rfl⟩
  refine .given (Item.number?_of_denotes hv) ?_
  rintro _ s4 _ (rfl | rfl)
  · refine .given (.pure rfl) ?_
    rintro _ s5 _ rfl
    refine .given (Expr.extractByte_gives 0 hv) fun byte s6 _ hbyte => ?_
    exact hset (.expr byte) hbyte s6
  · have hbyte : Item.IsByte σ (.int ((y.toNat : Int) % 256)) (y.setWidth 8) := by
      show (y.toNat : Int) % 256 = _
      rw [BitVec.toNat_setWidth]
      omega
    exact hset _ hbyte s4

end Step

/-!
# States that mirror a configuration

Under a valuation, a state mirrors a configuration of the reference machine when its place, stack and memory mean those of
the configuration and its conditions are true. Each change that an instruction makes to a state is mirrored by the same
change of the configuration; so is copying, which changes nothing.
-/

open Option
open Evm (Word Config)
open Calc (Gives)

variable {c : Config} {i a : Nat} {e : Expr} {bytes : List Nat} {rest : List Word}

/-- What does not change while a frame runs: the meaning of variables, what the frame knows, its code and its limits. -/
structure Setting where
  σ : Valuation
  ctx : Evm.Context
  code : List Nat
  limit : Int
  tx : Tx

/-- The gas is below the limits. A limit of the transaction that has no value is not looked at. -/
structure Setting.Affords (S : Setting) (gas : Nat) : Prop where
  machine : (gas : Int) ≤ S.limit
  tx : match S.tx.gasLimit with
    | .expr e => ∃ w, ∃ x : BitVec w, e.Denotes S.σ x ∧ (e.Known → gas < x.toNat)
    | i => ∃ n, i.int? = some n ∧ (gas : Int) < n

/-- The state is where the configuration is, with a stack and a memory that mean the same, on a path that is taken. -/
structure GState.Mirrors (g : GState) (S : Setting) (s : Session) (c : Config) : Prop where
  runs : g.Runs s S.code
  pc : ∃ i : Nat, g.machine.pc = i ∧ Instr.Located S.code i c.pc
  stack : Stack.Words S.σ g.machine.stack c.stack
  size : g.machine.memory.size = c.size
  memory : g.machine.memory.Holds S.σ c.memory
  gas : g.machine.minGas = c.gas
  constraints : ∀ e ∈ g.world.constraints, e.Says S.σ true
  limit : g.machine.gasLimit = .int S.limit
  tx : g.tx? = some S.tx
  address : g.env.address.Denotes S.σ S.ctx.address
  sender : g.env.sender.Means S.σ S.ctx.caller
  callValue : g.env.callValue.Means S.σ S.ctx.callValue
  returns : g.machine.returns = []

/-- What holds of every configuration that is reached from the first one. -/
structure Evm.Config.Sound (c : Config) : Prop where
  room : c.stack.length ≤ 1024
  aligned : c.size % 32 = 0
  blank : ∀ i, c.size ≤ i → c.memory i = 0
  paid : Evm.memoryFee (c.size / 32) ≤ c.gas

lemma Evm.Config.Sound.update {c' : Config} (h : c.Sound) (hroom : c'.stack.length ≤ 1024) (hsize : c'.size = c.size)
    (hmemory : c'.memory = c.memory) (hgas : c.gas ≤ c'.gas) : c'.Sound where
  room := hroom
  aligned := hsize ▸ h.aligned
  blank := by rw [hsize, hmemory]; exact h.blank
  paid := by rw [hsize]; exact Nat.le_trans h.paid hgas

variable {S : Setting} {g g' : GState} {s s' : Session} {ws : List Word}

lemma below_gives {n : Int} (limit : Option Int) : (∀ m, limit = some m → n < m) → Gives (match limit with
    | some m => if n ≥ m then throw (.vm .outOfGas "") else pure ()
    | none => pure () : Calc Unit) (fun _ => True) := by
  intro h
  cases limit with
  | none => exact .pure trivial
  | some m =>
    simp only [Int.not_le.2 (h m rfl)]
    exact .pure trivial

lemma Setting.Affords.checkGas {n : Nat} (h : S.Affords n) (hlimit : g.machine.gasLimit = .int S.limit)
    (htx : g.tx? = some S.tx) (hgas : g.machine.minGas = n) : g.checkGas.Gives (fun _ => True) := by
  have hle : ¬ g.machine.minGas > S.limit := by
    have := h.machine
    omega
  simp only [GState.checkGas, Machine.checkGas, Machine.exceeds, hlimit, Item.int?, hle, htx]
  rw [hgas]
  have htxLimit := h.tx
  cases hi : S.tx.gasLimit with
  | expr e =>
    rw [hi] at htxLimit
    obtain ⟨w, x, he, hknown⟩ := htxLimit
    simp only [Expr.isProp, he.isProp]
    refine (Expr.value?_gives he).bind ?_
    rintro _ rfl
    refine below_gives _ fun m hm => ?_
    obtain ⟨v, hv, rfl⟩ := map_eq_some_iff.1 hm
    have hlt := hknown (isSome_iff_exists.2 ⟨v, hv⟩)
    rw [← he.eq_of_value? hv] at hlt
    exact Int.ofNat_lt.2 hlt
  | int m =>
    rw [hi] at htxLimit
    obtain ⟨_, hm, hlt⟩ := htxLimit
    cases hm
    exact below_gives (some m) fun m' hm' => some.inj hm' ▸ hlt
  | bool b =>
    rw [hi] at htxLimit
    obtain ⟨m, hm, hlt⟩ := htxLimit
    cases hm
    exact below_gives (some (if b then 1 else 0)) fun m' hm' => some.inj hm' ▸ hlt
  | absent =>
    rw [hi] at htxLimit
    obtain ⟨_, hm, _⟩ := htxLimit
    cases hm

/-! ## Copies -/

lemma Memory.size_copy (m : Memory) : m.copy.size = m.size := by
  unfold copy
  split
  · rename_i h
    exact h.symm
  · rfl

/-- Memory of which nothing is in use is made anew by copying, which does not show. -/
lemma Memory.Holds.copy {σ : Valuation} {m : Memory} {f : Nat → BitVec 8} (h : m.Holds σ f)
    (hblank : ∀ i, m.size ≤ i → f i = 0) : m.copy.Holds σ f := by
  unfold Memory.copy
  split
  · rename_i hsize
    have hf : f = fun _ => 0 := funext fun i => hblank i (hsize ▸ Nat.zero_le i)
    rw [hf]
    exact holds_empty 0
  · exact h

namespace GState.Mirrors

section

variable (h : g.Mirrors S s c)
include h

lemma grow (hs : s.Grows s') : g.Mirrors S s' c := { h with runs := h.runs.grow hs }

lemma sound (hroom : c.stack.length ≤ 1024) : g.machine.Sound where
  stack := by
    intro i hi
    obtain ⟨n, hn, rfl⟩ := List.mem_iff_getElem.1 hi
    have hn' : n < c.stack.length := h.stack.length_eq ▸ hn
    obtain ⟨e, he, hd⟩ := (List.forall₂_iff_get.1 h.stack).2 n hn hn'
    rw [List.get_eq_getElem] at he
    rw [he]
    exact hd.isProp
  room := h.stack.length_eq ▸ hroom
  returns := by simp [h.returns]
  returnRoom := by simp [h.returns]

lemma copy (hc : c.Sound) (hcopy : g.CopyOf g') : g'.Mirrors S s c := by
  have hm := hcopy.machine.of_sound (h.sound hc.room)
  have hblank i (hi : g.machine.memory.size ≤ i) : c.memory i = 0 := hc.blank i (h.size ▸ hi)
  have hconstraints := hcopy.constraints_true h.constraints
  rw [hcopy.rest, hm]
  exact { h with
    size := (Memory.size_copy _).trans h.size
    memory := h.memory.copy hblank
    constraints := hconstraints }

/-! ## Changes -/

lemma withStack {st : Stack} (hst : st.Words S.σ ws) : (g.withStack st).Mirrors S s { c with stack := ws } :=
  { h with stack := hst }

lemma useGas (least most : Nat) :
    Mirrors { g with machine := g.machine.useGas least most } S s { c with gas := c.gas + least } := by
  refine { h with gas := ?_ }
  show g.machine.minGas + least = ((c.gas + least : Nat) : Int)
  rw [h.gas, Int.natCast_add]

lemma goto (hi : Instr.Located S.code i a) :
    Mirrors { g with machine := { g.machine with pc := i } } S s { c with pc := a } :=
  { h with pc := ⟨i, rfl, hi⟩ }

lemma deepen (depth : Nat) : Mirrors { g with machine := { g.machine with depth := depth } } S s c := { h with }

lemma constrain (he : e.Says S.σ true) :
    Mirrors { g with world := { g.world with constraints := g.world.constraints ++ [e] } } S s c := by
  refine { h with constraints := ?_ }
  show ∀ e' ∈ g.world.constraints ++ [e], e'.Says S.σ true
  rw [List.forall_mem_append, List.forall_mem_singleton]
  exact ⟨h.constraints, he⟩

end

end GState.Mirrors

/-! ## Jumps -/

lemma Evm.JumpTarget.located (h : JumpTarget bytes a) (hkept : a < bytes.length → a < Instr.keptLength bytes) :
    ∃ i, Instr.Located bytes i a :=
  Instr.located_of_boundary h.1 (hkept (getElem?_eq_some_iff.1 h.2).1)

lemma Instr.Located.landing (h : Located bytes i a) {b : Nat} (hb : bytes[a]? = some b) :
    landing (ofBytes bytes) a = some (i, ofByte bytes a b) := by
  rw [Instr.landing, h.indexOf? (getElem?_eq_some_iff.1 hb).1, bind_some, h.getElem? hb]
  rfl

lemma GState.Mirrors.branch {pc : Int} (h : g.Mirrors S s c) (hc : c.Sound) (hg' : g.Branches pc e g') (hpc : pc = i)
    (hi : Instr.Located S.code i a) (he : e.Says S.σ true) : g'.Mirrors S s { c with pc := a, gas := c.gas + 10 } := by
  obtain ⟨g1, hcopy, -, rfl⟩ := hg'
  subst hpc
  exact ((((h.copy hc hcopy).useGas 10 10).goto hi).deepen _).constrain he

lemma Step.jump_mirrors {a : Word} (h : g.Mirrors S s c) (hs : s.Grows s') (hc : c.Sound) (hst : c.stack = a :: rest)
    (hknown : g.TopKnown) (htarget : Evm.JumpTarget S.code a.toNat) (hi : Instr.Located S.code i a.toNat) :
    Does jump g s' (fun eff _ => ∃ g', eff = .branch [g'] ∧
      g'.Mirrors S s { c with pc := a.toNat, stack := rest, gas := c.gas + 8 }) := by
  obtain ⟨e, st, hstack, he, hrest⟩ := Stack.Words.uncons (hst ▸ h.stack)
  obtain ⟨n, hn⟩ := isSome_iff_exists.1 (hknown e st hstack)
  have hroom : rest.length ≤ 1024 := by
    have := hc.room
    rw [hst, List.length_cons] at this
    omega
  have hsound : { c with pc := a.toNat, stack := rest, gas := c.gas + 8 }.Sound :=
    hc.update hroom rfl rfl (Nat.le_add_right _ _)
  have hmoved := ((h.withStack hrest).useGas 8 8).goto hi
  refine (jump_does (h.runs.grow hs) hstack (he.equals hn) (h.sound hc.room) (hi.landing htarget.2) rfl).mono ?_
  rintro _ _ ⟨g', rfl, hcopy⟩
  exact ⟨g', rfl, hmoved.copy hsound hcopy⟩

lemma Step.jumpIf_mirrors {a x : Word} (h : g.Mirrors S s c) (hs : s.Grows s') (hc : c.Sound)
    (hst : c.stack = a :: x :: rest) (hknown : g.TopKnown) : Does jumpIf g s' (fun eff _ => ∃ gs, eff = .branch gs ∧
      (x = 0 → (∀ i, Instr.Located S.code i c.pc → Instr.Located S.code (i + 1) (c.pc + 1)) →
        ∃ g' ∈ gs, g'.Mirrors S s { c with pc := c.pc + 1, stack := rest, gas := c.gas + 10 }) ∧
      (x ≠ 0 → ∀ i, Instr.Located S.code i a.toNat → S.code[a.toNat]? = some 0x5b →
        ∃ g' ∈ gs, g'.Mirrors S s { c with pc := a.toNat, stack := rest, gas := c.gas + 10 })) := by
  obtain ⟨e, st1, hstack, he, hrest⟩ := Stack.Words.uncons (hst ▸ h.stack)
  obtain ⟨e1, st, rfl, he1, hrest⟩ := hrest.uncons
  obtain ⟨n, hn⟩ := isSome_iff_exists.1 (hknown e _ hstack)
  have hroom : rest.length ≤ 1024 := by
    have := hc.room
    simp only [hst, List.length_cons] at this
    omega
  have hc' : { c with stack := rest }.Sound := hc.update hroom rfl rfl (Nat.le_refl _)
  have hg := h.withStack hrest
  refine (jumpIf_does (h.sound hc.room) (h.runs.grow hs) hstack (he.equals hn) he1).mono ?_
  rintro _ _ ⟨passed, taken, rfl, hsplits⟩
  refine ⟨_, rfl, fun hx hnext => ?_, fun hx i hi hcode => ?_⟩
  · obtain ⟨g', rfl⟩ := ne_none_iff_exists'.1 fun hnone => hsplits.notPassed hnone hx
    obtain ⟨i, hpc, hi⟩ := h.pc
    obtain ⟨e', he', hbranch⟩ := hsplits.pass g' rfl
    refine ⟨g', by simp, hg.branch hc' hbranch ?_ (hnext i hi) (by simpa [hx] using he')⟩
    show g.machine.pc + 1 = _
    rw [hpc]
    rfl
  · obtain ⟨g', rfl⟩ := ne_none_iff_exists'.1 fun hnone =>
      hx (BitVec.eq_of_toNat_eq (he1.eq_of_value? (hsplits.notTaken i _ (hi.landing hcode) rfl hnone)).symm)
    obtain ⟨i', d, e', hl, -, he', hbranch⟩ := hsplits.turn g' rfl
    obtain rfl : i = i' := congrArg Prod.fst (some.inj ((hi.landing hcode).symm.trans hl))
    rw [bne_iff_ne.2 hx] at he'
    exact ⟨g', by simp, hg.branch hc' hbranch rfl hi he'⟩

end EvmAudit
