import EvmAudit.Proofs.CalmSteps
import EvmAudit.Proofs.Jumps

/-!
# The steps of the instructions

Every instruction is calm but for those that make an account, give one up, or end a frame with data, which in a creation
becomes the code of the new account. This is shown once for each function, from the functions it calls.
-/

namespace EvmAudit.Step

open List

variable {g g' : GState} {s s0 : Session} {length : Int}

variable {α β : Type} {x : Step α} {f : α → Step β} {p : Footprint} {T : Session → Session → Prop}
  [hT : Session.Course T]

-- an instance is as large as the straight-line code it is found for
set_option synthInstance.maxSize 1024

instance : Still machine := .next fun _ => .pure _

instance (name : String) (width : Nat) : Still (unknown name width) := .next fun _ => .lift _

instance (i : Item) : Still (byteAt i) := .next fun _ => .lift _

instance (start stop : Item) : Still (bytesIn start stop) := .next fun _ => .lift _

instance inputOf_still (start size : Item) : Still (inputOf start size) := by
  refine .next fun g => .next fun start => .next fun size => .next fun isSymbolic => ?_
  -- the range is read if both of its ends are known
  split
  all_goals
    refine .next fun stop => .next fun a => ?_
    split
    · infer_instance
    · refine .next fun b => ?_
      split <;> infer_instance

instance outRange_still (k : CallKind) : Still (outRange k) := by
  simp only [outRange]
  refine .next fun m => ?_
  split <;> infer_instance

instance (start : Expr) (pc : Int) (positions : List Nat) :
    Still (returnedSymbols start pc positions) := by
  induction positions with
  | nil => exact .pure _
  | cons i rest ih =>
    simp only [returnedSymbols]
    infer_instance

abbrev askSlot (owner : Expr) (slot : Nat) : Engine Json := do
  match ← owner.value? with
  | some v => .readStorage (.str (Engine.longAddress v)) slot
  | none => throw .wrongSort

instance (owner : Expr) (slot : Nat) : Engine.Goes T (askSlot owner slot) := .next fun v => by split <;> infer_instance

instance calleeOf_still (target : Item) : Still (calleeOf target) := by
  refine .next fun n => ?_
  split
  · infer_instance
  refine .next fun e => .next fun e => .next fun text => .next fun s => ?_
  split
  · refine .next fun g => .next fun r => ?_
    split <;> infer_instance
  · infer_instance

/-! ## Parts of instructions -/

instance (e : Expr) : Calm p (pushExpr e) := inferInstanceAs (Calm p (push _))

instance pushInt_calm (n : Int) : Calm p (pushInt n) := inferInstanceAs (Calm p (push _))

instance (e : Expr) : Calm p (leave e) := .next fun _ => .pure _

instance : Calm p world := .next fun _ => .pure _

instance : Calm p env := .next fun _ => .pure _

instance : Calm p isCreation := .next fun _ => .pure _

lemma chargeHash_calm (h : p.books = false → 0 ≤ length) : Calm p (chargeHash length) :=
  have := charge_calm fun hb => Precompile.hashGas_nonneg (h hb)
  .next fun _ => .next fun _ => inferInstance

instance {loads writes calls jumps : Bool} (length : Int) :
    Calm ⟨loads, writes, calls, jumps, true⟩ (chargeHash length) := chargeHash_calm nofun

instance (n : Int) (items : List Item) : Calm p (setBytes n items) := by
  induction items generalizing n with
  | nil => exact .pure _
  | cons b rest ih => exact .next fun _ => ih (n + 1)

instance (r : Except Fault α) : Calm p (orThrow r) := by
  cases r with
  | ok a => exact .pure a
  | error e => exact .throw e

instance (i : ProgramId) : Engine.Goes T (codeOf i) := .next fun _ => .pure _

/-! ## Arithmetic and surroundings -/

variable (op : ArithOp)

instance : Calm p (arithmetic op) := .next fun _ => inferInstance

instance : Calm p (division op) := .next fun _ => inferInstance

instance : Calm p (shift op) := .next fun _ => inferInstance

instance : Calm p (modular op) := .next fun _ => inferInstance

instance : Calm p power := .next fun _ => inferInstance

instance : Calm p signExtend := by
  iterate 16 refine .next fun _ => ?_
  infer_instance

instance : Calm p (bitwise op) := .next fun _ => inferInstance

instance : Calm p complement := .next fun _ => inferInstance

instance : Calm p byteOf := by
  refine .next fun index => .next fun top => .next fun value => .next fun i => ?_
  split <;> infer_instance

instance (op : CmpOp) : Calm p (unsignedOrder op) := .next fun _ => inferInstance

instance (op : CmpOp) : Calm p (order op) := .next fun _ => inferInstance

instance : Calm p equality := .next fun _ => inferInstance

instance : Calm p isZero := .next fun _ => inferInstance

instance : Calm p balance := by
  refine .next fun top => .next fun address => .next fun v => ?_
  split <;> infer_instance

instance : Calm p selfBalance := .next fun _ => inferInstance

instance : Calm p codeSize := by
  refine .next fun e => .next fun code => .next fun c => ?_
  split
  · refine .next fun e => ?_
    split
    · infer_instance
    · split <;> infer_instance
  · infer_instance

instance : Calm p foreignCodeSize := by
  refine .next fun address => .next fun n => ?_
  split
  · infer_instance
  · refine .next fun a => ?_
    split <;> infer_instance

instance (text : String) : Calm p (hashNumber text) := by
  simp only [hashNumber]
  split <;> infer_instance

instance : Calm p foreignCodeHash := by
  refine .next fun top => .next fun e => .next fun address => .next fun v => ?_
  split
  · infer_instance
  · refine .next fun w => ?_
    split <;> infer_instance

instance : Calm p returnDataSize := by
  refine .next fun g => ?_
  split <;> infer_instance

instance : Calm p blockHash := .next fun _ => inferInstance

instance (g : GState) (i : Int) : Engine.Goes T (g.instrAt? i) := by
  simp only [GState.instrAt?]
  infer_instance

instance (g : GState) : Engine.Goes T g.instr := .next fun _ => inferInstance

instance : Calm p programCounter := by
  refine .next fun g => .next fun i => ?_
  split <;> infer_instance

/-! ## Data -/

instance : Calm p callDataWord := .next fun _ => inferInstance

instance (target source amount : Item) : Calm p (copyCallData target source amount) := by
  refine .next fun start => ?_
  split
  · refine .next fun n => ?_
    split <;> infer_instance
  · infer_instance

instance : Calm p callDataCopy := .next fun _ => inferInstance

instance (code : Bytecode) (target source amount : Item) : Calm p (copyCode code target source amount) := by
  refine .next fun start => ?_
  split
  · refine .next fun g => .next fun n => ?_
    split
    · infer_instance
    · refine .next fun _ => .next fun i => ?_
      split <;> infer_instance
  · infer_instance

instance : Calm p codeCopy := by
  refine .next fun target => .next fun source => .next fun amount => .next fun e => .next fun code => .next fun c => ?_
  split
  · refine .next fun beyond => .next fun e => ?_
    split
    · split <;> infer_instance
    · infer_instance
  · infer_instance

instance : Calm p foreignCodeCopy := by
  refine .next fun address => .next fun target => .next fun source => .next fun amount => .next fun n => ?_
  split
  · refine .next fun a => ?_
    split <;> infer_instance
  · infer_instance

instance : Calm p returnDataCopy := by
  refine .next fun target => .next fun source => .next fun amount => .next fun start => ?_
  split
  · refine .next fun i => ?_
    split
    · refine .next fun n => ?_
      split
      · refine .next fun g => ?_
        split <;> infer_instance
      · infer_instance
    · infer_instance
  · infer_instance

instance : Calm p memoryLoad := .next fun _ => inferInstance

instance : Calm p memoryStore := by
  refine .next fun index => .next fun value => ⟨fun g s hp => .machine ?_⟩
  refine .after (Engine.Ends.lift (g.machine.grow_yields index (.int 32))).attempt fun r s1 hs1 hr => ?_
  extract_lets write
  have hwrite : Calm p (write ()) := by
    refine @.next _ _ _ _ _ _ _ (onMachine_calm fun m => .next fun r => ?_) fun _ => .pure _
    split
    · exact .throw _
    · exact .pure .of_operands
  -- a fee that cannot be paid stays booked
  cases r with
  | error f => exact hwrite.ends_from (.refl g) hs1 hp
  | ok r => exact .modify (hwrite.ends_from (.of_machine (hr r rfl).within) hs1 hp)

instance : Calm p memoryStoreByte := by
  refine .next fun index => .next fun value => .next fun _ => .next fun n => ?_
  split <;> infer_instance

abbrev hashOf (index : Item) (length : Int) : Step Effect := do
  chargeHash length
  extend index (.int length)
  let bytes ← bytesIn index (← Memory.shifted index length)
  match ← bytes.mapM (fun b => (b.toWidth 8 : Calc Expr)) with
  | [] => leave (← Expr.word Hashes.ofNothing)
  | [b] => leave (← Engine.hash b)
  | bs => leave (← Engine.hash (← (← Expr.concat bs).simplified))

lemma hashOf_calm (index : Item) (h : p.books = false → 0 ≤ length) : Calm p (hashOf index length) := by
  have := chargeHash_calm h
  refine .next fun _ => .next fun _ => .next fun stop => .next fun bytes => .next fun bs => ?_
  split <;> infer_instance

lemma hash_ends (hp : p.loads = false → s.loader.isNone = true) (hg : p.books = false → g.machine.Nonneg) :
    hash.Tames g s (Right p g s) := by
  refine (pop_ends (p := p)).bind fun index g1 s1 hs1 h1 => (pop_ends (p := p)).bind fun amount g2 s2 hs2 h2 => ?_
  refine .after (.lift amount.number?_nonneg) fun r s3 hs3 hr => ?_
  have hs := Session.Course.trans hs1 (Session.Course.trans hs2 hs3)
  refine Calm.ends_from (h1.1.trans h2.1) hs hp ?_
  cases r with
  | some n => exact hashOf_calm index fun hb => hr (h2.2 (h1.2 (hg hb)).2).1 n rfl
  | none =>
    simp only [pure_bind]
    have := @hashOf_calm 64 p index fun _ => by decide
    infer_instance

instance {loads writes calls jumps : Bool} : Calm ⟨loads, writes, calls, jumps, true⟩ hash :=
  ⟨fun _ _ hp => hash_ends hp nofun⟩

instance : Calm p storageLoad := by
  refine .next fun key => ⟨fun g s hp => .get (.after (.of_yields (Storage.get_yields _ key s)) ?_)⟩
  rintro ⟨st, r⟩ s1 hs1 hst
  refine .set (Calm.ends_from ⟨rfl, .of_storage, .of_world ?_⟩ hs1 hp inferInstance)
  refine ⟨?_, fun hl _ => ?_, fun _ => .of_balances rfl, fun _ => prefix_refl _, .refl _⟩
  · exact (GState.Stays.setActive (a := { g.active with storage := st }) rfl).world
  · -- without a node the array is as it was, and so is the account
    refine .of_tracks (.put (fun {b} hb => ?_) .refl)
    obtain rfl : g.active = b := by rw [GState.active, hb, Option.getD_some]
    exact ⟨hst.1.array (hp hl), rfl, rfl⟩

instance {loads calls jumps books : Bool} : Calm ⟨loads, true, calls, jumps, books⟩ storageStore := by
  refine .next fun key => .next fun value => ⟨fun g s hp => .get (.after (.lift .any) ?_)⟩
  rintro ⟨st, e⟩ s1 hs1 -
  refine .set (Calm.ends_from ⟨rfl, .of_storage, .of_world ?_⟩ hs1 hp ?_)
  · refine ⟨?_, nofun, fun _ => .of_balances rfl, fun _ => prefix_refl _, .refl _⟩
    exact (GState.Stays.setActive (a := { g.active with storage := st }) rfl).world
  · cases e <;> infer_instance

/-! ## Control flow -/

abbrev cellOf (c : Item) : Calc Expr :=
  match c with
  | .expr e => return e
  | c => c.toWidth 8

instance : Calm p pushImmediate := by
  simp only [pushImmediate]
  refine .next fun g => .next fun i => ?_
  split
  · infer_instance
  · split <;> infer_instance
  · refine .next fun cells => ?_
    split <;> infer_instance

instance : Calm p duplicate := by
  simp only [duplicate]
  refine .next fun g => .next fun i => ?_
  split <;> infer_instance

instance (depth : Nat) : Calm p (swap depth) := by
  have hset {p : Footprint} (st : Stack) : Calm p (onMachine fun m => return ((), { m with stack := st })) :=
    onMachine_calm fun _ => .pure .of_operands
  simp only [swap]
  infer_instance

/-- Where a jump leads: to the next instruction, or to a place that is there to be jumped to. It has been paid for. -/
structure Leaps (s : Session) (g g' : GState) : Prop where
  gas : g.machine.minGas < g'.machine.minGas
  place : g'.machine.pc = g.machine.pc + 1 ∨ ∃ (n : Nat) (i : Instr), g'.machine.pc = n ∧ i.opcode = .jumpdest ∧
    ∀ c, s.code.programs[g.env.code]? = some c → c.instrs[n]? = some i

/-- A state that a jump has led to from a state, with a number of its own unless it is the state itself. -/
structure Lands (p : Footprint) (s s' : Session) (g g' : GState) : Prop where
  within : g.Within p g'
  leaps : Leaps s g g'
  alters : g.Alters g'
  number : g'.id = g.id ∨ g'.NumberedIn s s'

/-- The frame goes on in one or two states that a jump has led to, or in none. -/
def Branched (p : Footprint) (s : Session) (g : GState) (e : Effect) (g' : GState) (s' : Session) : Prop :=
  g.Abides p g' ∧ ∃ gs, e = .branch gs ∧ gs.length ≤ 2 ∧ (gs.map (·.id)).Nodup ∧ ∀ g'' ∈ gs, Lands p s s' g g''

lemma Branched.right {e : Effect} {s' : Session} (hj : p.jumps = true) (h : Branched p s g e g' s') :
    Right p g s e g' s' := by
  obtain ⟨hg, gs, rfl, hlength, hnodup, hgs⟩ := h
  refine ⟨hg, ⟨hj, hlength, fun g'' hg'' => (hgs g'' hg'').within⟩, hnodup, fun g'' hg'' => ?_, fun g'' hg'' => ?_⟩
  · exact (hgs g'' hg'').alters
  · exact (hgs g'' hg'').number

instance (address : Int) : Calm p (destination address) := by
  simp only [destination]
  refine .next fun e => .next fun p => ?_
  split <;> infer_instance

lemma destination_ends (address : Int) : (destination address).Tames g s fun d g' _ => g' = g ∧
    ∀ n i, d = some (n, i) → ∀ c, s.code.programs[g.env.code]? = some c → c.instrs[n]? = some i := by
  have hprogram : (Engine.program g.env.code).Ends (Session.Abides Session.Grows) s fun c _ =>
      c = s.code.programs.getD g.env.code default := .of_ok rfl ⟨.refl s, .refl s⟩ rfl
  refine .env (.after hprogram ?_)
  rintro _ s1 hs1 rfl
  dsimp only
  split
  · refine .pure ⟨rfl, fun n i hd c hc => ?_⟩
    obtain ⟨j, hj, hpair⟩ := Option.map_eq_some_iff.1 hd
    cases hpair
    rwa [Array.getD_eq_getD_getElem?, hc, Option.getD_some] at hj
  · exact .pure ⟨rfl, nofun⟩

lemma Leaps.of_within {g1 : GState} {s1 : Session} (hs : s.Grows s1) (h : g.Within {} g1) (hg' : Leaps s1 g1 g') :
    Leaps s g g' := by
  obtain ⟨fee, hfee, -⟩ := h.machine.gas rfl
  refine ⟨by have := hg'.gas; omega, ?_⟩
  rw [← (h.machine.place rfl).1, ← h.env]
  obtain hnext | ⟨n, i, hn, hi, hc⟩ := hg'.place
  · exact .inl hnext
  · exact .inr ⟨n, i, hn, hi, fun c h => hc c (hs.programs h)⟩

lemma Ends.branched {f : α → Step Effect} {P : α → GState → Session → Prop} (hx : x.Tames g s P)
    (hf : ∀ a g1 s1, P a g1 s1 → g.Abides {} g1 ∧ (f a).Tames g1 s1 (Branched p s1 g1)) :
    (x >>= f).Tames g s (Branched p s g) := by
  refine hx.bind fun a g1 s1 hs1 ha => ?_
  obtain ⟨hg1, hfa⟩ := hf a g1 s1 ha
  refine hfa.mono ?_
  rintro _ g2 s2 - ⟨hg2, gs, rfl, hlength, hnodup, hgs⟩
  refine ⟨.trans ⟨hg1.id, hg1.alters, hg1.within.of_empty⟩ hg2, gs, rfl, hlength, hnodup, fun g' hg' => ?_⟩
  obtain ⟨hwithin, hleaps, halters, hnumber⟩ := hgs g' hg'
  refine ⟨hg1.within.of_empty.trans hwithin, hleaps.of_within hs1.1 hg1.within, hg1.alters.trans halters, ?_⟩
  exact hnumber.imp (·.trans hg1.id) fun hn => ⟨Nat.le_trans hs1.2.next hn.1, hn.2⟩

lemma Ends.calc_branched {c : Calc α} {f : α → Step Effect} (hf : ∀ a s1, (f a).Tames g s1 (Branched p s1 g)) :
    (liftM c >>= f).Tames g s (Branched p s g) := by
  refine .branched (.engine (.lift .any)) ?_
  rintro a g s1 ⟨rfl, -⟩
  exact ⟨.refl g, hf a s1⟩

lemma pop_branched {f : Item → Step Effect} (hf : ∀ i g1 s1, (f i).Tames g1 s1 (Branched p s1 g1)) :
    (pop >>= f).Tames g s (Branched p s g) := pop_ends.branched fun i g1 s1 h => ⟨h.1, hf i g1 s1⟩

lemma leap_within (hj : p.jumps = true) (fee : Nat) (pc : Int) (depth : Nat) :
    g.machine.Within p { g.machine.useGas fee fee with pc := pc, depth := depth } :=
  (Machine.Within.useGas fun _ => Int.natCast_nonneg fee).trans (.jump hj pc depth)

lemma copy_ends (g : GState) (deep : Bool) (s : Session) : (g.copy deep).Ends (Session.Abides Session.Grows) s fun g' s' =>
    (g.CopyOf g' ∧ (deep = false → g'.world.constraints = g.world.constraints)) ∧
      g.Alters g' ∧ g'.world.Stands ∧ g'.NumberedIn s s' :=
  ⟨⟨(g.copy_yields deep s).after, (g.copy_keeps deep s).1⟩, fun _ _ hr =>
    ⟨((g.copy_yields deep s).ok hr).2, ((g.copy_keeps deep s).ok hr).2⟩⟩

lemma jump_ends (hj : p.jumps = true) : jump.Tames g s (Branched p s g) := by
  simp only [jump]
  refine .machine ?_
  split
  · exact .throw _
  refine pop_branched fun target g1 s1 => .calc_branched fun address s2 => ?_
  split
  · rename_i address
    refine (destination_ends address).bind ?_
    rintro d g1 s3 hs3 ⟨rfl, hd⟩
    split
    · rename_i n i
      split
      · rename_i hi
        refine .modify (.modify (.get (.after (copy_ends _ false s3) ?_)))
        rintro g2 s4 hs4 ⟨⟨hcopy, -⟩, halters, -, hn⟩
        have hleap := leap_within (g := g1) hj 8 n g1.machine.depth
        refine .pure ⟨.of_machine hleap, [g2], rfl, Nat.le_succ 1, by simp, forall_mem_singleton.2 ⟨?_, ?_, ?_, ?_⟩⟩
        · exact (GState.Within.of_machine hleap).trans (.of_copyOf hcopy fun h => Bool.noConfusion (hj.symm.trans h))
        · obtain ⟨st, rs, hm, -⟩ := hcopy.machine
          refine ⟨?_, .inr ⟨n, i, by rw [hm], eq_of_beq hi, hd n i rfl⟩⟩
          rw [hm]
          show _ < g1.machine.minGas + 8
          omega
        · exact (GState.Alters.of_machine _).trans halters
        · exact .inr ⟨Nat.le_trans hs3.2.next hn.1, hn.2⟩
      · exact .throw _
    · exact .throw _
  · exact .throw _

lemma side_ends (hj : p.jumps = true) (pc : Int) (condition : Expr) : (side pc condition).Tames g s fun g' g1 s' =>
    g1 = g ∧ (g.Within p g' ∧ g.Alters g' ∧ g'.NumberedIn s s') ∧ g'.machine.pc = pc ∧
      g.machine.minGas < g'.machine.minGas := by
  refine .get (.after (copy_ends _ true s) ?_)
  rintro g1 s1 _ ⟨⟨hcopy, -⟩, halters, -, hn⟩
  refine (Ends.engine (.lift (GState.constrain_yields _ condition))).mono ?_
  rintro _ g s2 hs2 ⟨rfl, rfl⟩
  have hg1 : g.Within p g1 := .of_copyOf hcopy fun h => nomatch hj.symm.trans h
  obtain ⟨fee, hfee, -⟩ := (Machine.Within.of_copyOf (p := {}) hcopy.machine).gas rfl
  refine ⟨rfl, ⟨?_, ?_, hn.1, Nat.lt_of_lt_of_le hn.2 hs2.2.next⟩, rfl, ?_⟩
  · exact (hg1.trans (.of_machine (leap_within hj 10 pc _))).trans (.of_world (.constrained (prefix_append _ _)))
  · exact halters.trans ⟨rfl, .of_accounts rfl rfl rfl⟩
  · show _ < g1.machine.minGas + 10
    omega

/-- The side that is jumped to has a number of its own beside that of the side that goes on. -/
lemma turn_ends (hj : p.jumps = true) (positive : Expr) (address : Int) (hs0 : s0.Abides Session.Grows s)
    {passed : List GState} (hlength : passed.length ≤ 1) (hnodup : (passed.map (·.id)).Nodup)
    (hpassed : ∀ g' ∈ passed, (g.Within p g' ∧ g.Alters g' ∧ g'.NumberedIn s0 s) ∧ Leaps s0 g g') :
    (turn positive address passed).Tames g s (Branched p s0 g) := by
  have hlands {s'} (hs : s.Rests s') g' (hg' : g' ∈ passed) : Lands p s0 s' g g' := by
    obtain ⟨⟨hwithin, halters, hn⟩, hleaps⟩ := hpassed g' hg'
    exact ⟨hwithin, hleaps, halters, .inr ⟨hn.1, Nat.lt_of_lt_of_le hn.2 hs.next⟩⟩
  have hreturn {s'} (hs : s.Rests s') : Tames (return .branch passed) g s' (Branched p s0 g) :=
    .pure ⟨.refl g, passed, rfl, Nat.le_succ_of_le hlength, hnodup, hlands hs⟩
  refine (destination_ends address).bind ?_
  rintro d g s1 hs1 ⟨rfl, hd⟩
  split
  · rename_i n a argument
    refine .after (.lift .any) fun isFalse s2 hs2 _ => ?_
    have hs := hs1.2.trans hs2.2
    split
    · exact hreturn hs
    refine (side_ends hj _ positive).bind ?_
    rintro g' g s3 hs3 ⟨rfl, ⟨hg', halters, hn⟩, hpc, hgas⟩
    have hleap : Leaps s0 g g' := ⟨hgas, .inr ⟨n, _, hpc, rfl, fun c hc => hd n _ rfl c (hs0.1.programs hc)⟩⟩
    refine .pure ⟨.refl g, _, rfl, ?_, ?_, forall_mem_append.2 ⟨hlands (hs.trans hs3.2), ?_⟩⟩
    · rw [length_append]
      exact Nat.add_le_add_right hlength 1
    · rw [map_append, nodup_append]
      refine ⟨hnodup, by simp, fun n hmem m hm => ?_⟩
      obtain ⟨g4, hg4, rfl⟩ := mem_map.1 hmem
      obtain rfl : m = g'.id := mem_singleton.1 hm
      have hlt := (hpassed g4 hg4).1.2.2.2
      have hle := Nat.le_trans hs.next hn.1
      omega
    · exact forall_mem_singleton.2 ⟨hg', hleap, halters, .inr ⟨Nat.le_trans (hs0.2.trans hs).next hn.1, hn.2⟩⟩
  · exact hreturn hs1.2

lemma jumpIf_ends (hj : p.jumps = true) : jumpIf.Tames g s (Branched p s g) := by
  refine pop_branched fun target g1 s1 => pop_branched fun top g2 s2 => .calc_branched fun condition s3 => .machine ?_
  refine .calc_branched fun address s4 => ?_
  split
  · refine .calc_branched fun _ _ => .calc_branched fun negative _ => ?_
    refine .calc_branched fun _ _ => .calc_branched fun positive _ => .calc_branched fun isFalse s5 => ?_
    split
    · exact turn_ends hj _ _ ⟨.refl s5, .refl s5⟩ (Nat.zero_le 1) nodup_nil (forall_mem_nil _)
    · refine (side_ends hj _ negative).bind ?_
      rintro g' g s6 hs6 ⟨rfl, hg', hpc, hgas⟩
      exact turn_ends hj _ _ hs6 (Nat.le_refl 1) (by simp) (forall_mem_singleton.2 ⟨hg', hgas, .inl hpc⟩)
  · -- the target is not known, so the jump is passed by
    have hleap := leap_within (g := g2) hj 10 (g2.machine.pc + 1) g2.machine.depth
    refine .modify (.modify (.get (.pure ⟨.of_machine hleap, _, rfl, Nat.le_succ 1, by simp, ?_⟩)))
    refine forall_mem_singleton.2 ⟨.of_machine hleap, ⟨?_, .inl rfl⟩, .of_machine _, .inl rfl⟩
    show _ < g2.machine.minGas + 10
    omega

instance {loads writes calls books : Bool} : Calm ⟨loads, writes, calls, true, books⟩ jump :=
  ⟨fun _ _ _ => (jump_ends rfl).mono fun _ _ _ _ h => h.right rfl⟩

instance {loads writes calls books : Bool} : Calm ⟨loads, writes, calls, true, books⟩ jumpIf :=
  ⟨fun _ _ _ => (jumpIf_ends rfl).mono fun _ _ _ _ h => h.right rfl⟩

instance {loads writes calls books : Bool} : Calm ⟨loads, writes, calls, true, books⟩ jumpSub := by
  have henter {loads writes calls books : Bool} (address : Int) :
      Calm (⟨loads, writes, calls, true, books⟩ : Footprint) (onMachine fun m => do
        let returns ← m.returns.push (.int (m.pc + 1))
        return ((), { m with returns := returns, pc := address })) := by
    refine onMachine_calm fun m => .next fun returns => .pure ?_
    have hreturns : m.Within ⟨loads, writes, calls, true, books⟩ { m with returns := returns } := .of_operands
    exact hreturns.trans (.jump rfl address m.depth)
  refine .next fun target => .next fun address => ?_
  split
  · refine .next fun d => ?_
    split <;> infer_instance
  · infer_instance

instance : Calm p returnSub := .next fun _ => inferInstance

instance (topics : Nat) : Calm p (logEntry topics) := by
  have hpops {p : Footprint} (xs : List Nat) : Calm p (forIn xs PUnit.unit fun _ _ => do
      let _ ← pop
      pure (.yield .unit)) := by
    induction xs generalizing p with
    | nil => exact .pure _
    | cons x xs ih =>
      rw [forIn_cons]
      refine .next fun r => ?_
      split <;> infer_instance
  simp only [logEntry]
  infer_instance

/-! ## Calls and creations -/

instance (c : Callee) : Calm p (accountOf c) := by
  cases c with
  | unknown e => exact .next fun a => .pure _
  | text t =>
    simp only [accountOf]
    split
    · infer_instance
    · infer_instance
    · split
      · infer_instance
      · refine .next fun r => ?_
        split <;> infer_instance

instance (withValue : Bool) : Calm p (operands withValue) := by
  refine .next fun top => ?_
  split
  on_goal 1 => refine .next fun v => ?_
  all_goals
    refine .next fun value => .next fun ranges => ?_
    split
    · refine .next fun callee => .next fun data => .next fun r => ?_
      split
      · infer_instance
      · split <;> infer_instance
    · infer_instance

instance (start size : Expr) (i : Nat) (bytes : List Item) :
    Calm p (writeReturned start size i bytes) := by
  induction bytes generalizing i p with
  | nil => exact .pure _
  | cons b rest ih =>
    simp only [writeReturned]
    infer_instance

variable (outStart outSize : Item)

instance : Calm p (forgetReturned outStart outSize) := by
  have hkeep {p : Footprint} (r : Option ReturnData) : Calm p (modify fun g => { g with lastReturn := r }) :=
    .modify fun _ => ⟨rfl, ⟨rfl, .refl _⟩, rfl, rfl, .refl _, .refl _⟩
  refine .next fun start => .next fun c => ?_
  split
  · infer_instance
  · refine .next fun length => .next fun n => ?_
    split <;> infer_instance

instance : Calm p result := .next fun _ => inferInstance

instance : Calm p (unknownResult outStart outSize) := .next fun _ => inferInstance

instance : Calm p success := .next fun _ => inferInstance

instance (address : Int) (data : Calldata) : Calm p (precompiled address data outStart outSize) := by
  refine .next fun start => ?_
  split
  · refine .next fun size => ?_
    split
    · refine .next fun m => ?_
      have hfee (start size : Int) (name : String) :
          Calm p (charge (Precompile.gas (Machine.extension m.memory.size start size) name)
            (Precompile.gas (Machine.extension m.memory.size start size) name)) :=
        charge_calm fun _ => Precompile.gas_nonneg Machine.extension_nonneg name
      refine .next fun _ => .next fun _ => ?_
      extract_lets answer
      generalize answer = r
      split <;> infer_instance
    · infer_instance
  · infer_instance

instance (value : Item) : Calm p (guardStatic value) := by
  refine .next fun e => ?_
  split
  · split
    · split
      · infer_instance
      · refine .next fun v => ?_
        split <;> infer_instance
    · infer_instance
  · infer_instance

lemma frameOf_ends (k : CallKind) (o : CallOperands) (a : Account) :
    (frameOf k o a).Tames g s fun tx g' _ => g' = g ∧ tx.Sent k g o a := by
  have hmake r callee : Tames (liftM (Tx.message r callee)) g s fun tx g' _ => g' = g ∧ tx.Made r .message callee :=
    .engine (.of_yields (Tx.make_yields r .message callee [] s))
  refine .env (.get ?_)
  cases k
  all_goals
    exact (hmake _ _).mono fun _ _ _ _ h => ⟨h.1, h.2.kind, h.2.callee, h.2.caller, h.2.value, h.2.isStatic⟩

instance {loads writes jumps books : Bool} (k : CallKind) :
    Calm ⟨loads, writes, true, jumps, books⟩ (call k) := by
  have hframe (a : Account) (o : CallOperands) :
      Calm ⟨loads, writes, true, jumps, books⟩ (do return Effect.call (← frameOf k o a)) := by
    refine ⟨fun g s _ => (frameOf_ends k o a).bind ?_⟩
    rintro tx g s' _ ⟨rfl, htx⟩
    refine .pure ⟨.refl g, ⟨rfl, htx.kind, fun hg => ?_⟩, trivial⟩
    rw [htx.isStatic, hg, Bool.or_true]
  refine .next fun range => .next fun r => ?_
  split
  · infer_instance
  split
  · refine .next fun code => ?_
    split
    · -- an account without code is paid, and that is all
      refine ⟨fun g s hp => .world (.get (.after (.lift .any) fun amount s1 hs1 _ => ?_))⟩
      refine .after (.lift (g.world.transfer_yields _ _ amount)) ?_
      rintro w s2 hs2 ⟨hw, hcs⟩
      have haccounts : w.accounts = g.world.accounts := by rw [hw]
      refine .modify (Calm.ends_from (.of_world ?_ (.of_balances hw)) (Session.Course.trans hs1 hs2) hp inferInstance)
      exact ⟨.of_accounts haccounts, fun _ _ => .of_accounts haccounts, nofun, fun _ => hcs, .of_added hcs⟩
    · infer_instance
  · split
    · refine .next fun _ => .next fun n => ?_
      split <;> infer_instance
    · refine .next fun n => ?_
      split <;> infer_instance

instance (r : ReturnData) (start size : Int) : Calm p (copyReturned r start size) := .next fun _ => inferInstance

instance (k : CallKind) : Calm p (finishCall k) := by
  refine .next fun range => .next fun r => ?_
  split
  · infer_instance
  refine .next fun g => ?_
  split
  · infer_instance
  refine .next fun start => ?_
  split
  · refine .next fun size => ?_
    split <;> infer_instance
  · infer_instance

instance (creator salt : Expr) (code : String) : Calm p (saltedAddress creator salt code) := by
  have hnumber {p : Footprint} (text : String) : Calm p (saltedAddress.hashNumberOf text) := by
    simp only [saltedAddress.hashNumberOf]
    split <;> infer_instance
  simp only [saltedAddress]
  refine .next fun n => ?_
  split
  · infer_instance
  · refine .next fun owner => ?_
    split
    · split <;> infer_instance
    · infer_instance

instance (n : Nat) : Calm p (finishCreate n) := by
  refine .next fun items => .next fun g => ?_
  split
  · infer_instance
  · infer_instance
  · split <;> infer_instance

instance : Calm p returned := by
  refine .next fun start => .next fun top => .next fun length => .next fun c => ?_
  split <;> infer_instance

instance : Calm p revoked := by
  refine .next fun start => .next fun top => .next fun length => .next fun g => .next fun n => ?_
  -- the data are read from memory if the range is known
  split
  all_goals
    refine .next fun symbols => .next fun stop => .next fun a => ?_
    split
    · infer_instance
    · refine .next fun b => ?_
      split <;> infer_instance

/-! ## Creations and halts -/

instance (value : Item) (data : Calldata) (length : Nat) (code : List Nat) (salt : Option Item) :
    Orderly T (createFrom value data length code salt) := by
  refine .next fun id => .next fun bytes => .next fun arguments => .next fun program => .next fun e => ?_
  refine .next fun g => .next fun _ => ?_
  split
  on_goal 2 => refine .next fun s => ?_
  -- what is left to do once the address is known
  all_goals
    refine .next fun address => ⟨fun g s => .world (.machine (.after (.of_yields (Tx.creation_alters g.world _ _ _ s)) ?_))⟩
    exact fun made s1 hs1 hw => .modify (Orderly.ends_from rfl (.of_world hw) hs1.2 (.pure _))

instance (value start size : Item) (salt : Option Item) :
    Orderly T (createWith value start size salt) := by
  refine .next fun stop => .next fun data => ?_
  split <;> infer_instance

instance : Orderly T create := by
  refine .next fun items => ?_
  split <;> infer_instance

instance : Orderly T createSalted := by
  refine .next fun items => ?_
  split <;> infer_instance

section

variable [hassign : ∀ i code, Engine.Goes T (Engine.assign i code)]

instance (items : List Item) (reverted : Bool) : Orderly T (deploy items reverted) := by
  refine .next fun g => .next fun _ => ?_
  split <;> infer_instance

instance halt_orderly (data : Option ReturnData) (reverted : Bool) : Orderly T (halt data reverted) := by
  refine .next fun c => ?_
  split
  · split
    · split
      · infer_instance
      · infer_instance
    · infer_instance
  · infer_instance

instance : Orderly T returnRange := .next fun _ => halt_orderly _ _

instance : Orderly T revert := .next fun _ => halt_orderly _ _

end

lemma halt_empty (reverted : Bool) (g : GState) (s : Session) :
    halt none reverted g s = .ok (.halt none reverted, g) s := by
  have hc : isCreation g s = .ok (g.tx?.any (·.kind == .creation), g) s := rfl
  unfold halt
  rw [bind_ok hc]
  split <;> rfl

lemma selfDestruct_ends (g : GState) (s : Session) :
    selfDestruct.Tames g s (fun e g' _ => g'.frames = g.frames ∧ e = .halt none false) := by
  refine (pop_ends (p := {})).bind fun top g1 s1 _ hg1 => .after (.lift .any) fun target s2 _ _ => .get ?_
  refine .after (.lift .any) fun amount s3 _ _ => .after (.lift .any) fun w s4 _ _ => .after Engine.Goes.ends ?_
  refine fun code s5 _ _ => .after (.lift .any) fun st s6 _ _ => .set ?_
  exact .of_ok (halt_empty false _ s6) ⟨.refl s6, .refl s6⟩ ⟨hg1.1.within.frames, rfl⟩

end EvmAudit.Step

namespace EvmAudit.Opcode

def halts : Opcode → Bool
  | .stop | .ret | .revert | .selfdestruct => true
  | _ => false

def returnsData : Opcode → Bool
  | .ret | .revert => true
  | _ => false

lemma halts_of_returnsData (op : Opcode) (h : op.returnsData = true) : op.halts = true := by
  cases op with
  | ret | revert => rfl
  | _ => cases h

def creates : Opcode → Bool
  | .create | .create2 => true
  | _ => false

lemma effectOf_calm (op : Opcode) (h : op.halts = false) (hc : op.creates = false) : op.effectOf.Calm .all := by
  have hconstant f : (effectOf.constant f).Calm .all := .next fun _ => inferInstance
  cases op with
  | stop | ret | revert | selfdestruct => cases h
  | create | create2 => cases hc
  | _ =>
    simp only [effectOf]
    infer_instance

/-- What an instruction may do, with a node to ask or without one. -/
def footprint (loads : Bool) : Opcode → Footprint
  | .sstore => { loads := loads, writes := true }
  | .call | .callcode | .delegatecall | .staticcall => { loads := loads, calls := true }
  | .jump | .jumpi | .jumpsub => { loads := loads, jumps := true }
  | _ => { loads := loads }

/-- Instructions that neither make an account nor end the frame keep to their footprints. -/
lemma effectOf_within (op : Opcode) (h : op.halts = false) (hc : op.creates = false) {loads : Bool}
    (hoff : loads = false → s.loader.isNone = true) (hg : g.machine.Nonneg) :
    op.effectOf.Yields g s fun e g' => g.Within (op.footprint loads) g' ∧ e.Within (op.footprint loads) g := by
  have hconstant {p} f : (effectOf.constant f).Calm p := .next fun _ => inferInstance
  have hcalm {p} (hp : p.loads = loads) {x : Step Effect} [hx : x.Calm p] :
      x.Yields g s fun e g' => g.Within p g' ∧ e.Within p g := hx.keeps g s fun hl => hoff (hp ▸ hl)
  cases op with
  | stop | ret | revert | selfdestruct => cases h
  | create | create2 => cases hc
  | sha3 => exact (Step.hash_ends hoff fun _ => hg).within
  | _ =>
    simp only [effectOf, footprint]
    exact hcalm rfl

/-- The session grows, unless an instruction ends the frame with data. -/
lemma effectOf_grows (op : Opcode) (h : op.returnsData = false) (g : GState) (s : Session) :
    op.effectOf.Yields g s fun _ _ => True := by
  have hquiet {x : Step Effect} (hx : x.Orderly Session.Grows) : x.Yields g s fun _ _ => True :=
    Step.Ends.yields ((hx.ends g s).mono fun _ _ _ _ _ => trivial)
  by_cases hcalm : op.halts = false ∧ op.creates = false
  · have := op.effectOf_calm hcalm.1 hcalm.2
    exact hquiet inferInstance
  cases op with
  | ret | revert => cases h
  | stop => exact Engine.yields_iff.2 (.of_ok (Step.halt_empty false g s) (.refl s) trivial)
  | selfdestruct => exact (Step.selfDestruct_ends g s).yields.mono fun _ _ _ => trivial
  | create | create2 =>
    simp only [effectOf]
    exact hquiet inferInstance
  | _ => exact absurd ⟨rfl, rfl⟩ hcalm

end EvmAudit.Opcode
