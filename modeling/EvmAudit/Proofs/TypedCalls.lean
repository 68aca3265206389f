import EvmAudit.Proofs.TypedSteps

/-!
# Typed calls and creations

The operands of a call are words, its input is made of bytes, and so the frame that it starts is given typed parts. What a
call writes to memory when it is answered are bytes: those that were returned, those of a precompiled contract, or
variables of eight bits. An instruction performed in a typed state leads to typed states only.
-/

namespace EvmAudit

open List Item

variable {items : List Item} {target value outStart : Item} {data : Calldata} {step : Step Effect}

/-! ## Precompiled contracts -/

namespace Precompile

def Answers (r : Except Fault (List Item)) : Prop := ∀ items, r = .ok items → ∀ i ∈ items, i.Writable

lemma Answers.ok (h : AreWritable items) : Answers (.ok items) := by
  rintro _ ⟨⟩
  exact h

lemma Answers.ofBytes (bytes : List Nat) : Answers (.ok (ofBytes bytes)) := by
  refine .ok fun i hi => ?_
  obtain ⟨b, -, rfl⟩ := mem_map.1 hi
  trivial

lemma Answers.bind {α : Type} {r : Except Fault α} {f : α → Except Fault (List Item)} (hf : ∀ a, Answers (f a)) :
    Answers (r >>= f) := by
  cases r with
  | ok a => exact hf a
  | error e => exact nofun

lemma modExp_answers (data : List Item) : Answers (modExp data) := by
  refine .bind fun bytes => ?_
  dsimp only
  split
  · exact .bind fun _ => .ofBytes _
  · split
    · exact .ok (forall_mem_nil _)
    · refine .bind fun _ => .bind fun _ => .bind fun _ => ?_
      split <;> exact .ofBytes _

lemma run_answers (address : Int) {data : List Item} (h : AreWritable data) : Answers (run address data) := by
  unfold run
  split
  · rename_i f hf
    have hmem := Sequence.mem_of_at? hf
    simp only [contracts, mem_cons, not_mem_nil, or_false] at hmem
    rcases hmem with rfl | rfl | rfl | rfl | rfl | rfl | rfl | rfl | rfl
    · refine .bind fun bytes => ?_
      dsimp only
      split
      · exact .ok (forall_mem_nil _)
      · exact .ofBytes _
    · exact .bind fun _ => .ofBytes _
    · exact .bind fun _ => .ofBytes _
    · -- the identity gives back what it was given
      exact .ok h
    · exact modExp_answers data
    · exact .bind fun _ => nofun
    · exact .bind fun _ => nofun
    · unfold pairing
      split
      · exact .ok (forall_mem_nil _)
      · exact nofun
    · exact .bind fun _ => .ofBytes _
  · exact nofun

end Precompile

/-! ## Operands of a call -/

/-- An unknown callee is at the address that a word stands for. -/
def Callee.Typed : Callee → Prop
  | .text _ => True
  | .unknown e => e.IsBits 256

structure CallOperands.Typed (o : CallOperands) : Prop where
  account : ∀ a, o.account = some a → a.Typed
  data : o.data.Typed
  value : o.value.Pushable
  outStart : o.outStart.IsBits 256
  outSize : o.outSize.IsBits 256

namespace Step

lemma calleeOf_typed (h : target.IsBits 256) : (calleeOf target).Typed Callee.Typed := by
  refine .next fun n => ?_
  split
  · exact .pure trivial
  refine .given (expr!_isBits h) fun e he => .given (Expr.simplified_isBits he) fun e' he' => ?_
  refine .next fun text => .after fun session => ?_
  split
  · -- what the node does not know stays the word that it was
    refine .get fun g _ => .after fun answer => ?_
    split
    · exact .pure trivial
    · exact .throw _
    · exact .pure he'
  · exact .pure he'

lemma inputOf_typed (start size : Item) : (inputOf start size).Typed Calldata.Typed := by
  refine .get fun g _ => .next fun start => .next fun size => .next fun symbolic => ?_
  extract_lets finish
  have hfinish stop : (finish stop).Typed Calldata.Typed := by
    refine .next fun a => ?_
    split
    · exact .calc (Calldata.unknown_typed _)
    refine .next fun b => ?_
    split
    · exact .calc (Calldata.unknown_typed _)
    · refine (bytesIn_typed _ _).bind fun bytes hbytes => .calc ?_
      exact Calldata.ofBytes_typed _ fun i hi => (hbytes i hi).writable
  split <;> exact .next hfinish

lemma accountOf_typed {c : Callee} (h : c.Typed) :
    (accountOf c).Typed fun r => ∀ found, r = .ok found → ∀ a, found = some a → a.Typed := by
  unfold accountOf
  split
  · refine (Typed.yields fun s => Account.make_typed h none false false 0 none s).bind fun a ha => .pure ?_
    rintro _ ⟨⟩ _ ⟨⟩
    exact ha
  split
  · exact .pure fun _ h => by cases h
  · refine .pure ?_
    rintro _ ⟨⟩ _ ⟨⟩
  split
  · refine .pure ?_
    rintro _ ⟨⟩ _ ⟨⟩
  refine (account_typed _).bind fun r hr => ?_
  split
  · refine .pure ?_
    rintro _ ⟨⟩ _ ⟨⟩
    exact hr _ rfl
  · exact .pure fun _ h => by cases h

lemma operands_typed (withValue : Bool) : (operands withValue).Typed fun r => ∀ o, r = .ok o → o.Typed := by
  refine (take_typed 2).bind fun top htop => ?_
  extract_lets finish
  have hfinish value (hvalue : value.Pushable) : (finish value).Typed fun r => ∀ o, r = .ok o → o.Typed := by
    refine (take_typed 4).bind fun ranges hranges => ?_
    split
    · simp only [mem_cons, not_mem_nil, or_false, forall_eq_or_imp, forall_eq] at htop hranges
      refine (calleeOf_typed htop.2.2).bind fun callee hcallee => (inputOf_typed _ _).bind fun data hdata => ?_
      refine (accountOf_typed hcallee).bind fun found hfound => ?_
      split
      · exact .pure fun _ h => by cases h
      rename_i account
      extract_lets finish
      have hfinish (hasValue : Item) : (finish hasValue).Typed fun r => ∀ o, r = .ok o → o.Typed := by
        refine .next fun e => (Typed.pure (Q := fun _ => True) trivial).bind fun width _ => ?_
        refine .next fun _ => .next fun _ => .next fun _ => .pure ?_
        rintro _ ⟨⟩
        exact ⟨hfound account rfl, hdata, hvalue, hranges.2.2.2.1, hranges.2.2.2.2⟩
      split
      · exact hfinish _
      · exact .next fun _ => hfinish _
    · exact .pure fun _ h => by cases h
  -- the value, if the call carries one, is between the address and the ranges
  split
  · refine (take_typed 1).bind fun items hitems => ?_
    obtain ⟨v, rfl⟩ := length_eq_one_iff.1 (hitems.1 Nat.one_pos)
    exact hfinish v (hitems.2 v mem_cons_self).pushable
  · exact hfinish (.int 0) trivial

/-! ## Answers to a call -/

lemma returnedSymbols_typed (start : Expr) (pc : Int) (positions : List Nat) :
    (returnedSymbols start pc positions).Typed fun items => ∀ i ∈ items, i.IsBits 8 := by
  induction positions with
  | nil => exact .pure (forall_mem_nil _)
  | cons i rest ih =>
    refine .next fun _ => .next fun position => .next fun text => (unknown_typed _ 8).bind fun e he => ?_
    exact ih.bind fun items hitems => .pure (forall_mem_cons.2 ⟨he, hitems⟩)

lemma writeReturned_typed {start : Expr} (hstart : start.IsBits 256) (size : Expr) (n : Nat)
    (h : ∀ i ∈ items, i.IsBits 8) : (writeReturned start size n items).Typed fun _ => True := by
  induction items generalizing n with
  | nil => exact .pure trivial
  | cons b rest ih =>
    obtain ⟨hb, hrest⟩ := forall_mem_cons.1 h
    refine .next fun inside => .next fun position => (byteAt_typed _).bind fun there _ => ?_
    -- the choice is as wide as the new byte, whatever is there
    refine .given (choose_isBits_left _ there hb) fun byte hbyte => ?_
    refine .given (Expr.arithInt_isBits .add n hstart) fun index hindex => ?_
    have hfits : (expr index).Fits 256 := .inr hindex
    have hwritable : (expr byte).Writable := hbyte
    exact (setByte_typed hfits hwritable).bind fun _ _ => ih (n + 1) hrest

lemma forgetReturned_typed (h : outStart.IsBits 256) (outSize : Item) :
    (forgetReturned outStart outSize).Typed fun _ => True := by
  refine .given (expr!_isBits h) fun start hstart => .next fun symbolic => ?_
  split
  · exact .pure trivial
  refine .next fun length => .next fun n => ?_
  split
  · refine (unknown_typed _ 256).bind fun size hsize => .machine fun m _ => ?_
    refine (returnedSymbols_typed start _ _).bind fun data hdata => ?_
    refine (writeReturned_typed hstart size 0 hdata).bind fun _ _ => ?_
    refine .modify fun g hg => { hg with lastReturn := ?_ }
    rintro _ ⟨⟩
    exact ⟨fun i hi => (hdata i hi).writable, .inr hsize⟩
  · exact .pure trivial

lemma result_typed : result.Typed (Expr.IsBits 256) := .get fun _ _ => .after fun _ => unknown_typed _ 256

lemma unknownResult_typed (h : outStart.IsBits 256) (outSize : Item) : (unknownResult outStart outSize).Safe :=
  (forgetReturned_typed h outSize).bind fun _ _ => leaves_typed result_typed

lemma success_typed : success.Safe :=
  result_typed.bind fun r hr => (push_typed (i := .expr r) (.inr hr)).bind fun _ _ => .next fun c =>
    (constrain_typed c).goesOn

lemma precompiled_typed (address : Int) (h : data.Typed) (outStart outSize : Item) :
    (precompiled address data outStart outSize).Safe := by
  refine .next fun start => ?_
  split
  · refine .next fun size => ?_
    split
    · refine .machine fun m _ => (charge_typed _ _).bind fun _ _ => .extend fun _ => ?_
      extract_lets answer
      have hanswer : Precompile.Answers answer := by
        simp only [answer]
        split
        · exact Precompile.run_answers address h.1
        · rintro _ ⟨⟩
      clear_value answer
      split
      · rename_i bytes
        refine (setBytes_typed _ fun i hi => ?_).bind fun _ _ => success_typed
        exact hanswer bytes rfl i (mem_of_mem_take hi)
      · exact (unknownBytes_typed _ _).bind fun bytes hbytes => (setBytes_typed _ hbytes).bind fun _ _ => success_typed
      · exact .throw _
    · exact .pure trivial
  · exact .pure trivial

/-! ## Frames of calls -/

lemma guardStatic_typed (value : Item) : (guardStatic value).Typed fun _ => True := by
  refine .env fun e _ => ?_
  split
  · split
    · split
      · exact .pure trivial
      refine .next fun v => ?_
      split
      · exact .next fun _ => .next fun c => constrain_typed c
      · split
        · exact .throw _
        · exact .pure trivial
    · split
      · exact .throw _
      · exact .pure trivial
  · exact .pure trivial

variable (k : CallKind)

lemma frameOf_typed {o : CallOperands} (ho : o.Typed) {callee : Account} (hcallee : callee.Typed) :
    (frameOf k o callee).Typed Tx.Typed := by
  refine .env fun e he => .get fun g hg => ?_
  have hdata : ∀ d, some o.data = some d → d.Typed := by
    rintro _ ⟨⟩
    exact ho.data
  have hnothing : Fits 256 .absent := trivial
  cases k
  all_goals
    refine .yields fun s => Tx.make_typed ⟨?_, hdata, he.gasPrice.fits, hnothing, he.origin.fits, ?_⟩ ?_ _ _ s
  -- the kinds of calls differ in the sender, the value and the callee
  exacts [.inr hg.active.address, ho.value.fits, hcallee, .inr he.address, ho.value.fits, hg.active,
    he.sender, he.callValue.fits, hg.active, .inr he.address, ho.value.fits, hcallee]

lemma outRange_typed : (outRange k).Typed fun r => r.1.IsBits 256 ∧ r.2.IsBits 256 := by
  refine .machine fun m hm => ?_
  dsimp only
  split
  · rename_i hstart hsize
    exact .pure ⟨hm.stack _ (mem_of_getElem? hstart), hm.stack _ (mem_of_getElem? hsize)⟩
  · exact .throw _

lemma call_typed : (call k).Safe := by
  refine (outRange_typed k).bind fun out hout => (operands_typed _).bind fun r hr => ?_
  split
  · split
    · exact unknownResult_typed hout.1 _
    · exact .throw _
  rename_i o
  have ho := hr o rfl
  split
  · rename_i a ha
    have ha := ho.account a ha
    refine .after fun code => ?_
    -- an account without code is paid and answers at once
    split
    · refine .world fun w hw => .get fun g _ => .next fun amount => ?_
      refine .given (hw.transfer _ _ _) fun w' hw' => (setWorld_typed hw').bind fun _ _ => ?_
      exact unknownResult_typed hout.1 _
    have hframe : Typed (do return .call (← frameOf k o a)) Effect.Typed :=
      (frameOf_typed k ho ha).bind fun _ htx => .pure htx
    split
    · exact (guardStatic_typed _).bind fun _ _ => hframe
    · exact hframe
  · extract_lets answer
    have hanswer : (answer ()).Safe := by
      refine (orThrow_typed fun _ _ => trivial).bind fun n _ => ?_
      split
      · exact precompiled_typed _ ho.data _ _
      · exact .throw _
    split
    · exact (guardStatic_typed _).bind fun _ _ => hanswer
    · exact hanswer

lemma copyReturned_typed {r : ReturnData} (h : r.Typed) (start size : Int) :
    (copyReturned r start size).Typed fun _ => True := by
  refine .next fun length => .extend fun _ => .next fun _ => .next fun n => ?_
  refine .given (.mapM fun i _ => h.get _) fun bytes hbytes => ?_
  exact setBytes_typed start hbytes.2

lemma finishCall_typed : (finishCall k).Safe := by
  refine (outRange_typed k).bind fun out hout => (operands_typed _).bind fun r hr => ?_
  split
  · split
    · exact unknownResult_typed hout.1 _
    · exact .throw _
  rename_i o
  have ho := hr o rfl
  refine .get fun g hg => ?_
  split
  · -- nothing was returned
    refine result_typed.bind fun e he => (push_typed (i := .expr e) (.inr he)).bind fun _ _ => ?_
    extract_lets _ finish
    have hend : (finish ()).Safe := by
      dsimp only [finish]
      split
      · exact .next fun c => (constrain_typed c).goesOn
      · exact .pure trivial
    split
    · exact (forgetReturned_typed ho.outStart _).bind fun _ _ => hend
    · exact hend
  · rename_i data hdata
    have hleave := leaves_typed result_typed
    refine .next fun start => ?_
    split
    · refine .next fun size => ?_
      split
      · exact (copyReturned_typed (hg.lastReturn data hdata) _ _).bind fun _ _ => success_typed
      · exact hleave
    · exact hleave

/-! ## Creations -/

lemma saltedAddress_typed (creator salt : Expr) (code : String) :
    (saltedAddress creator salt code).Typed fun _ => True := by
  refine .next fun s => ?_
  split
  · -- which text the hash has does not matter
    generalize CodeHash.ofHex code = text
    have hdigest : (saltedAddress.hashNumberOf text).Typed fun _ => True := by
      unfold saltedAddress.hashNumberOf
      split
      · exact .calc .any
      · exact .throw _
    refine hdigest.bind fun digest _ => ?_
    split
    · refine (Typed.pure (Q := fun _ => True) trivial).bind fun pad _ => ?_
      exact .next fun _ => .next fun _ => .after fun _ => .pure trivial
    · exact .next fun _ => .next fun _ => .next fun _ => .next fun _ => .after fun _ => .pure trivial
  · refine .next fun owner => ?_
    split
    · dsimp only
      split
      · exact .pure trivial
      · exact .throw _
    · exact .throw _

lemma createFrom_typed (hvalue : value.IsBits 256) (hdata : data.Typed) (length : Nat) (code : List Nat)
    (salt : Option Item) : (createFrom value data length code salt).Safe := by
  refine .after fun id => .given (.mapM fun _ _ => hdata.load _) fun items hitems => ?_
  refine .given (Calldata.ofBytes_typed id hitems.2) fun arguments harguments => .after fun program => ?_
  refine .env fun e he => .get fun g hg => (chargeHash_typed _).bind fun _ _ => ?_
  extract_lets finish
  have hfinish address : (finish address).Safe := by
    refine .world fun w hw => .machine fun m _ => ?_
    have hnothing : Fits 256 .absent := trivial
    have hgiven : ∀ d, some arguments = some d → d.Typed := by
      rintro _ ⟨⟩
      exact harguments
    have hcaller : (expr g.active.address).Pushable := .inr hg.active.address
    refine (Typed.yields fun s => Tx.creation_typed hw ⟨hcaller, hgiven, he.gasPrice.fits, hnothing,
      he.origin.fits, hvalue.fits⟩ "" address s).bind fun r hr => ?_
    exact (setWorld_typed hr.2).bind fun _ _ => .pure hr.1
  cases salt with
  | none => exact hfinish none
  | some i => exact .next fun e => (saltedAddress_typed _ e _).bind fun address _ => hfinish address

lemma createWith_typed (hvalue : value.IsBits 256) (start size : Item) (salt : Option Item) :
    (createWith value start size salt).Safe := by
  refine .next fun stop => (inputOf_typed _ _).bind fun data hdata => ?_
  extract_lets finish
  have hfinish length : (finish length).Safe := by
    refine .next fun code => ?_
    -- without any code that can be read, the answer is one
    split
    · exact (pushInt_typed 1).goesOn
    · exact createFrom_typed hvalue hdata length code salt
  split
  · exact .next fun _ => hfinish _
  · exact hfinish _

lemma create_typed : create.Safe := by
  refine (take_typed 3).bind fun items hitems => ?_
  split
  · exact createWith_typed (hitems.2 _ mem_cons_self) _ _ none
  · exact .throw _

lemma createSalted_typed : createSalted.Safe := by
  refine (take_typed 4).bind fun items hitems => ?_
  split
  · exact createWith_typed (hitems.2 _ mem_cons_self) _ _ (some _)
  · exact .throw _

lemma finishCreate_typed (operands : Nat) : (finishCreate operands).Safe := by
  refine (take_typed operands).bind fun _ _ => .get fun g _ => ?_
  split
  · exact .leave (Expr.word_isBits 0)
  · exact .throw _
  · split
    · exact .leave (Expr.ofInt_isBits _ 256)
    · exact .throw _

end Step

/-! ## Instructions -/

namespace Opcode

open Step

lemma constant_typed {f : Environment → Item} (h : ∀ e, e.Typed → (f e).Pushable) :
    (effectOf.constant f).Safe := .env fun e he => (push_typed (h e he)).goesOn

lemma effectOf_typed (op : Opcode) : op.effectOf.Safe := by
  have hunknown name : Typed (do leave (← unknown name)) Effect.Typed := leaves_typed (unknown_typed name 256)
  cases op with
  | stop => exact halt_typed (by exact nofun) false
  | add | mul | sub => exact arithmetic_typed _
  | div | sdiv | mod | smod => exact division_typed _
  | addmod | mulmod => exact modular_typed _
  | exp => exact power_typed
  | signextend => exact signExtend_typed
  | lt | gt => exact unsignedOrder_typed _
  | slt | sgt => exact order_typed _
  | eq => exact equality_typed
  | iszero => exact isZero_typed
  | and | or | xor => exact bitwise_typed _
  | not => exact complement_typed
  | byte => exact byteOf_typed
  | shl | shr | sar => exact shift_typed _
  | sha3 => exact hash_typed
  | address => exact .env fun _ he => leave_typed (.inr he.address)
  | balance => exact balance_typed
  | origin => exact constant_typed fun _ he => he.origin
  | caller => exact constant_typed fun _ he => he.sender
  | callvalue => exact constant_typed fun _ he => he.callValue
  | calldataload => exact callDataWord_typed
  | calldatasize => exact .env fun _ he => .leave he.calldata.sizeWord
  | calldatacopy => exact callDataCopy_typed
  | codesize => exact codeSize_typed
  | codecopy => exact codeCopy_typed
  | gasprice => exact constant_typed fun _ he => he.gasPrice
  | extcodesize => exact foreignCodeSize_typed
  | extcodecopy => exact foreignCodeCopy_typed
  | extcodehash => exact foreignCodeHash_typed
  | returndatasize => exact returnDataSize_typed
  | returndatacopy => exact returnDataCopy_typed
  | blockhash => exact blockHash_typed
  | coinbase | timestamp | difficulty | gas => exact hunknown _
  | number => exact .env fun _ he => leave_typed (.inr he.blockNumber)
  | gaslimit => exact .machine fun _ hm => (push_typed hm.gasLimit).goesOn
  | chainid => exact .env fun _ he => leave_typed (.inr he.chainId)
  | selfbalance => exact selfBalance_typed
  | basefee => exact constant_typed fun _ he => he.baseFee
  | pop => exact .pop fun _ _ => .pure trivial
  | mload => exact memoryLoad_typed
  | mstore => exact memoryStore_typed
  | mstore8 => exact memoryStoreByte_typed
  | sload => exact storageLoad_typed
  | sstore => exact storageStore_typed
  | jump => exact jump_typed
  | jumpi => exact jumpIf_typed
  | pc => exact programCounter_typed
  | msize => exact .machine fun _ _ => (pushInt_typed _).goesOn
  | jumpdest => exact .pure trivial
  | beginsub | invalid => exact .throw _
  | returnsub => exact returnSub_typed
  | jumpsub => exact jumpSub_typed
  | create => exact create_typed
  | create2 => exact createSalted_typed
  | call | callcode | delegatecall | staticcall => exact call_typed _
  | ret => exact returnRange_typed
  | revert => exact revert_typed
  | selfdestruct => exact selfDestruct_typed
  | push n => exact pushImmediate_typed
  | dup n => exact duplicate_typed
  | swap n => exact swap_typed n
  | log n => exact logEntry_typed n

lemma finish?_typed {op : Opcode} (h : op.finish? = some step) : step.Safe := by
  cases op with
  | create | create2 =>
    cases h
    exact finishCreate_typed _
  | call | callcode | delegatecall | staticcall =>
    cases h
    exact finishCall_typed _
  | _ => cases h

end Opcode

def Outcome.Typed : Outcome → Prop
  | .states gs => ∀ g ∈ gs, g.Typed
  | .call tx waiting => tx.Typed ∧ waiting.Typed
  | .halt final data _ => final.Typed ∧ ∀ r, data = some r → r.Typed

namespace GState

variable {g : GState}

lemma Typed.run (h : g.Typed) (hstep : step.Safe) (isMetered advances : Bool) :
    (g.run step isMetered advances).Typed Outcome.Typed := by
  refine (Engine.Typed.of_yields fun s _ => h.copy false s).bind fun g1 hg1 => (hstep g1 hg1).bind fun r hr => ?_
  obtain ⟨effect, g2⟩ := r
  have hsettles {gs o} (hgs : ∀ g ∈ gs, g.Typed) (ho : Outcome.Settles isMetered advances gs o) : o.Typed := by
    obtain ⟨gs', rfl, -, hgs'⟩ := ho
    intro g' hg'
    obtain ⟨g, hg, hsettles⟩ := hgs' g' hg'
    obtain ⟨_, _, _, rfl⟩ := hsettles.rest
    exact (hgs g hg).of_machine ((hgs g hg).machine.of_place _ _ _ _)
  cases effect with
  | next => exact .of_yields fun s _ => (settle_yields _ _ [g2] s).mono fun o => hsettles (forall_mem_singleton.2 hr.1)
  | branch gs => exact .of_yields fun s _ => (settle_yields _ _ gs s).mono fun o => hsettles hr.2
  | call tx => exact .pure ⟨hr.2, hr.1⟩
  | halt data reverted => exact .pure ⟨hr.1, hr.2⟩

lemma Typed.perform (h : g.Typed) (op : Opcode) : (g.perform op).Typed Outcome.Typed := by
  unfold GState.perform
  split
  · exact .throw _
  · exact h.run op.effectOf_typed _ _

lemma Typed.finish (h : g.Typed) (op : Opcode) : (g.finish op).Typed Outcome.Typed := by
  unfold GState.finish
  split
  · rename_i hstep
    exact h.run (Opcode.finish?_typed hstep) true true
  · exact .throw _

end GState
end EvmAudit
