import EvmAudit.Proofs.TypedStates

/-!
# Typed steps

An instruction that is performed in a typed state leaves the state typed: what it takes from the stack are words, what it
pushes becomes one, and what it writes to memory are bytes. The session stays typed too, also where the data of a creation
become the code of a program, because those data are bytes.
-/

namespace EvmAudit

open List EvmAudit.Expr Item

variable {items : List Item} {i : Item} {n : Nat} {code : Bytecode}

variable {α β : Type} {a : α} {xs : List α} {c : Engine α}

/-! ## Computations that keep things typed -/

namespace Engine

/-- The computation has such a result and leaves the session typed, unless the analysis ends. -/
def TypedIn (c : Engine α) (s : Session) (Q : α → Prop) : Prop :=
  match c s with
  | .ok a s' => s'.Typed ∧ Q a
  | .error f s' => f.IsFinal ∨ s'.Typed

def Typed (c : Engine α) (Q : α → Prop) : Prop := ∀ s : Session, s.Typed → c.TypedIn s Q

variable {c : Engine α} {f : α → Engine β} {P Q : α → Prop} {R : β → Prop} {s s' : Session}

lemma TypedIn.ok (h : c.TypedIn s Q) (hrun : c s = .ok a s') : s'.Typed ∧ Q a := by
  unfold TypedIn at h
  rwa [hrun] at h

lemma TypedIn.error {e : Fault} (h : c.TypedIn s Q) (hrun : c s = .error e s') : e.IsFinal ∨ s'.Typed := by
  unfold TypedIn at h
  rwa [hrun] at h

lemma TypedIn.of_eq {d : Engine α} (h : d.TypedIn s' Q) (hrun : c s = d s') : c.TypedIn s Q := by
  unfold TypedIn at h ⊢
  rwa [hrun]

lemma Typed.of_run (hok : ∀ s a s', s.Typed → c s = .ok a s' → s'.Typed ∧ Q a)
    (herror : ∀ s e s', s.Typed → c s = .error e s' → e.IsFinal ∨ s'.Typed) : c.Typed Q := by
  intro s hs
  unfold TypedIn
  cases hrun : c s with
  | ok a s' => exact hok s a s' hs hrun
  | error e s' => exact herror s e s' hs hrun

lemma Typed.of_yields (h : ∀ s, s.Typed → c.Yields s Q) : c.Typed Q :=
  .of_run (fun s _ _ hs hrun => ⟨hs.grows ((h s hs).ok hrun).1, ((h s hs).ok hrun).2⟩)
    fun s _ _ hs hrun => .inr (hs.grows ((h s hs).error hrun))

lemma Typed.calm [hc : Calm c] : c.Typed fun _ => True := of_yields fun s _ => hc.grows s

lemma Typed.pure (h : Q a) : Typed (Pure.pure a) Q := fun _ hs => ⟨hs, h⟩

lemma Typed.throw (e : Fault) : Typed (MonadExcept.throw e : Engine α) Q := fun _ hs => .inr hs

lemma TypedIn.bind (hc : c.TypedIn s P) (hf : ∀ a, P a → (f a).Typed R) : (c >>= f).TypedIn s R := by
  cases hrun : c s with
  | ok a s1 =>
    obtain ⟨hs1, hp⟩ := hc.ok hrun
    exact (hf a hp s1 hs1).of_eq (bind_ok hrun)
  | error e s1 =>
    refine .of_eq ?_ (bind_error hrun)
    exact hc.error hrun

lemma Typed.bind (hc : c.Typed P) (hf : ∀ a, P a → (f a).Typed R) : (c >>= f).Typed R := fun s hs => (hc s hs).bind hf

lemma program_typed (i : ProgramId) : (program i).Typed Program.Typed := fun s hs =>
  ⟨hs, (program_mem s i).elim (hs.programs _) Program.IsRead.typed⟩

lemma assign_typed (i : ProgramId) (h : AreWritable items) : (assign i (.cells items)).Typed fun _ => True := by
  refine .of_run (fun s _ s' hs hrun => ?_) fun s e s' hs hrun => .inl (assign_error hrun).1
  obtain ⟨q, hq⟩ := assign_eq i (.cells items) s
  rw [hq] at hrun
  split at hrun
  · cases hrun
  · rename_i hfault
    cases hrun
    refine ⟨⟨fun p hp => ?_, hs.suspended⟩, trivial⟩
    rcases Array.mem_or_eq_of_mem_setIfInBounds hp with hp | rfl
    · exact hs.programs p hp
    · exact (Program.assign_isOf hfault).typed h

lemma hash_typed (data : Expr) : (hash data).Typed (IsBits 256) := by
  refine .of_yields fun s _ => .of_run fun e s' hrun => ?_
  obtain ⟨session, s1, -, hrun⟩ := of_bind_ok hrun
  obtain ⟨r, s2, hcreate, hrun⟩ := of_bind_ok hrun
  have hr := ((Yields.calc (Hashes.create_isBits _ data)).ok hcreate).2
  obtain ⟨h, _ | e'⟩ := r
  · cases hrun
  · cases hrun
    exact hr e rfl

end Engine

/-- The states that the frame goes on in are typed, and so are the frame that it waits for and the data that it ends
with. -/
def Effect.Typed : Effect → Prop
  | .next => True
  | .branch gs => ∀ g ∈ gs, g.Typed
  | .call tx => tx.Typed
  | .halt data _ => ∀ r, data = some r → r.Typed

namespace Step

/-- From a typed state the step leads to a typed state, with such a result. -/
def Typed (x : Step α) (Q : α → Prop) : Prop := ∀ g : GState, g.Typed → Engine.Typed (x g) fun r => r.2.Typed ∧ Q r.1

abbrev Safe (x : Step Effect) : Prop := Typed x Effect.Typed

variable {x : Step α} {f : α → Step β} {P Q : α → Prop} {R : β → Prop}

lemma Typed.pure (h : Q a) : Typed (Pure.pure a) Q := fun _ hg => .pure ⟨hg, h⟩

lemma Typed.throw (e : Fault) : Typed (MonadExcept.throw e : Step α) Q := fun _ _ => .throw e

lemma Typed.bind (hx : x.Typed P) (hf : ∀ a, P a → (f a).Typed R) : (x >>= f).Typed R :=
  fun g hg => .bind (hx g hg) fun r hr => hf r.1 hr.2 r.2 hr.1

lemma Typed.goesOn (hx : x.Typed P) : (do let _ ← x; return Effect.next).Safe := hx.bind fun _ _ => .pure trivial

lemma Typed.engine (h : c.Typed Q) : Typed (liftM c) Q := fun _ hg => h.bind fun _ ha => .pure ⟨hg, ha⟩

lemma Typed.yields (h : ∀ s, c.Yields s Q) : Typed (liftM c) Q := engine (.of_yields fun s _ => h s)

lemma Typed.calc {c : Calc α} (h : c.Yields Q) : Typed (liftM c) Q := yields fun _ => .calc h

lemma Typed.given {c : Calc α} (h : c.Yields P) (hf : ∀ a, P a → (f a).Typed R) : Typed (liftM c >>= f) R :=
  (Typed.calc h).bind hf

lemma Typed.next {c : Calc α} (hf : ∀ a, (f a).Typed R) : Typed (liftM c >>= f) R := given .any fun a _ => hf a

lemma Typed.after [Engine.Calm c] (hf : ∀ a, (f a).Typed R) : Typed (liftM c >>= f) R :=
  (engine .calm).bind fun a _ => hf a

lemma Typed.get {f : GState → Step β} (hf : ∀ g : GState, g.Typed → (f g).Typed R) : Typed (MonadState.get >>= f) R :=
  fun g hg => hf g hg g hg

lemma Typed.set {g : GState} (h : g.Typed) (hx : x.Typed Q) : Typed (do MonadStateOf.set g; x) Q := fun _ _ => hx g h

lemma Typed.modify {h : GState → GState} (hh : ∀ g, g.Typed → (h g).Typed) :
    Typed (modify h) fun _ => True := fun g hg => .pure ⟨hh g hg, trivial⟩

lemma Typed.mapM (h : ∀ a ∈ xs, (f a).Typed R) : (xs.mapM f).Typed fun bs => ∀ b ∈ bs, R b := by
  induction xs with
  | nil => exact .pure (forall_mem_nil _)
  | cons a xs ih =>
    rw [mapM_cons]
    refine (h a mem_cons_self).bind fun b hb => ?_
    exact (ih fun a ha => h a (mem_cons_of_mem _ ha)).bind fun bs hbs => .pure (forall_mem_cons.2 ⟨hb, hbs⟩)

lemma Typed.foldlM {h : β → α → Step β} (hh : ∀ b, R b → ∀ a ∈ xs, (h b a).Typed R) {b : β} (hb : R b) :
    (xs.foldlM h b).Typed R := by
  induction xs generalizing b with
  | nil => exact .pure hb
  | cons a xs ih =>
    exact (hh b hb a mem_cons_self).bind fun b hb => ih (fun b hb a ha => hh b hb a (mem_cons_of_mem _ ha)) hb

/-! ## Parts of instructions -/

lemma onMachine_typed {h : Machine → Calc (α × Machine)}
    (hh : ∀ m, m.Typed → (h m).Yields fun r => Q r.1 ∧ r.2.Typed) : (onMachine h).Typed Q :=
  .get fun _ hg => .given (hh _ hg.machine) fun _ hr => .set (hg.of_machine hr.2) (.pure hr.1)

lemma Typed.pop {f : Item → Step β} (hf : ∀ i, i.IsBits 256 → (f i).Typed R) : Typed (pop >>= f) R :=
  (onMachine_typed fun _ hm => hm.pop).bind hf

lemma Typed.popWord {f : Expr → Step β} (hf : ∀ e, e.IsBits 256 → (f e).Typed R) : Typed (popWord >>= f) R :=
  (onMachine_typed fun _ hm => hm.popWord).bind hf

lemma take_typed (n : Nat) : (take n).Typed fun is => (0 < n → is.length = n) ∧ ∀ i ∈ is, i.IsBits 256 :=
  onMachine_typed fun _ hm => hm.take n

lemma push_typed (h : i.Pushable) : (push i).Typed fun _ => True :=
  onMachine_typed fun _ hm => (hm.push h).bind fun _ hm' => .pure ⟨trivial, hm'⟩

lemma leave_typed {e : Expr} (h : e.isProp = true ∨ e.IsBits 256) : (leave e).Safe :=
  (push_typed (i := .expr e) h).goesOn

lemma leaves_typed {x : Step Expr} (hx : x.Typed (IsBits 256)) : (x >>= leave).Safe :=
  hx.bind fun _ he => leave_typed (.inr he)

lemma pushInt_typed (n : Int) : (pushInt n).Typed fun _ => True := push_typed trivial

lemma Typed.leave {c : Calc Expr} (h : c.Yields (IsBits 256)) : Typed (liftM c >>= leave) Effect.Typed :=
  leaves_typed (.calc h)

lemma Typed.machine {f : Machine → Step β} (hf : ∀ m, m.Typed → (f m).Typed R) :
    Typed (machine >>= f) R := fun g hg => hf _ hg.machine g hg

lemma Typed.world {f : World → Step β} (hf : ∀ w, w.Typed → (f w).Typed R) : Typed (world >>= f) R :=
  fun g hg => hf _ hg.world g hg

lemma setWorld_typed {w : World} (h : w.Typed) : (setWorld w).Typed fun _ => True := .modify fun _ hg => hg.of_world h

lemma Typed.env {f : Environment → Step β} (hf : ∀ e, e.Typed → (f e).Typed R) :
    Typed (env >>= f) R := fun g hg => hf _ hg.env g hg

lemma Typed.isCreation {f : Bool → Step β} (hf : ∀ b, (f b).Typed R) : Typed (isCreation >>= f) R :=
  fun g hg => hf _ g hg

lemma unknown_typed (name : String) (width : Nat) : (unknown name width).Typed (IsBits width) := by
  refine .get fun g _ => .calc ?_
  unfold GState.unknown
  split
  · exact symbol_isBits _ width
  · exact .throw _

lemma constrain_typed (condition : Expr) : (constrain condition).Typed fun _ => True :=
  .get fun _ hg => .given (hg.constrain condition) fun _ hg' _ _ => .pure ⟨hg', trivial⟩

lemma charge_typed (least most : Int) : (charge least most).Typed fun _ => True :=
  .modify fun _ hg => hg.of_machine (hg.machine.useGas least most)

lemma chargeHash_typed (length : Int) : (chargeHash length).Typed fun _ => True :=
  (charge_typed _ _).bind fun _ _ => .get fun _ _ => .calc .any

lemma Typed.extend {start length : Item} {f : Unit → Step β} (hf : ∀ u, (f u).Typed R) :
    Typed (extend start length >>= f) R := by
  refine (onMachine_typed (Q := fun _ => True) fun _ hm => ?_).bind fun u _ => hf u
  exact (Machine.extend_yields _ start length).bind fun _ hm' => .pure ⟨trivial, hm.grown hm'⟩

lemma byteAt_typed (i : Item) : (byteAt i).Typed IsCell := .machine fun _ hm => .calc (hm.memory.get i)

lemma setByte_typed {content : Item} (hi : i.Fits 256) (hc : content.Writable) :
    (setByte i content).Typed fun _ => True :=
  onMachine_typed fun _ hm => (hm.memory.set hi hc).bind fun _ hmemory => .pure ⟨trivial, hm.of_memory hmemory⟩

lemma setBytes_typed (n : Int) (h : AreWritable items) : (setBytes n items).Typed fun _ => True := by
  induction items generalizing n with
  | nil => exact .pure trivial
  | cons b rest ih =>
    have hrest : AreWritable rest := fun i hi => h i (mem_cons_of_mem _ hi)
    exact (setByte_typed (i := .int n) trivial (h b mem_cons_self)).bind fun _ _ => ih (n + 1) hrest

lemma bytesIn_typed (start stop : Item) : (bytesIn start stop).Typed fun items => ∀ i ∈ items, i.IsCell := by
  refine .machine fun _ hm => .calc (.next fun r => .next fun n => .next fun k => ?_)
  exact (Calc.Yields.mapM fun j _ => .next fun index => hm.memory.get index).mono fun _ hr => hr.2

lemma account_typed (address : Int) : (account address).Typed fun r => ∀ a, r = .ok a → a.Typed :=
  .world fun _ hw => (Typed.yields fun s => hw.findOrLoad address s).bind fun _ hr =>
    (setWorld_typed hr.1).bind fun _ _ => .pure hr.2

lemma orThrow_typed {r : Except Fault α} (h : ∀ a, r = .ok a → Q a) : (orThrow r).Typed Q := by
  cases r with
  | ok a => exact .pure (h a rfl)
  | error f => exact .throw f

lemma codeOf_typed (i : ProgramId) : (codeOf i).Typed Bytecode.Typed :=
  (Engine.program_typed i).bind fun _ hp => .pure hp.code

/-! ## Arithmetic and comparison -/

variable (op : ArithOp)

lemma arithmetic_typed : (arithmetic op).Safe :=
  .popWord fun _ ha => .popWord fun b _ => .leave (arith_isBits op b ha)

lemma division_typed : (division op).Safe := by
  refine .popWord fun a ha => .popWord fun b _ => .next fun isZero => .next fun zero => ?_
  split
  · exact (pushInt_typed 0).goesOn
  · exact .leave (arith_isBits op b ha)

lemma shift_typed : (shift op).Safe :=
  .popWord fun amount _ => .popWord fun _ hvalue => .leave (arith_isBits op amount hvalue)

lemma modular_typed : (modular op).Safe := by
  refine .popWord fun a ha => .popWord fun b _ => .popWord fun m _ => ?_
  refine .given (arith_isBits .urem m ha) fun a' ha' => .next fun b' => ?_
  refine .given (arith_isBits op b' ha') fun e he => ?_
  exact .leave (arith_isBits .urem m he)

lemma power_typed : power.Safe :=
  .popWord fun base _ => .popWord fun exponent _ =>
    .given (Power.create_isBits base exponent) fun r hr =>
      (push_typed (i := .expr r.1) (.inr hr)).bind fun _ _ => (constrain_typed r.2).goesOn

lemma signExtend_typed : signExtend.Safe := by
  refine .pop fun index hindex => .pop fun value hvalue => ?_
  -- the test for the sign and the masks are words, but only what is chosen from matters
  iterate 13 refine .next fun _ => ?_
  refine .given (bitwise_isBits .or _ hvalue) fun filled hfilled => ?_
  iterate 2 refine .next fun _ => ?_
  refine .given (ite_isBits _ _ hfilled) fun extended hextended => ?_
  refine .given (choose_isBits_left _ value hextended) fun chosen hchosen => ?_
  exact .leave (simplified_isBits hchosen)

lemma bitwise_typed : (bitwise op).Safe :=
  .pop fun _ ha => .given (Stack.toWord_isBits ha.pushable) fun _ ha' =>
    .pop fun _ _ => .next fun b => .leave (bitwise_isBits op b ha')

lemma complement_typed : complement.Safe :=
  .pop fun a _ => .given (word_isBits _) fun _ hones => .leave (plus_isBits .sub a hones)

lemma byteOf_typed : byteOf.Safe := by
  refine .pop fun index _ => .pop fun value _ => .next fun word => .next fun i => ?_
  split
  · dsimp only
    split
    · exact (pushInt_typed 0).goesOn
    refine .next fun e => .given (extract_isBits _ _ e) fun byte hbyte => ?_
    refine .given (const_isBits 0 248) fun zeros hzeros => ?_
    refine .given (concat_pair_isBits hzeros hbyte) fun e he => ?_
    refine .given (simplified_isBits he) fun e' he' => leave_typed (.inr ?_)
    have hwidth n : 248 + (n + 7 + 1 - n) = 256 := by omega
    rwa [hwidth] at he'
  · refine .next fun _ => .next fun _ => .next fun _ => .next fun _ => .next fun _ => .next fun _ => ?_
    exact leaves_typed (unknown_typed _ 256)

lemma unsignedOrder_typed (op : CmpOp) : (unsignedOrder op).Safe :=
  .popWord fun a _ => .popWord fun b _ => .given (relate_isProp op a b) fun _ he => leave_typed (.inl he)

lemma order_typed (op : CmpOp) : (order op).Safe :=
  .popWord fun a _ => .popWord fun b _ => .given (compare_isProp op a b) fun _ he => leave_typed (.inl he)

lemma equality_typed : equality.Safe :=
  .pop fun _ _ => .next fun a => .pop fun _ _ => .next fun b =>
    .given (equate_isProp .eq a b) fun _ he => leave_typed (.inl he)

lemma isZero_typed : isZero.Safe :=
  .pop fun _ _ => .next fun _ => .next fun zero => .given (bit_isBits zero) fun _ he => .leave (simplified_isBits he)

/-! ## Surroundings -/

lemma balance_typed : balance.Safe := by
  refine .pop fun i _ => .next fun address => .next fun v => ?_
  split
  · refine (account_typed _).bind fun r hr => (orThrow_typed hr).bind fun a _ => .world fun w hw => ?_
    exact .leave (hw.balance _)
  · refine .world fun w hw => .given (word_isBits 0) fun zero hzero => ?_
    refine .bind ?_ fun _ he => leave_typed (.inr he)
    refine .foldlM (fun acc _ a _ => .next fun here => ?_) hzero
    exact .given (hw.balance _) fun there hthere => .calc (ite_isBits here acc hthere)

lemma selfBalance_typed : selfBalance.Safe := .world fun _ hw => .get fun _ _ => .leave (hw.balance _)

lemma codeSize_typed : codeSize.Safe := by
  refine .env fun e _ => .after fun code => .isCreation fun creates => ?_
  split
  · refine .env fun e _ => ?_
    split
    · exact (pushInt_typed _).goesOn
    · split <;> exact .next fun c => (constrain_typed c).bind fun _ _ => (pushInt_typed _).goesOn
  · exact (pushInt_typed _).goesOn

lemma foreignCodeSize_typed : foreignCodeSize.Safe := by
  refine .pop fun address _ => .next fun n => ?_
  split
  · exact .next fun text => leaves_typed (unknown_typed _ 256)
  refine (account_typed _).bind fun r _ => ?_
  split
  · exact .after fun code => (pushInt_typed _).goesOn
  · split
    · exact leaves_typed (unknown_typed _ 256)
    · exact .throw _

lemma hashNumber_typed (text : String) : (hashNumber text).Typed (IsBits 256) := by
  unfold hashNumber
  split
  · exact .calc (ofInt_isBits _ 256)
  · exact .throw _

lemma foreignCodeHash_typed : foreignCodeHash.Safe := by
  refine .pop fun i _ => .next fun e => .next fun address => .next fun v => ?_
  split
  · exact leaves_typed (hashNumber_typed _)
  · refine .world fun w _ => ?_
    split
    · exact .leave (word_isBits 0)
    · exact .after fun code => .after fun session => leaves_typed (hashNumber_typed _)

lemma returnDataSize_typed : returnDataSize.Safe := by
  refine .get fun g hg => ?_
  split
  · rename_i r hr
    exact (push_typed (hg.lastReturn r hr).size_pushable).goesOn
  · exact (pushInt_typed 0).goesOn

lemma blockHash_typed : blockHash.Safe := .pop fun _ _ => .next fun _ => leaves_typed (unknown_typed _ 256)

lemma programCounter_typed : programCounter.Safe := by
  refine .get fun g _ => .after fun i => ?_
  split
  · exact .leave (word_isBits _)
  · exact .throw _

/-! ## Call data and code -/

lemma callDataWord_typed : callDataWord.Safe := by
  refine .pop fun position _ => .env fun e he => ?_
  refine .given (.mapM (R := (·.IsBits 8)) fun i _ => .next fun index => ?_) fun bs hbs => ?_
  · exact (he.calldata.load index).bind fun _ hb => toWidth_isBits hb.fits
  refine .given (concat_isBits_of_forall hbs.2) fun word hword => ?_
  rw [hbs.1] at hword
  exact .leave (simplified_isBits hword)

lemma loadMany_writable {data : Calldata} (h : data.Typed) (n : Nat) (i : Item) :
    (loadMany data n i).Yields AreWritable := by
  induction n generalizing i with
  | zero => exact .pure (forall_mem_nil _)
  | succ n ih =>
    refine (h.load i).bind fun b hb => ?_
    have hrest following : Calc.Yields (do return b :: (← loadMany data n following))
        AreWritable :=
      (ih following).bind fun bs hbs => .pure (forall_mem_cons.2 ⟨hb, hbs⟩)
    cases i with
    | expr e => exact .next fun _ => .next fun _ => hrest _
    | _ => exact .next hrest

lemma copyCallData_typed (target source amount : Item) : (copyCallData target source amount).Safe := by
  refine .next fun start => ?_
  split
  · refine .next fun n => ?_
    split
    on_goal 2 => refine .next fun _ => .next fun _ => ?_
    all_goals
      simp only [pure_bind]
      refine .next fun size => ?_
      split
      · refine .extend fun _ => .env fun e he => ?_
        refine .given (loadMany_writable he.calldata _ _) fun bytes hbytes => ?_
        exact (setBytes_typed _ hbytes).goesOn
      · exact .pure trivial
  · exact .pure trivial

lemma callDataCopy_typed : callDataCopy.Safe := by
  refine .pop fun target _ => .pop fun source _ => .pop fun amount _ => ?_
  refine .isCreation fun creates => ?_
  split
  · exact .pure trivial
  · exact copyCallData_typed target source amount

lemma digitPairs_writable {digits : List Char} (h : digitPairs n digits = .ok items) : AreWritable items := by
  fun_induction digitPairs n digits generalizing items with
  | case1 n a b rest v hv ih =>
    cases hrest : digitPairs n rest with
    | error f =>
      rw [hrest] at h
      cases h
    | ok more =>
      rw [hrest] at h
      cases h
      exact forall_mem_cons.2 ⟨trivial, ih hrest⟩
  | case2 => cases h
  | case3 =>
    cases h
    exact forall_mem_nil _

lemma codeBytes_writable (h : code.Typed) {i : Nat} (hitems : codeBytes code n i = .ok items) :
    AreWritable items := by
  cases code with
  | hex text => exact digitPairs_writable hitems
  | raw bytes =>
    cases hitems
    intro b hb
    obtain ⟨k, -, rfl⟩ := mem_map.1 hb
    trivial
  | cells cells =>
    cases hitems
    exact fun b hb => h b (mem_of_mem_drop (mem_of_mem_take hb))

lemma unmarked_typed (h : code.Typed) : code.unmarked.Typed := by
  cases code with
  | hex text => trivial
  | raw bytes | cells items => exact h

lemma unknownBytes_typed (name : String) (n : Nat) :
    Typed ((range n).mapM fun _ => return expr (← unknown name 8)) AreWritable :=
  .mapM fun _ _ => (unknown_typed name 8).bind fun _ he => .pure he

lemma copyCode_typed (h : code.Typed) (target source amount : Item) : (copyCode code target source amount).Safe := by
  refine .next fun start => ?_
  split
  · refine .get fun g _ => .next fun n => ?_
    split
    · refine .extend fun _ => (unknown_typed _ 8).bind fun e he => ?_
      have hbyte : (expr e).Writable := he
      exact (setByte_typed (i := .int _) trivial hbyte).goesOn
    refine .extend fun _ => .next fun i => ?_
    split
    · exact (unknownBytes_typed _ _).bind fun bytes hbytes => (setBytes_typed _ hbytes).goesOn
    · refine (orThrow_typed fun items hitems => codeBytes_writable (unmarked_typed h) hitems).bind fun bytes hbytes => ?_
      exact (setBytes_typed _ hbytes).goesOn
  · exact .pure trivial

lemma codeCopy_typed : codeCopy.Safe := by
  refine .pop fun target _ => .pop fun source _ => .pop fun amount _ => ?_
  refine .env fun e _ => (Typed.engine (codeOf_typed e.code)).bind fun code hcode => ?_
  refine .isCreation fun creates => ?_
  split
  · refine .next fun beyond => .env fun e _ => ?_
    split
    · have hside (isBeyond : Bool) : Typed (if isBeyond then copyCallData target beyond amount
          else copyCode code target source amount) Effect.Typed := by
        split
        · exact copyCallData_typed _ _ _
        · exact copyCode_typed hcode _ _ _
      split
      · exact hside _
      · exact .next fun _ => .next hside
    · refine .next fun i => .next fun n => (copyCode_typed hcode _ _ _).bind fun _ _ => .next fun _ => ?_
      exact copyCallData_typed _ _ _
  · exact copyCode_typed hcode target source amount

lemma foreignCodeCopy_typed : foreignCodeCopy.Safe := by
  refine .pop fun address _ => .pop fun target _ => .pop fun source _ => ?_
  refine .pop fun amount _ => .next fun n => ?_
  split
  · refine (account_typed _).bind fun r _ => ?_
    split
    · exact (Typed.engine (codeOf_typed _)).bind fun _ hcode => copyCode_typed hcode _ _ _
    · split
      · exact .pure trivial
      · exact .throw _
  · exact .pure trivial

lemma returnedBytes_writable {r : ReturnData} (h : r.Typed) (source : Int) (is : List Nat) :
    (returnedBytes r source is).Yields AreWritable := by
  induction is with
  | nil => exact .pure (forall_mem_nil _)
  | cons i rest ih =>
    refine .next fun inside => ?_
    have hrest b (hb : b.Writable) : Calc.Yields (do return b :: (← returnedBytes r source rest))
        AreWritable :=
      ih.bind fun bs hbs => .pure (forall_mem_cons.2 ⟨hb, hbs⟩)
    split
    · exact (h.get _).bind hrest
    · exact hrest (.int 0) trivial

lemma returnDataCopy_typed : returnDataCopy.Safe := by
  refine .pop fun target _ => .pop fun source _ => .pop fun amount _ => ?_
  refine .next fun start => ?_
  split
  · refine .next fun i => ?_
    split
    · refine .next fun n => ?_
      split
      · refine .get fun g hg => ?_
        split
        · rename_i r hr
          refine .extend fun _ => ?_
          refine .given (returnedBytes_writable (hg.lastReturn r hr) _ _) fun bytes hbytes => ?_
          exact (setBytes_typed _ hbytes).goesOn
        · exact .pure trivial
      · exact .pure trivial
    · exact .pure trivial
  · exact .pure trivial

/-! ## Memory, hashes and storage -/

lemma memoryLoad_typed : memoryLoad.Safe :=
  .pop fun index _ => .extend fun _ => .machine fun m _ => .leave (m.memory.word_isBits index)

lemma memoryStore_typed : memoryStore.Safe := by
  refine .pop fun index hindex => .pop fun value _ => .machine fun m hm => ?_
  -- a fee that cannot be paid stays booked
  refine (Typed.yields fun s => (Engine.Yields.calc (m.grow_yields index (.int 32))).attempt).bind fun r hr => ?_
  cases r
  case' ok r => refine (Typed.modify fun _ hg => hg.of_machine (hm.grown (hr r rfl))).bind fun _ _ => ?_
  all_goals
    refine (onMachine_typed (Q := fun _ => True) fun m hm => ?_).goesOn
    refine (hm.memory.writeWord hindex.fits value).bind fun r hr => ?_
    split
    · exact .throw _
    · exact .pure ⟨trivial, hm.of_memory hr⟩

lemma memoryStoreByte_typed : memoryStoreByte.Safe := by
  refine .pop fun index hindex => .pop fun value _ => .extend fun _ => ?_
  refine .next fun n => ?_
  split
  · exact (setByte_typed hindex.fits (by exact trivial)).goesOn
  · refine .next fun e => .given (extract_isBits 7 0 e) fun byte hbyte => ?_
    exact (setByte_typed hindex.fits (by exact hbyte)).goesOn

lemma hash_typed : hash.Safe := by
  refine .pop fun index _ => .pop fun amount _ => .next fun n => ?_
  split
  on_goal 2 => refine .next fun c => (constrain_typed c).bind fun _ _ => ?_
  all_goals
    refine (chargeHash_typed _).bind fun _ _ => .extend fun _ => .next fun stop => ?_
    refine (bytesIn_typed _ _).bind fun bytes _ => ?_
    refine (Typed.mapM fun _ _ => .calc .any).bind fun bs _ => ?_
    split
    · exact .leave (word_isBits _)
    · exact leaves_typed (.engine (Engine.hash_typed _))
    · exact .next fun _ => .next fun _ => leaves_typed (.engine (Engine.hash_typed _))

lemma storageLoad_typed : storageLoad.Safe := by
  refine .pop fun key _ => .get fun g hg => ?_
  refine (Typed.yields fun s => (Storage.get_yields _ key s).mono fun _ h => And.imp_left Storage.Keeps.range h).bind fun r hr => ?_
  have hactive : Account.Typed { g.active with storage := r.1 } := ⟨hg.active.address, hr.1.trans hg.active.storage⟩
  refine .set (hg.setActive hactive) ?_
  refine leaves_typed (orThrow_typed fun e he => ?_)
  rw [← hg.active.storage]
  exact hr.2 e he

lemma storageStore_typed : storageStore.Safe := by
  refine .pop fun key _ => .pop fun value _ => .get fun g hg => ?_
  refine .given (Storage.set_range _ key value) fun r hr => ?_
  have hactive : Account.Typed { g.active with storage := r.1 } := ⟨hg.active.address, hr.trans hg.active.storage⟩
  refine .set (hg.setActive hactive) ?_
  split
  · exact .throw _
  · exact .pure trivial

/-! ## Immediates and the stack -/

lemma instr_typed (g : GState) : g.instr.Typed Instr.Typed := by
  have hat : (g.instrAt? g.machine.pc).Typed fun r => ∀ i, r = some i → i.Typed := by
    unfold GState.instrAt?
    split
    · exact .pure nofun
    · refine (Engine.program_typed _).bind fun p hp => .pure fun i hi => hp.instrs i ?_
      exact Array.mem_toList_iff.2 (Array.mem_of_getElem? hi)
  refine hat.bind fun r hr => .pure ?_
  cases r with
  | none => exact nofun
  | some i => exact hr i rfl

lemma foldlM_concat_isBits {cells : List Expr} (h : ∀ c ∈ cells, c.IsBits 8) {acc : Expr} {w : Nat} (hacc : acc.IsBits w) :
    (cells.foldlM (fun acc c => concat [acc, c]) acc).Yields (IsBits (w + 8 * cells.length)) := by
  induction cells generalizing acc w with
  | nil => exact .pure hacc
  | cons c cells ih =>
    refine (concat_pair_isBits hacc (h c mem_cons_self)).bind fun acc' hacc' => ?_
    have hrest := ih (fun c hc => h c (mem_cons_of_mem _ hc)) hacc'
    rwa [Nat.add_assoc, Nat.add_comm 8, ← Nat.mul_succ] at hrest

lemma pushImmediate_typed : pushImmediate.Safe := by
  refine .get fun g _ => (Typed.engine (instr_typed g)).bind fun i hi => ?_
  extract_lets length finish widen
  have hlength : length = Instr.immediates i.opcode := by
    simp only [length]
    cases i.opcode <;> rfl
  -- a value that is not wider than a word is made as wide as one
  have hwiden value w (h : value.IsBits w) (hw : w ≤ 256) : (widen value).Safe := by
    simp only [widen, h.width_eq]
    split
    · refine .given (const_isBits 0 (256 - w)) fun zeros hzeros => ?_
      refine .given (concat_pair_isBits hzeros h) fun e he => leave_typed (.inr ?_)
      rwa [Nat.sub_add_cancel hw] at he
    · have hsame : w = 256 := by omega
      exact leaves_typed (.pure (hsame ▸ h))
  clear_value length widen
  split
  · exact .throw _
  · dsimp only
    split
    · exact .leave (ofInt_isBits _ 256)
    · exact .throw _
  · rename_i items hitems
    obtain ⟨hbytes, hfew, hword⟩ := hi items hitems
    have hcells : (items.mapM cellOf).Yields fun cells =>
        cells.length = items.length ∧ ∀ c ∈ cells, c.IsBits 8 := by
      refine .mapM fun c hc => ?_
      have hc := hbytes c hc
      cases c with
      | expr e => exact .pure hc
      | int n => exact toWidth_isBits hc.fits
      | bool b | absent => exact hc.elim
    refine .given hcells fun cells hcells => ?_
    split
    · exact .throw _
    obtain ⟨hlen, hall⟩ := hcells
    obtain ⟨hfirst, hrest⟩ := forall_mem_cons.1 hall
    refine .given (foldlM_concat_isBits hrest hfirst) fun value hvalue => ?_
    rw [← hlen, length_cons] at hfew
    dsimp only
    split
    · refine .given (const_isBits 0 _) fun zeros hzeros => ?_
      refine .given (concat_pair_isBits hvalue hzeros) fun e he => hwiden e _ he ?_
      rw [← hlen, length_cons]
      omega
    · exact (Typed.pure hvalue).bind fun e he => hwiden e _ he (by omega)

lemma item_isBits {st : Stack} (h : ∀ i ∈ st, i.IsBits 256) (n : Int) : (st.item n).Yields (IsBits 256) := by
  unfold Stack.item
  split
  · rename_i x hx
    obtain ⟨k, -, hk⟩ := Option.bind_eq_some_iff.1 hx
    exact .pure (h x (mem_of_getElem? hk))
  · exact .throw _

lemma duplicate_typed : duplicate.Safe := by
  refine .get fun g _ => .after fun i => ?_
  dsimp only
  split
  · refine .machine fun m hm => .given (item_isBits hm.stack _) fun i hi => ?_
    exact (push_typed hi.pushable).goesOn
  · exact .throw _

lemma swap_typed (depth : Nat) : (swap depth).Safe := by
  refine .machine fun m hm => .given (item_isBits hm.stack _) fun top htop => ?_
  refine .given (item_isBits hm.stack _) fun other hother => ?_
  have hswapped : ∀ i ∈ (m.stack.set depth top).set 0 other, i.IsBits 256 := by
    intro i hi
    rcases mem_or_eq_of_mem_set hi with hi | rfl
    · rcases mem_or_eq_of_mem_set hi with hi | rfl
      · exact hm.stack i hi
      · exact htop
    · exact hother
  have hroom : ((m.stack.set depth top).set 0 other).length ≤ 1024 := by
    rw [length_set, length_set]
    exact hm.room
  refine (onMachine_typed (Q := fun _ => True) fun m' hm' => ?_).goesOn
  exact .pure ⟨trivial, hm'.of_stack hswapped hroom⟩

lemma logEntry_typed (topics : Nat) : (logEntry topics).Safe := by
  have hpops (xs : List Nat) : Typed (forIn xs PUnit.unit fun _ _ => do
      let _ ← pop
      pure (.yield .unit)) fun _ => True := by
    induction xs with
    | nil => exact .pure trivial
    | cons x xs ih =>
      rw [forIn_cons]
      refine (Typed.pop (R := fun _ => True) fun _ _ => .pure trivial).bind fun r _ => ?_
      split
      · exact .pure trivial
      · exact ih
  exact (hpops _).goesOn

/-! ## Jumps -/

lemma destination_typed (address : Int) : (destination address).Typed fun _ => True := by
  refine .env fun e _ => .after fun p => ?_
  dsimp only
  split <;> exact .pure trivial

lemma jump_typed : jump.Safe := by
  refine .machine fun m _ => ?_
  extract_lets finish
  have hfinish target : (finish target).Safe := by
    simp only [finish]
    refine .next fun address => ?_
    split
    · refine (destination_typed _).bind fun d _ => ?_
      split
      · split
        · refine (charge_typed _ _).bind fun _ _ => ?_
          refine (Typed.modify fun _ hg => hg.of_machine (hg.machine.of_place _ _ _ _)).bind fun _ _ => ?_
          refine .get fun g hg => (Typed.yields fun s => hg.copy false s).bind fun g' hg' => .pure ?_
          exact forall_mem_singleton.2 hg'
        · exact .throw _
      · exact .throw _
    · exact .throw _
  split
  · exact .throw _
  · exact .pop fun target _ => hfinish target

lemma side_typed (pc : Int) (condition : Expr) : (side pc condition).Typed GState.Typed := by
  refine .get fun g hg => (Typed.yields fun s => hg.copy true s).bind fun g' hg' => .calc ?_
  have hm := hg'.machine.of_place pc (g'.machine.depth + 1) (g'.machine.minGas + 10) (g'.machine.maxGas + 10)
  exact (hg'.of_machine hm).constrain condition

lemma jumpIf_typed : jumpIf.Safe := by
  refine .pop fun target _ => .pop fun top _ => .next fun condition => .machine fun m _ => ?_
  refine .next fun address => ?_
  split
  · refine .next fun _ => .next fun negative => .next fun _ => .next fun positive => .next fun isFalse => ?_
    extract_lets finish
    have hfinish passed (hpassed : ∀ g ∈ passed, g.Typed) : (finish passed).Safe := by
      refine (destination_typed _).bind fun d _ => ?_
      split
      · refine .next fun never => ?_
        split
        · exact .pure hpassed
        · refine (side_typed _ positive).bind fun g hg => .pure ?_
          exact forall_mem_append.2 ⟨hpassed, forall_mem_singleton.2 hg⟩
      · exact .pure hpassed
    split
    · exact hfinish [] (forall_mem_nil _)
    · exact (side_typed _ negative).bind fun g hg => hfinish [g] (forall_mem_singleton.2 hg)
  · refine (charge_typed _ _).bind fun _ _ => ?_
    refine (Typed.modify fun _ hg => hg.of_machine (hg.machine.of_place _ _ _ _)).bind fun _ _ => ?_
    refine .get fun g hg => .pure ?_
    exact forall_mem_singleton.2 hg

lemma jumpSub_typed : jumpSub.Safe := by
  refine .pop fun target _ => .next fun address => ?_
  split
  · refine (destination_typed _).bind fun d _ => ?_
    split
    · split
      · refine (onMachine_typed (Q := fun _ => True) fun m hm => ?_).goesOn
        refine (Stack.push_isBits (i := .int _) hm.returns trivial).bind fun returns hreturns => .pure ⟨trivial, ?_⟩
        exact ⟨hm.stack, hm.room, hreturns.1, hreturns.2, hm.memory, hm.gasLimit⟩
      · exact .throw _
    · exact .throw _
  · exact .throw _

lemma returnSub_typed : returnSub.Safe := .machine fun _ _ => .next fun _ => .throw _

/-! ## Halts -/

lemma deploy_typed (h : AreWritable items) (reverted : Bool) : (deploy items reverted).Safe := by
  refine .get fun g _ => (Typed.engine (Engine.assign_typed _ h)).bind fun _ _ => ?_
  split
  · exact .throw _
  refine .after fun p => ?_
  split
  · exact .throw _
  · refine .pure ?_
    rintro _ ⟨⟩
    trivial

lemma halt_typed {data : Option ReturnData} (h : ∀ r, data = some r → r.Typed) (reverted : Bool) :
    (halt data reverted).Safe := by
  refine .isCreation fun creates => ?_
  split
  · split
    · rename_i items size
      have hend (isEmpty : Bool) : Typed (if isEmpty then pure (.halt none reverted) else deploy items reverted)
          Effect.Typed := by
        split
        · exact .pure fun _ h => by cases h
        · exact deploy_typed (h _ rfl).1 reverted
      split
      · exact hend _
      · exact .next fun _ => .next hend
    · exact .pure fun _ h => by cases h
  · exact .pure h

lemma returned_typed : returned.Typed fun r => AreWritable r.1 ∧ r.2.IsBits 256 := by
  refine .pop fun start _ => .pop fun i hi => ?_
  refine .given (expr!_isBits hi) fun length hlength => ?_
  refine .next fun unknown => ?_
  split
  · refine (unknown_typed _ 8).bind fun e he => .pure ⟨?_, hlength⟩
    exact forall_mem_singleton.2 he
  · refine .extend fun _ => .get fun _ _ => .next fun _ => .next fun stop => ?_
    exact (bytesIn_typed _ _).bind fun bytes hbytes => .pure ⟨fun i hi => (hbytes i hi).writable, hlength⟩

lemma returnRange_typed : returnRange.Safe := by
  refine returned_typed.bind fun r hr => halt_typed ?_ false
  rintro _ ⟨⟩
  exact ⟨hr.1, .inr hr.2⟩

lemma revoked_typed : revoked.Typed fun r => AreWritable r.1 ∧ r.2.IsBits 256 := by
  refine .pop fun start _ => .pop fun i hi => ?_
  refine .given (expr!_isBits hi) fun length hlength => ?_
  refine .get fun g _ => ?_
  extract_lets id name finish choose
  have hfinish data (hdata : AreWritable data) :
      (finish data).Typed fun r => AreWritable r.1 ∧ r.2.IsBits 256 := .pure ⟨hdata, hlength⟩
  have hchoose symbols (hsymbols : AreWritable symbols) :
      (choose symbols).Typed fun r => AreWritable r.1 ∧ r.2.IsBits 256 := by
    refine .next fun stop => .next fun a => ?_
    split
    · exact hfinish symbols hsymbols
    · refine .next fun b => ?_
      split
      · exact hfinish symbols hsymbols
      · exact (bytesIn_typed _ _).bind fun bytes hbytes => hfinish bytes fun i hi => (hbytes i hi).writable
  refine .next fun n => ?_
  split
  · refine .bind (.mapM fun i _ => ?_) hchoose
    exact (unknown_typed _ 8).bind fun _ he => .pure he
  · refine .bind (.mapM fun i _ => .next fun inside => (unknown_typed _ 8).bind fun e he => ?_) hchoose
    exact .given (choose_isBits_left _ _ he) fun _ hbyte => .pure hbyte

lemma revert_typed : revert.Safe := by
  refine revoked_typed.bind fun r hr => halt_typed ?_ true
  rintro _ ⟨⟩
  exact ⟨hr.1, .inr hr.2⟩

lemma selfDestruct_typed : selfDestruct.Safe := by
  refine .pop fun i _ => .next fun target => .get fun g hg => .next fun amount => ?_
  refine .given (hg.world.addBalance target amount) fun w hw => .after fun code => ?_
  have hcopy : g.active.storage.copy.Yields (·.array.range = 256) := .next fun _ => .next fun _ => .pure hg.active.storage
  refine .given hcopy fun storage hstorage => ?_
  have ha : Account.Typed { g.active with deleted := true, code := code, storage := storage } := ⟨hg.active.address, hstorage⟩
  exact .set ((hg.of_world hw).setActive ha) (halt_typed (by exact nofun) false)

end Step
end EvmAudit
