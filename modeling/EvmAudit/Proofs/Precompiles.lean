import EvmAudit.Proofs.Payments

/-!
# Calls of precompiled contracts

A precompiled contract is answered at once. Where the answer goes has to be known: otherwise the operands are taken and no
result is left. What was returned last goes on telling of an earlier call of the frame. The identity contract moves a
range of memory to another, however the two overlap.
-/

namespace EvmAudit

open List EvmAudit.Expr GState Memory
open Evm (Word)

variable {g g' : GState} {s s' : Session} {k : CallKind} {i : Instr} {eff : Effect} {x a b p q : Word}
  {outStart outSize : Item} {start size : Expr} {σ : Valuation} {f : Nat → BitVec 8} {items : List Item}
  {bs : List (BitVec 8)}

/-- In place of the operands of a call is its flag, which is said to be one. -/
def GState.Answered (g : GState) (k : CallKind) (i : Instr) (g' : GState) : Prop :=
  ∃ e c : Expr, e.term = g.flag i ∧ c.term = (g.flag i).flagIs 1 ∧
    g'.machine.stack = .expr e :: g.machine.stack.drop k.arity ∧ c ∈ g'.world.constraints

namespace Step

lemma Yields.machine {β : Type} {R : β → GState → Prop} {f : Machine → Step β} (hf : (f g.machine).Yields g s R) :
    (machine >>= f).Yields g s R := hf

lemma outRange_yields (k : CallKind) : (outRange k).Yields g s fun r g' => g' = g ∧
    g.machine.stack[k.arity - 2]? = some r.1 ∧ g.machine.stack[k.arity - 1]? = some r.2 := by
  refine .machine ?_
  dsimp only
  split
  · rename_i hstart hsize
    exact .pure ⟨rfl, hstart, hsize⟩
  · exact .throw _

/-- A call of a precompiled contract runs it, without the operands and perhaps with another condition. -/
lemma call_precompiled {P : Effect → GState → Prop} (hx : g.Calls x) (hpre : Callee.isPrecompile x.toNat = true)
    (h : ∀ o g₁ cs s', Taken k g s (.ok o) g₁ → s.Grows s' → (precompiled x.toNat o.data o.outStart o.outSize).Yields
      { g.withStack (g.machine.stack.drop k.arity) with world := { g.world with constraints := cs } } s' P) :
    (call k).Yields g s P := by
  refine (outRange_yields k).bind ?_
  rintro ⟨outStart, outSize⟩ g s1 hs1 ⟨rfl, hstart, hsize⟩
  refine (operands_yields k).bind ?_
  rintro r _ s2 hs2 htaken
  have htaken := htaken.of_grows hs1
  have hresolves := htaken.resolves x hx
  obtain ⟨w, -, -, rfl⟩ := htaken.state
  obtain rfl : w = g.world := hresolves.kept (.inl hpre)
  cases r with
  | error f => cases hresolves.precompile hpre
  | ok o =>
    have hnone := Except.ok.inj (hresolves.precompile hpre)
    cases hstart.symm.trans (htaken.range o rfl).1
    cases hsize.symm.trans (htaken.range o rfl).2
    simp only [hnone]
    refine guard_yields k o.value fun g1 s3 hs3 hguard => ?_
    obtain ⟨cs, rfl⟩ := hguard.rest
    rw [htaken.callee o rfl x hx, Callee.number, Numeral.parse?_paddedAddress]
    exact h o _ cs s3 htaken (hs1.trans (hs2.trans hs3))

lemma precompiled_flag (n : Int) (data : Calldata) (hi : g.due s = some i) :
    (precompiled n data outStart outSize).Yields g s fun eff g' =>
      if outStart.isKnown && outSize.isKnown then Flagged false i (some 1) g eff g' else eff = .next ∧ g' = g := by
  have hcharge fee : Aside false (charge fee fee) := ⟨fun _ _ => Engine.Yields.pure ⟨_, _, _, _, fun _ => rfl, rfl⟩⟩
  refine .given outStart.number?_yields fun start s1 hs1 hstart => ?_
  cases start with
  | none =>
    rw [← hstart]
    exact .pure ⟨rfl, rfl⟩
  | some start =>
    refine .given outSize.number?_yields fun size s2 hs2 hsize => ?_
    rw [← hstart, ← hsize]
    cases size with
    | none => exact .pure ⟨rfl, rfl⟩
    | some size =>
      refine .aside_flag (due_of_programs hi (hs1.trans hs2).programs) fun m g1 s3 hi => ?_
      refine .aside_flag hi fun _ g2 s4 hi => .aside_flag hi fun _ g3 s5 hi => ?_
      dsimp only
      split
      · exact .aside_flag hi fun _ _ _ => success_flag
      · exact .aside_flag hi fun _ _ _ hi => .aside_flag hi fun _ _ _ => success_flag
      · exact .throw _

lemma call_precompiled_leaves (hx : g.Calls x) (hpre : Callee.isPrecompile x.toNat = true) (hi : g.due s = some i) :
    (call k).Yields g s fun eff g' => eff = .next ∧ g'.lastReturn = g.lastReturn ∧
      if g.knowsRange k then g.Answered k i g' else g'.machine.stack = g.machine.stack.drop k.arity := by
  refine call_precompiled hx hpre fun o g₁ cs s' htaken hs => ?_
  refine .mono (precompiled_flag (i := i) _ _ ?_) fun eff g' h => ?_
  · exact due_of_programs hi hs.programs
  rw [htaken.knowsRange]
  split at h
  · rename_i hknown
    obtain ⟨rfl, _, _, _, _, e, added, he, hadded, hr, rfl⟩ := h
    obtain ⟨c, rfl, hc⟩ := map_eq_singleton_iff.1 hadded
    refine ⟨rfl, hr rfl, ?_⟩
    rw [if_pos hknown]
    exact ⟨e, c, he, hc, rfl, mem_append_right _ mem_cons_self⟩
  · rename_i hknown
    obtain ⟨rfl, rfl⟩ := h
    exact ⟨rfl, rfl, by rw [if_neg hknown]; rfl⟩

end Step

/-! ## The result -/

/-- A call of the identity contract over the word 7, after a call that returned a byte: two bytes of memory, 170 and 0, go
to this offset. -/
def GState.asksIdentity (offset : Term) : GState :=
  { ofOperands [] with
    machine := {
      stack := (ofOperands [100, 4, 0, 0, 2, 0, 3, 7]).machine.stack.set 5 (.expr ⟨0, 0, offset⟩)
      memory := { size := 32, cells := Std.TreeMap.empty.insert 0 (.int 170) } }
    lastReturn := some (.bytes [.int 5] (.int 1)) }

lemma GState.asksIdentity_runs (offset : Term) (h : ∃ r s', Step.call .call (asksIdentity offset)
    (.ofCodes ["f1"]) = .ok r s' ∧ r.2.machine.memory.size = 32) : ∃ eff g' s' i,
      (asksIdentity offset).due (.ofCodes ["f1"]) = some i ∧
      Step.call .call (asksIdentity offset) (.ofCodes ["f1"]) = .ok (eff, g') s' := by
  obtain ⟨⟨eff, g'⟩, s', hrun, -⟩ := h
  obtain ⟨i, hi⟩ : ∃ i, (ofOperands []).due (.ofCodes ["f1"]) = some i := Option.isSome_iff_exists.1 (by decide +kernel)
  exact ⟨eff, g', s', i, (due_congr rfl rfl).trans hi, hrun⟩

/-- **A precompiled contract leaves a result only where its answer goes.**  If offset and size of the output are known, the
flag of the call, which is said to be one, stands in place of the operands; otherwise nothing is left for them. -/
theorem precompiled_call_leaves (hx : g.Calls x) (hpre : Callee.isPrecompile x.toNat = true) (hi : g.due s = some i)
    (h : Step.call k g s = .ok (eff, g') s') : eff = .next ∧
      if g.knowsRange k then g.Answered k i g' else g'.machine.stack = g.machine.stack.drop k.arity := by
  obtain ⟨-, hnext, -, hstack⟩ := Engine.Yields.ok (Step.call_precompiled_leaves hx hpre hi) h
  exact ⟨hnext, hstack⟩

theorem precompiled_call_leaves_nothing : ∃ g' s',
    Step.call .call (asksIdentity (.symbol "offset" 256)) (.ofCodes ["f1"]) = .ok (.next, g') s' ∧
    g'.machine.stack = [.expr (.literal 7)] := by
  obtain ⟨eff, g', s', i, hi, hrun⟩ := asksIdentity_runs (.symbol "offset" 256) (by decide +kernel)
  obtain ⟨rfl, hstack⟩ := precompiled_call_leaves (x := 4) ⟨_, rfl, rfl, rfl, rfl, rfl⟩ rfl hi hrun
  exact ⟨g', s', hrun, hstack⟩

/-- **What was returned last can be about an earlier call.**  A call of a precompiled contract leaves it as it was. -/
theorem precompiled_call_keeps_earlier_return (hx : g.Calls x) (hpre : Callee.isPrecompile x.toNat = true)
    (hi : g.due s = some i) (h : Step.call k g s = .ok (eff, g') s') : eff = .next ∧ g'.lastReturn = g.lastReturn := by
  obtain ⟨-, hnext, hreturn, -⟩ := Engine.Yields.ok (Step.call_precompiled_leaves hx hpre hi) h
  exact ⟨hnext, hreturn⟩

theorem precompiled_call_keeps_a_byte : ∃ g' s',
    Step.call .call (asksIdentity (.const 1 256)) (.ofCodes ["f1"]) = .ok (.next, g') s' ∧
    g'.lastReturn = some (.bytes [.int 5] (.int 1)) := by
  obtain ⟨eff, g', s', i, hi, hrun⟩ := asksIdentity_runs (.const 1 256) (by decide +kernel)
  obtain ⟨rfl, hkept⟩ := precompiled_call_keeps_earlier_return (x := 4) ⟨_, rfl, rfl, rfl, rfl, rfl⟩ rfl hi hrun
  exact ⟨g', s', hrun, hkept⟩

/-! ## The identity contract -/

/-- Memory is grown to hold the whole range, whatever its size was. -/
lemma Machine.extend_reaches {m : Machine} (hm : m.memory.Holds σ f) (a n : Nat) : (m.extend (.int a) (.int n)).Yields
    fun m' => a + n ≤ m'.memory.size ∧ m'.pc = m.pc ∧ m'.memory.Holds σ f := by
  have hmore : a + n ≤ m.memory.size + (extension m.memory.size a n).toNat := by
    unfold extension
    rw [← Int.natCast_add, ceil32_natCast, fdiv_word, fdiv_word]
    split <;> omega
  show Calc.Yields ((if extension m.memory.size a n = 0 then _ else _) >>= _) _
  split
  · rename_i hnone
    rw [hnone] at hmore
    exact .pure ⟨hmore, rfl, hm⟩
  show Calc.Yields ((exceeds _ _ >>= _) >>= _) _
  rw [bind_assoc]
  refine .next fun isOver => ?_
  cases isOver with
  | true => exact .throw _
  | false => exact .pure ⟨hmore, rfl, hm⟩

namespace Step

lemma inputOf_yields (hm : g.machine.memory.Holds σ f) (ha : start.Equals a) (hp : size.Equals p) :
    (inputOf (.expr start) (.expr size)).Yields g s fun d _ => ∃ id items t, d = .concrete id items t ∧
      Forall₂ (Item.IsByte σ) items (bytesFrom f a p.toNat) := by
  refine .get (.given (Item.Indexes.toWidth (i := .expr start) ha).yields fun start s1 _ ha => ?_)
  refine .given (Item.Indexes.toWidth (i := .expr size) hp).yields fun size s2 _ hp => ?_
  have hknown : size.symbolic.Yields (· = false) := by
    refine hp.value?_gives.yields.bind ?_
    rintro _ rfl
    exact .pure rfl
  refine .given hknown ?_
  rintro _ s3 _ rfl
  have hsum : (start.add size).Gives (·.Equals (a + p)) := by
    simp only [add, arith, isProp, ha.isProp, hp.isProp]
    refine ha.raw.bind fun t ht => hp.raw.bind fun u hu => (marks2_gives start size).bind fun ms _ => ?_
    exact (make_gives _ ms).mono fun e he => .of_term he (ht.arith .add hu (by rintro ⟨⟩))
  refine .given hsum.yields fun stop s4 _ hstop => .given ha.value?_gives.yields ?_
  rintro _ s5 _ rfl
  refine .given hstop.value?_gives.yields ?_
  rintro _ s6 _ rfl
  have hindex x : (Item.int x.toNat).Indexes x := ⟨_, rfl, (ofInt_toNat x).symm⟩
  have hslice := slice_gives hm (hindex a) (hindex (a + p))
  rw [add_sub_cancel_left] at hslice
  have hbytes : (bytesIn (.int a.toNat) (.int (a + p).toNat)).Yields g s6 fun items _ =>
      Forall₂ (Item.IsByte σ) items (bytesFrom f a p.toNat) :=
    .machine ((Yields.calc hslice.yields).mono fun _ _ h => h.2)
  refine hbytes.bind fun items g' s7 _ hitems => .mono (.calc ?_) fun _ _ h => h.2
  exact .next fun t => .pure ⟨_, items, t, rfl, hitems⟩

lemma setByte_yields {m : Memory} {i content : Item} {v : BitVec 8} (hm : m.Holds σ f) (h : i.Indexes x)
    (hv : content.IsByte σ v) :
    (m.set i content).Yields (fun m' => m'.size = m.size ∧ m'.Holds σ (put m.size f x [v])) := by
  by_cases hsize : m.size < 2 ^ 63
  · exact (set_gives hsize hm h hv).yields
  · unfold Memory.set
    refine .next fun index => ?_
    rw [if_pos (Nat.not_lt.1 hsize)]
    exact .throw _

lemma setBytes_yields (hitems : Forall₂ (Item.IsByte σ) items bs) (hm : g.machine.memory.Holds σ f)
    (hlen : bs.length ≤ 2 ^ 256) (n : Int) : (setBytes n items).Yields g s fun _ g' =>
      ∃ m, m.Holds σ (put g.machine.memory.size f (.ofInt 256 n) bs) ∧ m.size = g.machine.memory.size ∧
        g' = { g with machine := { g.machine with memory := m } } := by
  induction hitems generalizing n g s f with
  | nil => exact .pure ⟨_, (put_nil ..).symm ▸ hm, rfl, rfl⟩
  | @cons i b items bs hi _ ih =>
    have hindex : (Item.int n).Indexes (.ofInt 256 n) := ⟨n, rfl, rfl⟩
    refine (onMachine_yields (P := fun r => ∃ m, r.2 = { g.machine with memory := m } ∧ m.size = g.machine.memory.size ∧
      m.Holds σ (put g.machine.memory.size f (.ofInt 256 n) [b]))
        ((setByte_yields hm hindex hi).bind fun m hm => .pure ⟨m, rfl, hm⟩)).bind ?_
    rintro _ _ s1 _ ⟨_, ⟨m, rfl, hsize, hm⟩, rfl⟩
    rw [length_cons] at hlen
    refine (ih hm (by omega) (n + 1)).mono ?_
    rintro _ _ ⟨m', hm', hsize', rfl⟩
    refine ⟨m', ?_, hsize'.trans hsize, rfl⟩
    rw [hsize, BitVec.ofInt_add] at hm'
    rw [← singleton_append, ← (put_append _ [b] bs (by rw [length_singleton]; omega)).1]
    exact hm'

lemma identity_yields {id : String} {t : ArrayTerm} (hi : g.due s = some i)
    (hitems : Forall₂ (Item.IsByte σ) items bs) (hm : g.machine.memory.Holds σ f) (hb : start.Equals b)
    (hq : size.Equals q) :
    (precompiled 4 (.concrete id items t) (.expr start) (.expr size)).Yields g s fun _ g' =>
      b.toNat + q.toNat ≤ g'.machine.memory.size ∧
      g'.machine.memory.Holds σ (put g'.machine.memory.size f b (bs.take q.toNat)) := by
  refine .given (Item.number?_gives hb).yields ?_
  rintro _ s1 hs1 rfl
  refine .given (Item.number?_gives hq).yields ?_
  rintro _ s2 hs2 rfl
  refine .machine ?_
  extract_lets fee answer
  have hanswer : answer = .ok items := rfl
  clear_value fee answer
  subst hanswer
  have hextend := Machine.extend_reaches (m := g.machine.useGas fee fee) hm b.toNat q.toNat
  refine .modify ((onMachine_yields (P := fun r => _ ≤ r.2.memory.size ∧ r.2.pc = _ ∧ r.2.memory.Holds σ f)
    (hextend.bind fun _ h => .pure h)).bind ?_)
  rintro _ _ s3 hs3 ⟨_, ⟨hfar, hpc, hm⟩, rfl⟩
  have hshort : (bs.take q.toNat).length ≤ 2 ^ 256 := (length_take_le ..).trans q.isLt.le
  refine .bind (setBytes_yields (forall₂_take q.toNat hitems) hm hshort _) ?_
  rintro _ _ s4 hs4 ⟨m, hm, hsize, rfl⟩
  refine .mono (success_yields (i := i) ?_) ?_
  · exact .trans (due_congr (g := g) rfl hpc) (due_of_programs hi (hs1.trans (hs2.trans (hs3.trans hs4))).programs)
  rintro _ _ ⟨-, e, c, -, -, rfl⟩
  rw [ofInt_toNat, ← hsize] at hm
  exact ⟨hfar.trans_eq hsize.symm, hm⟩

end Step

lemma Memory.put_bytesFrom {size : Nat} (hfar : b.toNat + q.toNat ≤ size) (j : Word) :
    put size f b ((bytesFrom f a p.toNat).take q.toNat) j.toNat =
      if (j - b).toNat < min p.toNat q.toNat then f (a + (j - b)).toNat else f j.toNat := by
  unfold put
  rw [BitVec.ofNat_toNat, BitVec.setWidth_eq, getElem?_take, bytesFrom, getElem?_map]
  by_cases hj : j.toNat < size
  · rw [if_pos hj]
    by_cases hq : (j - b).toNat < q.toNat
    · by_cases hp : (j - b).toNat < p.toNat
      · rw [if_pos hq, if_pos (lt_min hp hq), getElem?_range hp, Option.map_some, Option.getD_some, BitVec.ofNat_toNat,
          BitVec.setWidth_eq]
      · rw [if_pos hq, if_neg (by omega), getElem?_eq_none (by rw [length_range]; omega)]
        rfl
    · rw [if_neg hq, if_neg (by omega), Option.getD_none]
  · have hdistance : q.toNat ≤ (j - b).toNat := by
      rw [BitVec.toNat_sub]
      omega
    rw [if_neg hj, if_neg (by omega)]

def GState.Has (g : GState) (n : Nat) (v : Word) : Prop := ∃ e, g.machine.stack[n]? = some (.expr e) ∧ e.Equals v

/-- **The identity contract moves memory.**  With a range of memory as its input and another for its output, overlapping or
not, the bytes of the first range stand in the second as far as both go, all others are as they were, and the flag is said
to be one. Places are counted in 256 bits. -/
theorem identity_call_moves (hx : g.Calls 4) (ha : g.Has (k.arity - 4) a) (hp : g.Has (k.arity - 3) p)
    (hb : g.Has (k.arity - 2) b) (hq : g.Has (k.arity - 1) q) (hm : g.machine.memory.Holds σ f)
    (hi : g.due s = some i) (h : Step.call k g s = .ok (eff, g') s') : eff = .next ∧
      (∀ j : Word, (g'.machine.memory.cell j.toNat).IsByte σ
        (if (j - b).toNat < min p.toNat q.toNat then f (a + (j - b)).toNat else f j.toNat)) ∧ g.Answered k i g' := by
  obtain ⟨start, hstart, ha⟩ := ha
  obtain ⟨size, hlength, hp⟩ := hp
  obtain ⟨outStart, houtStart, hb⟩ := hb
  obtain ⟨outSize, houtSize, hq⟩ := hq
  have hmoves : (Step.call k).Yields g s fun _ g' => b.toNat + q.toNat ≤ g'.machine.memory.size ∧
      g'.machine.memory.Holds σ (put g'.machine.memory.size f b ((bytesFrom f a p.toNat).take q.toNat)) := by
    refine Step.call_precompiled hx rfl fun o g₁ cs s₁ htaken hs => ?_
    obtain ⟨_, _, g₂, s₂, s₃, hstart', hlength', hmemory, hinput⟩ := htaken.data o rfl
    cases hstart.symm.trans hstart'
    cases hlength.symm.trans hlength'
    obtain ⟨id, items, t, hdata, hitems⟩ := (Engine.Yields.ok (Step.inputOf_yields (hmemory ▸ hm) ha hp) hinput).2
    dsimp only at hdata
    rw [← Option.some.inj (houtStart.symm.trans (htaken.range o rfl).1),
      ← Option.some.inj (houtSize.symm.trans (htaken.range o rfl).2), hdata]
    exact Step.identity_yields (i := i) (due_of_programs hi hs.programs) hitems hm hb hq
  obtain ⟨-, hfar, hholds⟩ := Engine.Yields.ok hmoves h
  obtain ⟨-, hnext, -, hflag⟩ := Engine.Yields.ok (Step.call_precompiled_leaves hx rfl hi) h
  rw [knowsRange, houtStart, houtSize, Option.any_some, Option.any_some, Item.isKnown, Item.isKnown, hb.value?, hq.value?]
    at hflag
  exact ⟨hnext, fun j => put_bytesFrom hfar j ▸ hholds j.toNat, hflag⟩

theorem identity_call_moves_on : ∃ g' s', Step.call .call (asksIdentity (.const 1 256)) (.ofCodes ["f1"]) = .ok (.next, g') s' ∧
    (g'.machine.memory.cell 0).IsByte default 170 ∧ (g'.machine.memory.cell 1).IsByte default 170 := by
  obtain ⟨eff, g', s', i, hi, hrun⟩ := asksIdentity_runs (.const 1 256) (by decide +kernel)
  have hm : (asksIdentity (.const 1 256)).machine.memory.Holds default (Evm.writeByte (fun _ => 0) 0 170) :=
    (holds_empty 32).insert rfl
  obtain ⟨rfl, hmoved, -⟩ := identity_call_moves (k := .call) (a := 0) (p := 2) (b := 1) (q := 3) ⟨_, rfl, rfl, rfl, rfl, rfl⟩
    ⟨_, rfl, rfl, rfl, rfl, rfl⟩ ⟨_, rfl, rfl, rfl, rfl, rfl⟩ ⟨_, rfl, rfl, rfl, rfl, rfl⟩ ⟨_, rfl, rfl, rfl, rfl, rfl⟩ hm hi hrun
  exact ⟨g', s', hrun, hmoved 0, hmoved 1⟩

end EvmAudit
