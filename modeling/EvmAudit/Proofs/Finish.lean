import EvmAudit.Proofs.Deployments

/-!
# Finishing a call

The operands of the call are taken from the stack once more and the flag is pushed: a variable whose name comes from the
transaction and the place of the call. What is added to the conditions says which value the flag has, if that is said
at all. Without a node nothing else in the world changes.
-/

namespace EvmAudit

open List EvmAudit.Expr GState

variable {g g' c : GState} {s s' : Session} {x : BitVec 256} {e : Expr} {k : CallKind} {r : Except Fault CallOperands}
  {i : Instr} {said : Option Int} {eff : Effect}

variable {α β : Type}

namespace Step

variable {x : Step α} {f : α → Step β}

lemma Yields.and {P Q : α → GState → Prop} (hx : x.Yields g s P) (h : ∀ a g' s', x g s = .ok (a, g') s' → Q a g') :
    x.Yields g s (fun a g' => P a g' ∧ Q a g') := by
  unfold Yields Engine.Yields at hx ⊢
  cases hr : x g s with
  | ok r s' =>
    rw [hr] at hx
    exact ⟨hx.1, hx.2, h _ _ _ hr⟩
  | error f s' =>
    rw [hr] at hx
    exact hx

end Step

/-! ## Steps that only touch memory -/

/-- The same state, but for its memory, the gas it has used, and perhaps what was returned to it last. -/
def GState.Aside (answers : Bool) (g g' : GState) : Prop :=
  ∃ memory least most r, (answers = false → r = g.lastReturn) ∧ g' = { g with
    machine := { g.machine with memory := memory, minGas := least, maxGas := most }, lastReturn := r }

variable {b : Bool}

lemma GState.Aside.refl (g : GState) : g.Aside b g := ⟨_, _, _, _, fun _ => rfl, rfl⟩

lemma GState.Aside.trans {g'' : GState} (h : g.Aside b g') (h' : g'.Aside b g'') : g.Aside b g'' := by
  obtain ⟨_, _, _, r, hr, rfl⟩ := h
  obtain ⟨memory, least, most, r', hr', rfl⟩ := h'
  exact ⟨memory, least, most, r', fun hb => (hr' hb).trans (hr hb), rfl⟩

namespace Step

variable {x : Step α} {f : α → Step β}

class Aside (answers : Bool) (x : Step α) : Prop where
  keeps : ∀ g s, x.Yields g s (fun _ g' => g.Aside answers g')

instance Aside.of_still [hx : Still x] : Aside b x := ⟨fun g s => (hx.keeps g s).mono fun _ _ h => h ▸ .refl _⟩

instance Aside.bind [hx : Aside b x] [hf : ∀ a, Aside b (f a)] : Aside b (x >>= f) :=
  ⟨fun g s => (hx.keeps g s).bind fun a g' s' _ hg => ((hf a).keeps g' s').mono fun _ _ hg' => hg.trans hg'⟩

lemma Aside.next [Aside b x] (hf : ∀ a, Aside b (f a)) : Aside b (x >>= f) := inferInstance

instance (i content : Item) : Aside b (setByte i content) := by
  constructor
  intro g s
  refine (onMachine_yields (P := fun r => ∃ memory, r.2 = { g.machine with memory := memory })
    (.next fun memory => .pure ⟨memory, rfl⟩)).mono ?_
  rintro _ _ ⟨_, ⟨memory, rfl⟩, rfl⟩
  exact ⟨memory, _, _, _, fun _ => rfl, rfl⟩

instance (n : Int) (items : List Item) : Aside b (setBytes n items) := by
  induction items generalizing n with
  | nil => exact @.of_still _ _ _ (.pure _)
  | cons b rest ih => exact .next fun _ => ih (n + 1)

instance (start length : Item) : Aside b (extend start length) := by
  constructor
  intro g s
  refine (onMachine_yields (P := fun r => g.machine.Grown (r.2, none)) ?_).mono ?_
  · exact (g.machine.extend_yields start length).bind fun _ h => .pure h
  · rintro _ _ ⟨_, h, rfl⟩
    cases h <;> exact ⟨_, _, _, _, fun _ => rfl, rfl⟩

instance (r : ReturnData) (start size : Int) : Aside b (copyReturned r start size) := by
  simp only [copyReturned]
  infer_instance

instance (start size : Expr) (i : Nat) (bytes : List Item) :
    Aside b (writeReturned start size i bytes) := by
  induction bytes generalizing i with
  | nil => exact @.of_still _ _ _ (.pure _)
  | cons b rest ih =>
    simp only [writeReturned]
    infer_instance

instance forgetReturned_aside (outStart outSize : Item) : Aside true (forgetReturned outStart outSize) := by
  have hkeep r : Aside true (modify fun g => { g with lastReturn := r }) :=
    ⟨fun g s => Engine.Yields.pure ⟨_, _, _, r, by simp, rfl⟩⟩
  refine .next fun start => .next fun c => ?_
  split
  · infer_instance
  · refine .next fun length => .next fun n => ?_
    split <;> infer_instance

end Step

/-! ## Numbers -/

lemma Numeral.parse?_paddedAddress (n : Nat) : parse? 16 (paddedAddress n) = some (n : Int) := by
  obtain ⟨ns, hns, hlt, hne, hn⟩ := Hex.toDigits_spell (by decide : 1 < 16 ∧ 16 ≤ 16) n
  let zeros := replicate (40 - (Hex.ofNat n).length) 0
  have htext : (paddedAddress n).toList = '0' :: 'x' :: (zeros ++ ns).map Hex.digit := by
    simp only [paddedAddress, Text.padLeft, String.toList_append, map_append, zeros, map_replicate]
    rw [Hex.ofNat, hns]
    simp only [String.toList_ofList]
    rfl
  rw [parse?_marked (forall_mem_append.2 ⟨?_, hlt⟩) (by simp [hne]) htext, Hex.number_replicate_zero, Hex.number, hn]
  intro m hm
  rw [(mem_replicate.1 hm).2]
  decide

def Item.isKnown : Item → Bool
  | .expr e => e.term.value?.isSome
  | .absent => false
  | _ => true

lemma Item.number?_yields (i : Item) : i.number?.Yields (·.isSome = i.isKnown) := by
  cases i with
  | expr e =>
    simp only [number?]
    split
    · have htruth : e.truth?.Yields (·.isSome = e.term.value?.isSome) := by
        refine .next fun _ => e.raw_gives.yields.bind ?_
        rintro t (rfl | rfl)
        · exact .pure Option.isSome_map
        · exact .pure (Option.isSome_map.trans e.term.isSome_value?_simplify)
      refine htruth.bind fun r hr => .pure ?_
      rw [Option.isSome_map, hr, isKnown]
    · rename_i hp
      have hvalue : e.value?.Yields (·.isSome = e.term.value?.isSome) :=
        .of_settle fun hroom => (isSome_value?_gives hroom (Bool.eq_false_iff.2 hp)).yields
      refine hvalue.bind fun r hr => .pure ?_
      rw [Option.isSome_map, hr, isKnown]
  | absent => exact .throw _
  | int n | bool b => exact .pure rfl

/-! ## Operands -/

/-- The account that a call is for, as it can be found in a world without a node. -/
def World.Reaches (w : World) (x : BitVec 256) : Prop :=
  Callee.isPrecompile x.toNat = true ∨ (w.find? (some x.toNat)).isSome

def GState.Calls (g : GState) (x : BitVec 256) : Prop := ∃ e, g.machine.stack[1]? = some (.expr e) ∧ e.Equals x

/-- What becomes of the account that a call is for, and of the world that it is looked for in. -/
structure World.Resolves (w : World) (x : BitVec 256) (isOffline : Bool) (r : Except Fault (Option Account)) (w' : World) :
    Prop where
  precompile : Callee.isPrecompile x.toNat = true → r = .ok none
  found : Callee.isPrecompile x.toNat = false → ∀ {a : Account}, w.find? (some x.toNat) = some a → r = .ok (some a)
  missing : ¬ w.Reaches x → isOffline = true → ∀ a, r ≠ .ok a
  kept : w.Reaches x → w' = w

lemma World.Resolves.reaches {w w' : World} {r : Except Fault (Option Account)} (h : w.Resolves x true r w') :
    (∃ a, r = .ok a) ↔ w.Reaches x := by
  constructor
  · rintro ⟨a, ha⟩
    by_contra hx
    exact h.missing hx rfl a ha
  rintro (hx | hx)
  · exact ⟨none, h.precompile hx⟩
  · obtain ⟨a, ha⟩ := Option.isSome_iff_exists.1 hx
    cases hx : Callee.isPrecompile x.toNat with
    | true => exact ⟨none, h.precompile hx⟩
    | false => exact ⟨some a, h.found hx ha⟩

def CallKind.sent (k : CallKind) (st : Stack) : Option Item := if k.hasValue then st[2]? else some (.int 0)

namespace Step

lemma take_yields (n : Nat) (hn : 0 < n) : (take n).Yields g s fun items g' =>
    items.length = n ∧ ∃ rest, g.machine.stack = items ++ rest ∧ g' = g.withStack rest := by
  have htake : (g.machine.take n).Yields fun r =>
      r.1.length = n ∧ ∃ rest, g.machine.stack = r.1 ++ rest ∧ r.2 = { g.machine with stack := rest } := by
    simp only [Machine.take]
    split
    · exact .throw _
    · rw [if_pos (by omega)]
      refine .pure ⟨?_, _, (take_append_drop _ _).symm, rfl⟩
      rw [length_take]
      omega
  refine (onMachine_yields htake).mono ?_
  rintro items _ ⟨_, ⟨hlength, rest, hstack, rfl⟩, rfl⟩
  exact ⟨hlength, rest, hstack, rfl⟩

lemma calleeOf_equals (he : e.Equals x) :
    (calleeOf (.expr e)).Yields g s fun c _ => c = .text (paddedAddress x.toNat) := by
  refine .given (Item.number?_gives he).yields ?_
  rintro _ s1 _ rfl
  exact .pure rfl

lemma calleeOf_yields (target : Item) : (calleeOf target).Yields g s fun c g' => g' = g ∧
    ∀ e (x : BitVec 256), target = .expr e → e.Equals x → c = .text (paddedAddress x.toNat) := by
  refine ((calleeOf_still target).keeps g s).and ?_
  rintro c g' s' hr e x rfl he
  exact (Engine.Yields.ok (calleeOf_equals he) hr).2

lemma account_yields (n : Int) : (account n).Yields g s fun r g' =>
    ∃ w, g.world.Finds (.ofInt 256 n) s.loader.isNone w r ∧ g' = { g with world := w } := by
  refine .world (.upon (g.world.findOrLoad_yields n s) ?_)
  rintro ⟨w, r⟩ s1 _ hw
  exact .modify (.pure ⟨w, hw, rfl⟩)

lemma accountOf_yields (c : Callee) : (accountOf c).Yields g s fun r g' =>
    (∃ w, g.world.Loads w ∧ (s.loader.isNone → w = g.world) ∧ g' = { g with world := w }) ∧
    ∀ x, c = .text (paddedAddress x.toNat) → g.world.Resolves x s.loader.isNone r g'.world := by
  have hkept : ∃ w, g.world.Loads w ∧ (s.loader.isNone → w = g.world) ∧ g = { g with world := w } :=
    ⟨g.world, .refl _, fun _ => rfl, rfl⟩
  cases c with
  | unknown address => exact .upon (Engine.Calm.grows s) fun a s1 _ _ => .pure ⟨hkept, fun _ h => by cases h⟩
  | text address =>
    have hnumber (x : BitVec 256) (hx : Callee.text address = .text (paddedAddress x.toNat)) :
        (Callee.text address).number = .ok (some (x.toNat : Int)) := by
      cases hx
      simp [Callee.number, Numeral.parse?_paddedAddress]
    simp only [accountOf]
    split
    iterate 2
      rename_i hn
      exact .pure ⟨hkept, fun x hx => by cases (hnumber x hx).symm.trans hn⟩
    rename_i n hn
    have hword (x : BitVec 256) (hx : Callee.text address = .text (paddedAddress x.toNat)) : n = x.toNat := by
      cases (hnumber x hx).symm.trans hn
      rfl
    split
    · rename_i hprecompile
      refine .pure ⟨hkept, fun x hx => ?_⟩
      rw [hword x hx] at hprecompile
      exact ⟨fun _ => rfl, fun h => (by cases h.symm.trans hprecompile), fun h => absurd (.inl hprecompile) h, fun _ => rfl⟩
    · rename_i hprecompile
      refine (account_yields n).bind ?_
      rintro r g1 s1 _ ⟨w, hfinds, rfl⟩
      have hkept : ∃ w', g.world.Loads w' ∧ (s.loader.isNone → w' = g.world) ∧
          { g with world := w } = { g with world := w' } :=
        ⟨w, hfinds.gains.loads, fun h => (h ▸ hfinds).offline, rfl⟩
      have hresolves x (hx : Callee.text address = .text (paddedAddress x.toNat)) :
          g.world.Resolves x s.loader.isNone (r.map some) w := by
        rw [hword x hx] at hprecompile hfinds
        rw [BitVec.ofInt_natCast, BitVec.ofNat_toNat] at hfinds
        refine ⟨fun h => absurd h hprecompile, fun _ {a} ha => ?_, fun hmissing hoff a ha => ?_, fun hreaches => ?_⟩
        · rw [(hfinds.found ha).2]
          rfl
        · have hnone : g.world.find? (some x.toNat) = none :=
            Option.not_isSome_iff_eq_none.1 fun h => hmissing (.inr h)
          cases r with
          | ok b => exact (hfinds.missing hnone hoff).2 b rfl
          | error f => cases ha
        · obtain ⟨a, ha⟩ := Option.isSome_iff_exists.1 (hreaches.resolve_left hprecompile)
          exact (hfinds.found ha).1
      cases r <;> exact .pure ⟨hkept, hresolves⟩

/-- What taking the operands of a call does: the stack gets shorter, and accounts may be loaded. -/
structure Taken (k : CallKind) (g : GState) (s : Session) (r : Except Fault CallOperands) (g' : GState) : Prop where
  state : ∃ w, g.world.Loads w ∧ (s.loader.isNone → w = g.world) ∧
    g' = { g.withStack (g.machine.stack.drop k.arity) with world := w }
  range : ∀ o, r = .ok o → g.machine.stack[k.arity - 2]? = some o.outStart ∧
    g.machine.stack[k.arity - 1]? = some o.outSize
  value : ∀ o, r = .ok o → k.sent g.machine.stack = some o.value
  data : ∀ o, r = .ok o → ∃ start size g₁ s₁ s₂, g.machine.stack[k.arity - 4]? = some start ∧
    g.machine.stack[k.arity - 3]? = some size ∧ g₁.machine.memory = g.machine.memory ∧
    inputOf start size g₁ s₁ = .ok (o.data, g₁) s₂
  callee : ∀ o, r = .ok o → ∀ x, g.Calls x → o.callee = .text (paddedAddress x.toNat)
  resolves : ∀ x, g.Calls x → g.world.Resolves x s.loader.isNone (r.map (·.account)) g'.world

lemma Taken.of_grows {s1 : Session} (hs : s.Grows s1) (h : Taken k g s1 r g') : Taken k g s r g' := by
  obtain ⟨hstate, hrange, hvalue, hdata, hcallee, hresolves⟩ := h
  rw [hs.loader] at hstate hresolves
  exact ⟨hstate, hrange, hvalue, hdata, hcallee, hresolves⟩

lemma Taken.reaches (h : Taken k g s r g') (hx : g.Calls x) (hoff : s.loader.isNone = true) :
    (∃ o, r = .ok o) ↔ g.world.Reaches x := by
  have hresolves := h.resolves x hx
  rw [hoff] at hresolves
  rw [← hresolves.reaches]
  cases r with
  | ok o => exact iff_of_true ⟨o, rfl⟩ ⟨_, rfl⟩
  | error f => exact iff_of_false (by rintro ⟨_, ⟨⟩⟩) (by rintro ⟨_, ⟨⟩⟩)

lemma operands_yields (k : CallKind) : (operands k.hasValue).Yields g s (Taken k g s) := by
  refine (take_yields 2 (by decide)).bind ?_
  rintro top _ s1 hs1 ⟨htop, rest1, hstack, rfl⟩
  obtain ⟨gas, target, rfl⟩ := length_eq_two.1 htop
  extract_lets rest
  -- what follows once the value, if the call carries one, has been taken
  have hrest value middle st s2 (hs2 : s.Grows s2)
      (hstack : g.machine.stack = gas :: target :: (middle ++ st)) (hmiddle : k.arity = middle.length + 6)
      (hvalue : k.sent g.machine.stack = some value) : (rest value).Yields (g.withStack st) s2 (Taken k g s) := by
    refine (take_yields 4 (by decide)).bind ?_
    rintro ranges _ s3 hs3 ⟨hranges, rest2, hst, rfl⟩
    match ranges, hranges with
    | [inStart, inSize, outStart, outSize], _ =>
    have hcalls {x} (hx : g.Calls x) : ∃ e, target = .expr e ∧ e.Equals x := by
      obtain ⟨e, he, hx⟩ := hx
      rw [hstack] at he
      exact ⟨e, Option.some.inj he, hx⟩
    refine (calleeOf_yields target).bind ?_
    rintro callee _ s4 hs4 ⟨rfl, hcallee⟩
    refine (((inputOf_still inStart inSize).keeps _ s4).and (Q := fun data g1 =>
      ∃ s₂, inputOf inStart inSize ((g.withStack st).withStack rest2) s4 = .ok (data, g1) s₂) fun _ _ s₂ h => ⟨s₂, h⟩).bind ?_
    rintro data _ s5 hs5 ⟨rfl, _, hdata⟩
    refine (accountOf_yields callee).bind ?_
    rintro found g6 s6 _ ⟨⟨w, hw, hoff, hg6⟩, hresolves⟩
    have hloader := hs5.loader.trans (hs4.loader.trans (hs3.loader.trans hs2.loader))
    rw [hloader] at hoff hresolves
    have htaken r (hfound : r.map (·.account) = found) (hoperands : ∀ o, r = .ok o → o.value = value ∧
        o.outStart = outStart ∧ o.outSize = outSize ∧ o.data = data ∧ o.callee = callee) :
        Taken k g s r g6 := by
      subst hfound
      rw [withStack_stack] at hst
      have hlist : g.machine.stack = (gas :: target :: (middle ++ [inStart, inSize])) ++ outStart :: outSize :: rest2 := by
        rw [hstack, hst]
        simp
      have hlength : k.arity = (gas :: target :: (middle ++ [inStart, inSize])).length + 2 := by
        rw [hmiddle]
        simp
      refine ⟨⟨w, hw, hoff, ?_⟩, fun o ho => ?_, fun o ho => ?_, fun o ho => ?_, fun o ho x hx => ?_, fun x hx => ?_⟩
      · rw [hg6, hlist, hlength]
        simp
      · obtain ⟨-, rfl, rfl, -⟩ := hoperands o ho
        rw [hlist, hlength]
        simp
      · rw [hvalue, (hoperands o ho).1]
      · obtain ⟨-, -, -, rfl, -⟩ := hoperands o ho
        refine ⟨inStart, inSize, _, _, _, ?_, ?_, by rfl, hdata⟩ <;> simp [hlist, hlength]
      · obtain ⟨e, he, hx⟩ := hcalls hx
        rw [(hoperands o ho).2.2.2.2, hcallee e x he hx]
      · obtain ⟨e, he, hx⟩ := hcalls hx
        exact hresolves x (hcallee e x he hx)
    split
    · exact .pure (htaken _ rfl (by rintro _ ⟨⟩))
    extract_lets finish
    have hfinish (hasValue : Item) s7 : (finish hasValue).Yields g6 s7 (Taken k g s) := by
      simp only [finish, pure_bind]
      iterate 4
        refine .given .any fun _ _ _ _ => ?_
      refine .pure (htaken _ rfl ?_)
      rintro _ ⟨⟩
      exact ⟨rfl, rfl, rfl, rfl, rfl⟩
    split
    · exact hfinish _ s6
    · exact .given .any fun _ s7 _ _ => hfinish _ s7
  rw [cons_append, cons_append, nil_append] at hstack
  split
  · rename_i hvalue
    refine (take_yields 1 (by decide)).bind ?_
    rintro items _ s2 hs2 ⟨hitems, rest2, hst, rfl⟩
    obtain ⟨value, rfl⟩ := length_eq_one_iff.1 hitems
    rw [withStack_stack] at hst
    have hstack : g.machine.stack = gas :: target :: ([value] ++ rest2) := by rw [hstack, hst]
    refine hrest value [value] rest2 s2 (hs1.trans hs2) hstack (by simp [CallKind.arity, hvalue]) ?_
    rw [CallKind.sent, if_pos hvalue, hstack]
    rfl
  · rename_i hvalue
    refine hrest (.int 0) [] rest1 s1 hs1 hstack (by simp [CallKind.arity, hvalue]) ?_
    rw [CallKind.sent, if_neg hvalue]

end Step

/-! ## The flag -/

def GState.flag (g : GState) (i : Instr) : Term :=
  .symbol ((g.tx?.map (·.id)).getD "" ++ "_" ++ ("retval_" ++ toString i.address)) 256

def Term.flagIs (flag : Term) (v : Int) : Term := .cmp .eq flag (.ofInt v 256)

/-- Does the call that is due say where the answer goes? -/
def GState.knowsRange (g : GState) (k : CallKind) : Bool :=
  (g.machine.stack[k.arity - 2]?).any Item.isKnown && (g.machine.stack[k.arity - 1]?).any Item.isKnown

/-- The value that the flag of a call gets when its account is there. -/
def GState.verdict (g : GState) (k : CallKind) : Option Int :=
  if g.lastReturn.isSome then if g.knowsRange k then some 1 else none
  else if k = .callcode ∨ k = .delegatecall then some 0 else none

structure GState.Finished (g : GState) (k : CallKind) (i : Instr) (s : Session) (said : Option Int) (g' : GState) :
    Prop where
  env : g'.env = g.env
  frames : g'.frames = g.frames
  notes : g'.notes = g.notes
  stack : ∃ e : Expr, e.term = g.flag i ∧ g'.machine.stack = .expr e :: g.machine.stack.drop k.arity
  world : ∃ w added, g.world.Loads w ∧ (s.loader.isNone → w = g.world) ∧
    added.map Expr.term = said.toList.map (g.flag i).flagIs ∧
    g'.world = { w with constraints := g.world.constraints ++ added }

namespace Step

variable {g1 : GState}

lemma instr_yields (hi : g.due s = some i) : g.instr.Yields s (· = i) := by
  rw [Engine.Yields, g.instr_eq s, hi]
  exact ⟨.refl s, rfl⟩

lemma result_yields (hi : g.due s = some i) : result.Yields g s (fun e g' => g' = g ∧ e.term = g.flag i) := by
  refine .get (.upon (instr_yields hi) ?_)
  rintro _ s1 _ rfl
  refine .get (.calc ?_)
  unfold GState.unknown flag
  split
  · rename_i tx htx
    rw [htx]
    exact (ofTerm_gives _).yields
  · exact .throw _

lemma pushExpr_yields (he : e.isProp = false) :
    (pushExpr e).Yields g s (fun _ g' => g' = g.withStack (.expr e :: g.machine.stack)) := by
  have hpush : (g.machine.stack.push (.expr e)).Yields (· = .expr e :: g.machine.stack) := by
    simp only [Stack.push, Stack.toWord, he, Bool.false_eq_true, if_false]
    split
    · exact .throw _
    · exact .pure rfl
  unfold pushExpr push
  refine (onMachine_yields (P := fun r => r.2 = { g.machine with stack := .expr e :: g.machine.stack }) ?_).mono ?_
  · refine .bind ?_ fun _ h => .pure h
    exact hpush.bind fun _ h => .pure (by rw [h])
  · rintro _ _ ⟨_, rfl, rfl⟩
    rfl

lemma constrain_yields (e : Expr) : (constrain e).Yields g s
    (fun _ g' => g' = { g with world := { g.world with constraints := g.world.constraints ++ [e] } }) := by
  refine .get (.given (GState.constrain_yields _ e) ?_)
  rintro _ s1 _ rfl
  exact .pure rfl

/-- The flag is on the stack, and what is said about it is among the conditions. -/
def Flagged (answers : Bool) (i : Instr) (said : Option Int) (g : GState) (eff : Effect) (g' : GState) : Prop :=
  eff = .next ∧ ∃ memory least most r e added, e.term = g.flag i ∧ added.map term = said.toList.map (g.flag i).flagIs ∧
    (answers = false → r = g.lastReturn) ∧ g' = { g with
      machine := { g.machine with
        memory := memory, minGas := least, maxGas := most, stack := .expr e :: g.machine.stack }
      world := { g.world with constraints := g.world.constraints ++ added }, lastReturn := r }

lemma flagIs_yields (he : e.term = g.flag i) (v : Int) : (eqInt e v).Yields (·.term = (g.flag i).flagIs v) := by
  have hp : e.isProp = false := by rw [isProp, he]; rfl
  have hw : e.width = 256 := by rw [width, he]; rfl
  have hraw : e.raw.Yields (· = g.flag i) := by
    refine e.raw_gives.yields.mono ?_
    rintro t (rfl | rfl)
    · exact he
    · rw [he]
      rfl
  simp only [eqInt, equateInt, hp, hw]
  exact hraw.bind fun _ ht => ht ▸ (derive_gives _ e).yields

lemma leave_flag (hi : g.due s = some i) : (do leave (← result) : Step Effect).Yields g s (Flagged b i none g) := by
  refine (result_yields hi).bind ?_
  rintro e _ s1 _ ⟨rfl, he⟩
  refine (pushExpr_yields (by rw [isProp, he]; rfl)).bind ?_
  rintro _ _ s2 _ rfl
  exact .pure ⟨rfl, _, _, _, _, e, [], he, rfl, fun _ => rfl, by rw [append_nil]; rfl⟩

lemma success_yields (hi : g.due s = some i) : success.Yields g s fun eff g' => eff = .next ∧
    ∃ e c, e.term = g.flag i ∧ c.term = (g.flag i).flagIs 1 ∧ g' = { g.withStack (.expr e :: g.machine.stack) with
      world := { g.world with constraints := g.world.constraints ++ [c] } } := by
  refine (result_yields hi).bind ?_
  rintro e _ s1 _ ⟨rfl, he⟩
  refine (pushExpr_yields (by rw [isProp, he]; rfl)).bind ?_
  rintro _ _ s2 _ rfl
  refine .given (flagIs_yields he 1) fun c s3 _ hc => (constrain_yields c).bind ?_
  rintro _ _ s4 _ rfl
  exact .pure ⟨rfl, e, c, he, hc, rfl⟩

lemma success_flag (hi : g.due s = some i) : success.Yields g s (Flagged b i (some 1) g) := by
  refine (success_yields hi).mono ?_
  rintro _ _ ⟨rfl, e, c, he, hc, rfl⟩
  exact ⟨rfl, _, _, _, _, e, [c], he, by simp [hc], fun _ => rfl, rfl⟩

lemma Flagged.of_aside (h : g.Aside b g1) (h' : Flagged b i said g1 eff g') : Flagged b i said g eff g' := by
  obtain ⟨_, _, _, _, hr, rfl⟩ := h
  obtain ⟨heff, _, _, _, _, e, added, he, hadded, hr', rfl⟩ := h'
  exact ⟨heff, _, _, _, _, e, added, he, hadded, fun hb => (hr' hb).trans (hr hb), rfl⟩

lemma Yields.aside_flag {x : Step α} [hx : Aside b x] {f : α → Step Effect} (hi : g.due s = some i)
    (hf : ∀ a g1 s1, g1.due s1 = some i → (f a).Yields g1 s1 (Flagged b i said g1)) :
    (x >>= f).Yields g s (Flagged b i said g) := by
  refine (hx.keeps g s).bind ?_
  rintro a g1 s1 hs1 hg1
  have hdue : g1.due s1 = some i := by
    obtain ⟨_, _, _, _, -, rfl⟩ := hg1
    exact due_of_programs hi hs1.programs
  exact (hf a g1 s1 hdue).mono fun _ _ hflag => hflag.of_aside hg1

lemma emptyHanded_flag (k : CallKind) (hi : g.due s = some i) (outStart outSize : Item) : (do
      let r ← result
      pushExpr r
      if k == .callcode then forgetReturned outStart outSize
      if k == .callcode || k == .delegatecall then constrain (← eqInt r 0)
      return Effect.next : Step Effect).Yields g s
    (Flagged true i (if k = .callcode ∨ k = .delegatecall then some 0 else none) g) := by
  refine (result_yields hi).bind ?_
  rintro e g s1 _ ⟨rfl, he⟩
  refine (pushExpr_yields (by rw [isProp, he]; rfl)).bind ?_
  rintro _ _ s2 _ rfl
  have hzero g1 s3 (hg1 : (g.withStack (.expr e :: g.machine.stack)).Aside true g1) : (do
        constrain (← eqInt e 0)
        return .next : Step Effect).Yields g1 s3 (Flagged true i (some 0) g) := by
    refine .given (flagIs_yields he 0) fun c s3 _ hc => (constrain_yields c).bind ?_
    rintro _ _ s4 _ rfl
    obtain ⟨_, _, _, _, -, rfl⟩ := hg1
    exact .pure ⟨rfl, _, _, _, _, e, [c], he, by simp [hc], by simp, rfl⟩
  cases k with
  | call | staticcall => exact .pure ⟨rfl, _, _, _, _, e, [], he, rfl, by simp, by rw [append_nil]; rfl⟩
  | delegatecall => exact hzero _ s2 (.refl _)
  | callcode => exact ((forgetReturned_aside outStart outSize).keeps _ s2).bind fun _ g1 s3 _ hg1 => hzero g1 s3 hg1

lemma Taken.knowsRange {o : CallOperands} (h : Taken k g s (.ok o) g1) :
    g.knowsRange k = (o.outStart.isKnown && o.outSize.isKnown) := by
  rw [GState.knowsRange, (h.range o rfl).1, (h.range o rfl).2]
  rfl

lemma Taken.finished (h : Taken k g s r g1) (hs : s.loader.isNone = s'.loader.isNone)
    (h' : Flagged b i said g1 eff g') : g.Finished k i s' said g' := by
  obtain ⟨w, hw, hoff, rfl⟩ := h.state
  obtain ⟨-, _, _, _, _, e, added, he, hadded, -, rfl⟩ := h'
  have hconstraints : w.constraints = g.world.constraints := by rw [hw]
  refine ⟨rfl, rfl, rfl, ⟨e, he, rfl⟩, w, added, hw, fun h => hoff (hs.trans h), hadded, ?_⟩
  rw [← hconstraints]

/-- Finishing a call: the flag replaces the operands, and it is said to be what the returned data stand for if the account
of the call is found. -/
lemma finishCall_yields (k : CallKind) (hi : g.due s = some i) : (finishCall k).Yields g s fun eff g' =>
    eff = .next ∧ ∃ found : Bool, g.Finished k i s (if found then g.verdict k else none) g' ∧
      ∀ x, g.Calls x → s.loader.isNone → (found = true ↔ g.world.Reaches x) := by
  refine ((outRange_still k).keeps g s).bind ?_
  rintro ⟨outStart, outSize⟩ g s1 hs1 rfl
  refine (operands_yields k).bind ?_
  intro r g1 s2 hs2 htaken
  obtain ⟨w, -, -, hg1⟩ := htaken.state
  have hdue : g1.due s2 = some i := by
    rw [hg1]
    exact due_of_programs hi (hs1.trans hs2).programs
  -- whatever is said of the flag, it is left in the state without the operands
  have hleft {said} found (hsaid : said = if found then g.verdict k else none)
      (hfound : found = true ↔ ∃ o, r = .ok o) {x : Step Effect} {s3}
      (hx : x.Yields g1 s3 (Flagged true i said g1)) :
      x.Yields g1 s3 fun eff g' => eff = .next ∧ ∃ found,
        g.Finished k i s (if found then g.verdict k else none) g' ∧
        ∀ x, g.Calls x → s.loader.isNone → (found = true ↔ g.world.Reaches x) := by
    refine hx.mono fun eff g' hflag => ?_
    refine ⟨hflag.1, found, hsaid ▸ htaken.finished hs1.loader hflag, fun x hx h => ?_⟩
    exact hfound.trans (htaken.reaches hx (hs1.loader.trans h))
  cases r with
  | error f =>
    dsimp only
    split
    · exact hleft false rfl (by simp) (.aside_flag hdue fun _ _ _ => leave_flag)
    · exact .throw f
  | ok o =>
    have hok : true = true ↔ ∃ o', (.ok o : Except Fault CallOperands) = .ok o' := by simp
    have hreturn : g1.lastReturn = g.lastReturn := by rw [hg1]; rfl
    refine .get ?_
    split
    · rename_i hnone
      refine hleft true ?_ hok (emptyHanded_flag k hdue o.outStart o.outSize)
      simp [verdict, ← hreturn, hnone]
    rename_i data hsome
    have hverdict b (hb : (o.outStart.isKnown && o.outSize.isKnown) = b) :
        g.verdict k = if b then some 1 else none := by
      simp [verdict, ← hreturn, hsome, htaken.knowsRange, hb]
    refine .given (o.outStart.number?_yields) fun start s4 hs4 hstart => ?_
    have hdue := due_of_programs hdue hs4.programs
    cases start with
    | none =>
      refine hleft true ?_ hok (leave_flag hdue)
      rw [hverdict false (by rw [← hstart]; rfl)]
      rfl
    | some start =>
      refine .given (o.outSize.number?_yields) fun size s5 hs5 hsize => ?_
      have hdue := due_of_programs hdue hs5.programs
      cases size with
      | none =>
        refine hleft true ?_ hok (leave_flag hdue)
        rw [hverdict false (by rw [← hstart, ← hsize]; rfl)]
        rfl
      | some size =>
        refine hleft true ?_ hok (.aside_flag hdue fun _ _ _ => success_flag)
        rw [hverdict true (by rw [← hstart, ← hsize]; rfl)]
        rfl

end Step

/-! ## Resuming the caller -/

def CallKind.opcode : CallKind → Opcode
  | .call => .call
  | .callcode => .callcode
  | .delegatecall => .delegatecall
  | .staticcall => .staticcall

namespace GState

lemma finish_opcode (c : GState) (k : CallKind) : c.finish k.opcode = c.run (Step.finishCall k) true true := by
  cases k <;> rfl

/-- The state goes on where a waiting caller has been called back: its call is finished in a copy of it. -/
def Resumes (c : GState) (k : CallKind) (i : Instr) (s : Session) (g : GState) : Prop :=
  ∃ c₁ found, c.CopyOf c₁ ∧ c₁.world.constraints = c.world.constraints ∧
    c₁.Finished k i s (if found then c₁.verdict k else none) g ∧
    ∀ x, c₁.Calls x → s.loader.isNone → (found = true ↔ c₁.world.Reaches x)

lemma CopyOf.due {c1 : GState} (h : c.CopyOf c1) : c1.due s = c.due s := by
  obtain ⟨st, rs, hm, -⟩ := h.machine
  refine due_congr ?_ (by rw [hm])
  rw [h.rest]

lemma Finished.of_loader (h : g.Finished k i s said g') (hs : s.loader.isNone = s'.loader.isNone) :
    g.Finished k i s' said g' :=
  { h with world := hs ▸ h.world }

lemma finish_yields (k : CallKind) (hi : c.due s = some i) :
    (c.finish k.opcode).Yields s (fun o => ∃ g, o = .states [g] ∧ c.Resumes k i s g) := by
  rw [finish_opcode]
  refine (c.copy_yields false s).bind ?_
  rintro c1 s1 hs1 ⟨hcopy, hconstraints⟩
  have hdue := due_of_programs (hcopy.due.trans hi) hs1.programs
  refine .bind (Step.finishCall_yields k hdue) ?_
  rintro ⟨eff, g⟩ s2 hs2 ⟨rfl, found, hfinished, hfound⟩
  simp only [mapM_cons, bind_assoc]
  refine (g.meter_yields s2).bind ?_
  rintro _ s3 _ ⟨op, rfl, -⟩
  refine .pure ⟨_, rfl, c1, found, hcopy, hconstraints rfl, ?_, fun x hx h => hfound x hx (hs1.loader.trans h)⟩
  have hfinished := hfinished.of_loader hs1.loader
  exact { hfinished with stack := hfinished.stack }

end GState

lemma GState.Resumes.mono (h : c.Resumes k i s g) (hs : s.loader.isNone = s'.loader.isNone) (node : Option Nat) :
    c.Resumes k i s' { g with node := node } := by
  obtain ⟨c1, found, hcopy, hconstraints, hfinished, hfound⟩ := h
  have ⟨henv, hframes, hnotes, hstack, hworld⟩ := hfinished.of_loader hs
  exact ⟨c1, found, hcopy, hconstraints, ⟨henv, hframes, hnotes, hstack, hworld⟩,
    fun x hx h => hfound x hx (hs.trans h)⟩

lemma Explore.resume_yields (hi : c.due s = some i) (hk : i.opcode = k.opcode) (node : Option Nat) :
    (resume c node).Yields s (fun gs => ∀ g ∈ gs, c.Resumes k i s g) := by
  refine resume_of_finish fun j s1 hj hs1 => ?_
  cases hi.symm.trans hj
  rw [hk]
  refine (c.finish_yields k (due_of_programs hi hs1.programs)).mono ?_
  rintro _ ⟨g, rfl, hresumes⟩ _ ⟨⟩
  exact forall_mem_singleton.2 (hresumes.mono hs1.loader node)

end EvmAudit
