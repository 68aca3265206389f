import EvmAudit.Proofs.Calls

/-!
# Misprinted rows

The table of instructions says how many operands an instruction takes and how many words it leaves. Five of its rows do
not say what the instruction does. A step is judged by the height of the stack that it leaves.
-/

namespace EvmAudit

variable {g g' : GState} {op : Opcode} {s s' : Session} {takes leaves : Nat} {gs : List GState}

variable {α β : Type} {c : Engine α} {a : α}

def GState.height (g : GState) : Nat := g.machine.stack.length

namespace Step

/-- Whenever the step has a result, it has taken a number of operands and left a number of words, and the result is of
this kind. -/
structure Uses (x : Step α) (takes leaves : Nat) (P : α → Prop) : Prop where
  of_ok : ∀ {g s a g' s'}, x g s = .ok (a, g') s' → takes ≤ g.height ∧ g'.height + takes = g.height + leaves ∧ P a

variable {x : Step α} {f : α → Step β} {P : α → Prop} {R : β → Prop} {k n j : Nat}

lemma of_lift_ok (h : (liftM c : Step α) g s = .ok (a, g') s') : c s = .ok a s' ∧ g' = g := by
  obtain ⟨a, s1, ha, hr⟩ := Engine.of_bind_ok h
  cases hr
  exact ⟨ha, rfl⟩

namespace Uses

lemma pure (h : P a) : Uses (Pure.pure a) 0 0 P := by
  constructor
  rintro g s _ _ _ ⟨⟩
  exact ⟨Nat.zero_le _, rfl, h⟩

lemma throw (e : Fault) : Uses (throw e) k j P := by
  constructor
  rintro g s _ _ _ ⟨⟩

lemma bind (hx : x.Uses k 0 P) (hf : ∀ a, (f a).Uses n j R) : (x >>= f).Uses (k + n) j R := by
  constructor
  intro g s b g' s' h
  obtain ⟨a, g1, s1, ha, hb⟩ := of_bind_ok h
  obtain ⟨hle, hsum, -⟩ := hx.of_ok ha
  obtain ⟨hle', hsum', hr⟩ := (hf a).of_ok hb
  exact ⟨by omega, by omega, hr⟩

lemma next (hx : x.Uses 0 0 P) (hf : ∀ a, (f a).Uses k j R) : (x >>= f).Uses k j R := Nat.zero_add k ▸ hx.bind hf

lemma last (hx : x.Uses 0 j P) {b : β} (hb : R b) : (x >>= fun _ => Pure.pure b).Uses 0 j R := by
  constructor
  intro g s c g' s' h
  obtain ⟨a, g1, s1, ha, hr⟩ := of_bind_ok h
  cases hr
  exact ⟨Nat.zero_le _, (hx.of_ok ha).2.1, hb⟩

lemma engine : Uses (liftM c) 0 0 fun _ => True := by
  constructor
  intro g s a g' s' h
  obtain ⟨-, rfl⟩ := of_lift_ok h
  exact ⟨Nat.zero_le _, rfl, trivial⟩

lemma lift {c : Calc α} : Uses (liftM c) 0 0 fun _ => True := engine

lemma get : Uses MonadState.get 0 0 fun _ => True := by
  constructor
  rintro g s _ _ _ ⟨⟩
  exact ⟨Nat.zero_le _, rfl, trivial⟩

lemma look (h : GState → α) : Uses (do return h (← MonadState.get)) 0 0 fun _ => True := get.next fun _ => .pure trivial

end Uses

lemma onMachine_uses {h : Machine → Calc (α × Machine)} (hh : ∀ m, (h m).Yields fun r =>
    k ≤ m.stack.length ∧ r.2.stack.length + k = m.stack.length + j) : (onMachine h).Uses k j fun _ => True := by
  constructor
  intro g s a g' s' hr
  obtain ⟨_, _, _, hg, hr⟩ := of_bind_ok hr
  cases hg
  obtain ⟨r, g1, s1, hc, hr⟩ := of_bind_ok hr
  obtain ⟨hc, rfl⟩ := of_lift_ok hc
  cases hr
  obtain ⟨hle, hsum⟩ := ((Engine.Yields.calc (hh g1.machine)).ok hc).2
  exact ⟨hle, hsum, trivial⟩

lemma pop_yields_shorter (m : Machine) : m.pop.Yields fun r =>
    1 ≤ m.stack.length ∧ r.2.stack.length + 1 = m.stack.length := by
  unfold Machine.pop
  cases m.stack with
  | nil => exact .bind (P := fun _ => False) (.throw _) fun _ h => h.elim
  | cons i st => exact .pure ⟨Nat.le_add_left _ _, rfl⟩

lemma pop_uses : pop.Uses 1 0 fun _ => True := onMachine_uses pop_yields_shorter

lemma popWord_uses : popWord.Uses 1 0 fun _ => True :=
  onMachine_uses fun m => .bind (pop_yields_shorter m) fun _ hr => .bind .any fun _ _ => .pure hr

lemma push_uses (i : Item) : (push i).Uses 0 1 fun _ => True := by
  refine onMachine_uses fun m => .bind ?_ fun _ h => .pure ⟨Nat.zero_le _, h⟩
  refine (m.stack.push_yields i).bind ?_
  rintro _ ⟨w, rfl, -⟩
  exact .pure rfl

lemma leave_uses (e : Expr) : (leave e).Uses 0 1 (· = .next) := (push_uses _).last rfl

/-! ## The five instructions -/

lemma modular_uses (op : ArithOp) : (modular op).Uses 3 1 (· = .next) :=
  popWord_uses.bind fun _ => popWord_uses.bind fun _ => popWord_uses.bind fun _ =>
    .next .lift fun _ => .next .lift fun _ => .next .lift fun _ => .next .lift fun _ => leave_uses _

lemma storageStore_uses : storageStore.Uses 2 0 (· = .next) := by
  refine pop_uses.bind fun key => pop_uses.bind (n := 0) fun value => ?_
  constructor
  intro g s e g' s' h
  obtain ⟨_, _, _, hg, h⟩ := of_bind_ok h
  cases hg
  obtain ⟨⟨st, f⟩, g1, s1, hset, h⟩ := of_bind_ok h
  cases f with
  | some f => cases h
  | none =>
    cases h
    exact ⟨Nat.zero_le _, rfl, rfl⟩

lemma account_uses (address : Int) : (account address).Uses 0 0 fun _ => True := by
  refine .next (.look (·.world)) fun w => .next .engine fun r => ?_
  refine .next (P := fun _ => True) ?_ fun _ => .pure trivial
  constructor
  rintro g s _ _ _ ⟨⟩
  exact ⟨Nat.zero_le _, rfl, trivial⟩

lemma foreignCodeSize_uses : foreignCodeSize.Uses 1 1 (· = .next) := by
  have hunknown name : (unknown name).Uses 0 0 fun _ => True := .next .get fun _ => .lift
  refine pop_uses.bind (n := 0) fun address => .next .lift fun n => ?_
  split
  · exact .next .lift fun _ => .next (hunknown _) fun _ => leave_uses _
  refine .next (account_uses _) fun r => ?_
  split
  · exact .next .engine fun _ => (push_uses _).last rfl
  · split
    · exact .next (hunknown _) fun _ => leave_uses _
    · exact .throw _

lemma duplicate_uses : duplicate.Uses 0 1 (· = .next) := by
  refine .next .get fun g => .next .engine fun i => ?_
  dsimp only
  split
  · exact .next (.look (·.machine)) fun _ => .next .lift fun _ => (push_uses _).last rfl
  · exact .throw _

lemma swap_uses (depth : Nat) : (swap depth).Uses 0 0 (· = .next) := by
  constructor
  intro g s e g' s' h
  obtain ⟨_, _, _, hg, h⟩ := of_bind_ok h
  cases hg
  obtain ⟨top, _, s1, htop, h⟩ := of_bind_ok h
  obtain ⟨other, _, s2, hother, h⟩ := of_bind_ok h
  cases h
  exact ⟨Nat.zero_le _, by simp [GState.height], rfl⟩

end Step

/-- The rows of the table that are wrong, with what the instruction takes and leaves. -/
def Opcode.misprinted? : Opcode → Option (Nat × Nat)
  | .addmod => some (3, 1)
  | .extcodesize => some (1, 1)
  | .sstore => some (2, 0)
  | .dup _ => some (0, 1)
  | .swap _ => some (0, 0)
  | _ => none

lemma Opcode.effectOf_uses (h : op.misprinted? = some (takes, leaves)) : op.effectOf.Uses takes leaves (· = .next) := by
  cases op with
  | addmod =>
    cases h
    exact Step.modular_uses _
  | extcodesize =>
    cases h
    exact Step.foreignCodeSize_uses
  | sstore =>
    cases h
    exact Step.storageStore_uses
  | dup n =>
    cases h
    exact Step.duplicate_uses
  | swap n =>
    cases h
    exact Step.swap_uses n
  | _ => cases h

/-- What the table says differs from what the instruction does by more than operands that are put back. -/
lemma Opcode.effect_of_misprinted? (h : op.misprinted? = some (takes, leaves)) :
    op.effect.1 + leaves ≠ op.effect.2 + takes := by
  cases op <;> cases h <;> simp [effect, row]

/-! ## Successors -/

namespace GState

lemma copy_height (g : GState) (deep : Bool) (s : Session) : (g.copy deep).Yields s (·.height = g.height) :=
  (g.copy_items deep s).mono fun _ h => h.1

lemma Settles.height {isMetered advances : Bool} (h : g.Settles isMetered advances g') : g'.height = g.height := by
  obtain ⟨_, _, _, rfl⟩ := h.rest
  rfl

/-- In five rows of the table the numbers are wrong: where the instruction has successors, the operands that it takes in
truth were there, and no successor is as high as the table says. -/
theorem misprinted_row_misleads (hop : op.misprinted? = some (takes, leaves))
    (h : g.perform op s = .ok (.states gs) s') : takes ≤ g.height ∧ ∀ g' ∈ gs,
      g'.height + takes = g.height + leaves ∧ g'.height + op.effect.1 ≠ g.height + op.effect.2 := by
  unfold perform at h
  split at h
  · cases h
  obtain ⟨g₁, s₁, hcopy, h⟩ := Engine.of_bind_ok h
  obtain ⟨⟨e, g₂⟩, s₂, hstep, h⟩ := Engine.of_bind_ok h
  obtain ⟨hle, hsum, rfl⟩ := (Opcode.effectOf_uses hop).of_ok hstep
  rw [((g.copy_height false s).ok hcopy).2] at hle hsum
  refine ⟨hle, fun g' hg' => ?_⟩
  obtain ⟨gs', hgs, -, hsettles⟩ := ((settle_yields _ _ [g₂] s₂).ok h).2
  cases hgs
  obtain ⟨g₃, hg₃, hg'⟩ := hsettles g' hg'
  obtain rfl := List.mem_singleton.1 hg₃
  have := Opcode.effect_of_misprinted? hop
  rw [hg'.height]
  exact ⟨hsum, by omega⟩

instance {o : Outcome} {T : GState → Prop} [DecidablePred T] : Decidable (∃ g, o = .states [g] ∧ T g) :=
  match o with
  | .states [g] => decidable_of_iff (T g) (by simp)
  | .states [] | .states (_ :: _ :: _) | .call _ _ | .halt _ _ _ => isFalse (by simp)

theorem addmod_takes_three : ∃ (g : GState) (s : Session), g.IsAt .addmod s ∧ g.height = 3 ∧ ∃ g' s',
    g.perform .addmod s = .ok (.states [g']) s' ∧ g'.height = 1 := by
  have hat : (ofOperands [5, 7, 4]).IsAt .addmod (.ofCodes ["08"]) := by decide +kernel
  obtain ⟨_, s', ho, g', rfl, -⟩ : ∃ o s', (ofOperands [5, 7, 4]).perform .addmod (.ofCodes ["08"]) = .ok o s' ∧
      ∃ g', o = .states [g'] ∧ True := by decide +kernel
  have hheight := ((misprinted_row_misleads rfl ho).2 g' (List.mem_singleton.2 rfl)).1
  exact ⟨_, _, hat, rfl, g', s', ho, Nat.add_right_cancel hheight⟩

/-- A store leaves one operand less than the table says, and an addition under a modulus misses one although there are as
many as the table asks for. -/
theorem table_misstates_sstore_and_addmod : (∃ (g : GState) (s : Session) (g' : GState) (s' : Session),
      g.IsAt .sstore s ∧ g.perform .sstore s = .ok (.states [g']) s' ∧
      g'.height ≠ g.height - (Opcode.effect .sstore).1 + (Opcode.effect .sstore).2) ∧
    ∃ (g : GState) (s : Session) (text : String) (s' : Session), g.IsAt .addmod s ∧ Opcode.addmod.needs ≤ g.height ∧
      g.perform .addmod s = .error (.vm .stackUnderflow text) s' := by
  constructor
  · obtain ⟨_, s', ho, g', rfl, hheight⟩ : ∃ o s', (ofOperands [1, 2]).perform .sstore (.ofCodes ["55"]) = .ok o s' ∧
        ∃ g', o = .states [g'] ∧ g'.height = 0 := by decide +kernel
    refine ⟨_, _, g', s', by decide +kernel, ho, ?_⟩
    rw [hheight]
    decide
  · obtain ⟨_, s', hf, rfl⟩ : ∃ f s', (ofOperands [5, 7]).perform .addmod (.ofCodes ["08"]) = .error f s' ∧
        f = Stack.popFault := by decide +kernel
    exact ⟨_, _, _, s', by decide +kernel, by decide, hf⟩

end GState
end EvmAudit
