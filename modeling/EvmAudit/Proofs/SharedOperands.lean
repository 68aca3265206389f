import EvmAudit.Proofs.Calls

/-!
# Operands that states share

The states that a jump leads to share the expressions on their stacks, and an expression that one of them asks for its
value is settled for all. The hash of a block is named after its number as the ledger shows it. So the order in which
two siblings are executed shows in what they leave.
-/

namespace EvmAudit

open Engine (bind_ok)

variable {α : Type} {g : GState} {s : Session} {e : Expr} {rest : Stack} {tx : Tx}

lemma Step.onMachine_run {h : Machine → Calc (α × Machine)} {a : α} {m : Machine} (hh : h g.machine = pure (a, m)) :
    onMachine h g s = .ok (a, { g with machine := m }) s := by
  refine (bind_ok rfl).trans ?_
  rw [hh]
  rfl

lemma Step.blockHash_run (hst : g.machine.stack = .expr e :: rest) (hroom : rest.length < 1024) (htx : g.tx? = some tx) :
    ∃ e' s', e'.term = .symbol (tx.id ++ "_" ++ ("blockhash_block_" ++ (s.ledger.termOf e).text)) 256 ∧
      blockHash g s = .ok (.next, g.withStack (.expr e' :: rest)) s' := by
  have hpop : g.machine.pop = pure (.expr e, { g.machine with stack := rest }) := by
    unfold Machine.pop
    rw [hst]
    rfl
  obtain ⟨e', l, hmake, he'⟩ := Expr.ofTerm_gives (.symbol (tx.id ++ "_" ++ ("blockhash_block_" ++
    (s.ledger.termOf e).text)) 256) s.ledger
  have hunknown : unknown ("blockhash_block_" ++ (s.ledger.termOf e).text) 256 (g.withStack rest) s =
      .ok (e', g.withStack rest) { s with ledger := l } := by
    refine (bind_ok rfl).trans (lift_ok (Engine.lift_ok ?_))
    unfold GState.unknown
    rw [show (g.withStack rest).tx? = some tx from htx]
    exact hmake
  have hpush : Machine.push (g.withStack rest).machine (.expr e') = pure (g.withStack (.expr e' :: rest)).machine := by
    have hlim : ¬ rest.length ≥ Stack.limit := Nat.not_le.2 hroom
    have hword : Item.IsPushed (.expr e') := congrArg Term.isProp he'
    show (do return { (g.withStack rest).machine with stack := ← rest.push (.expr e') } : Calc Machine) = _
    rw [Stack.push, Stack.toWord_isPushed hword, pure_bind, if_neg hlim]
    rfl
  have hput : push (.expr e') (g.withStack rest) { s with ledger := l } =
      .ok ((), g.withStack (.expr e' :: rest)) { s with ledger := l } := by
    refine onMachine_run ?_
    rw [hpush]
    rfl
  have htext : (liftM (Item.expr e).text : Engine String) s = .ok (s.ledger.termOf e).text s := rfl
  refine ⟨e', { s with ledger := l }, he', ?_⟩
  exact (bind_ok (onMachine_run hpop)).trans ((bind_ok (lift_ok htext)).trans
    ((bind_ok hunknown).trans (bind_ok hput)))

/-- Where the number of a block is an expression that can be evaluated and has not been settled: if another state asks
for its value first, the hash of the block has another name, unless the number and its value are written alike. -/
theorem GState.block_hash_tells_who_went_first (hst : g.machine.stack = .expr e :: rest) (hroom : rest.length < 1024)
    (htx : g.tx? = some tx) (hnew : s.ledger.termOf e = e.term) (hlit : ¬ e.term.isLiteral)
    (hevaluates : e.term.overrun .empty = none) : ∃ r l e₁ s₁ e₂ s₂,
      e.value? s.ledger = .ok r l ∧
      Opcode.blockhash.effectOf g s = .ok (.next, g.withStack (.expr e₁ :: rest)) s₁ ∧
      Opcode.blockhash.effectOf g { s with ledger := l } = .ok (.next, g.withStack (.expr e₂ :: rest)) s₂ ∧
      (e₁.term = e₂.term ↔ e.term.text = e.term.simplify.text) := by
  obtain ⟨l, hvalue, hshown⟩ := e.value?_run hevaluates s.ledger
  have hshown : l.termOf e = e.term.simplify := hshown.resolve_right fun h => hlit h.2
  obtain ⟨e₁, s₁, he₁, hrun₁⟩ := Step.blockHash_run hst hroom htx
  obtain ⟨e₂, s₂, he₂, hrun₂⟩ := Step.blockHash_run hst hroom htx
  refine ⟨_, l, e₁, s₁, e₂, s₂, hvalue, hrun₁, hrun₂, ?_⟩
  rw [he₁, he₂, hnew, hshown]
  simp

/-- The sum of two and one: whether it has been worked out shows in the name of the hash. -/
theorem GState.hash_of_a_sum_tells_who_went_first : ∃ (g : GState) (s : Session) (e : Expr) (r : Option Nat) (l : Ledger)
    (e₁ : Expr) (s₁ : Session) (e₂ : Expr) (s₂ : Session), g.machine.stack = [.expr e] ∧ s.ledger.termOf e = e.term ∧
      e.value? s.ledger = .ok r l ∧
      Opcode.blockhash.effectOf g s = .ok (.next, g.withStack [.expr e₁]) s₁ ∧
      Opcode.blockhash.effectOf g { s with ledger := l } = .ok (.next, g.withStack [.expr e₂]) s₂ ∧
      e₁.term ≠ e₂.term := by
  let sum : Expr := ⟨0, 0, .arith .add (.const 2 256) (.const 1 256)⟩
  have hnew : (Session.ofCodes []).ledger.termOf sum = sum.term := rfl
  obtain ⟨r, l, e₁, s₁, e₂, s₂, hvalue, hrun₁, hrun₂, hiff⟩ := block_hash_tells_who_went_first
    (g := (ofOperands []).withStack [.expr sum]) rfl (by decide) rfl hnew nofun rfl
  have htext : sum.term.text ≠ sum.term.simplify.text := by decide +kernel
  exact ⟨_, _, sum, r, l, e₁, s₁, e₂, s₂, rfl, hnew, hvalue, hrun₁, hrun₂, fun h => htext (hiff.1 h)⟩

def Explore.storedBy256 (w : World) : List String :=
  ((w.find? (some 256)).map fun a => a.storage.entries.filterMap fun x => match x.value with
    | .expr e => some e.term.text
    | _ => none).getD []

/-- The sum of two and one is on the stack where the code branches. On one side the hash of the block with this number is
stored, on the other side one is added to it. Both sides are followed. -/
def Explore.beforeSharing : Session := { Session.ofCodes ["600160020142600e5740600055005b6001015000", ""] with
  openWorlds := [(GState.ofOperands []).world], options := { pruning := false } }

/-- Without hooks and limits, and without calls, depth first and breadth first leave different worlds. -/
theorem Explore.search_order_shows_in_open_worlds : ∃ s₁ s₂,
    sendUnknown {} { search := .depthFirst } (.literal 256) [] beforeSharing = .ok () s₁ ∧
    sendUnknown {} { search := .breadthFirst } (.literal 256) [] beforeSharing = .ok () s₂ ∧
    ¬ (s₁.openWorlds.map storedBy256).Perm (s₂.openWorlds.map storedBy256) := by
  obtain ⟨_, s₁, hrun₁, _, s₂, hrun₂, hs⟩ : ∃ u s₁,
      sendUnknown {} { search := .depthFirst } (.literal 256) [] beforeSharing = .ok u s₁ ∧
      ∃ u s₂, sendUnknown {} { search := .breadthFirst } (.literal 256) [] beforeSharing = .ok u s₂ ∧
      ¬ (s₁.openWorlds.map storedBy256).Perm (s₂.openWorlds.map storedBy256) := by decide +kernel
  exact ⟨s₁, s₂, hrun₁, hrun₂, hs⟩

end EvmAudit
