import EvmAudit.Explore.Messages
import EvmAudit.Proofs.Calm
import EvmAudit.Proofs.Memory
import EvmAudit.Proofs.Layout

/-!
# Numbers

States are told apart by numbers that the session gives out. A computation on sessions is orderly when it takes back no
number and leaves the graph, the work, the open worlds and the callers that wait as they are. Computations on expressions
are. Being orderly is closed under sequencing, so it is shown once for each function, from the functions that it calls.
-/

namespace EvmAudit

variable {α β γ : Type} {T : Session → Session → Prop} [hT : Session.Course T]

set_option synthInstance.maxSize 1024

namespace Engine

instance (code : Bytecode) : Goes Session.Rests (newProgram code) :=
  .next fun _ => .next fun _ => ⟨fun _ => ⟨Nat.le_refl _, rfl, rfl, rfl, rfl⟩⟩

instance (i : ProgramId) (code : Bytecode) : Goes Session.Rests (assign i code) := by
  constructor
  intro s
  refine after_bind .trans (.refl s) ?_
  rintro _ s ⟨⟩
  refine after_bind .trans ⟨Nat.le_refl _, rfl, rfl, rfl, rfl⟩ ?_
  rintro _ s ⟨⟩
  split <;> exact Goes.goes _

lemma goes_cached {part : Loader → Answers β} {change : (Answers β → Answers β) → Loader → Loader} {key : NodeKey}
    {find : Bool → Engine β} (hfind : ∀ active, Goes T (find active)) : Goes T (cached part change key find) := by
  simp only [cached]
  refine .next fun s => ?_
  split
  · refine .next fun l => .next fun _ => ?_
    split <;> infer_instance
  · infer_instance

instance (address : Json) (slot : Int) : Goes T (readStorage address slot) := goes_cached fun _ => inferInstance

instance (address : Json) : Goes T (readBalance address) := goes_cached fun _ => inferInstance

instance (address : Json) : Goes T (loadCode address) := by
  refine goes_cached fun active => ?_
  split
  on_goal 2 => refine .next fun _ => ?_
  -- what is left is to ask the node for the code
  all_goals
    refine .next fun s => ?_
    split
    · infer_instance
    refine .next fun text => ?_
    split
    · refine .next fun r => ?_
      split <;> infer_instance
    · infer_instance

end Engine

/-! ### Accounts -/

open Engine (Goes)

instance Account.make_goes (address : Expr) (name : Option String) (concrete live : Bool) (nonce : Int)
    (code : Option ProgramId) : Goes T (Account.make address name concrete live nonce code) := by
  simp only [Account.make]
  cases code <;> cases name <;> infer_instance

instance Storage.get_goes (st : Storage) (key : Item) : Goes T (st.get key) := by
  refine .next fun st => .next fun s => @.next _ _ _ _ _ _ (@.attempt _ _ _ ?_) fun r => ?_
  · refine .next fun k => .next fun m => ?_
    split
    · infer_instance
    · infer_instance
    · infer_instance
  · split <;> infer_instance

namespace World

instance (w : World) (key : Option Nat) (address : Expr) : Goes T (w.lookupAt key address) := by
  simp only [lookupAt]
  split <;> infer_instance

instance (w : World) (address : Expr) : Goes T (w.lookup address) := by
  simp only [lookup]
  infer_instance

instance (w : World) (n : NewAccount) (address : Nat) (nonce : Int) :
    Goes T (w.create n address nonce) := by
  simp only [create]
  infer_instance

instance (w : World) (n : NewAccount) : Goes T (w.createAccount n) := by
  simp only [createAccount]
  split
  · refine .next fun r => .next fun w => ?_
    split <;> infer_instance
  · refine .next fun w => ?_
    split <;> infer_instance

instance (w : World) (address : Item) : Goes T (w.findOrLoad address) := by
  simp only [findOrLoad]
  refine .next fun word => .next fun key => ?_
  split
  · infer_instance
  refine .next fun s => ?_
  split
  · infer_instance
  refine @.next _ _ _ _ _ _ (@.attempt _ _ _ ?_) fun r => ?_
  · -- an account that can be read is made with what was read, any other with what the code says
    split
    all_goals
      refine .next fun found => ?_
      split <;> infer_instance
  · split <;> infer_instance

instance (r : World × Except Fault α) : Goes T (orFail r) := .next fun _ => .pure _

end World

instance Note.copy_goes (n : Note) : Goes T n.copy := by
  cases n with
  | dependency r => exact .next fun _ => .next fun _ => .pure _
  | _ => exact .pure _

instance World.copy_goes (w : World) (deep : Bool) : Goes T (w.copy deep) := by
  simp only [World.copy]
  infer_instance

instance GState.copy_goes (g : GState) (deep : Bool) : Goes T (g.copy deep) := by
  simp only [GState.copy]
  infer_instance

instance Tx.make_goes (r : TxRequest) (kind : TxKind) (callee : Account) (before : Accounts) :
    Goes T (make r kind callee before) := by
  simp only [make]
  cases r.data <;> split <;> infer_instance

instance Tx.message_goes (r : TxRequest) (callee : Account) (before : Accounts) : Goes T (message r callee before) :=
  make_goes r .message callee before

instance Tx.creation_goes (w : World) (r : TxRequest) (name : String) (address : Option Nat) :
    Goes T (creation w r name address) := by
  simp only [creation]
  infer_instance

instance Tx.start_goes (tx : Tx) (w : World) : Goes T (tx.start w) := by
  simp only [start]
  infer_instance

/-! ### Queries -/

namespace Query

instance (q : Query) : Goes T q.outOfTime := .next fun _ => .pure _

instance : Goes T hashConditions :=
  .next fun _ => .next fun _ => @.next _ _ _ _ _ _ (.modify fun s => hT.own s) fun _ => .pure _

lemma noted_goes (h : Session → Queries) : Goes T (modify fun s : Session => { s with queries := h s }) :=
  .modify fun s => hT.own s

instance (t : Term) : Goes T (quick t) :=
  .next fun _ => .next fun _ => @.next _ _ _ _ _ _ (noted_goes _) fun _ => .pure _

instance (q : Query) (items : List Item) : Goes T (search.answer q items) := by
  simp only [search.answer]
  split
  on_goal 1 => refine .next fun props => .next fun all => .next fun t => ?_
  all_goals
    refine .next fun found => ?_
    split
    · infer_instance
    · exact .next fun terms => .next fun m => @.next _ _ _ _ _ _ (noted_goes _) fun _ => .pure _

instance solve_goes (q : Query) : Goes T q.solve := by
  simp only [solve, search, map_eq_pure_bind]
  refine .next fun key => .next fun s => ?_
  split
  · infer_instance
  refine .next fun late => ?_
  split
  · infer_instance
  · split
    · infer_instance
    · split
      all_goals exact .next fun hash => .next fun m => @.next _ _ _ _ _ _ (noted_goes _) fun _ => .pure _

end Query

instance Constraints.isPossible_goes (cs : Constraints) (timeout : Option Int) : Goes T (cs.isPossible timeout) := by
  have hmodel : Goes T (cs.model timeout) := Query.solve_goes _
  refine .next fun r => ?_
  split <;> infer_instance

instance Constraints.model?_goes (cs : Constraints) : Goes T cs.model? := by
  have hmodel : Goes T cs.model := Query.solve_goes _
  refine .next fun r => ?_
  split <;> infer_instance

/-!
# Copies

A copy of a state has an identity, keys and records of its own, and is otherwise the same: the accounts keep their
storage, nonce and code, the conditions keep their meaning, and a stack of words stays as it is.
-/

open List
open Calc (Gives)
open Engine (Does of_bind_ok)

variable {i i' : Item} {ks : KeySet} {n : Nat} {σ : Valuation} {e e' : Expr} {s : Session} {w w' : World}
  {m m' : Machine} {g g' : GState}

/-! ## Keys -/

lemma Term.simplify_simplify (t : Term) : t.simplify.simplify = t.simplify := by
  cases hv : t.value? with
  | none => rw [simplify_of_none hv, simplify_of_none hv]
  | some v =>
    have hsimplify : t.simplify = constLike t v := by rw [simplify, hv]
    rw [hsimplify, constLike]
    split
    · cases hb : v != 0 <;> rfl
    · simp [simplify, value?, eval, constLike, isProp, width]

lemma Ledger.simplify_termOf (l : Ledger) (e : Expr) : (l.termOf e).simplify = e.term.simplify := by
  unfold termOf
  split
  · exact e.term.simplify_simplify
  · rfl

/-- The two values are the same key, however much of them has been worked out. -/
def Item.SameKey : Item → Item → Prop
  | .expr e, .expr e' => e'.term.simplify = e.term.simplify
  | .expr _, _ => False
  | _, .expr _ => False
  | i, i' => i'.int? = i.int?

lemma Item.SameKey.refl (i : Item) : i.SameKey i := by
  cases i <;> exact rfl

lemma Item.SameKey.trans {i'' : Item} (h : i.SameKey i') (h' : i'.SameKey i'') : i.SameKey i'' := by
  cases i' with
  | expr e' =>
    cases i with
    | expr e =>
      cases i'' with
      | expr e'' => exact h'.trans h
      | _ => exact h'.elim
    | _ => exact h.elim
  | _ =>
    cases i with
    | expr e => exact h.elim
    | _ =>
      cases i'' with
      | expr e'' => exact h'.elim
      | _ => exact h'.trans h

/-- What the print of a value tells of it; an identity tells nothing. -/
def KeyPrint.Tells (i : Item) : KeyPrint → Prop
  | .const v w => ∃ e, i = .expr e ∧ e.term.simplify = (Term.const v w).simplify
  | .truth b => ∃ e, i = .expr e ∧ e.term.simplify = (Term.truth b).simplify
  | .id _ => False
  | .plain n => (∀ e, i ≠ .expr e) ∧ i.int? = some n
  | .absent => i = .absent

lemma KeyPrint.Tells.sameKey {p : KeyPrint} (h : p.Tells i) (h' : p.Tells i') : i.SameKey i' := by
  cases p with
  | const v w | truth b =>
    obtain ⟨e, rfl, he⟩ := h
    obtain ⟨e', rfl, he'⟩ := h'
    exact he'.trans he.symm
  | id n => exact h.elim
  | plain n =>
    obtain ⟨hi, hn⟩ := h
    obtain ⟨hi', hn'⟩ := h'
    cases i with
    | expr e => exact absurd rfl (hi e)
    | _ =>
      cases i' with
      | expr e => exact absurd rfl (hi' e)
      | _ => exact hn'.trans hn.symm
  | absent =>
    subst h h'
    exact rfl

/-- The print of a value tells what the value is, unless it is the identity of an expression without a value. -/
lemma KeyPrint.of_run (i : Item) (l : Ledger) : ∃ p, of i l = .ok p l ∧
    (p.Tells i ∨ ∃ e, i = .expr e ∧ p = .id e.id ∧ ¬ (l.termOf e).isLiteral) := by
  cases i with
  | expr e =>
    have hsame := l.simplify_termOf e
    have hraw : e.raw l = .ok (l.termOf e) l := rfl
    simp only [of, Engine.bind_ok hraw]
    cases ht : l.termOf e with
    | const v w | truth b => exact ⟨_, rfl, .inl ⟨e, rfl, by rw [← hsame, ht]⟩⟩
    | _ => exact ⟨_, rfl, .inr ⟨e, rfl, rfl, by rw [ht]; exact False.elim⟩⟩
  | absent => exact ⟨_, rfl, .inl rfl⟩
  | int n | bool b => exact ⟨_, rfl, .inl ⟨nofun, rfl⟩⟩

lemma Expr.copy_run (e : Expr) (l : Ledger) :
    ∃ e' l', e.copy l = .ok e' l' ∧ e'.id = l.next ∧ l'.next = l.next + 1 ∧ e'.term = l.termOf e := by
  show ∃ e' l', make (l.termOf e) (l.marksOf e) l = .ok e' l' ∧ _
  unfold make
  split <;> exact ⟨_, _, rfl, rfl, rfl, rfl⟩

/-- Copies one key into a set: a number as it is, any other expression under an identity of its own. -/
abbrev KeySet.copyKey (ks : KeySet) (k : Key) : Calc KeySet :=
  match k.item with
  | .expr e => do
    match ← e.raw with
    | .const _ _ | .truth _ => ks.insert k.item
    | _ => ks.insert (.expr (← e.copy))
  | i => ks.insert i

namespace KeySet

structure Mirrors (ks ks' : KeySet) : Prop where
  kept : ∀ k ∈ ks, ∃ k' ∈ ks', k.item.SameKey k'.item
  known : ∀ k' ∈ ks', ∃ k ∈ ks, k.item.SameKey k'.item

def Printed (n : Nat) (k : Key) : Prop := k.print.Tells k.item ∨ ∃ m < n, k.print = .id m

/-- One key has come to a set, unless it was there already. -/
structure Gains (ks : KeySet) (i : Item) (n : Nat) (ks' : KeySet) : Prop where
  printed : ∀ k ∈ ks', Printed n k
  there : ∃ k ∈ ks', i.SameKey k.item
  kept : ∀ k ∈ ks, k ∈ ks'
  new : ∀ k ∈ ks', k ∈ ks ∨ i.SameKey k.item

lemma Gains.of_sameKey {ks' : KeySet} (h : ks.Gains i' n ks') (hi : i.SameKey i') : ks.Gains i n ks' where
  printed := h.printed
  there := have ⟨k, hk, hsame⟩ := h.there; ⟨k, hk, hi.trans hsame⟩
  kept := h.kept
  new k hk := (h.new k hk).imp_right hi.trans

lemma insert_run (hks : ∀ k ∈ ks, Printed n k) (i : Item) (l : Ledger)
    (hi : ∀ e, i = .expr e → n ≤ e.id ∧ e.id < l.next ∨ (l.termOf e).isLiteral) (hn : n ≤ l.next) :
    ∃ ks', ks.insert i l = .ok ks' l ∧ ks.Gains i l.next ks' := by
  obtain ⟨p, hp, htells⟩ := KeyPrint.of_run i l
  have hrun : ks.insert i l = .ok (if ks.has p then ks else ks ++ [⟨i, p⟩]) l := by
    show EStateM.bind (KeyPrint.of i) _ l = _
    simp only [EStateM.bind, hp]
    rfl
  have hmore : ∀ k ∈ ks, Printed l.next k := fun k hk =>
    (hks k hk).imp_right fun ⟨m, hm, hprint⟩ => ⟨m, Nat.lt_of_lt_of_le hm hn, hprint⟩
  refine ⟨_, hrun, ?_⟩
  split
  · rename_i hhas
    obtain ⟨k, hk, hprint⟩ := any_eq_true.1 hhas
    refine ⟨hmore, ⟨k, hk, ?_⟩, fun _ => id, fun _ => .inl⟩
    -- a print that was there before is not the identity of a new expression
    rw [beq_iff_eq] at hprint
    rcases hks k hk with hkey | ⟨m, hm, hid⟩
    · rw [hprint] at hkey
      rcases htells with htells | ⟨e, -, rfl, -⟩
      · exact htells.sameKey hkey
      · exact hkey.elim
    · rw [hprint] at hid
      subst hid
      obtain htells | ⟨e, rfl, hm', hliteral⟩ := htells
      · exact htells.elim
      · obtain rfl := KeyPrint.id.inj hm'
        exact absurd hm (Nat.not_lt.2 ((hi e rfl).resolve_right hliteral).1)
  · refine ⟨?_, ⟨⟨i, p⟩, by simp, .refl i⟩, fun k hk => by simp [hk], ?_⟩
    · refine forall_mem_append.2 ⟨hmore, forall_mem_singleton.2 (htells.imp_right ?_)⟩
      rintro ⟨e, rfl, rfl, hliteral⟩
      exact ⟨e.id, ((hi e rfl).resolve_right hliteral).2, rfl⟩
    · exact forall_mem_append.2 ⟨fun _ => .inl, forall_mem_singleton.2 (.inr (.refl i))⟩

lemma copyKey_run {l : Ledger} (hks : ∀ k ∈ ks, Printed l.next k) (k : Key) :
    ∃ ks' l', ks.copyKey k l = .ok ks' l' ∧ ks.Gains k.item l'.next ks' := by
  have hplain i (hi : ∀ e, i = .expr e → (l.termOf e).isLiteral) :
      ∃ ks' l', ks.insert i l = .ok ks' l' ∧ ks.Gains i l'.next ks' :=
    have ⟨ks', h⟩ := insert_run hks i l (fun e he => .inr (hi e he)) (Nat.le_refl _)
    ⟨ks', l, h⟩
  obtain ⟨i, p⟩ := k
  unfold copyKey
  cases i with
  | expr e =>
    have hraw (f : Term → Calc KeySet) : (e.raw >>= f) l = f (l.termOf e) l := rfl
    dsimp only
    rw [hraw]
    cases ht : l.termOf e with
    | const v w | truth b =>
      refine hplain (.expr e) ?_
      rintro _ ⟨⟩
      rw [ht]
      trivial
    | _ =>
      obtain ⟨e', l', hrun, hid, hnext, hterm⟩ := e.copy_run l
      have hsame : (Item.expr e).SameKey (.expr e') := by
        show e'.term.simplify = e.term.simplify
        rw [hterm, l.simplify_termOf]
      have hnew : ∀ e1, Item.expr e' = .expr e1 → l.next ≤ e1.id ∧ e1.id < l'.next ∨ (l'.termOf e1).isLiteral := by
        rintro _ ⟨⟩
        exact .inl ⟨Nat.le_of_eq hid.symm, by omega⟩
      obtain ⟨ks', hinsert, hgains⟩ := insert_run hks (.expr e') l' hnew (by omega)
      refine ⟨ks', l', ?_, hgains.of_sameKey hsame⟩
      show EStateM.bind e.copy _ l = _
      simp [EStateM.bind, hrun, hinsert]
  | _ => exact hplain _ nofun

lemma copy_mirrors (ks : KeySet) : ks.copy.Gives ks.Mirrors := by
  -- the keys that are left are copied into those that were copied before
  have hfold (ks : KeySet) : ∀ acc l, (∀ k ∈ acc, Printed l.next k) → ∃ ks' l',
      ks.foldlM copyKey acc l = .ok ks' l' ∧ (∀ k ∈ acc, k ∈ ks') ∧ (∀ k ∈ ks, ∃ k' ∈ ks', k.item.SameKey k'.item) ∧
      ∀ k' ∈ ks', k' ∈ acc ∨ ∃ k ∈ ks, k.item.SameKey k'.item := by
    induction ks with
    | nil => exact fun acc l _ => ⟨acc, l, rfl, fun _ => id, forall_mem_nil _, fun _ => .inl⟩
    | cons k ks ih =>
      intro acc l hacc
      obtain ⟨acc', l1, hrun, hgains⟩ := copyKey_run hacc k
      obtain ⟨ks', l2, hrest, hkept, hmet, hnew⟩ := ih acc' l1 hgains.printed
      refine ⟨ks', l2, ?_, fun k' hk' => hkept k' (hgains.kept k' hk'), forall_mem_cons.2 ⟨?_, hmet⟩, ?_⟩
      · show EStateM.bind _ _ l = _
        unfold EStateM.bind
        rw [hrun]
        exact hrest
      · obtain ⟨k', hk', hsame⟩ := hgains.there
        exact ⟨k', hkept k' hk', hsame⟩
      · intro k' hk'
        rcases hnew k' hk' with hk' | ⟨k1, hk1, hsame⟩
        · exact (hgains.new k' hk').imp_right fun hsame => ⟨k, by simp, hsame⟩
        · exact .inr ⟨k1, by simp [hk1], hsame⟩
  intro l
  cases ks with
  | nil => exact ⟨[], l, rfl, forall_mem_nil _, forall_mem_nil _⟩
  | cons k ks =>
    obtain ⟨ks', l', hrun, -, hmet, hnew⟩ := hfold (k :: ks) [] l (forall_mem_nil _)
    exact ⟨ks', l', hrun, hmet, fun k' hk' => (hnew k' hk').resolve_left (not_mem_nil)⟩

end KeySet

/-! ## Accounts -/

/-- The accounts have the same name, nonce, code and storage, with the same slots known; the second one is not deleted,
whatever the first one is. -/
structure Account.Preserved (a a' : Account) : Prop where
  address : a'.address = a.address
  name : a'.name = a.name
  nonce : a'.nonce = a.nonce
  code : a'.code = a.code
  concrete : a'.concrete = a.concrete
  storage : a'.storage = { a.storage with written := a'.storage.written, read := a'.storage.read }
  written : a.storage.written.Mirrors a'.storage.written
  read : a.storage.read.Mirrors a'.storage.read
  deleted : a'.deleted = false

lemma Account.copy_preserved (a : Account) : a.copy.Gives a.Preserved := by
  refine .bind (P := fun st => st = { a.storage with written := st.written, read := st.read } ∧
    a.storage.written.Mirrors st.written ∧ a.storage.read.Mirrors st.read) ?_ ?_
  · refine (KeySet.copy_mirrors _).bind fun written hwritten => (KeySet.copy_mirrors _).bind fun read hread => ?_
    exact .pure ⟨rfl, hwritten, hread⟩
  · rintro st ⟨hst, hwritten, hread⟩
    exact .pure ⟨rfl, rfl, rfl, rfl, rfl, hst, hwritten, hread, rfl⟩

/-- A copy of an account: the same but for its keys, and never deleted. -/
def Account.CopyOf (a a' : Account) : Prop :=
  ∃ written read, a' = { a with deleted := false, storage := { a.storage with written := written, read := read } }

lemma Account.Preserved.copyOf {a a' : Account} (h : a.Preserved a') : a.CopyOf a' := by
  obtain ⟨haddress, hname, hnonce, hcode, hconcrete, hstorage, -, -, hdeleted⟩ := h
  refine ⟨a'.storage.written, a'.storage.read, ?_⟩
  rw [← hstorage, ← haddress, ← hname, ← hnonce, ← hcode, ← hconcrete, ← hdeleted]

/-! ## Conditions -/

/-- The expression has the term of another, or the value of that term. -/
def Expr.Like (e e' : Expr) : Prop := e'.term = e.term ∨ e'.term = e.term.simplify

lemma Expr.twin_gives (e : Expr) : e.twin.Gives e.Like := e.raw_gives.bind fun _ ht _ => ⟨_, _, rfl, ht⟩

lemma Constraints.copy_gives (cs : Constraints) : cs.copy.Gives (Forall₂ Expr.Like cs) := by
  refine .mapM fun e _ => e.twin_gives.bind fun e' he => ?_
  exact e'.replace_gives.bind fun _ _ => .pure he

def Expr.Holds (σ : Valuation) (e : Expr) : Prop := e.term.denote σ ≠ 0

lemma Term.denote_of_simplify {t : Term} (h : t.simplify.denote σ ≠ 0) : t.denote σ ≠ 0 := by
  unfold simplify at h
  split at h
  · rename_i v hv
    rw [denote_of_value? hv]
    rintro rfl
    unfold constLike at h
    split at h
    · exact h rfl
    · exact h (Nat.zero_mod _)
  · exact h

lemma Expr.Like.holds (h : e.Like e') (he' : e'.Holds σ) : e.Holds σ := by
  unfold Holds at he' ⊢
  rcases h with h | h
  · rwa [h] at he'
  · rw [h] at he'
    exact Term.denote_of_simplify he'

def Constraints.Entails (cs cs' : Constraints) : Prop := ∀ σ : Valuation, (∀ e ∈ cs, e.Holds σ) → ∀ e ∈ cs', e.Holds σ

namespace Constraints.Entails

variable {cs cs' cs'' : Constraints}

lemma of_subset (h : cs' ⊆ cs) : cs.Entails cs' := fun _ hcs _ he => hcs _ (h he)

lemma of_added (h : cs' <+: cs) : cs.Entails cs' := of_subset h.subset

lemma refl (cs : Constraints) : cs.Entails cs := of_subset (.refl _)

lemma trans (h : cs.Entails cs') (h' : cs'.Entails cs'') : cs.Entails cs'' := fun σ hcs => h' σ (h σ hcs)

lemma of_like (h : Forall₂ Expr.Like cs' cs) : cs.Entails cs' := by
  intro σ hcs e he
  induction h with
  | nil => cases he
  | cons hlike _ ih =>
    obtain ⟨hfirst, hrest⟩ := forall_mem_cons.1 hcs
    rcases mem_cons.1 he with rfl | he
    · exact hlike.holds hfirst
    · exact ih hrest he

end Constraints.Entails

/-! ## Worlds -/

def Note.CopyOf (n n' : Note) : Prop := n' = n ∨ ∃ r r', n = .dependency r ∧ n' = .dependency r'

lemma Engine.newDependency_does (d : Dependency) : (newDependency d).Does s (fun _ => True) := by
  refine ⟨_, _, rfl, ⟨id, .inl, fun {i d'} h => ?_, rfl, rfl, rfl, rfl, rfl, rfl, rfl, rfl⟩, trivial⟩
  have hi := (getElem?_eq_some_iff.1 h).1
  show (s.shared.dependencies.push d)[i]? = some d'
  rw [Array.getElem?_push_lt hi, ← Array.getElem?_eq_getElem hi, h]

lemma Note.copy_does (n : Note) : n.copy.Does s n.CopyOf := by
  cases n with
  | dependency r =>
    refine .bind (P := fun _ => True) ⟨_, s, rfl, .refl s, trivial⟩ fun d s' _ _ => ?_
    exact (Engine.newDependency_does d).bind fun r' _ _ _ => .pure (.inr ⟨r, r', rfl, rfl⟩)
  | _ => exact .pure (.inl rfl)

/-- A copy of a world: the same accounts and balances, under the same conditions. -/
structure World.CopyOf (w w' : World) : Prop where
  accounts : List.Forall₂ (fun p p' => p'.1 = p.1 ∧ p.2.CopyOf p'.2) w.accounts w'.accounts
  constraints : List.Forall₂ Expr.Like w.constraints w'.constraints
  notes : List.Forall₂ Note.CopyOf w.notes w'.notes
  rest : w' = { w with accounts := w'.accounts, constraints := w'.constraints, notes := w'.notes }

section

variable {α β : Type} {R : α → β → Prop} {a : α} {b : β} {o : Option α} {o' : Option β}

lemma exists_of_rel_left (h : Option.Rel R (some a) o') : ∃ b, o' = some b ∧ R a b := by
  cases h with
  | some h => exact ⟨_, rfl, h⟩

lemma exists_of_rel_right (h : Option.Rel R o (some b)) : ∃ a, o = some a ∧ R a b := by
  cases h with
  | some h => exact ⟨_, rfl, h⟩

lemma none_iff_of_rel (h : Option.Rel R o o') : o' = none ↔ o = none := by
  cases h <;> simp

end

lemma Accounts.lookup_rel {R : Account → Account → Prop} {as as' : Accounts}
    (h : Forall₂ (fun p p' => p'.1 = p.1 ∧ R p.2 p'.2) as as') (key : Option Nat) :
    Option.Rel R (as.lookup key) (as'.lookup key) := by
  induction h with
  | nil => exact .none
  | @cons p p' _ _ hp _ ih =>
    obtain ⟨k, a⟩ := p
    obtain ⟨k', a'⟩ := p'
    obtain ⟨hk, ha⟩ := hp
    obtain rfl : k' = k := hk
    rw [lookup_cons, lookup_cons]
    cases key == k' with
    | true => exact .some ha
    | false => exact ih

lemma World.CopyOf.find? (h : w.CopyOf w') (key : Option Nat) :
    Option.Rel Account.CopyOf (w.find? key) (w'.find? key) := Accounts.lookup_rel h.accounts key

lemma World.copy_does (w : World) (deep : Bool) : (w.copy deep).Does s (fun w' => w.CopyOf w' ∧
    (deep = false → w'.constraints = w.constraints) ∧
    ∀ key, Option.Rel Account.Preserved (w.find? key) (w'.find? key)) := by
  refine (Does.mapM fun n _ s' _ => n.copy_does).bind fun notes s1 _ hnotes => ?_
  refine (Does.mapM (S := fun p p' => p'.1 = p.1 ∧ p.2.Preserved p'.2) ?_).bind fun accounts s2 _ hkept => ?_
  · rintro ⟨k, a⟩ _ s' _
    exact .given a.copy_preserved fun a' _ _ ha => .pure ⟨rfl, ha⟩
  have haccounts := hkept.imp fun _ _ h => h.imp_right Account.Preserved.copyOf
  have hfound := Accounts.lookup_rel hkept
  cases deep with
  | false => exact .pure ⟨⟨haccounts, forall₂_same.2 fun _ _ => .inl rfl, hnotes, rfl⟩, fun _ => rfl, hfound⟩
  | true =>
    refine .given (Constraints.copy_gives _) fun cs s3 _ hcs => ?_
    exact .pure ⟨⟨haccounts, hcs, hnotes, rfl⟩, nofun, hfound⟩

/-! ## New accounts -/

lemma Instr.ofCode_empty : ofCode (.hex "") = .ok [] := by
  have hbytes : Hex.decode? "" = some [] := by decide
  have hinstrs : ofBytes [] = [] := by
    rw [ofBytes_eq]
    unfold decode
    rfl
  simp [ofCode, hbytes, hinstrs]

lemma Program.make_empty (known : Selectors) : make known (.hex "") = .ok ({ code := .hex "" }, known) := by
  simp only [make, assign, Instr.ofCode_empty]
  rfl

lemma Engine.newProgram_empty_does : (newProgram (.hex "")).Does s (fun _ => True) := by
  refine .get ?_
  rw [Program.make_empty]
  exact ⟨_, _, rfl, .programs_push s _ (.inr (.inr ⟨_, _, _, Program.make_empty s.code.selectors⟩)), trivial⟩

lemma Storage.make_gives (unconstrained concrete : Bool) (address : Expr) (live : Bool) :
    (make unconstrained concrete (some address) live).Gives (fun _ => True) := by
  unfold make
  split
  · exact .pure trivial
  · exact .bind (address.raw_gives.bind fun _ _ => .pure (P := fun _ => True) trivial) fun _ _ => .pure trivial

lemma World.lookupAt_does (w : World) (key : Option Nat) (address : Expr) :
    (w.lookupAt key address).Does s (fun r =>
      r.2 = w ∨ w.find? key = none ∧ ∃ a, a.deleted = false ∧ r.2 = w.put key a) := by
  unfold lookupAt
  split
  · exact .pure (.inl rfl)
  rename_i hkey
  refine .bind ?_ fun a _ _ ha => .pure (.inr ⟨hkey, a, ha, rfl⟩)
  refine Engine.newProgram_empty_does.bind fun code s2 _ _ => .get ?_
  exact .given (Storage.make_gives _ _ _ _) fun storage s4 _ _ => .pure rfl

/-! ## Machines -/

/-- An item as it is found on a stack: a word. -/
def Item.IsPushed : Item → Prop
  | .expr e => e.isProp = false
  | _ => False

lemma Stack.toWord_isPushed (h : i.IsPushed) : toWord i = pure i := by
  cases i with
  | expr e =>
    have hp : e.isProp = false := h
    simp [toWord, hp]
  | _ => exact h.elim

lemma Stack.pushAll_gives (items : List Item) (st : Stack) (h : ∀ i ∈ items, i.IsPushed)
    (hroom : st.length + items.length ≤ 1024) : (pushAll st items).Gives (· = items.reverse ++ st) := by
  induction items generalizing st with
  | nil => exact .pure rfl
  | cons i items ih =>
    simp only [length_cons] at hroom
    have hlim : ¬ st.length ≥ limit := by
      show ¬ st.length ≥ 1024
      omega
    unfold pushAll
    rw [foldlM_cons, push, toWord_isPushed (h i (by simp)), pure_bind, if_neg hlim]
    refine (ih (i :: st) (fun j hj => h j (by simp [hj])) (by simp only [length_cons]; omega)).mono ?_
    rintro _ rfl
    simp

lemma Stack.copy_gives {st : Stack} (h : ∀ i ∈ st, i.IsPushed) (hroom : st.length ≤ 1024) :
    (copy st).Gives (· = st) := by
  refine (pushAll_gives st.reverse [] (by simpa using h) (by simpa using hroom)).mono ?_
  rintro _ rfl
  simp

structure Machine.Sound (m : Machine) : Prop where
  stack : ∀ i ∈ m.stack, i.IsPushed
  room : m.stack.length ≤ 1024
  returns : ∀ i ∈ m.returns, i.IsPushed
  returnRoom : m.returns.length ≤ 1024

lemma Machine.copy_gives (h : m.Sound) : m.copy.Gives (· = { m with memory := m.memory.copy }) := by
  refine (Stack.copy_gives h.stack h.room).bind ?_
  rintro _ rfl
  refine (Stack.copy_gives h.returns h.returnRoom).bind ?_
  rintro _ rfl
  exact .pure rfl

/-- A copy of a machine: the items of its stacks are pushed anew, which words do not notice. -/
def Machine.CopyOf (m m' : Machine) : Prop :=
  ∃ st rs, m' = { m with stack := st, returns := rs, memory := m.memory.copy } ∧
    (m.Sound → st = m.stack ∧ rs = m.returns)

lemma Machine.CopyOf.of_sound (h : m.CopyOf m') (hm : m.Sound) : m' = { m with memory := m.memory.copy } := by
  obtain ⟨st, rs, rfl, hsound⟩ := h
  obtain ⟨rfl, rfl⟩ := hsound hm
  rfl

lemma Machine.Sound.copy (h : m.Sound) (hm : m.CopyOf m') : m'.Sound ∧ m'.stack = m.stack := by
  rw [hm.of_sound h]
  exact ⟨{ h with }, rfl⟩

lemma Machine.copy_yields (m : Machine) : m.copy.Yields m.CopyOf := by
  by_cases hm : m.Sound
  · refine (copy_gives hm).yields.mono ?_
    rintro _ rfl
    exact ⟨m.stack, m.returns, rfl, fun _ => ⟨rfl, rfl⟩⟩
  · refine .bind .any fun st _ => .bind .any fun rs _ => .pure ?_
    exact ⟨st, rs, rfl, fun h => absurd h hm⟩

/-! ## States -/

/-- A copy of a world, with a new account if there is none at a place. -/
def World.CopyFor (active : Option Nat) (w w' : World) : Prop :=
  ∃ w₁, w.CopyOf w₁ ∧ (w' = w₁ ∨ w.find? active = none ∧ ∃ key a, w₁.find? key = none ∧ w' = w₁.put key a)

lemma World.CopyFor.entails {active : Option Nat} (h : w.CopyFor active w') : w'.constraints.Entails w.constraints := by
  obtain ⟨w1, hcopy, rfl | ⟨-, key, a, -, rfl⟩⟩ := h
  · exact .of_like hcopy.constraints
  · show w1.constraints.Entails w.constraints
    exact .of_like hcopy.constraints

/-- A copy of a state, which has its active account. -/
structure GState.CopyOf (g g' : GState) : Prop where
  world : g.world.CopyFor g.env.active g'.world
  machine : g.machine.CopyOf g'.machine
  notes : List.Forall₂ Note.CopyOf g.notes g'.notes
  rest : g' = { g with id := g'.id, world := g'.world, machine := g'.machine, notes := g'.notes }

lemma GState.CopyOf.constraints_true (h : g.CopyOf g') (hg : ∀ e ∈ g.world.constraints, e.Says σ true) :
    ∀ e ∈ g'.world.constraints, e.Says σ true := by
  obtain ⟨w, hw, hworld⟩ := h.world
  have hcs : g'.world.constraints = w.constraints := by
    rcases hworld with rfl | ⟨-, key, a, -, h⟩
    · rfl
    · rw [h]
      rfl
  have hlike := hw.constraints
  rw [hcs]
  generalize g.world.constraints = cs at hg hlike
  generalize w.constraints = cs' at hlike
  induction hlike with
  | nil => exact nofun
  | cons he _ ih =>
    rw [forall_mem_cons] at hg ⊢
    refine ⟨?_, ih hg.2⟩
    rcases he with h | h
    · exact .of_term h hg.1
    · exact .of_term h hg.1.simplify

/-- What is left to do once the world and the machine have been copied: the active account is looked up, and made if it
is not there. -/
lemma GState.copied_does (hw : g.world.CopyOf w) (hm : g.machine.CopyOf m) : Does (do
      let (_, world) ← w.lookupAt g.env.active g.env.address
      let notes ← g.notes.mapM Note.copy
      let id ← Engine.freshState
      return { g with id := id, world := world, machine := m, notes := notes }) s
    (fun g' => g.CopyOf g' ∧ g'.world.constraints = w.constraints ∧
      (g.world.find? g.env.active ≠ none → g'.world = w)) := by
  refine (w.lookupAt_does g.env.active g.env.address).bind ?_
  rintro ⟨a, world⟩ s1 _ hfound
  have hworld : world = w ∨ g.world.find? g.env.active = none ∧ ∃ key a, w.find? key = none ∧ world = w.put key a :=
    hfound.imp_right fun ⟨hkey, a, _, h⟩ => ⟨(none_iff_of_rel (hw.find? g.env.active)).1 hkey, _, a, hkey, h⟩
  refine (Does.mapM fun n _ s' _ => n.copy_does).bind fun notes s2 _ hnotes => ?_
  refine Engine.freshState_does.bind fun id s3 _ _ => .pure ⟨⟨⟨w, hw, hworld⟩, hm, hnotes, rfl⟩, ?_⟩
  rcases hworld with rfl | ⟨hnone, key, a, -, rfl⟩
  · exact ⟨rfl, fun _ => rfl⟩
  · exact ⟨rfl, fun h => absurd hnone h⟩

/-- All accounts are there, unless the active one was missing, and hold the same. -/
def GState.Retains (g g' : GState) : Prop :=
  g.world.find? g.env.active ≠ none → ∀ key, Option.Rel Account.Preserved (g.world.find? key) (g'.world.find? key)

lemma GState.copy_does (h : g.machine.Sound) (deep : Bool) : (g.copy deep).Does s (fun g' =>
    g.CopyOf g' ∧ (deep = false → g'.world.constraints = g.world.constraints) ∧ g.Retains g') := by
  refine (g.world.copy_does deep).bind ?_
  rintro w s1 _ ⟨hw, hcs, hkept⟩
  refine .given (Machine.copy_gives h) ?_
  rintro _ s2 _ rfl
  refine (copied_does hw ⟨g.machine.stack, g.machine.returns, rfl, fun _ => ⟨rfl, rfl⟩⟩).mono ?_
  rintro g' ⟨hcopy, hcs', hworld⟩
  exact ⟨hcopy, fun hd => hcs'.trans (hcs hd), fun hactive => hworld hactive ▸ hkept⟩

/-- How a copy comes about: the parts are copied one by one, and the active account is made if it is missing. -/
inductive GState.Copied (g : GState) (deep : Bool) (s : Session) : GState → Session → Prop where
  | intro {w w' : World} {m : Machine} {notes : List Note} {s1 s2 s3 s4 : Session}
      (hgoes : ∀ T [Session.Course T], T s s3) (hworld : g.world.copy deep s = .ok w s1)
      (hmachine : (liftM g.machine.copy : Engine Machine) s1 = .ok m s2)
      (hactive : ∃ a, w.lookupAt g.env.active g.env.address s2 = .ok (a, w') s3)
      (hnotes : g.notes.mapM Note.copy s3 = .ok notes s4) :
      Copied g deep s { g with id := s4.nextState, world := w', machine := m, notes := notes }
        { s4 with nextState := s4.nextState + 1 }

lemma GState.copy_run {deep : Bool} {s' : Session} (h : g.copy deep s = .ok g' s') : g.Copied deep s g' s' := by
  obtain ⟨w, s1, hw, h⟩ := of_bind_ok h
  obtain ⟨m, s2, hm, h⟩ := of_bind_ok h
  have hgoes T [hT : Session.Course T] : T s s2 := hT.trans (Engine.Goes.ends.ok hw).1 (Engine.Goes.ends.ok hm).1
  obtain ⟨r, s3, hr, h⟩ := of_bind_ok h
  obtain ⟨notes, s4, hnotes, h⟩ := of_bind_ok h
  cases h
  exact ⟨fun T hT => hT.trans (hgoes T) (Engine.Goes.ends.ok hr).1, hw, hm, ⟨_, hr⟩, hnotes⟩

lemma GState.copy_yields (g : GState) (deep : Bool) (s : Session) : (g.copy deep).Yields s
    (fun g' => g.CopyOf g' ∧ (deep = false → g'.world.constraints = g.world.constraints)) := by
  refine (g.world.copy_does deep).yields.bind ?_
  rintro w s1 _ ⟨hw, hcs, -⟩
  refine .given g.machine.copy_yields fun m s2 _ hm => ?_
  exact (copied_does hw hm).yields.mono fun g' hg' => ⟨hg'.1, fun hd => hg'.2.1.trans (hcs hd)⟩

end EvmAudit
