import EvmAudit.Proofs.Copy

/-!
# Accounts keep their programs

A world loses no account, and an account goes on with the program that it has: balances and storage change, copies are
made, and accounts that were not there are loaded. What is loaded leaves the balances of all other accounts alone. Two
states of one frame agree in this, and in their frames and surroundings.
-/

namespace EvmAudit

open Evm (Word)

variable {key active : Option Nat} {w w' w'' : World} {account a : Account} {x : Word}

/-! ## Accounts by their keys -/

namespace Sequence

variable {α β : Type} [BEq α] [LawfulBEq α] {key key' : α} {value : β}

lemma lookup_put_self (xs : List (α × β)) : (put key value xs).lookup key = some value := by
  induction xs with
  | nil => simp [put]
  | cons p rest ih =>
    obtain ⟨k, v⟩ := p
    unfold put
    split
    · rename_i hk
      rw [eq_of_beq hk]
      simp
    rename_i hk
    have hne : (key == k) = false := by
      rw [Bool.eq_false_iff]
      intro h
      exact hk (by rw [eq_of_beq h]; simp)
    rw [List.lookup_cons, hne]
    exact ih

lemma lookup_put_ne (h : key' ≠ key) (xs : List (α × β)) : (put key value xs).lookup key' = xs.lookup key' := by
  have hne := beq_eq_false_iff_ne.2 h
  induction xs with
  | nil => simp [put, h]
  | cons p rest ih =>
    obtain ⟨k, v⟩ := p
    unfold put
    split
    · rename_i hk
      obtain rfl : k = key := eq_of_beq hk
      simp [List.lookup_cons, hne]
    · rw [List.lookup_cons, List.lookup_cons, ih]

end Sequence

namespace World

lemma find?_put_self (w : World) (key : Option Nat) (a : Account) : (w.put key a).find? key = some a :=
  Sequence.lookup_put_self _

lemma find?_put_ne {key' : Option Nat} (h : key' ≠ key) (w : World) (a : Account) :
    (w.put key a).find? key' = w.find? key' :=
  Sequence.lookup_put_ne h _

lemma CopyOf.find?_some (h : w.CopyOf w') (hkey : w.find? key = some account) :
    ∃ account', w'.find? key = some account' ∧ account.CopyOf account' :=
  exists_of_rel_left (hkey ▸ h.find? key)

lemma CopyOf.not_deleted (h : w.CopyOf w') (hkey : w'.find? key = some account) : account.deleted = false := by
  obtain ⟨_, -, _, _, rfl⟩ := exists_of_rel_right (hkey ▸ h.find? key)
  rfl

lemma CopyOf.isSome_find? (h : w.CopyOf w') (key : Option Nat) : (w'.find? key).isSome = (w.find? key).isSome := by
  have hrel := h.find? key
  generalize w.find? key = old, w'.find? key = new at hrel
  cases hrel <;> rfl

/-- Every account stays, and this is what becomes of it. -/
structure Tracks (R : Account → Account → Prop) (w w' : World) : Prop where
  found : ∀ {key : Option Nat} {a : Account}, w.find? key = some a → ∃ a', w'.find? key = some a' ∧ R a a'

namespace Tracks

variable {R : Account → Account → Prop}

lemma of_accounts (hR : ∀ a, R a a) (h : w'.accounts = w.accounts) : w.Tracks R w' where
  found {key a} ha := ⟨a, by rw [← ha, find?, find?, h], hR a⟩

lemma trans (hR : ∀ {a a' a''}, R a a' → R a' a'' → R a a'') (h : w.Tracks R w') (h' : w'.Tracks R w'') :
    w.Tracks R w'' where
  found ha := by
    obtain ⟨a', ha', hr⟩ := h.found ha
    obtain ⟨a'', ha'', hr'⟩ := h'.found ha'
    exact ⟨a'', ha'', hR hr hr'⟩

lemma put (h : ∀ {b}, w.find? key = some b → R b a) (hR : ∀ a, R a a) : w.Tracks R (w.put key a) where
  found {key' b} hb := by
    by_cases hkey : key' = key
    · subst hkey
      exact ⟨a, w.find?_put_self _ a, h hb⟩
    · exact ⟨b, by rw [find?_put_ne hkey, hb], hR b⟩

lemma of_copyFor (hR : ∀ {a a'}, a.CopyOf a' → R a a') (h : w.CopyFor active w') : w.Tracks R w' where
  found ha := by
    obtain ⟨w1, hcopy, hw'⟩ := h
    obtain ⟨a', ha', hr⟩ := hcopy.find?_some ha
    refine ⟨a', ?_, hR hr⟩
    obtain rfl | ⟨-, key', b, hnone, rfl⟩ := hw'
    · exact ha'
    · rwa [find?_put_ne]
      rintro rfl
      cases hnone.symm.trans ha'

end Tracks

lemma CopyOf.copyFor (h : w.CopyOf w') (active : Option Nat) : w.CopyFor active w' := ⟨w', h, .inl rfl⟩

abbrev Keeps (w w' : World) : Prop := w.Tracks (fun a a' => a'.code = a.code) w'

namespace Keeps

lemma of_accounts (h : w'.accounts = w.accounts) : w.Keeps w' := Tracks.of_accounts (fun _ => rfl) h

lemma refl (w : World) : w.Keeps w := of_accounts rfl

lemma trans (h : w.Keeps w') (h' : w'.Keeps w'') : w.Keeps w'' := Tracks.trans (fun h h' => h'.trans h) h h'

lemma put (h : ∀ {b}, w.find? key = some b → a.code = b.code) : w.Keeps (w.put key a) := Tracks.put h fun _ => rfl

lemma of_copyFor (h : w.CopyFor active w') : w.Keeps w' := Tracks.of_copyFor (fun ⟨_, _, h⟩ => h ▸ rfl) h

end Keeps

lemma CopyFor.copyOf (h : w.CopyFor active w') (hactive : (w.find? active).isSome) : w.CopyOf w' := by
  obtain ⟨w1, hcopy, rfl | ⟨hnone, -⟩⟩ := h
  · exact hcopy
  · rw [hnone] at hactive
    cases hactive

/-- The world belongs to the same node and the same transactions, and no account is deleted. -/
structure Alters (w w' : World) : Prop where
  node : w'.node = w.node
  txs : w'.txs = w.txs
  given : ∀ {key : Option Nat} {a' : Account}, w'.find? key = some a' → a'.deleted = true →
    ∃ a, w.find? key = some a ∧ a.deleted = true

namespace Alters

lemma of_accounts (haccounts : w'.accounts = w.accounts) (hnode : w'.node = w.node) (htxs : w'.txs = w.txs) :
    w.Alters w' where
  node := hnode
  txs := htxs
  given {key a'} ha' hd := by
    refine ⟨a', ?_, hd⟩
    rw [← ha', find?, find?, haccounts]

lemma refl (w : World) : w.Alters w := .of_accounts rfl rfl rfl

lemma trans (h : w.Alters w') (h' : w'.Alters w'') : w.Alters w'' where
  node := h'.node.trans h.node
  txs := h'.txs.trans h.txs
  given ha hd :=
    have ⟨_, ha', hd'⟩ := h'.given ha hd
    h.given ha' hd'

lemma put (h : a.deleted = true → ∃ b, w.find? key = some b ∧ b.deleted = true) : w.Alters (w.put key a) where
  node := rfl
  txs := rfl
  given {key' a'} ha' hd := by
    by_cases hkey : key' = key
    · subst hkey
      rw [find?_put_self] at ha'
      obtain rfl := Option.some.inj ha'
      exact h hd
    · rw [find?_put_ne hkey] at ha'
      exact ⟨a', ha', hd⟩

lemma fresh (h : a.deleted = false) : w.Alters (w.put key a) := .put fun hd => nomatch h.symm.trans hd

lemma of_balances (h : w' = { w with balances := w'.balances, constraints := w'.constraints }) : w.Alters w' := by
  rw [h]
  exact .of_accounts rfl rfl rfl

lemma of_copyOf (h : w.CopyOf w') : w.Alters w' where
  node := by rw [h.rest]
  txs := by rw [h.rest]
  given ha' hd := by
    rw [h.not_deleted ha'] at hd
    cases hd

end Alters

/-! ## Balances and new accounts -/

lemma setBalance_yields (w : World) (address value : Expr) :
    (w.setBalance address value).Yields fun w' => w' = { w with balances := w'.balances } :=
  .next fun _ => .pure rfl

lemma addBalance_yields (w : World) (address amount : Expr) :
    (w.addBalance address amount).Yields fun w' => w' = { w with balances := w'.balances } :=
  .next fun _ => .next fun _ => w.setBalance_yields _ _

lemma subBalance_yields (w : World) (address amount : Expr) :
    (w.subBalance address amount).Yields fun w' => w' = { w with balances := w'.balances } :=
  .next fun _ => .next fun _ => w.setBalance_yields _ _

lemma transfer_yields (w : World) (sender receiver amount : Expr) :
    (w.transfer sender receiver amount).Yields fun w' =>
      w' = { w with balances := w'.balances, constraints := w'.constraints } ∧ w.constraints <+: w'.constraints := by
  refine .next fun _ => .next fun enough => ?_
  have happend : (w.constraints.append enough).Yields (w.constraints <+: ·) :=
    .next fun _ => .pure (List.prefix_append _ _)
  refine happend.bind fun cs hcs => (addBalance_yields _ receiver amount).bind fun w1 hw1 => ?_
  refine (w1.subBalance_yields sender amount).mono fun w2 hw2 => ?_
  rw [hw2, hw1]
  exact ⟨rfl, hcs⟩

end World

namespace World

def Loads (w w' : World) : Prop := w' = { w with accounts := w'.accounts, balances := w'.balances }

lemma Loads.refl (w : World) : w.Loads w := rfl

def Balanced (w : World) (σ : Valuation) (f : Word → Word) (w' : World) : Prop :=
  ∃ f', w'.balances.Denotes σ f' ∧ ∀ x : Word, (w.find? (some x.toNat)).isSome = true → f' x = f x

/-- Every account that is there has the balance that it had. -/
structure Settled (w w' : World) : Prop where
  denotes : ∀ {σ : Valuation} {f : Word → Word}, w.balances.Denotes σ f → w.Balanced σ f w'

lemma Settled.of_balances (h : w'.balances = w.balances) : w.Settled w' := ⟨fun {_ f} hf => ⟨f, h ▸ hf, fun _ _ => rfl⟩⟩

lemma Balanced.settled {σ : Valuation} {f : Word → Word} (h : w.Balanced σ f w') (hkeeps : w.Keeps w')
    (h' : w'.Settled w'') : w.Balanced σ f w'' := by
  obtain ⟨f', hf', hsame⟩ := h
  obtain ⟨f'', hf'', hsame'⟩ := h'.denotes hf'
  refine ⟨f'', hf'', fun x hx => ?_⟩
  obtain ⟨a, ha⟩ := Option.isSome_iff_exists.1 hx
  obtain ⟨a', ha', -⟩ := hkeeps.found ha
  rw [hsame' x (by rw [ha']; rfl), hsame x hx]

lemma Settled.trans (h : w.Settled w') (hkeeps : w.Keeps w') (h' : w'.Settled w'') : w.Settled w'' :=
  ⟨fun hf => (h.denotes hf).settled hkeeps h'⟩

def Endows (w : World) (x : Word) (w' : World) : Prop :=
  w' = { w with balances := w'.balances } ∧
    ∀ {σ f}, w.balances.Denotes σ f → ∃ y, w'.balances.Denotes σ (Function.update f x y)

lemma setBalance_endows {address value : Expr} {y : Word} (ha : address.Equals x) (hv : value.Equals y) :
    (w.setBalance address value).Yields (w.Endows x) := by
  refine fun l w' l' hr => ⟨?_, fun hf => ⟨y, ((setBalance_gives hf ha hv.denotes).yields l w' l' hr).1⟩⟩
  exact Calc.Yields.bind .any (fun _ _ => .pure (P := fun w' : World => w' = { w with balances := w'.balances }) rfl) l w' l' hr

lemma create_puts (w : World) (n : NewAccount) (address : Nat) (nonce : Int) (s : Session) :
    (w.create n address nonce).Yields s fun r => r.1.address.Equals (BitVec.ofNat 256 address) ∧ r.1.deleted = false ∧
      ∃ w1, w.Endows (.ofNat 256 address) w1 ∧ r.2 = w1.put (some (BitVec.ofNat 256 address).toNat) r.1 := by
  refine .given (Expr.const_equals address 256).yields fun word s1 _ hword => ?_
  refine .bind (P := fun a : Account => a.address = word ∧ a.deleted = false) ?_ ?_
  · exact .next fun _ _ => .next fun _ _ => .next fun _ _ => .next fun _ _ => .pure ⟨rfl, rfl⟩
  rintro a s2 _ ⟨rfl, hstands⟩
  refine .given (Expr.ofInt_equals n.balance 256).yields fun balance s3 _ hbalance => ?_
  cases n.code
  all_goals
    refine .given (setBalance_endows hword hbalance) fun w' s1 _ hw => ?_
    refine .given hword.value?_gives.yields fun key s2 _ hkey => .pure ⟨hword, hstands, w', hw, ?_⟩
    rw [hkey]

lemma create_alters (w : World) (n : NewAccount) (address : Nat) (nonce : Int) (s : Session) :
    (w.create n address nonce).Yields s fun r => r.1.deleted = false ∧ w.Alters r.2 := by
  refine (w.create_puts n address nonce s).mono ?_
  rintro r ⟨-, hstands, w1, ⟨hw1, -⟩, hput⟩
  rw [hput]
  exact ⟨hstands, .trans (.of_balances (by rw [hw1])) (.fresh hstands)⟩

/-- An account has come to a place where none was, with a balance of its own; nothing else has changed. -/
structure Gains (w w' : World) : Prop where
  keeps : w.Keeps w'
  settled : w.Settled w'
  loads : w.Loads w'
  alters : w.Alters w'

lemma Gains.refl (w : World) : w.Gains w := ⟨.refl w, .of_balances rfl, .refl w, .refl w⟩

lemma create_gains {address : Nat} (h : w.find? (some address) = none) (haddress : address < 2 ^ 256) (n : NewAccount)
    (nonce : Int) (s : Session) : (w.create n address nonce).Yields s fun r => w.Gains r.2 := by
  refine ((w.create_puts n address nonce s).and (w.create_alters n address nonce s)).mono ?_
  rintro r ⟨⟨-, -, w1, ⟨hw1, hendows⟩, hput⟩, -, halters⟩
  have htoNat : (BitVec.ofNat 256 address).toNat = address := by rw [BitVec.toNat_ofNat, Nat.mod_eq_of_lt haddress]
  have haccounts : w1.accounts = w.accounts := by rw [hw1]
  rw [htoNat] at hput
  refine ⟨?_, ⟨fun {σ f} hf => ?_⟩, ?_, halters⟩
  · rw [hput]
    refine .trans (.of_accounts haccounts) (.put ?_)
    intro b hb
    rw [find?, haccounts, ← find?, h] at hb
    cases hb
  · obtain ⟨y, hy⟩ := hendows hf
    rw [hput]
    refine ⟨_, hy, fun x hx => Function.update_of_ne ?_ _ _⟩
    -- the new account is at none of the places where an account was
    rintro rfl
    rw [htoNat, h] at hx
    cases hx
  · rw [hput, hw1]
    rfl

/-- What looking at an address gives: the account that is there, or else one that a node knows, and no other account
notices. -/
structure Finds (w : World) (x : Word) (isOffline : Bool) (w' : World) (r : Except Fault Account) : Prop where
  gains : w.Gains w'
  found : ∀ {a : Account}, w.find? (some x.toNat) = some a → w' = w ∧ r = .ok a
  missing : w.find? (some x.toNat) = none → isOffline = true → w' = w ∧ ∀ a, r ≠ .ok a

lemma Finds.offline {r : Except Fault Account} (h : w.Finds x true w' r) : w' = w := by
  cases hx : w.find? (some x.toNat) with
  | some a => exact (h.found hx).1
  | none => exact (h.missing hx rfl).1

lemma findOrLoad_yields (w : World) (n : Int) (s : Session) : (w.findOrLoad (.int n)).Yields s fun r =>
    w.Finds (.ofInt 256 n) s.loader.isNone r.1 r.2 := by
  simp only [findOrLoad]
  refine .given (Expr.ofInt_equals n 256).yields fun word s1 hs1 hword => ?_
  refine .given hword.value?_gives.yields ?_
  rintro _ s2 hs2 rfl
  have hloader := hs2.loader.trans hs1.loader
  split
  · rename_i a ha
    refine .pure ⟨.refl w, fun h => ⟨rfl, ?_⟩, fun h => by cases h.symm.trans ha⟩
    rw [Option.some.inj (h.symm.trans ha)]
  rename_i hnone
  refine .get ?_
  split
  · exact .pure ⟨.refl w, (fun h => by cases h.symm.trans hnone), fun _ _ => ⟨rfl, fun _ h => by cases h⟩⟩
  rename_i hsome
  have honline (r : World × Except Fault Account) (hr : w.Gains r.1) : w.Finds (.ofInt 256 n) s.loader.isNone r.1 r.2 :=
    ⟨hr, (fun h => by cases h.symm.trans hnone), fun _ hoff => absurd (hloader.trans hoff) hsome⟩
  -- whatever the node answers, the account is made at the address that was asked for
  have hmake a (ha : a.address = some (BitVec.ofInt 256 n).toNat) (hcreator : a.creator = none)
      s : (w.createAccount a).Yields s fun r => w.Gains r.1 := by
    have hlt := (BitVec.ofInt 256 n).isLt
    simp only [createAccount, addressFor, ha, hcreator, Nat.mod_eq_of_lt hlt]
    cases w.find? none
    all_goals exact (create_gains hnone hlt _ _ s).bind fun r _ _ hr => .pure hr
  refine (Engine.Yields.attempt (P := fun r => w.Gains r.1) ?_).bind fun r s4 _ hr => ?_
  · refine .next fun found s4 => ?_
    split
    · exact hmake _ rfl rfl s4
    · exact .next fun code s5 => hmake _ rfl rfl s5
  · cases r with
    | ok r => exact .pure (honline r (hr r rfl))
    | error f => exact .pure (honline _ (.refl w))

end World

/-! ## The beginning of a frame -/

structure Tx.Begins (tx : Tx) (w : World) (g : GState) : Prop where
  accounts : g.world.accounts = w.accounts
  constraints : w.constraints <+: g.world.constraints
  isStatic : g.env.isStatic = tx.isStatic
  active : ∀ x : BitVec 256, tx.callee.address.Equals x → g.env.active = some x.toNat
  machine : g.machine = { gasLimit := .int 1000000000 }

lemma Tx.start_yields (tx : Tx) (w : World) (s : Session) : (tx.start w).Yields s (tx.Begins w) := by
  refine .bind (P := fun key => ∀ x : BitVec 256, tx.callee.address.Equals x → key = some x.toNat) ?_ ?_
  · exact .calc fun l key l' hr x hx => hx.value?_gives.yields l key l' hr
  · intro key s1 _ hkey
    refine .next fun number _ => .next fun chain _ => .next fun amount _ => .next fun sender s2 => ?_
    refine .given (w.transfer_yields _ _ _) fun w' s3 _ hw' => ?_
    exact .next fun id _ => .pure ⟨by rw [hw'.1], hw'.2, rfl, hkey, rfl⟩

/-! ## States of one frame -/

/-- A state of the same frame: it has the same frames and surroundings, and its accounts have kept their programs. -/
structure GState.Stays (g g' : GState) : Prop where
  frames : g'.frames = g.frames
  env : g'.env = g.env
  world : g.world.Keeps g'.world

namespace GState.Stays

variable {g g' g'' : GState}

lemma trans (h : g.Stays g') (h' : g'.Stays g'') : g.Stays g'' :=
  ⟨h'.frames.trans h.frames, h'.env.trans h.env, h.world.trans h'.world⟩

lemma of_copyOf (h : g.CopyOf g') : g.Stays g' := by
  refine ⟨?_, ?_, .of_copyFor h.world⟩
  · rw [h.rest]
  · rw [h.rest]

lemma setActive (h : a.code = g.active.code) : g.Stays (g.setActive a) := by
  refine ⟨rfl, rfl, .put ?_⟩
  intro b hb
  rw [h, active, hb, Option.getD_some]

end GState.Stays
end EvmAudit
