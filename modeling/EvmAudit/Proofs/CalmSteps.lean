import EvmAudit.Proofs.Footprint

/-!
# Orderly steps

A step that is orderly keeps the number of its state, the node that the state and its world belong to, and marks no
account as deleted; the states that it branches into have numbers of their own that nobody had before.
-/

namespace EvmAudit

variable {w w' : World} {s s' : Session} {T : Session → Session → Prop} {g g' : GState}

variable {α β : Type} {c : Engine α}

-- an instance is as large as the straight-line code it is found for
set_option synthInstance.maxSize 1024

/-! ## What may be altered -/

namespace World

lemma lookupAt_alters (w : World) (key : Option Nat) (address : Expr) (s : Session) :
    (w.lookupAt key address).Yields s fun r => w.Alters r.2 := by
  refine (w.lookupAt_does key address).yields.mono ?_
  rintro r (hr | ⟨-, a, hstands, hr⟩)
  · rw [hr]
    exact .refl w
  · rw [hr]
    exact .fresh hstands

lemma lookup_alters (w : World) (address : Expr) (s : Session) : (w.lookup address).Yields s fun r => w.Alters r.2 :=
  .given .any fun key s1 _ _ => w.lookupAt_alters key address s1

lemma count_alters (w : World) (creator : Option Nat) : w.Alters (w.count creator) := by
  unfold count
  split
  · rename_i c hc
    obtain ⟨k, rfl, hk⟩ := Option.bind_eq_some_iff.1 hc
    exact .put fun hd => ⟨_, hk, hd⟩
  · exact .refl w

/-- What an account is asked for with: nothing in the world is deleted, nor is the new account. -/
def Makes (w : World) (r : World × Except Fault Account) : Prop := w.Alters r.1 ∧ ∀ a, r.2 = .ok a → a.deleted = false

abbrev makeAccount (w : World) (n : NewAccount) (creator : Option Nat) (nonce : Int) :
    Engine (World × Except Fault Account) := do
  match w.addressFor n with
  | .error f => return (w, .error f)
  | .ok address =>
    let (a, w) ← (w.count creator).create n address nonce
    return (w, .ok a)

lemma makeAccount_alters (hw' : w.Alters w') (n : NewAccount) (creator : Option Nat) (nonce : Int) (s : Session) :
    (w'.makeAccount n creator nonce).Yields s w.Makes := by
  unfold makeAccount
  split
  · refine .pure ⟨hw', fun a ha => ?_⟩
    cases ha
  · refine (create_alters _ n _ nonce s).bind fun r s1 _ hr => .pure ⟨?_, ?_⟩
    · exact (hw'.trans (count_alters w' creator)).trans hr.2
    · rintro a ⟨⟩
      exact hr.1

lemma createAccount_alters (w : World) (n : NewAccount) (s : Session) : (w.createAccount n).Yields s w.Makes := by
  simp only [createAccount]
  split
  · refine (create_alters w {} _ 0 s).bind fun r s1 _ hr => ?_
    exact makeAccount_alters hr.2 n _ _ s1
  · exact makeAccount_alters (.refl w) n _ _ s

lemma orFail_yields {r : World × Except Fault α} : (orFail r).Yields s fun p => r = (p.2, .ok p.1) := by
  obtain ⟨w, r⟩ := r
  cases r with
  | ok a => exact .pure rfl
  | error e => exact .throw e

def Stands (w : World) : Prop := ∀ {key : Option Nat} {a : Account}, w.find? key = some a → a.deleted = false

lemma Alters.stands (h : w.Alters w') (hw : w.Stands) : w'.Stands := by
  intro key a ha
  cases hd : a.deleted with
  | false => rfl
  | true =>
    obtain ⟨b, hb, hb'⟩ := h.given ha hd
    rw [hw hb] at hb'
    cases hb'

lemma CopyOf.stands (h : w.CopyOf w') : w'.Stands := h.not_deleted

end World

lemma Tx.creation_alters (w : World) (r : TxRequest) (name : String) (address : Option Nat) (s : Session) :
    (creation w r name address).Yields s fun p => w.Alters p.2 := by
  refine .next fun e _ => .next fun creator s1 => (w.createAccount_alters _ s1).bind fun made s2 _ hmade => ?_
  refine World.orFail_yields.bind fun p s3 _ hp => ?_
  obtain rfl := hp
  have hstands : p.1.deleted = false := hmade.2 p.1 rfl
  refine .next fun key _ => .next fun tx _ => .pure (hmade.1.trans (.fresh ?_))
  split <;> exact hstands

/-! ## Results of orderly computations -/

/-- A way for sessions to go over into others which says nothing about what is orderly. -/
class Session.Passage (T : Session → Session → Prop) : Prop where
  of_rests : ∀ {s s'}, s.Rests s' → T s s'
  trans : ∀ {s s' s''}, T s s' → T s' s'' → T s s''

instance (T : Session → Session → Prop) [hT : Session.Passage T] : Session.Course T := ⟨fun _ => hT.of_rests, hT.trans⟩

instance : Session.Passage Session.Rests := ⟨id, .trans⟩

namespace Engine

variable {c : Engine α} {f : α → Engine β} {P Q : α → Session → Prop} {R : β → Session → Prop}

namespace Ends

lemma of_yields [hT : Session.Course T] [hc : Orderly c] {P : α → Prop} (h : c.Yields s P) : Ends T c s (fun a _ => P a) :=
  ⟨hT.tame h.after (hc.rests s), fun _ _ ha => (h.ok ha).2⟩

variable [hT : Session.Passage T]

lemma of_rests (h : Ends Session.Rests c s P) : Ends T c s P := ⟨hT.of_rests h.1, h.2⟩

lemma of_orderly [hc : Orderly c] : Ends T c s (fun _ _ => True) := of_rests ⟨hc.rests s, fun _ _ _ => trivial⟩

lemma after_rests (hc : Ends Session.Rests c s P) (hf : ∀ a s', s.Rests s' → P a s' → Ends T (f a) s' R) :
    Ends T (c >>= f) s R :=
  have hboth : Ends T c s fun a s' => s.Rests s' ∧ P a s' := ⟨hT.of_rests hc.1, fun _ _ ha => hc.ok ha⟩
  hboth.bind fun a s' _ h => hf a s' h.1 h.2

lemma next [Orderly c] (hf : ∀ a s', s.Rests s' → Ends T (f a) s' R) : Ends T (c >>= f) s R :=
  after_rests of_orderly fun a s' hs _ => hf a s' hs

end Ends

/-- Nothing that tells states apart is touched, and the result and the session, if there is a result, are of this
kind. -/
abbrev Keeps (c : Engine α) (s : Session) (P : α → Session → Prop) : Prop := Ends Session.Rests c s P

end Engine

lemma freshState_keeps (s : Session) : Engine.Keeps Engine.freshState s fun n s' => s.nextState ≤ n ∧ n < s'.nextState := by
  refine ⟨Engine.freshState_goes.goes s, ?_⟩
  rintro _ _ ⟨⟩
  exact ⟨Nat.le_refl _, Nat.lt_succ_self _⟩

namespace GState

/-- The state belongs to the same node, and so does its world, in which no account is deleted. -/
structure Alters (g g' : GState) : Prop where
  node : g'.node = g.node
  world : g.world.Alters g'.world

variable {g'' : GState}

namespace Alters

lemma refl (g : GState) : g.Alters g := ⟨rfl, .refl _⟩

lemma trans (h : g.Alters g') (h' : g'.Alters g'') : g.Alters g'' := ⟨h'.node.trans h.node, h.world.trans h'.world⟩

lemma of_machine (m : Machine) : g.Alters { g with machine := m } := ⟨rfl, .refl _⟩

lemma of_world (h : g.world.Alters w) : g.Alters { g with world := w } := ⟨rfl, h⟩

lemma of_storage {st : Storage} : g.Alters (g.setActive { g.active with storage := st }) := by
  refine ⟨rfl, .put fun hd => ?_⟩
  cases hactive : g.world.find? g.env.active with
  | some b =>
    refine ⟨b, rfl, ?_⟩
    rw [active, hactive] at hd
    exact hd
  | none =>
    rw [active, hactive] at hd
    cases hd

end Alters

/-- The number was given out between two sessions. -/
def NumberedIn (g : GState) (s s' : Session) : Prop := s.nextState ≤ g.id ∧ g.id < s'.nextState

lemma copy_keeps (g : GState) (deep : Bool) (s : Session) :
    (g.copy deep).Keeps s fun g' s' => g.Alters g' ∧ g'.world.Stands ∧ g'.NumberedIn s s' := by
  refine ⟨Engine.Goes.goes s, fun g' s' h => ?_⟩
  obtain ⟨hgoes, hw, -, ⟨a, ha⟩, hnotes⟩ := copy_run h
  have hw := ((g.world.copy_does deep).yields.ok hw).2.1
  have hnext := Nat.le_trans (hgoes Session.Rests).next (Engine.Goes.ends (T := Session.Rests).ok hnotes).1.next
  refine and_assoc.1 ⟨?_, hnext, Nat.lt_succ_self _⟩
  have halters := ((World.lookupAt_alters _ _ _ _).ok ha).2
  exact ⟨⟨rfl, .trans (.of_copyOf hw) halters⟩, halters.stands hw.stands⟩

end GState

lemma Tx.start_keeps (tx : Tx) (w : World) (s : Session) :
    (tx.start w).Keeps s fun g s' => w.Alters g.world ∧ g.NumberedIn s s' ∧ g.node = none := by
  refine .next fun active s1 hs1 => .next fun block s2 hs2 => .next fun chain s3 hs3 => .next fun amount s4 hs4 => ?_
  refine .next fun sender s5 hs5 => ?_
  refine (Engine.Ends.of_yields (.calc (w.transfer_yields _ _ _))).bind fun w' s6 hs6 hw' => ?_
  refine (freshState_keeps s6).bind fun n s7 _ hn => .pure ⟨.of_balances hw'.1, ⟨?_, hn.2⟩, rfl⟩
  have hs := hs1.trans (hs2.trans (hs3.trans (hs4.trans (hs5.trans hs6))))
  exact Nat.le_trans hs.next hn.1

/-! ## Steps -/

/-- The states that come after a state have numbers of their own, that nobody had before unless it is that of the state
itself. -/
structure GState.Spawns (g : GState) (s s' : Session) (gs : List GState) : Prop where
  nodup : (gs.map (·.id)).Nodup
  alters : ∀ g' ∈ gs, g.Alters g'
  number : ∀ g' ∈ gs, g'.id = g.id ∨ g'.NumberedIn s s'

/-- The states that a step branches into are new ones. -/
def Effect.Numbered (g : GState) (s s' : Session) : Effect → Prop
  | .branch gs => g.Spawns s s' gs
  | _ => True

/-- The session goes over into another one in a given way, and nothing that tells states apart is touched. -/
def Session.Abides (T : Session → Session → Prop) (s s' : Session) : Prop := T s s' ∧ s.Rests s'

instance (T : Session → Session → Prop) [hT : Session.Course T] : Session.Course (Session.Abides T) :=
  ⟨fun h h' => ⟨hT.tame h h', h'⟩, fun h h' => ⟨hT.trans h.1 h'.1, h.2.trans h'.2⟩⟩

instance Engine.goes_abides {c : Engine α} {T : Session → Session → Prop} [hc : Goes T c] [hc' : Orderly c] :
    Goes (Session.Abides T) c := ⟨fun s => ⟨hc.goes s, hc'.rests s⟩⟩

namespace Step

variable {x : Step α} {f : α → Step β} {P Q : α → GState → Session → Prop} {R : β → GState → Session → Prop}

/-- The session goes over into another one in a given way; the result, the state and the session, if there is a result,
are of this kind. -/
def Ends (T : Session → Session → Prop) (x : Step α) (g : GState) (s : Session) (P : α → GState → Session → Prop) : Prop :=
  Engine.Ends T (x g) s (fun r s' => P r.1 r.2 s')

namespace Ends

lemma mono (hx : Ends T x g s P) (h : ∀ a g' s', T s s' → P a g' s' → Q a g' s') : Ends T x g s Q :=
  Engine.Ends.mono hx fun r => h r.1 r.2

lemma rests (h : Ends (Session.Abides T) x g s P) : Ends Session.Rests x g s P := ⟨h.1.2, h.2⟩

lemma get {f : GState → Step β} (hf : Ends T (f g) g s R) : Ends T (MonadState.get >>= f) g s R := hf

lemma set {f : PUnit → Step β} (hf : Ends T (f ⟨⟩) g' s R) : Ends T (MonadStateOf.set g' >>= f) g s R := hf

lemma modify {h : GState → GState} {f : PUnit → Step β} (hf : Ends T (f ⟨⟩) (h g) s R) :
    Ends T (modify h >>= f) g s R := hf

lemma world {f : World → Step β} (hf : Ends T (f g.world) g s R) : Ends T (world >>= f) g s R := hf

lemma env {f : Environment → Step β} (hf : Ends T (f g.env) g s R) : Ends T (env >>= f) g s R := hf

lemma machine {f : Machine → Step β} (hf : Ends T (f g.machine) g s R) : Ends T (machine >>= f) g s R := hf

variable [Session.Course T]

lemma pure {a : α} (h : P a g s) : Ends T (Pure.pure a) g s P := Engine.Ends.pure h

lemma throw (e : Fault) : Ends T (throw e) g s P := Engine.Ends.throw e

lemma bind (hx : Ends T x g s P) (hf : ∀ a g' s', T s s' → P a g' s' → Ends T (f a) g' s' R) : Ends T (x >>= f) g s R :=
  Engine.Ends.bind hx fun r s' hs hr => hf r.1 r.2 s' hs hr

lemma engine {P : α → Session → Prop} (h : c.Ends T s P) : Ends T (liftM c) g s (fun a g' s' => g' = g ∧ P a s') :=
  h.bind fun _ _ _ ha => .pure ⟨rfl, ha⟩

lemma after {P : α → Session → Prop} (h : c.Ends T s P) (hf : ∀ a s', T s s' → P a s' → Ends T (f a) g s' R) :
    Ends T (liftM c >>= f) g s R := by
  refine (engine h).bind ?_
  rintro a g s' hs ⟨rfl, ha⟩
  exact hf a s' hs ha

end Ends
end Step

/-!
# Calm steps

A calm step lets the session grow and stays in its frame, within its footprint: the state keeps its surroundings, the
states that it branches into are states of the same frame, and a frame that it starts is that of a message, and static if
its own is. It is orderly too, which is all that can be said of a step that makes an account or ends a frame with data.
-/

variable {p : Footprint} {g0 : GState} {s0 : Session} {h : GState → GState}

/-- The frame goes on in states of its own, or waits for a message. -/
def Effect.Within (p : Footprint) (g : GState) : Effect → Prop
  | .next => True
  | .branch gs => p.jumps = true ∧ gs.length ≤ 2 ∧ ∀ g' ∈ gs, g.Within p g'
  | .call tx => p.calls = true ∧ tx.kind = .message ∧ (g.env.isStatic = true → tx.isStatic = true)
  | .halt _ _ => False

/-- Who pays what the frame of a call is given. -/
def CallKind.payer : CallKind → GState → Item
  | .call, g => .expr g.active.address
  | .delegatecall, g => g.env.sender
  | .callcode, g | .staticcall, g => .expr g.env.address

def CallKind.payee : CallKind → GState → Account → Account
  | .call, _, a | .staticcall, _, a => a
  | .callcode, g, _ | .delegatecall, g, _ => g.active

def CallKind.price : CallKind → GState → CallOperands → Item
  | .delegatecall, g, _ => g.env.callValue
  | .call, _, o | .callcode, _, o | .staticcall, _, o => o.value

structure Tx.Sent (k : CallKind) (g : GState) (o : CallOperands) (a : Account) (tx : Tx) : Prop where
  kind : tx.kind = .message
  callee : tx.callee = k.payee g a
  caller : tx.caller = k.payer g
  value : k.price g o ≠ .absent → tx.value = k.price g o
  isStatic : tx.isStatic = (k == .staticcall || g.env.isStatic)

/-- The state keeps its number and what it belongs to, and stays within the footprint. -/
structure GState.Abides (p : Footprint) (g g' : GState) : Prop where
  id : g'.id = g.id
  alters : g.Alters g'
  within : g.Within p g'

namespace GState.Abides

variable {g'' : GState}

lemma of_machine {m : Machine} (h : g.machine.Within p m) : g.Abides p { g with machine := m } :=
  ⟨rfl, .of_machine m, .of_machine h⟩

lemma of_world {w : World} (h : g.world.Within p w) (hw : g.world.Alters w) : g.Abides p { g with world := w } :=
  ⟨rfl, .of_world hw, .of_world h⟩

lemma refl (g : GState) : g.Abides p g := ⟨rfl, .refl g, .refl g⟩

lemma trans (h : g.Abides p g') (h' : g'.Abides p g'') : g.Abides p g'' :=
  ⟨h'.id.trans h.id, h.alters.trans h'.alters, h.within.trans h'.within⟩

end GState.Abides

namespace Step

variable {x : Step α} {f : α → Step β} {P Q : α → GState → Prop} {R : β → GState → Prop}

/-- The session grows, and the result and the state, if there are any, are of this kind. -/
def Yields (x : Step α) (g : GState) (s : Session) (P : α → GState → Prop) : Prop :=
  Engine.Yields (x g) s (fun r => P r.1 r.2)

lemma Yields.pure {a : α} (h : P a g) : Yields (Pure.pure a) g s P := Engine.Yields.pure h

lemma Yields.throw (e : Fault) : Yields (throw e) g s P := Engine.Yields.throw e

lemma Yields.bind (hx : Yields x g s P) (hf : ∀ a g' s', s.Grows s' → P a g' → Yields (f a) g' s' R) :
    Yields (x >>= f) g s R :=
  Engine.Yields.bind hx fun r s' hs hr => hf r.1 r.2 s' hs hr

lemma Yields.mono (hx : Yields x g s P) (h : ∀ a g', P a g' → Q a g') : Yields x g s Q :=
  Engine.Yields.mono hx fun r => h r.1 r.2

lemma Yields.engine {P : α → Prop} (h : c.Yields s P) : Yields (liftM c) g s (fun a g' => g' = g ∧ P a) :=
  h.bind fun _ _ _ ha => .pure ⟨rfl, ha⟩

lemma Yields.calc {c : Calc α} {P : α → Prop} (h : c.Yields P) :
    Yields (liftM c) g s (fun a g' => g' = g ∧ P a) := .engine (.calc h)

lemma Yields.upon {P : α → Prop} (h : c.Yields s P) (hf : ∀ a s', s.Grows s' → P a → Yields (f a) g s' R) :
    Yields (liftM c >>= f) g s R := by
  refine (engine h).bind ?_
  rintro a g s' hs ⟨rfl, ha⟩
  exact hf a s' hs ha

lemma Yields.given {c : Calc α} {P : α → Prop} (h : c.Yields P) (hf : ∀ a s', s.Grows s' → P a → Yields (f a) g s' R) :
    Yields (liftM c >>= f) g s R := .upon (.calc h) hf

lemma Yields.get {f : GState → Step β} (hf : Yields (f g) g s R) : Yields (MonadState.get >>= f) g s R := hf

lemma Yields.modify {f : PUnit → Step β} (hf : Yields (f ⟨⟩) (h g) s R) : Yields (modify h >>= f) g s R := hf

lemma Yields.world {f : World → Step β} (hf : Yields (f g.world) g s R) : Yields (world >>= f) g s R := hf

lemma Yields.env {f : Environment → Step β} (hf : Yields (f g.env) g s R) : Yields (env >>= f) g s R := hf

/-- The session grows, and nothing that tells states apart is touched. -/
abbrev Tames (x : Step α) (g : GState) (s : Session) (P : α → GState → Session → Prop) : Prop :=
  x.Ends (Session.Abides Session.Grows) g s P

lemma Ends.yields (h : x.Tames g s fun a g' _ => P a g') : x.Yields g s P := Engine.yields_iff.2 ⟨h.1.1, h.2⟩

/-- What is to be said of the result of a step in a state: nothing, but for effects. -/
class Result (α : Type) where
  within : Footprint → GState → α → Prop
  numbered : GState → Session → Session → α → Prop
  mono : ∀ {p : Footprint} {g g' : GState} {a : α}, g.Within p g' → within p g' a → within p g a
  later : ∀ {g g₁ : GState} {s s₁ s' : Session} {a : α}, g₁.id = g.id → g.Alters g₁ → s.Rests s₁ →
    numbered g₁ s₁ s' a → numbered g s s' a

instance : Result α := ⟨fun _ _ _ => True, fun _ _ _ _ => True, fun _ _ => trivial, fun _ _ _ _ => trivial⟩

instance effect : Result Effect where
  within := Effect.Within
  numbered := Effect.Numbered
  mono {p g g' e} h hwithin := by
    cases e with
    | branch gs => exact ⟨hwithin.1, hwithin.2.1, fun g'' hg'' => h.trans (hwithin.2.2 g'' hg'')⟩
    | call tx => exact ⟨hwithin.1, hwithin.2.1, fun hg => hwithin.2.2 (h.env ▸ hg)⟩
    | next => trivial
    | halt _ _ => exact hwithin
  later {g g1 s s1 s' e} hid hg hs h := by
    cases e with
    | branch gs =>
      refine ⟨h.nodup, fun g' hg' => hg.trans (h.alters g' hg'), fun g' hg' => ?_⟩
      exact (h.number g' hg').imp (·.trans hid) fun hn => ⟨Nat.le_trans hs.next hn.1, hn.2⟩
    | _ => trivial

/-- The result is right in every state. -/
class Free [Result α] (a : α) : Prop where
  within : ∀ p g, Result.within p g a

instance (a : α) : Free a := ⟨fun _ _ => trivial⟩

instance : Free Effect.next := ⟨fun _ _ => trivial⟩

/-- The result has no states with numbers. -/
class Plain [Result α] (a : α) : Prop where
  numbered : ∀ g s s', Result.numbered g s s' a

instance (a : α) : Plain a := ⟨fun _ _ _ => trivial⟩

instance : Plain Effect.next := ⟨fun _ _ _ => trivial⟩

instance (tx : Tx) : Plain (Effect.call tx) := ⟨fun _ _ _ => trivial⟩

instance (data : Option ReturnData) (reverted : Bool) : Plain (Effect.halt data reverted) := ⟨fun _ _ _ => trivial⟩

/-- The state abides within the footprint, and the result is right for what the step began with. -/
abbrev Right [Result α] (p : Footprint) (g : GState) (s : Session) (a : α) (g' : GState) (s' : Session) : Prop :=
  g.Abides p g' ∧ Result.within p g a ∧ Result.numbered g s s' a

lemma Ends.within [Result α] (h : x.Tames g s (Right p g s)) :
    x.Yields g s (fun a g' => g.Within p g' ∧ Result.within p g a) :=
  yields (h.mono fun _ _ _ _ h => ⟨h.1.within, h.2.1⟩)

/-- The session only grows, and the state stays in its frame, within the footprint. -/
class Calm [Result α] (p : Footprint) (x : Step α) : Prop where
  ends : ∀ g s, (p.loads = false → s.loader.isNone = true) → x.Tames g s (Right p g s)

namespace Calm

section

variable [Result α] [Result β]

lemma keeps (hx : Calm p x) (g : GState) (s : Session) (hp : p.loads = false → s.loader.isNone = true) :
    x.Yields g s (fun a g' => g.Within p g' ∧ Result.within p g a) := (hx.ends g s hp).within

lemma stays (hx : Calm .all x) (g : GState) (s : Session) :
    x.Yields g s (fun a g' => g.Stays g' ∧ Result.within .all g a) :=
  (hx.keeps g s nofun).mono fun _ _ h => ⟨h.1.stays, h.2⟩

instance pure (a : α) [ha : Free a] [ha' : Plain a] : Calm p (Pure.pure a) :=
  ⟨fun g s _ => .pure ⟨.refl g, ha.within p g, ha'.numbered g s s⟩⟩

instance throw (e : Fault) : Calm p (throw e : Step α) := ⟨fun _ _ _ => .throw e⟩

/-- It does not matter what was done before, as long as the state abided. -/
lemma ends_from (hg : g0.Abides p g) (hs : s0.Abides Session.Grows s) (hp : p.loads = false → s0.loader.isNone = true)
    (hx : Calm p x) : x.Tames g s (Right p g0 s0) := by
  refine (hx.ends g s fun hl => hs.1.loader.trans (hp hl)).mono fun a g' _ _ ⟨hg', ha, hn⟩ => ?_
  exact ⟨hg.trans hg', Result.mono hg.within ha, Result.later hg.id hg.alters hs.2 hn⟩

instance bind [hx : Calm p x] [hf : ∀ a, Calm p (f a)] : Calm p (x >>= f) :=
  ⟨fun g s hp => (hx.ends g s hp).bind fun a _ _ hs h => (hf a).ends_from h.1 hs hp⟩

instance throw_bind (e : Fault) (f : α → Step β) : Calm p ((MonadExcept.throw e : Step α) >>= f) :=
  ⟨fun _ _ _ => .throw e⟩

lemma next [Calm p x] (hf : ∀ a, Calm p (f a)) : Calm p (x >>= f) := inferInstance

instance ite {c : Prop} [Decidable c] {y : Step α} [hx : Calm p x] [hy : Calm p y] : Calm p (if c then x else y) := by
  split
  · exact hx
  · exact hy

end

lemma modify (hh : ∀ g : GState, g.Abides p (h g)) : Calm p (modify h) := ⟨fun g _ _ => .pure ⟨hh g, trivial, trivial⟩⟩

instance foldlM {h : β → α → Step β} {xs : List α} [hh : ∀ b a, Calm p (h b a)] {b : β} : Calm p (xs.foldlM h b) := by
  induction xs generalizing b with
  | nil => exact pure _
  | cons a xs ih =>
    rw [List.foldlM_cons]
    infer_instance

end Calm

/-! ## Orderly steps -/

/-- The state keeps its number and what it belongs to, and the states that it branches into have numbers of their
own. -/
class Orderly [Result α] (T : Session → Session → Prop) (x : Step α) : Prop where
  ends : ∀ g s, x.Ends (Session.Abides T) g s fun a g' s' => g'.id = g.id ∧ g.Alters g' ∧ Result.numbered g s s' a

namespace Orderly

variable [hT : Session.Course T]

instance engine {c : Engine α} [Engine.Goes (Session.Abides T) c] : Orderly T (liftM c) :=
  ⟨fun _ _ => (Ends.engine Engine.Goes.ends).mono fun _ g' _ _ h => ⟨h.1 ▸ rfl, h.1 ▸ .refl g', trivial⟩⟩

variable [Result α] [Result β]

instance of_calm [hx : Calm .all x] : Orderly T x where
  ends g s :=
    have h := hx.ends g s nofun
    ⟨⟨hT.tame h.1.1 h.1.2, h.1.2⟩, fun r s' hr => ⟨(h.2 r s' hr).1.id, (h.2 r s' hr).1.alters, (h.2 r s' hr).2.2⟩⟩

instance pure (a : α) [ha : Plain a] : Orderly T (Pure.pure a) := ⟨fun g s => .pure ⟨rfl, .refl g, ha.numbered g s s⟩⟩

omit hT in
lemma ends_from (hid : g.id = g0.id) (hg : g0.Alters g) (hs : s0.Rests s) (hx : Orderly T x) :
    x.Ends (Session.Abides T) g s fun a g' s' => g'.id = g0.id ∧ g0.Alters g' ∧ Result.numbered g0 s0 s' a :=
  (hx.ends g s).mono fun _ _ _ _ ⟨hid', hg', ha⟩ => ⟨hid'.trans hid, hg.trans hg', Result.later hid hg hs ha⟩

instance bind [hx : Orderly T x] [hf : ∀ a, Orderly T (f a)] : Orderly T (x >>= f) :=
  ⟨fun g s => (hx.ends g s).bind fun a _ _ hs h => (hf a).ends_from h.1 h.2.1 hs.2⟩

lemma next [Orderly T x] (hf : ∀ a, Orderly T (f a)) : Orderly T (x >>= f) := inferInstance

instance ite {c : Prop} [Decidable c] {y : Step α} [hx : Orderly T x] [hy : Orderly T y] :
    Orderly T (if c then x else y) := by
  split
  · exact hx
  · exact hy

end Orderly

/-! ## Steps that leave the state alone -/

class Still (x : Step α) : Prop where
  ends : ∀ g s, x.Tames g s (fun _ g' _ => g' = g)

namespace Still

lemma keeps (hx : Still x) (g : GState) (s : Session) : x.Yields g s (fun _ g' => g' = g) := (hx.ends g s).yields

instance pure (a : α) : Still (Pure.pure a) := ⟨fun _ _ => .pure rfl⟩

instance throw (e : Fault) : Still (throw e : Step α) := ⟨fun _ _ => .throw e⟩

instance bind [hx : Still x] [hf : ∀ a, Still (f a)] : Still (x >>= f) :=
  ⟨fun g s => (hx.ends g s).bind fun a g' s' _ hg => ((hf a).ends g' s').mono fun _ _ _ _ hg' => hg'.trans hg⟩

lemma next [Still x] (hf : ∀ a, Still (f a)) : Still (x >>= f) := inferInstance

instance engine {c : Engine α} [Engine.Goes (Session.Abides Session.Grows) c] : Still (liftM c) :=
  ⟨fun _ _ => (Ends.engine Engine.Goes.ends).mono fun _ _ _ _ h => h.1⟩

instance lift (c : Calc α) : Still (liftM c) := engine (c := liftM c)

instance get : Still MonadState.get := ⟨fun _ _ => Engine.Ends.pure rfl⟩

instance mapM {h : α → Step β} {xs : List α} [hh : ∀ a, Still (h a)] : Still (xs.mapM h) := by
  induction xs with
  | nil => exact pure _
  | cons a xs ih =>
    rw [List.mapM_cons]
    infer_instance

instance calm [hx : Still x] : Calm p x :=
  ⟨fun g s _ => (hx.ends g s).mono fun _ _ _ _ h => ⟨h.symm ▸ .refl g, trivial, trivial⟩⟩

end Still

/-! ## Parts of instructions -/

lemma onMachine_ends {h : Machine → Calc (α × Machine)} {P : α × Machine → Prop} (hh : (h g.machine).Yields P) :
    (onMachine h).Tames g s (fun a g' _ => ∃ m, P (a, m) ∧ g' = { g with machine := m }) :=
  .get (.after (.lift hh) fun r _ _ hr => .set (.pure ⟨r.2, hr, rfl⟩))

lemma onMachine_yields {h : Machine → Calc (α × Machine)} {P : α × Machine → Prop} (hh : (h g.machine).Yields P) :
    (onMachine h).Yields g s (fun a g' => ∃ m, P (a, m) ∧ g' = { g with machine := m }) := (onMachine_ends hh).yields

lemma onMachine_calm {h : Machine → Calc (α × Machine)} (hh : ∀ m, (h m).Yields fun r => m.Within p r.2) :
    Calm p (onMachine h) := by
  refine ⟨fun g s _ => (onMachine_ends (hh g.machine)).mono ?_⟩
  rintro a _ s' _ ⟨m, hm, rfl⟩
  exact ⟨.of_machine hm, trivial, trivial⟩

instance : Calm p pop := onMachine_calm fun m => m.pop_within.mono fun _ h => h.1

lemma pop_ends : pop.Tames g s fun i g' _ =>
    g.Abides p g' ∧ (g.machine.Nonneg → i.Nonneg ∧ g'.machine.Nonneg) := by
  refine (onMachine_ends (g.machine.pop_within (p := p))).mono ?_
  rintro i _ _ _ ⟨m, ⟨hm, hnonneg⟩, rfl⟩
  exact ⟨.of_machine hm, hnonneg⟩

instance : Calm p popWord := onMachine_calm (·.popWord_within)

instance (n : Nat) : Calm p (take n) := onMachine_calm fun m => m.take_within n

instance (i : Item) : Calm p (push i) := onMachine_calm fun m => (m.push_within i).bind fun _ h => .pure h

instance (condition : Expr) : Calm p (constrain condition) := by
  refine ⟨fun g s _ => .get (.after (.lift (g.constrain_yields condition)) ?_)⟩
  rintro _ s' _ rfl
  exact .pure ⟨.of_world (.constrained (List.prefix_append _ _)) (.of_accounts rfl rfl rfl), trivial, trivial⟩

lemma charge_calm {fee : Int} (h : p.books = false → 0 ≤ fee) : Calm p (charge fee fee) :=
  .modify fun _ => .of_machine (.useGas h)

instance (start length : Item) : Calm p (extend start length) :=
  onMachine_calm fun m => (m.extend_within start length).bind fun _ h => .pure h

instance (i content : Item) : Calm p (setByte i content) := onMachine_calm fun _ => .next fun _ => .pure .of_operands

instance (address : Int) : Calm p (account address) := by
  refine ⟨fun g s hp => .world ?_⟩
  refine .after (.of_yields (g.world.findOrLoad_yields address s)) ?_
  rintro ⟨w, r⟩ s' _ hfinds
  have hw : g.world.Within p w := by
    have hloads : g.world.Loads w := hfinds.gains.loads
    have hconstraints : w.constraints = g.world.constraints := by rw [hloads]
    have hcs : g.world.constraints <+: w.constraints := hconstraints ▸ List.prefix_refl _
    refine ⟨hfinds.gains.keeps, fun hl _ => ?_, fun _ => hfinds.gains.settled, fun _ => hcs, .of_added hcs⟩
    rw [hp hl] at hfinds
    obtain rfl := hfinds.offline
    exact .refl _
  exact .modify (.pure ⟨.of_world hw hfinds.gains.alters, trivial, trivial⟩)

end Step
end EvmAudit
