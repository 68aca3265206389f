import EvmAudit.Proofs.Calc
import EvmAudit.Step.Basic

/-!
# What computations on sessions and states do

A session only grows while instructions are performed in message frames: programs, records and suspended callers stay
where they are and as they are. `c.Does s P` holds when `c` succeeds in the session `s`, lets it grow and has a result
in `P`; a step in addition changes the state it works on.
-/

namespace EvmAudit

variable {s s' : Session} {e : Fault} {l : Ledger} {g' : GState}

/-- The program is that of no code, or was read from a code in text form. -/
def Program.IsRead (p : Program) : Prop := p = default ∨ ∃ known text known', make known (.hex text) = .ok (p, known')

/-- What was there in a session is there still, and programs that were not there were read from text. -/
structure Session.Grows (s s' : Session) : Prop where
  programs : ∀ {i : Nat} {p : Program}, s.code.programs[i]? = some p → s'.code.programs[i]? = some p
  added : ∀ {p : Program}, p ∈ s'.code.programs → p ∈ s.code.programs ∨ p.IsRead
  dependencies : ∀ {i : Nat} {d : Dependency}, s.shared.dependencies[i]? = some d → s'.shared.dependencies[i]? = some d
  suspended : s'.shared.suspended = s.shared.suspended
  loader : s'.loader.isNone = s.loader.isNone
  options : s'.options = s.options
  openWorlds : s'.openWorlds = s.openWorlds
  work : s'.work = s.work
  writes : s'.shared.writes = s.shared.writes
  suspicions : s'.shared.suspicions = s.shared.suspicions
  pruner : s'.pruner = s.pruner

namespace Session.Grows

variable {s'' : Session}

lemma refl (s : Session) : s.Grows s := ⟨id, .inl, id, rfl, rfl, rfl, rfl, rfl, rfl, rfl, rfl⟩

lemma trans (h : s.Grows s') (h' : s'.Grows s'') : s.Grows s'' :=
  ⟨h'.programs ∘ h.programs, fun hp => (h'.added hp).elim h.added .inr, h'.dependencies ∘ h.dependencies,
    h'.suspended.trans h.suspended, h'.loader.trans h.loader, h'.options.trans h.options,
    h'.openWorlds.trans h.openWorlds, h'.work.trans h.work, h'.writes.trans h.writes, h'.suspicions.trans h.suspicions,
    h'.pruner.trans h.pruner⟩

lemma ledger (s : Session) (l : Ledger) : s.Grows { s with ledger := l } := ⟨id, .inl, id, rfl, rfl, rfl, rfl, rfl, rfl, rfl, rfl⟩

end Session.Grows

variable {α β : Type} {a : α} {b : β} {c : Engine α}

/-! ## Engine -/

namespace Engine

variable {c : Engine α} {f : α → Engine β} {P Q : α → Prop} {R : β → Prop}

section

variable {σ : Type} {c : EStateM Fault σ α} {f : α → EStateM Fault σ β} {s s' : σ}

lemma get_run (s : Session) : (get : Engine Session) s = .ok s s := rfl

lemma bind_ok (h : c s = .ok a s') : (c >>= f) s = f a s' := by
  show EStateM.bind c f s = _
  simp [EStateM.bind, h]

lemma bind_error (h : c s = .error e s') : (c >>= f) s = .error e s' := by
  show EStateM.bind c f s = _
  simp [EStateM.bind, h]

end

lemma attempt_ok (h : c s = .ok a s') : attempt c s = .ok (.ok a) s' := by rw [attempt, h]

lemma attempt_error (h : c s = .error e s') : attempt c s = .ok (.error e) s' := by
  rw [attempt, h]

/-- Does the computation succeed, with a result that passes a test? -/
def passes (c : Engine α) (s : Session) (test : α → Session → Bool) : Bool :=
  match c s with
  | .ok a s' => test a s'
  | .error _ _ => false

/-! What a computation leads to is decided by running it. -/

instance {T : α → Session → Prop} [∀ a s', Decidable (T a s')] : Decidable (∃ a s', c s = .ok a s' ∧ T a s') :=
  match c s with
  | .ok a s' => decidable_of_iff (T a s') (by simp)
  | .error _ _ => isFalse (by simp)

instance {T : Fault → Session → Prop} [∀ e s', Decidable (T e s')] : Decidable (∃ e s', c s = .error e s' ∧ T e s') :=
  match c s with
  | .ok _ _ => isFalse (by simp)
  | .error e s' => decidable_of_iff (T e s') (by simp)

lemma of_bind_ok (h : (c >>= f) s = .ok b s') : ∃ a s1, c s = .ok a s1 ∧ f a s1 = .ok b s' := by
  replace h : EStateM.bind c f s = .ok b s' := h
  unfold EStateM.bind at h
  cases hc : c s with
  | ok a s1 =>
    rw [hc] at h
    exact ⟨a, s1, rfl, h⟩
  | error e s1 =>
    rw [hc] at h
    cases h

/-- Computations that agree where they are run, and go on alike from there. -/
lemma bind_congr_run {c' : Engine α} {f' : α → Engine β} (hc : c' s = c s)
    (hf : ∀ a s1, c s = .ok a s1 → f' a s1 = f a s1) : (c' >>= f') s = (c >>= f) s := by
  cases hrun : c s with
  | error e s1 => rw [bind_error hrun, bind_error (hc.trans hrun)]
  | ok a s1 =>
    rw [bind_ok hrun, bind_ok (hc.trans hrun)]
    exact hf a s1 hrun

/-- The computation succeeds in the session, which grows, with a result of this kind. -/
def Does (c : Engine α) (s : Session) (P : α → Prop) : Prop := ∃ a s', c s = .ok a s' ∧ s.Grows s' ∧ P a

lemma Does.pure (h : P a) : Does (Pure.pure a) s P := ⟨a, s, rfl, .refl s, h⟩

lemma Does.bind (hc : Does c s P) (hf : ∀ a s', s.Grows s' → P a → Does (f a) s' R) : Does (c >>= f) s R := by
  obtain ⟨a, s', ha, hg, hp⟩ := hc
  obtain ⟨b, s'', hb, hg', hr⟩ := hf a s' hg hp
  exact ⟨b, s'', (bind_ok ha).trans hb, hg.trans hg', hr⟩

lemma Does.mono (hc : Does c s P) (h : ∀ a, P a → Q a) : Does c s Q :=
  have ⟨a, s', ha, hg, hp⟩ := hc
  ⟨a, s', ha, hg, h a hp⟩

lemma lift_ok {c : Calc α} (h : c s.ledger = .ok a l) : (liftM c : Engine α) s = .ok a { s with ledger := l } := by
  simp [liftM, monadLift, MonadLift.monadLift, h]

lemma lift_error {c : Calc α} (h : c s.ledger = .error e l) :
    (liftM c : Engine α) s = .error e { s with ledger := l } := by
  simp [liftM, monadLift, MonadLift.monadLift, h]

lemma Does.calc {c : Calc α} (h : c.Gives P) : Does (liftM c) s P := by
  obtain ⟨a, l', ha, hp⟩ := h s.ledger
  exact ⟨a, { s with ledger := l' }, lift_ok ha, .ledger s l', hp⟩

lemma freshState_does : Does freshState s fun _ => True :=
  ⟨_, _, rfl, ⟨id, .inl, id, rfl, rfl, rfl, rfl, rfl, rfl, rfl, rfl⟩, trivial⟩

lemma Does.given {c : Calc α} (h : c.Gives P) (hf : ∀ a s', s.Grows s' → P a → Does (f a) s' R) :
    Does (liftM c >>= f) s R := (Does.calc h).bind hf

lemma Does.get {f : Session → Engine β} (hf : Does (f s) s R) : Does (MonadState.get >>= f) s R := hf

lemma program_does {i : Nat} {p : Program} (h : s.code.programs[i]? = some p) : Does (program i) s (· = p) := by
  refine ⟨_, s, rfl, .refl s, ?_⟩
  rw [Array.getD_eq_getD_getElem?, h, Option.getD_some]

lemma Does.attempt (hc : Does c s P) : Does (attempt c) s (fun r => ∃ a, r = .ok a ∧ P a) := by
  obtain ⟨a, s', ha, hg, hp⟩ := hc
  exact ⟨.ok a, s', attempt_ok ha, hg, a, rfl, hp⟩

lemma Does.mapM {g : α → Engine β} {S : α → β → Prop} {xs : List α}
    (h : ∀ a ∈ xs, ∀ s', s.Grows s' → Does (g a) s' (S a)) : Does (xs.mapM g) s (List.Forall₂ S xs) := by
  induction xs generalizing s with
  | nil => exact .pure .nil
  | cons a xs ih =>
    rw [List.mapM_cons]
    refine (h a (by simp) s (.refl s)).bind fun b s' hs hb => ?_
    refine (ih fun a ha s'' hs' => h a (by simp [ha]) s'' (hs.trans hs')).bind fun bs _ _ hbs => ?_
    exact .pure (.cons hb hbs)

end Engine

/-! ## Steps -/

def GState.withStack (g : GState) (st : Stack) : GState := { g with machine := { g.machine with stack := st } }

@[simp] lemma GState.withStack_stack (g : GState) (st : Stack) : (g.withStack st).machine.stack = st := rfl

@[simp] lemma GState.withStack_withStack (g : GState) (st st' : Stack) :
    (g.withStack st).withStack st' = g.withStack st' := rfl

lemma GState.constrain_gives (g : GState) {e : Expr} (hroom : e.term.overrun .empty = none) : (g.constrain e).Gives
    (· = { g with world := { g.world with constraints := g.world.constraints ++ [e] } }) := by
  refine .bind (P := (· = g.world.constraints ++ [e])) ?_ ?_
  · refine (Expr.simplified_gives hroom).bind ?_
    rintro _ rfl
    exact .pure rfl
  · rintro _ rfl
    exact .pure rfl

namespace Step

variable {x : Step α} {f : α → Step β} {g : GState} {P Q : α → GState → Prop} {R : β → GState → Prop}

lemma bind_ok (h : x g s = .ok (a, g') s') : (x >>= f) g s = f a g' s' := by
  show EStateM.bind (x g) _ s = _
  simp [EStateM.bind, h]

lemma bind_error (h : x g s = .error e s') : (x >>= f) g s = .error e s' := Engine.bind_error h

lemma of_bind_ok (h : (x >>= f) g s = .ok (b, g') s') :
    ∃ a g1 s1, x g s = .ok (a, g1) s1 ∧ f a g1 s1 = .ok (b, g') s' :=
  have ⟨r, s1, hx, hf⟩ := Engine.of_bind_ok h
  ⟨r.1, r.2, s1, hx, hf⟩

lemma lift_ok (h : c s = .ok a s') : (liftM c : Step α) g s = .ok (a, g) s' := Engine.bind_ok h

lemma lift_error (h : c s = .error e s') : (liftM c : Step α) g s = .error e s' := Engine.bind_error h

/-- The step succeeds on the state in the session, which grows, with such a result and such a state. -/
def Does (x : Step α) (g : GState) (s : Session) (P : α → GState → Prop) : Prop :=
  ∃ a g' s', x g s = .ok (a, g') s' ∧ s.Grows s' ∧ P a g'

lemma Does.pure (h : P a g) : Does (Pure.pure a) g s P := ⟨a, g, s, rfl, .refl s, h⟩

lemma Does.bind (hx : Does x g s P) (hf : ∀ a g' s', s.Grows s' → P a g' → Does (f a) g' s' R) :
    Does (x >>= f) g s R := by
  obtain ⟨a, g', s', ha, hg, hp⟩ := hx
  obtain ⟨b, g'', s'', hb, hg', hr⟩ := hf a g' s' hg hp
  exact ⟨b, g'', s'', (bind_ok ha).trans hb, hg.trans hg', hr⟩

lemma Does.mono (hx : Does x g s P) (h : ∀ a g', P a g' → Q a g') : Does x g s Q :=
  have ⟨a, g', s', ha, hg, hp⟩ := hx
  ⟨a, g', s', ha, hg, h a g' hp⟩

lemma Does.engine {P : α → Prop} (h : c.Does s P) : Does (liftM c) g s (fun a g' => g' = g ∧ P a) := by
  obtain ⟨a, s', ha, hg, hp⟩ := h
  exact ⟨a, g, s', lift_ok ha, hg, rfl, hp⟩

lemma Does.calc {c : Calc α} {P : α → Prop} (h : c.Gives P) : Does (liftM c) g s (fun a g' => g' = g ∧ P a) :=
  .engine (.calc h)

lemma Does.after {P : α → Prop} (h : c.Does s P) (hf : ∀ a s', s.Grows s' → P a → Does (f a) g s' R) :
    Does (liftM c >>= f) g s R := by
  refine (engine h).bind ?_
  rintro a _ s' hs ⟨rfl, hp⟩
  exact hf a s' hs hp

lemma Does.given {c : Calc α} {P : α → Prop} (h : c.Gives P) (hf : ∀ a s', s.Grows s' → P a → Does (f a) g s' R) :
    Does (liftM c >>= f) g s R := .after (.calc h) hf

lemma Does.step (hx : x g s = .ok (a, g') s) (hf : Does (f a) g' s R) : Does (x >>= f) g s R := by
  unfold Does
  rwa [bind_ok hx]

lemma Does.get {f : GState → Step β} (hf : Does (f g) g s R) : Does (MonadState.get >>= f) g s R := hf

lemma Does.set {f : PUnit → Step β} (hf : Does (f ⟨⟩) g' s R) : Does (MonadStateOf.set g' >>= f) g s R := hf

lemma Does.modify {h : GState → GState} {f : PUnit → Step β} (hf : Does (f ⟨⟩) (h g) s R) : Does (modify h >>= f) g s R := hf

lemma Does.machine {f : Machine → Step β} (hf : Does (f g.machine) g s R) : Does (machine >>= f) g s R := hf

lemma Does.env {f : Environment → Step β} (hf : Does (f g.env) g s R) : Does (env >>= f) g s R := hf

lemma Does.onMachine {f : Machine → Calc (α × Machine)} {P : α → Machine → Prop}
    (h : (f g.machine).Gives (fun r => P r.1 r.2)) :
    Does (onMachine f) g s (fun a g' => ∃ m, g' = { g with machine := m } ∧ P a m) :=
  .get (.given h fun r _ _ hp => .set (.pure ⟨r.2, rfl, hp⟩))

end Step
end EvmAudit
