import EvmAudit.Proofs.Session

/-!
# Computations that may fail

`c.Ends T s P` holds when the session has gone over from `s` in the way `T` after `c`, be it with a result or with a
fault, and the result, if there is one, is in `P`. A computation goes by `T` when this holds in every session for results
of any kind. This is closed under sequencing, so it is shown once for each function, from the functions it calls. It is
calm when the session grows, and orderly when nothing that tells states apart is touched.
-/

namespace EvmAudit

variable {s s' : Session} {T : Session → Session → Prop} {e : Fault} {h : Session → Session} {p : Fault → Prop}

variable {α β : Type} {a : α} {c' : Engine α}

/-- What is in the second of two lists that are related element by element is related to something in the first. -/
lemma exists_of_forall2 {R : α → β → Prop} {as : List α} {bs : List β} (h : List.Forall₂ R as bs) :
    ∀ b ∈ bs, ∃ a ∈ as, R a b := by
  intro b hb
  obtain ⟨i, hi, rfl⟩ := List.getElem_of_mem hb
  exact ⟨_, List.get_mem as _, h.get (h.length_eq ▸ hi) hi⟩

/-! ## Expressions -/

namespace Calc

variable {c : Calc α} {f : α → Calc β} {P Q : α → Prop} {R : β → Prop}

/-- The result of the computation, if it has one, is of this kind. -/
def Yields (c : Calc α) (P : α → Prop) : Prop := ∀ l a l', c l = .ok a l' → P a

lemma Yields.any : c.Yields (fun _ => True) := fun _ _ _ _ => trivial

lemma Yields.pure (h : P a) : Yields (Pure.pure a) P := by
  rintro l _ _ ⟨⟩
  exact h

lemma Yields.bind (hc : c.Yields P) (hf : ∀ a, P a → (f a).Yields R) : (c >>= f).Yields R := by
  intro l b l' hr
  replace hr : EStateM.bind c f l = .ok b l' := hr
  unfold EStateM.bind at hr
  cases ha : c l with
  | ok a l1 =>
    rw [ha] at hr
    exact hf a (hc l a l1 ha) l1 b l' hr
  | error e l1 =>
    rw [ha] at hr
    cases hr

lemma Yields.throw (e : Fault) : (MonadExcept.throw e : Calc α).Yields P := fun _ _ _ h => nomatch h

lemma Yields.next (hf : ∀ a, (f a).Yields R) : (c >>= f).Yields R := .bind .any fun a _ => hf a

lemma Yields.mono (hc : c.Yields P) (h : ∀ a, P a → Q a) : c.Yields Q := fun l a l' hr => h a (hc l a l' hr)

lemma Gives.yields (h : c.Gives P) : c.Yields P := by
  intro l a l' hr
  obtain ⟨b, _, hb, hp⟩ := h l
  cases hr.symm.trans hb
  exact hp

end Calc

/-- What is evaluated before a result is there had room. -/
lemma Calc.Yields.of_settle {e : Expr} {f : Unit → Calc α} {P : α → Prop}
    (h : e.term.overrun .empty = none → (e.settle >>= f).Yields P) : (e.settle >>= f).Yields P := by
  cases hroom : e.term.overrun .empty with
  | none => exact h hroom
  | some fault =>
    rw [Expr.settle_eq, hroom]
    exact .bind (P := fun _ => False) (.throw fault) fun _ h => h.elim

lemma Expr.simplified_yields (e : Expr) : e.simplified.Yields (· = e) := .next fun _ => .pure rfl

lemma GState.constrain_yields (g : GState) (e : Expr) : (g.constrain e).Yields
    (· = { g with world := { g.world with constraints := g.world.constraints ++ [e] } }) := by
  refine .bind (P := (· = g.world.constraints ++ [e])) (e.simplified_yields.bind fun e' he => .pure (by rw [he])) ?_
  rintro _ rfl
  exact .pure rfl

/-! ## Sessions -/

lemma Session.Grows.programs_push (s : Session) {p : Program} (known : Selectors) (hp : p ∈ s.code.programs ∨ p.IsRead) :
    s.Grows { s with code := { programs := s.code.programs.push p, selectors := known } } where
  programs h := by grind
  added {q} hq := by
    rcases Array.mem_push.1 hq with hq | rfl
    · exact .inl hq
    · exact hp
  dependencies := id
  suspended := rfl
  loader := rfl
  options := rfl
  openWorlds := rfl
  work := rfl
  writes := rfl
  suspicions := rfl
  pruner := rfl

/-- No number is taken back, and the graph, the work, the open worlds and the callers that wait are as they were. -/
structure Session.Rests (s s' : Session) : Prop where
  next : s.nextState ≤ s'.nextState
  graph : s'.graph = s.graph
  work : s'.work = s.work
  openWorlds : s'.openWorlds = s.openWorlds
  suspended : s'.shared.suspended = s.shared.suspended

namespace Session.Rests

variable {s'' : Session}

lemma refl (s : Session) : s.Rests s := ⟨Nat.le_refl _, rfl, rfl, rfl, rfl⟩

lemma trans (h : s.Rests s') (h' : s'.Rests s'') : s.Rests s'' :=
  ⟨Nat.le_trans h.next h'.next, h'.graph.trans h.graph, h'.work.trans h.work, h'.openWorlds.trans h.openWorlds,
    h'.suspended.trans h.suspended⟩

end Session.Rests

/-- A way for sessions to go over into others, one after the other. -/
class Session.Course (T : Session → Session → Prop) : Prop where
  tame : ∀ {s s'}, s.Grows s' → s.Rests s' → T s s'
  trans : ∀ {s s' s''}, T s s' → T s' s'' → T s s''

/-- What no state is made from may change. -/
lemma Session.Course.own [hT : Course T] (s : Session) {ledger : Ledger} {line : Option Line}
    {hashes : Hashes} {queries : Queries} {n : Nat} : T s { s with
      ledger := ledger, line := line, hashes := hashes, queries := queries, txCount := n } :=
  hT.tame ⟨id, .inl, id, rfl, rfl, rfl, rfl, rfl, rfl, rfl, rfl⟩ ⟨Nat.le_refl _, rfl, rfl, rfl, rfl⟩

instance : Session.Course Session.Grows := ⟨fun h _ => h, .trans⟩

instance : Session.Course Session.Rests := ⟨fun _ h => h, .trans⟩

/-! ## Engine -/

namespace Engine

variable {c : Engine α} {f : α → Engine β}

def after (c : Engine α) (s : Session) : Session :=
  match c s with
  | .ok _ s' => s'
  | .error _ s' => s'

lemma after_congr (h : c s = c' s') : c.after s = c'.after s' := by
  rw [after, h]
  rfl

lemma after_ok (h : c s = .ok a s') : c.after s = s' := by
  unfold after
  rw [h]

lemma after_error (h : c s = .error e s') : c.after s = s' := by
  unfold after
  rw [h]

lemma after_bind_ok (h : c s = .ok a s') : (c >>= f).after s = (f a).after s' := after_congr (bind_ok h)

lemma after_bind {R : Session → Session → Prop} (htrans : ∀ {s s' s''}, R s s' → R s' s'' → R s s'')
    (hc : R s (c.after s)) (hf : ∀ a s', c s = .ok a s' → R s' ((f a).after s')) : R s ((c >>= f).after s) := by
  cases hr : c s with
  | error e s' => rwa [after_error (bind_error hr), ← after_error hr]
  | ok a s' =>
    rw [after_bind_ok hr]
    exact htrans (after_ok hr ▸ hc) (hf a s' hr)

/-- The session goes over into another one in a given way, with a result or without; the result and the session, if
there is a result, are of this kind. -/
def Ends (T : Session → Session → Prop) (c : Engine α) (s : Session) (P : α → Session → Prop) : Prop :=
  T s (c.after s) ∧ ∀ a s', c s = .ok a s' → P a s'

namespace Ends

variable {P Q : α → Session → Prop} {R : β → Session → Prop}

lemma ok (h : Ends T c s P) (hr : c s = .ok a s') : T s s' ∧ P a s' := ⟨after_ok hr ▸ h.1, h.2 a s' hr⟩

lemma of_ok (hr : c s = .ok a s') (hs : T s s') (h : P a s') : Ends T c s P := by
  refine ⟨(after_ok hr).symm ▸ hs, fun b s'' hb => ?_⟩
  cases hr.symm.trans hb
  exact h

lemma of_error (hr : c s = .error e s') (hs : T s s') : Ends T c s P :=
  ⟨(after_error hr).symm ▸ hs, fun _ _ h => nomatch hr.symm.trans h⟩

lemma error (h : Ends T c s P) (hr : c s = .error e s') : T s s' := after_error hr ▸ h.1

lemma mono (hc : Ends T c s P) (h : ∀ a s', T s s' → P a s' → Q a s') : Ends T c s Q :=
  ⟨hc.1, fun a s' ha => h a s' (after_ok ha ▸ hc.1) (hc.2 a s' ha)⟩

lemma modify (hs : T s (h s)) : Ends T (modify h) s (fun _ s' => s' = h s) := of_ok rfl hs rfl

lemma get {f : Session → Engine β} (hf : Ends T (f s) s R) : Ends T (MonadState.get >>= f) s R := hf

lemma attempt (hc : Ends T c s P) : Ends T (attempt c) s (fun r s' => ∀ a, r = .ok a → P a s') := by
  cases hr : c s with
  | ok a s' =>
    refine of_ok (attempt_ok hr) (hc.ok hr).1 ?_
    rintro _ ⟨⟩
    exact (hc.ok hr).2
  | error e s' => exact of_ok (attempt_error hr) (hc.error hr) nofun

lemma rescue [DecidablePred p] (hc : Ends T c s P) (ha : ∀ s', P a s') :
    Ends T (rescue c (fun e => if p e then some (Pure.pure a) else none)) s P := by
  cases hr : c s with
  | ok b s' => exact of_ok (by rw [Engine.rescue, hr]) (hc.ok hr).1 (hc.ok hr).2
  | error e s' =>
    by_cases hp : p e
    · exact of_ok (by simp only [Engine.rescue, hr, if_pos hp]; rfl) (hc.error hr) (ha s')
    · exact of_error (e := e) (by simp [Engine.rescue, hr, if_neg hp]) (hc.error hr)

variable [hT : Session.Course T]

lemma pure (h : P a s) : Ends T (Pure.pure a) s P := of_ok rfl (hT.own s) h

lemma throw (e : Fault) : Ends T (throw e) s P := of_error rfl (hT.own s)

lemma bind (hc : Ends T c s P) (hf : ∀ a s', T s s' → P a s' → Ends T (f a) s' R) : Ends T (c >>= f) s R := by
  have hok {a s'} (h : c s = .ok a s') : Ends T (f a) s' R := hf a s' (after_ok h ▸ hc.1) (hc.2 a s' h)
  refine ⟨after_bind hT.trans hc.1 fun a s' h => (hok h).1, fun b s' h => ?_⟩
  obtain ⟨a, s1, ha, hb⟩ := of_bind_ok h
  exact (hok ha).2 b s' hb

lemma of_run (hr : c s = c' s') (hs : T s s') (h : Ends T c' s' P) : Ends T c s P :=
  ⟨after_congr hr ▸ hT.trans hs h.1, fun a s'' ha => h.2 a s'' (hr ▸ ha)⟩

lemma lift {c : Calc α} {P : α → Prop} (h : c.Yields P) : Ends T (liftM c) s (fun a _ => P a) := by
  cases hc : c s.ledger with
  | ok a l => exact of_ok (lift_ok hc) (hT.own s) (h _ _ _ hc)
  | error f l => exact of_error (lift_error hc) (hT.own s)

end Ends

/-! ### Computations of one kind -/

/-- Whatever the session is, it goes over into another one in this way. -/
class Goes (T : Session → Session → Prop) (c : Engine α) : Prop where
  goes : ∀ s, T s (c.after s)

namespace Goes

lemma ends [hc : Goes T c] : Ends T c s (fun _ _ => True) := ⟨hc.goes s, fun _ _ _ => trivial⟩

lemma of_ends {P : α → Session → Prop} (h : ∀ s, Ends T c s P) : Goes T c := ⟨fun s => (h s).1⟩

lemma modifyGet {h : Session → α × Session} (hs : ∀ s, T s (h s).2) : Goes T (modifyGet h) := ⟨hs⟩

lemma modify (hs : ∀ s, T s (h s)) : Goes T (modify h) := ⟨hs⟩

instance attempt [Goes T c] : Goes T (attempt c) := of_ends fun _ => ends.attempt

instance rescue [Goes T c] {p : Fault → Prop} [DecidablePred p] {a : α} :
    Goes T (rescue c (fun e => if p e then some (Pure.pure a) else none)) := of_ends fun _ => ends.rescue fun _ => trivial

instance ite {p : Prop} [Decidable p] {c' : Engine α} [hc : Goes T c] [hc' : Goes T c'] : Goes T (if p then c else c') := by
  split
  · exact hc
  · exact hc'

variable [hT : Session.Course T]

instance pure (a : α) : Goes T (Pure.pure a) := of_ends (P := fun _ _ => True) fun _ => .pure trivial

instance throw (e : Fault) : Goes T (throw e : Engine α) := of_ends (P := fun _ _ => True) fun _ => .throw e

instance bind [Goes T c] [hf : ∀ a, Goes T (f a)] : Goes T (c >>= f) := of_ends fun _ => ends.bind fun a _ _ _ => (hf a).ends

instance throw_bind (e : Fault) (f : α → Engine β) : Goes T ((MonadExcept.throw e : Engine α) >>= f) :=
  of_ends (P := fun _ _ => True) fun _ => .throw e

lemma next [Goes T c] (hf : ∀ a, Goes T (f a)) : Goes T (c >>= f) := inferInstance

instance lift (c : Calc α) : Goes T (liftM c) := of_ends fun _ => .lift .any

instance get : Goes T MonadState.get := ⟨fun s => hT.own s⟩

instance ofExcept (r : Except Fault α) : Goes T (ofExcept r) := by
  cases r with
  | ok a => exact pure a
  | error e => exact throw e

instance mapM {g : α → Engine β} {xs : List α} [h : ∀ a, Goes T (g a)] : Goes T (xs.mapM g) := by
  induction xs with
  | nil => exact pure _
  | cons a xs ih =>
    rw [List.mapM_cons]
    infer_instance

end Goes

/-- Nothing that tells states apart is touched. -/
class Orderly (c : Engine α) : Prop where
  rests : ∀ s : Session, s.Rests (c.after s)

instance Orderly.of_goes [hc : Goes Session.Rests c] : Orderly c := ⟨hc.goes⟩

instance Orderly.goes [hc : Orderly c] : Goes Session.Rests c := ⟨hc.rests⟩

lemma Orderly.pure (a : α) : Orderly (Pure.pure a) := inferInstance

lemma Orderly.next [Orderly c] (hf : ∀ a, Orderly (f a)) : Orderly (c >>= f) := inferInstance

variable {P Q : α → Prop} {R : β → Prop}

/-- The session grows, and the result, if there is one, is of this kind. -/
def Yields (c : Engine α) (s : Session) (P : α → Prop) : Prop :=
  match c s with
  | .ok a s' => s.Grows s' ∧ P a
  | .error _ s' => s.Grows s'

lemma yields_iff : c.Yields s P ↔ c.Ends Session.Grows s fun a _ => P a := by
  unfold Yields
  cases hr : c s with
  | ok a s' => exact ⟨fun h => .of_ok hr h.1 h.2, fun h => h.ok hr⟩
  | error e s' => exact ⟨.of_error hr, fun h => h.error hr⟩

lemma Yields.pure (h : P a) : Yields (Pure.pure a) s P := ⟨.refl s, h⟩

lemma Yields.throw (f : Fault) : Yields (throw f) s P := .refl s

lemma Yields.bind (hc : Yields c s P) (hf : ∀ a s', s.Grows s' → P a → Yields (f a) s' R) : Yields (c >>= f) s R :=
  yields_iff.2 ((yields_iff.1 hc).bind fun a s' hs ha => yields_iff.1 (hf a s' hs ha))

lemma Yields.mono (hc : Yields c s P) (h : ∀ a, P a → Q a) : Yields c s Q :=
  yields_iff.2 ((yields_iff.1 hc).mono fun a _ _ => h a)

lemma Yields.calc {c : Calc α} (h : c.Yields P) : Yields (liftM c) s P := yields_iff.2 (.lift h)

lemma Yields.given {c : Calc α} (h : c.Yields P) (hf : ∀ a s', s.Grows s' → P a → (f a).Yields s' R) :
    Yields (liftM c >>= f) s R := (Yields.calc h).bind hf

lemma Yields.get {f : Session → Engine β} (hf : Yields (f s) s R) : Yields (MonadState.get >>= f) s R := hf

lemma Yields.attempt (hc : Yields c s P) : Yields (attempt c) s (fun r => ∀ a, r = .ok a → P a) :=
  yields_iff.2 (yields_iff.1 hc).attempt

lemma Yields.ok (h : Yields c s P) (hr : c s = .ok a s') : s.Grows s' ∧ P a := (yields_iff.1 h).ok hr

lemma Yields.after (h : c.Yields s P) : s.Grows (c.after s) := (yields_iff.1 h).1

lemma Yields.error (h : Yields c s P) (hr : c s = .error e s') : s.Grows s' := (yields_iff.1 h).error hr

lemma Yields.and (hc : Yields c s P) (hc' : Yields c s Q) : Yields c s (fun a => P a ∧ Q a) :=
  yields_iff.2 ⟨hc.after, fun _ _ hr => ⟨(hc.ok hr).2, (hc'.ok hr).2⟩⟩

lemma Does.yields (h : c.Does s P) : c.Yields s P :=
  have ⟨_, _, ha, hs, hp⟩ := h
  yields_iff.2 (.of_ok ha hs hp)

class Calm (c : Engine α) : Prop where
  grows : ∀ s, c.Yields s (fun _ => True)

instance Calm.of_goes [Goes Session.Grows c] : Calm c := ⟨fun _ => yields_iff.2 Goes.ends⟩

instance Calm.goes [hc : Calm c] : Goes Session.Grows c := ⟨fun s => (hc.grows s).after⟩

lemma Calm.pure (a : α) : Calm (Pure.pure a) := inferInstance

lemma Calm.throw (e : Fault) : Calm (throw e : Engine α) := inferInstance

lemma Calm.next [Calm c] (hf : ∀ a, Calm (f a)) : Calm (c >>= f) := inferInstance

lemma Calm.ok [hc : Calm c] (h : c s = .ok a s') : s.Grows s' := ((hc.grows s).ok h).1

/-- The result of a calm computation is all that is left to be looked at. -/
lemma Yields.of_run [hc : Calm c] (h : ∀ a s', c s = .ok a s' → P a) : c.Yields s P :=
  yields_iff.2 ⟨(hc.grows s).after, h⟩

lemma Yields.next [hc : Calm c] (hf : ∀ a s, (f a).Yields s R) : (c >>= f).Yields s R :=
  (hc.grows s).bind fun a s' _ _ => hf a s'

lemma Yields.mapM {h : α → Engine β} {S : α → β → Prop} {xs : List α} (hh : ∀ a ∈ xs, ∀ s, (h a).Yields s (S a)) :
    (xs.mapM h).Yields s (List.Forall₂ S xs) := by
  induction xs generalizing s with
  | nil => exact .pure .nil
  | cons a xs ih =>
    rw [List.mapM_cons]
    refine (hh a (by simp) s).bind fun b s' _ hb => ?_
    exact (ih fun a ha => hh a (by simp [ha])).bind fun bs _ _ hbs => .pure (.cons hb hbs)

/-! ### The session's own functions -/

section Own

variable [hT : Session.Course T]

instance (text : String) : Goes T (newProgram (.hex text)) := by
  constructor
  intro s
  unfold newProgram
  rw [after_bind_ok (get_run s)]
  cases hmake : Program.make s.code.selectors (.hex text) with
  | error f => exact hT.own s
  | ok r => exact hT.tame (.programs_push s r.2 (.inr (.inr ⟨_, text, r.2, hmake⟩))) ⟨Nat.le_refl _, rfl, rfl, rfl, rfl⟩

lemma program_mem (s : Session) (i : ProgramId) :
    s.code.programs.getD i default ∈ s.code.programs ∨ (s.code.programs.getD i default).IsRead := by
  rw [Array.getD_eq_getD_getElem?]
  cases hp : s.code.programs[i]? with
  | none => exact .inr (.inl rfl)
  | some p => exact .inl (Array.mem_of_getElem? hp)

instance (i : ProgramId) : Goes T (program i) := .next fun _ => .pure _

instance (i : ProgramId) : Goes T (copyProgram i) :=
  ⟨fun s => hT.tame (.programs_push s s.code.selectors (program_mem s i)) ⟨Nat.le_refl _, rfl, rfl, rfl, rfl⟩⟩

instance freshState_goes : Goes T freshState := .modifyGet fun _ =>
  hT.tame ⟨id, .inl, id, rfl, rfl, rfl, rfl, rfl, rfl, rfl, rfl⟩ ⟨Nat.le_succ _, rfl, rfl, rfl, rfl⟩

instance : Goes T nextTx := .modifyGet fun s => hT.own s

instance (r : Nat) : Goes T (dependency r) := .next fun _ => .pure _

instance (d : Dependency) : Goes T (newDependency d) := by
  refine ⟨fun s => hT.tame ⟨id, .inl, fun {i e} h => ?_, rfl, rfl, rfl, rfl, rfl, rfl, rfl, rfl⟩ ⟨Nat.le_refl _, rfl, rfl, rfl, rfl⟩⟩
  show (s.shared.dependencies.push d)[i]? = some e
  grind

instance (data : Expr) : Goes T (hash data) :=
  .next fun _ => .next fun _ => @.next _ _ _ _ _ _ (.modify fun s => hT.own s) fun _ => inferInstance

instance (h : Loader → Loader) : Goes T (setLoader h) := .modify fun s =>
  hT.tame ⟨id, .inl, id, rfl, by simp, rfl, rfl, rfl, rfl, rfl, rfl⟩ ⟨Nat.le_refl _, rfl, rfl, rfl, rfl⟩

instance (t : Talk α) (missing : Fault) : Goes T (talk t missing) := by
  constructor
  intro s
  unfold Engine.after talk
  cases s.line with
  | none => exact hT.own s
  | some l =>
    show T s (match (match t l with | .ok a l => _ | .error f l => _ : EStateM.Result Fault Session α) with
      | .ok _ s' => s' | .error _ s' => s')
    cases t l <;> exact hT.own s

end Own

instance (h : Graph → α × Graph) : Calm (onGraph h) :=
  ⟨fun _ => ⟨⟨id, .inl, id, rfl, rfl, rfl, rfl, rfl, rfl, rfl, rfl⟩, trivial⟩⟩

end Engine

/-! ## Transactions -/

structure Tx.Made (r : TxRequest) (kind : TxKind) (callee : Account) (tx : Tx) : Prop where
  kind : tx.kind = kind
  callee : tx.callee = callee
  caller : tx.caller = r.caller
  isStatic : tx.isStatic = r.isStatic
  value : r.value ≠ .absent → tx.value = r.value

lemma Tx.orVariable_yields (i : Item) (name : String) : (orVariable i name).Yields fun i' => i ≠ .absent → i' = i := by
  cases i with
  | absent => exact .next fun _ => .pure fun h => absurd rfl h
  | _ => exact .pure fun _ => rfl

lemma Tx.make_yields (r : TxRequest) (kind : TxKind) (callee : Account) (before : Accounts) (s : Session) :
    (make r kind callee before).Yields s (Made r kind callee) := by
  unfold make
  extract_lets suffix finish
  have hfinish id s : (finish id).Yields s (Made r kind callee) := by
    simp only [finish]
    split
    all_goals
      refine .next fun _ _ => .next fun _ _ => .next fun _ _ => .next fun _ _ => ?_
      exact .given (orVariable_yields r.value _) fun _ _ _ hvalue => .pure ⟨rfl, rfl, rfl, rfl, hvalue⟩
  split <;> exact .next fun _ s => hfinish _ s
end EvmAudit
