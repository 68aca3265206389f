import EvmAudit.Proofs.TameSteps
import EvmAudit.Proofs.Unobserved

/-!
# Frames and the callers that wait for them

While states are performed, in whatever order, a suspended caller stays as it was but for its conditions, its notes and
what was returned to it last; only a frame that makes an account assigns code to a program that is there already. The
end of a frame comes down to finishing the call of the caller that waits for it.
-/

namespace EvmAudit

open Engine

variable {g g' : GState} {s s' : Session} {op : Opcode} {tx : Tx} {step : Step Effect} {isMetered advances : Bool}
  {p : Footprint} {o : Outcome}

variable {α β : Type}

def GState.IsCreation (g : GState) : Prop := g.tx?.any (·.kind == .creation) = true

lemma GState.isCreation_congr (h : g'.frames = g.frames) : g'.IsCreation ↔ g.IsCreation := by
  unfold IsCreation tx?
  rw [h]

/-- The same caller, but for its conditions, what was returned to it last, and its notes. -/
def GState.Waits (g g' : GState) : Prop :=
  ∃ cs r ns, g' = { g with world := { g.world with constraints := cs }, lastReturn := r, notes := ns }

lemma GState.Waits.refl (g : GState) : g.Waits g := ⟨g.world.constraints, g.lastReturn, g.notes, rfl⟩

lemma GState.Waits.trans {g'' : GState} (h : g.Waits g') (h' : g'.Waits g'') : g.Waits g'' := by
  obtain ⟨cs, r, ns, rfl⟩ := h
  obtain ⟨cs', r', ns', rfl⟩ := h'
  exact ⟨cs', r', ns', rfl⟩

/-- Callers go on waiting, and programs stay unless some are assigned. -/
structure Session.Evolves (assigns : Prop) (s s' : Session) : Prop where
  suspended : ∀ {n : Nat} {g : GState}, s.shared.suspended[n]? = some g →
    ∃ g', s'.shared.suspended[n]? = some g' ∧ g.Waits g'
  loader : s'.loader.isNone = s.loader.isNone
  programs : ¬ assigns → ∀ {i : Nat} {p : Program}, s.code.programs[i]? = some p → s'.code.programs[i]? = some p

namespace Session.Evolves

variable {assigns assigns' : Prop} {s'' : Session}

lemma trans (h : s.Evolves assigns s') (h' : s'.Evolves assigns s'') : s.Evolves assigns s'' where
  suspended hn := by
    obtain ⟨g', hg', hw⟩ := h.suspended hn
    obtain ⟨g'', hg'', hw'⟩ := h'.suspended hg'
    exact ⟨g'', hg'', hw.trans hw'⟩
  loader := h'.loader.trans h.loader
  programs ha _ _ hi := h'.programs ha (h.programs ha hi)

lemma of_grows (h : s.Grows s') : s.Evolves assigns s' where
  suspended hn := ⟨_, by rw [h.suspended, hn], .refl _⟩
  loader := h.loader
  programs _ _ _ := h.programs

lemma mono (h : s.Evolves assigns s') (ha : assigns → assigns') : s.Evolves assigns' s' :=
  ⟨h.suspended, h.loader, fun hn => h.programs (mt ha hn)⟩

end Session.Evolves

/-! ## Callers wait -/

namespace Engine

variable {c : Engine α} {f : α → Engine β} {assigns : Prop}

instance : Session.Course (Session.Evolves assigns) := ⟨fun h _ => .of_grows h, .trans⟩

instance [hc : Calm c] : Goes (Session.Evolves assigns) c := ⟨fun s => .of_grows (hc.grows s).after⟩

instance (i : ProgramId) (code : Bytecode) : Goes (Session.Evolves True) (assign i code) := by
  constructor
  intro s
  have h t : s.Evolves True { s with code := t } :=
    ⟨fun hn => ⟨_, hn, .refl _⟩, rfl, fun hn => absurd trivial hn⟩
  refine after_bind .trans (.of_grows (.refl s)) fun _ _ hget => ?_
  cases hget
  refine after_bind .trans (h _) fun _ _ _ => ?_
  split <;> exact .of_grows (.refl _)

end Engine

namespace Step

variable {x : Step α} {f : α → Step β}

lemma isCreation_run {b : Bool} (h : g.tx?.any (·.kind == .creation) = b) : isCreation g s = .ok (b, g) s := by
  rw [← h]
  rfl

def Closed (hasData reverted : Bool) (g : GState) (e : Effect) (g' : GState) : Prop :=
  g'.frames = g.frames ∧ ∃ data, e = .halt data reverted ∧ data.isSome = hasData

/-- The step ends a frame in this way, unless data become the code of an account, and callers go on waiting in any case. -/
structure Closes (hasData reverted : Bool) (x : Step Effect) (g : GState) (s : Session) : Prop where
  message : ¬ (g.IsCreation ∧ hasData = true) → x.Yields g s (Closed hasData reverted g)
  waits : s.Evolves True (Engine.after (x g) s)

namespace Closes

variable {hasData reverted : Bool} {f : α → Step Effect}

lemma next [Result α] [hx : Calm .all x] (hf : ∀ a g s, Closes hasData reverted (f a) g s) :
    Closes hasData reverted (x >>= f) g s where
  message hg := (hx.stays g s).bind fun a g' s' _ ⟨hg', _⟩ => by
    refine ((hf a g' s').message (mt (.imp_left (GState.isCreation_congr hg'.frames).1) hg)).mono ?_
    rintro e g'' ⟨hg'', hd⟩
    exact ⟨hg''.trans hg'.frames, hd⟩
  waits := after_bind .trans (.of_grows (hx.stays g s).after) fun r s' _ => (hf r.1 r.2 s').waits

lemma halt {data : ReturnData} : Closes true reverted (halt (some data) reverted) g s where
  message hg := by
    unfold Yields Engine.Yields Step.halt
    rw [bind_ok (isCreation_run (Bool.eq_false_iff.2 fun hc => hg ⟨hc, rfl⟩))]
    exact ⟨.refl s, rfl, some data, rfl, rfl⟩
  waits := ((halt_orderly (some data) reverted).ends g s).1.1

end Closes

end Step

/-! ## Performing an instruction -/

lemma Opcode.effectOf_closes (h : op.halts = true) (g : GState) (s : Session) :
    Step.Closes op.returnsData (op == .revert) op.effectOf g s := by
  have hempty {x} (hx : x.Yields g s fun e g' => g'.frames = g.frames ∧ e = .halt none false) :
      Step.Closes false false x g s :=
    ⟨fun _ => hx.mono fun _ _ he => ⟨he.1, none, he.2, rfl⟩, .of_grows hx.after⟩
  cases op with
  | ret | revert => exact .next fun _ _ _ => .halt
  | stop =>
    refine hempty ?_
    unfold Step.Yields Yields
    rw [effectOf, Step.halt_empty]
    exact ⟨.refl s, rfl, rfl⟩
  | selfdestruct => exact hempty (Step.selfDestruct_ends g s).yields
  | _ => cases h

/-- The transaction may use that much gas, which is a number. -/
def Tx.Allows (tx : Tx) (limit : Int) : Prop :=
  tx.gasLimit.int? = some limit ∨
    ∃ (e : Expr) (w : Nat) (x : BitVec w), tx.gasLimit = .expr e ∧ e.Equals x ∧ limit = x.toNat

lemma Tx.value?_yields {e : Expr} (he : tx.gasLimit = .expr e) :
    e.value?.Yields fun r => ∀ limit, tx.Allows limit → r.map Int.ofNat = some limit := by
  by_cases hx : ∃ (w : Nat) (x : BitVec w), e.Equals x
  · obtain ⟨w, x, hx⟩ := hx
    refine (Expr.value?_gives (σ := default) hx.denotes).yields.mono ?_
    rintro _ rfl limit (hint | ⟨_, w', x', he', hx', rfl⟩)
    · rw [he] at hint
      cases hint
    · cases he.symm.trans he'
      rw [hx'.value?]
      rfl
  · refine Calc.Yields.any.mono ?_
    rintro r - limit (hint | ⟨_, w, x, he', hx', -⟩)
    · rw [he] at hint
      cases hint
    · cases he.symm.trans he'
      exact absurd ⟨w, x, hx'⟩ hx

namespace GState

instance {T : Session → Session → Prop} [Session.Course T] (g : GState) : Goes T g.meter := by
  simp only [meter]
  infer_instance

/-- The gas that was used is within the limit of the machine, and below that of the transaction, where these are numbers. -/
structure Affords (g : GState) : Prop where
  machine : ∀ limit, g.machine.gasLimit = .int limit → g.machine.minGas ≤ limit
  tx : ∀ tx limit, g.tx? = some tx → tx.Allows limit → g.machine.minGas < limit

/-- The cost of an instruction has been booked, and may be used. -/
structure Metered (op : Opcode) (g g' : GState) : Prop where
  booked : g' = { g with machine := g.machine.useGas op.cost.1 op.cost.2 }
  affords : g'.Affords

lemma checkGas_yields (g : GState) : g.checkGas.Yields fun _ => g.Affords := by
  have hmachine : g.machine.checkGas.Yields fun _ =>
      ∀ limit, g.machine.gasLimit = .int limit → g.machine.minGas ≤ limit := by
    refine (Machine.exceeds_yields _ _).bind fun isOver hover => ?_
    cases isOver with
    | true => exact .throw _
    | false => exact .pure (hover rfl)
  refine hmachine.bind fun _ hm => ?_
  extract_lets below
  have hbelow r (hr : ∀ tx limit, g.tx? = some tx → tx.Allows limit → r = some limit) :
      (below r).Yields fun _ => g.Affords := by
    cases r with
    | none => exact .pure ⟨hm, fun tx limit htx hallows => by cases hr tx limit htx hallows⟩
    | some n =>
      simp only [below]
      split
      · exact .throw _
      · refine .pure ⟨hm, fun tx limit htx hallows => ?_⟩
        cases hr tx limit htx hallows
        omega
  cases htx : g.tx? with
  | none => exact .throw _
  | some tx =>
    rw [htx] at hbelow
    dsimp only
    split
    · rename_i e hgas
      split
      · exact .throw _
      · refine (tx.value?_yields hgas).bind fun r hr => hbelow _ ?_
        rintro _ limit ⟨⟩ hallows
        exact hr limit hallows
    · split
      · rename_i n hn
        refine hbelow (some n) ?_
        rintro _ limit ⟨⟩ (hint | ⟨e, w, x, he, -⟩)
        · exact hn.symm.trans hint
        · rw [he] at hn
          cases hn
      · exact .throw _

lemma meter_yields (g : GState) (s : Session) : g.meter.Yields s (fun g' => ∃ op, g.Metered op g') := by
  refine .bind (Calm.grows s) fun i s1 _ _ => ?_
  exact .given (checkGas_yields _) fun _ s2 _ h => .pure ⟨i.opcode, rfl, h⟩

lemma run_calm (g : GState) (hstep : ∀ g s, step.Yields g s fun _ _ => True) (isMetered advances : Bool) :
    Calm (g.run step isMetered advances) := by
  have hrun g : Calm (step.run g) := ⟨hstep g⟩
  simp only [run]
  refine .next fun g => .next fun r => ?_
  split <;> infer_instance

instance (g : GState) (op : Opcode) : Calm (g.finish op) := by
  have hrun {step : Step Effect} [hstep : step.Calm .all] : Calm (g.run step true true) :=
    g.run_calm (fun g s => (hstep.stays g s).mono fun _ _ _ => trivial) true true
  cases op with
  | create | create2 | call | callcode | delegatecall | staticcall => exact hrun
  | _ => exact .throw _

/-- What becomes of a state when its cost is booked, if it is to be, and when it moves on, if it does. -/
def Settles (isMetered advances : Bool) (g g' : GState) : Prop :=
  ∃ g₁, (if isMetered then ∃ op, g.Metered op g₁ else g₁ = g) ∧ g' = if advances then g₁.advance else g₁

lemma Settles.rest (h : g.Settles isMetered advances g') :
    ∃ pc least most, g' = { g with machine := { g.machine with pc := pc, minGas := least, maxGas := most } } := by
  obtain ⟨g1, hg1, rfl⟩ := h
  split at hg1
  · obtain ⟨op, hop⟩ := hg1
    rw [hop.booked]
    split
    all_goals exact ⟨_, _, _, rfl⟩
  · rw [hg1]
    split
    all_goals exact ⟨_, _, _, rfl⟩

/-- A state of the same frame, in which no more has happened than the footprint allows, goes on after an instruction. -/
def Passes (p : Footprint) (isMetered advances : Bool) (g g' : GState) : Prop :=
  ∃ g₁ g₂ node, g.Within p g₁ ∧ g₁.Settles isMetered advances g₂ ∧ g' = { g₂ with node := node }

lemma Passes.stays (h : g.Passes p isMetered advances g') : g.Stays g' := by
  obtain ⟨g1, g2, node, hg1, hg2, rfl⟩ := h
  obtain ⟨_, _, _, rfl⟩ := hg2.rest
  exact hg1.stays.trans ⟨rfl, rfl, .refl _⟩

lemma Passes.pc (h : g.Passes p isMetered true g') (hp : p.jumps = false) : g'.machine.pc = g.machine.pc + 1 := by
  obtain ⟨g1, _, node, hg1, ⟨g2, hg2, rfl⟩, rfl⟩ := h
  have hpc := (hg1.machine.place hp).1
  show g2.machine.pc + 1 = _
  cases isMetered with
  | false =>
    obtain rfl : g2 = g1 := hg2
    rw [hpc]
  | true =>
    obtain ⟨op, hop⟩ := hg2
    rw [hop.booked, ← hpc]
    rfl

end GState

/-- The frame goes on in states of its own, or waits for a message, which is static if it is. -/
def Outcome.Within (p : Footprint) (isMetered advances : Bool) (g : GState) : Outcome → Prop
  | .states gs => gs.length ≤ 2 ∧ ∀ g' ∈ gs, g.Passes p isMetered advances g'
  | .call tx waiting =>
    p.calls = true ∧ tx.kind = .message ∧ (g.env.isStatic = true → tx.isStatic = true) ∧ g.Within p waiting
  | .halt _ _ _ => False

/-- The frame goes on in what these states settle to. -/
def Outcome.Settles (isMetered advances : Bool) (gs : List GState) (o : Outcome) : Prop :=
  ∃ gs', o = .states gs' ∧ gs'.length = gs.length ∧ ∀ g' ∈ gs', ∃ g ∈ gs, g.Settles isMetered advances g'

def Effect.Leads (isMetered advances : Bool) (g : GState) : Effect → Outcome → Prop
  | .next => Outcome.Settles isMetered advances [g]
  | .branch gs => Outcome.Settles isMetered advances gs
  | .call tx => (· = .call tx g)
  | .halt data reverted => (· = .halt g data reverted)

lemma Outcome.Settles.within {gs : List GState} (h : o.Settles isMetered advances gs) (hlength : gs.length ≤ 2)
    (hgs : ∀ g' ∈ gs, g.Within p g') : o.Within p isMetered advances g := by
  obtain ⟨gs', rfl, hsame, hgs'⟩ := h
  refine ⟨hsame ▸ hlength, fun g' hg' => ?_⟩
  obtain ⟨g1, hg1, hsettles⟩ := hgs' g' hg'
  exact ⟨g1, g', g'.node, hgs g1 hg1, hsettles, rfl⟩

lemma Effect.Leads.within {e : Effect} (h : e.Leads isMetered advances g' o) (hg' : g.Within p g')
    (he : e.Within p g) : o.Within p isMetered advances g := by
  cases e with
  | next => exact Outcome.Settles.within h (Nat.le_succ 1) (List.forall_mem_singleton.2 hg')
  | branch gs => exact Outcome.Settles.within h he.2.1 he.2.2
  | call tx =>
    obtain rfl := h
    exact ⟨he.1, he.2.1, he.2.2, hg'⟩
  | halt data reverted => exact he.elim

namespace GState

variable {loads : Bool}

lemma settle_yields (isMetered advances : Bool) (gs : List GState) (s : Session) :
    Yields (do
      let gs ← if isMetered then gs.mapM meter else pure gs
      return Outcome.states (if advances then gs.map advance else gs)) s (Outcome.Settles isMetered advances gs) := by
  have hadvance {gs'} (hlength : gs'.length = gs.length)
      (hgs' : ∀ g' ∈ gs', ∃ g ∈ gs, if isMetered then ∃ op, g.Metered op g' else g' = g) :
      Outcome.Settles isMetered advances gs (.states (if advances then gs'.map advance else gs')) := by
    refine ⟨_, rfl, ?_, fun g' hg' => ?_⟩
    · rw [apply_ite List.length, List.length_map, ite_self, hlength]
    cases advances with
    | true =>
      obtain ⟨g1, hg1, rfl⟩ := List.mem_map.1 hg'
      obtain ⟨g, hg, hmetered⟩ := hgs' g1 hg1
      exact ⟨g, hg, g1, hmetered, rfl⟩
    | false =>
      obtain ⟨g, hg, hmetered⟩ := hgs' g' hg'
      exact ⟨g, hg, g', hmetered, rfl⟩
  cases isMetered with
  | true =>
    refine (Yields.mapM fun g _ s => g.meter_yields s).bind fun gs' s' _ hgs' => ?_
    exact .pure (hadvance hgs'.length_eq.symm (exists_of_forall2 hgs'))
  | false => exact .pure (hadvance rfl fun g hg => ⟨g, hg, rfl⟩)

lemma run_leads {P : Effect → GState → Prop}
    (h : ∀ g1 s1, s.Grows s1 → g.CopyOf g1 → g1.world.constraints = g.world.constraints → g1.machine.Nonneg →
      step.Yields g1 s1 P) (isMetered advances : Bool) :
    (g.run step isMetered advances).Yields s fun o => ∃ e g', P e g' ∧ e.Leads isMetered advances g' o := by
  refine ((g.copy_yields false s).and (g.copy_items false s)).bind ?_
  rintro g1 s1 hs1 ⟨⟨hcopy, hconstraints⟩, -, hnonneg⟩
  refine .bind (h g1 s1 hs1 hcopy (hconstraints rfl) hnonneg) ?_
  rintro ⟨e, g'⟩ s2 _ he
  cases e with
  | next => exact (settle_yields isMetered advances [g'] s2).mono fun o ho => ⟨.next, g', he, ho⟩
  | branch gs => exact (settle_yields isMetered advances gs s2).mono fun o ho => ⟨.branch gs, g', he, ho⟩
  | call tx => exact .pure ⟨.call tx, g', he, rfl⟩
  | halt data reverted => exact .pure ⟨.halt data reverted, g', he, rfl⟩

lemma run_within
    (h : ∀ g1 s1, s.Grows s1 → g1.machine.Nonneg → step.Yields g1 s1 fun e g' => g1.Within p g' ∧ e.Within p g1) :
    (g.run step isMetered advances).Yields s (Outcome.Within p isMetered advances g) := by
  refine (run_leads (P := fun e g' => g.Within p g' ∧ e.Within p g) ?_ isMetered advances).mono ?_
  · intro g1 s1 hs1 hcopy hconstraints hnonneg
    have hg1 : g.Within p g1 := .of_copyOf hcopy fun _ => hconstraints
    exact (h g1 s1 hs1 hnonneg).mono fun e g' h => ⟨hg1.trans h.1, Step.Result.mono (α := Effect) hg1 h.2⟩
  · rintro o ⟨e, g', ⟨hg', he⟩, ho⟩
    exact ho.within hg' he

lemma perform_within (loads : Bool) (h : op.halts = false) (hc : op.creates = false)
    (hoff : loads = false → s.loader.isNone = true) :
    (g.perform op).Yields s (Outcome.Within (op.footprint loads) op.isMetered op.advances g) := by
  simp only [perform]
  split
  · exact .throw _
  · exact run_within (fun g1 s1 hs1 hg1 => op.effectOf_within h hc (fun hl => hs1.loader.trans (hoff hl)) hg1)

lemma finish_within (op : Opcode) (hoff : loads = false → s.loader.isNone = true) :
    (g.finish op).Yields s (Outcome.Within { loads := loads } true true g) := by
  have hrun {step : Step Effect} [hstep : step.Calm { loads := loads }] :
      (g.run step true true).Yields s (Outcome.Within { loads := loads } true true g) :=
    run_within (fun g1 s1 hs1 _ => hstep.keeps g1 s1 fun hl => hs1.loader.trans (hoff hl))
  cases op with
  | create | create2 | call | callcode | delegatecall | staticcall => exact hrun
  | _ => exact .throw _

lemma perform_calm (g : GState) (h : op.returnsData = false) : Calm (g.perform op) := by
  have := g.run_calm (op.effectOf_grows h)
  simp only [perform]
  infer_instance

/-- What a halt leads to, unless data become the code of an account. -/
def Closed (g : GState) (op : Opcode) (o : Outcome) : Prop :=
  ∃ final data, o = .halt final data (op == .revert) ∧ data.isSome = op.returnsData ∧ final.frames = g.frames

lemma perform_closes (h : op.halts = true) (hg : ¬ (g.IsCreation ∧ op.returnsData = true)) (s : Session) :
    (g.perform op).Yields s (g.Closed op) := by
  simp only [perform]
  split
  · exact .throw _
  refine (g.copy_yields false s).bind ?_
  rintro g1 s1 _ ⟨hcopy, -⟩
  have hframes : g1.frames = g.frames := by rw [hcopy.rest]
  have hg1 := mt (.imp_left (isCreation_congr hframes).1) hg
  refine .bind ((op.effectOf_closes h g1 s1).message hg1) ?_
  rintro ⟨e, g2⟩ s2 _ ⟨hg2, data, rfl, hdata⟩
  exact .pure ⟨g2, data, rfl, hdata, hg2.trans hframes⟩

lemma perform_mild (g : GState) (op : Opcode) :
    Goes (Session.Evolves (g.IsCreation ∧ op.returnsData = true)) (g.perform op) := by
  cases hdata : op.returnsData with
  | false =>
    have := perform_calm g hdata
    infer_instance
  | true =>
    have h := op.halts_of_returnsData hdata
    by_cases hg : g.IsCreation
    · have hrun g1 : Goes (Session.Evolves True) (op.effectOf.run g1) := ⟨fun s => (op.effectOf_closes h g1 s).waits⟩
      have hmild : Goes (Session.Evolves True) (g.perform op) := by
        simp only [perform, run]
        split
        · infer_instance
        · refine .next fun g1 => .next fun r => ?_
          split <;> infer_instance
      exact ⟨fun s => (hmild.goes s).mono fun _ => ⟨hg, rfl⟩⟩
    · exact ⟨fun s => .of_grows (perform_closes h (fun hc => hg hc.1) s).after⟩

/-- The state is about to end the creation of an account with data. -/
def EndsCreation (g : GState) (s : Session) : Prop := g.IsCreation ∧ ∃ i, g.due s = some i ∧ i.opcode.returnsData = true

/-- Executing the state leaves the programs as they are. The end of a creation rewrites one, also for the states that share
it and for the callers that wait. -/
def LeavesCode (g : GState) (s : Session) : Prop := ¬ g.EndsCreation s

end GState

/-! ## Executing a state -/

def Session.withSuspended (s : Session) (gs : Array GState) : Session :=
  { s with shared := { s.shared with suspended := gs } }

namespace Explore

variable {worlds : List World} {assigns : Prop}

abbrev resaved (s : Session) (n : Nat) (c : GState) : Session := s.withSuspended (s.shared.suspended.setIfInBounds n c)

/-- The caller after a fault: nothing that was done in the frame remains but its conditions. -/
def failed (caller last : GState) : GState :=
  { caller with
    world := { caller.world with constraints := caller.world.constraints ++ last.world.constraints }
    lastReturn := none }

def noted (caller last : GState) : GState :=
  { caller with notes := caller.notes ++ last.notes.filter Note.followsCalls }

/-- What the start or the end of a frame changes: the state waits, a caller is changed where it waits, or a world is left
open. -/
inductive Turned (g : GState) (s : Session) : List World → Session → Prop
  | same : Turned g s [] s
  | waits : Turned g s [] (s.withSuspended (s.shared.suspended.push g))
  | recalls (n : Nat) {c : GState} (hc : c = failed (s.shared.suspended.getD n default) g ∨
      c = noted (s.shared.suspended.getD n default) g) : Turned g s [] (resaved s n c)
  | opens (w : World) : Turned g s [w] { s with openWorlds := s.openWorlds ++ [w] }

def Turns (g : GState) (s : Session) (worlds : List World) (s' : Session) : Prop :=
  ∃ s₁ s₂, s.Grows s₁ ∧ Turned g s₁ worlds s₂ ∧ s₂.Grows s'

lemma Turns.of_grows (h : s.Grows s') : Turns g s [] s' := ⟨s, s, .refl s, .same, h⟩

lemma Turns.of_calm (c : Engine α) [hc : Calm c] (s : Session) : Turns g s [] (c.after s) :=
  .of_grows (hc.grows s).after

lemma Turns.bind {c : Engine α} {f : α → Engine β} (hc : Turns g s worlds (c.after s)) (hf : ∀ a, Calm (f a)) :
    Turns g s worlds ((c >>= f).after s) := by
  obtain ⟨s1, s2, hs1, hturned, hs2⟩ := hc
  refine ⟨s1, s2, hs1, hturned, ?_⟩
  cases hrun : c s with
  | ok a s3 =>
    rw [after_ok hrun] at hs2
    rw [after_bind_ok hrun]
    exact hs2.trans ((hf a).grows s3).after
  | error e s3 =>
    rw [after_error hrun] at hs2
    rwa [after_error (bind_error hrun)]

lemma resave_turns {h : GState → GState} (hh : ∀ c, h c = failed c g ∨ h c = noted c g) {f : GState → Engine α}
    (hf : ∀ c, Calm (f c)) (n : Nat) (s : Session) : Turns g s [] (after (do
      let c ← suspended n
      setSuspended n (h c)
      f c) s) := ⟨s, _, .refl s, .recalls n (hh _), ((hf _).grows _).after⟩

instance (g : GState) (node : Option Nat) : Calm (resume g node) := by
  refine .next fun i => ?_
  split
  · infer_instance
  · refine .next fun r => ?_
    split <;> infer_instance

section

variable (g) (s)

lemma fail_turns (op : Opcode) : Turns g s [] ((fail {} g op).after s) := by
  rw [fail_unobserved]
  split
  · exact .of_calm _ s
  · exact .of_calm _ s
  · refine resave_turns (fun _ => .inl rfl) (fun c => ?_) _ s
    split <;> infer_instance

lemma handBack_turns (n : Nat) (data : Option ReturnData) (reverted : Bool) :
    Turns g s [] ((handBack g n data reverted).after s) := by
  refine resave_turns (fun _ => .inr rfl) (fun c => ?_) n s
  infer_instance

lemma finishFrame_turns (final : GState) (op : Opcode) (data : Option ReturnData) (reverted : Bool) :
    ∃ worlds, Turns g s worlds ((finishFrame {} g final op data reverted).after s) := by
  rw [finishFrame_unobserved]
  split
  · exact ⟨[], .of_calm _ s⟩
  · split
    · exact ⟨_, s, _, .refl s, .opens _, .refl _⟩
    · exact ⟨[], .of_calm _ s⟩
  · exact ⟨[], (handBack_turns _ s _ _ _).bind fun _ => inferInstance⟩

lemma startFrame_turns (tx : Tx) (w : World) : Turns g s [] ((startFrame g tx w).after s) := by
  have hstart : s.Grows ((tx.start w).after s) := (Calm.grows s).after
  unfold startFrame
  cases hrun : tx.start w s with
  | error f s1 =>
    rw [after_error hrun] at hstart
    rw [after_error (bind_error hrun)]
    exact .of_grows hstart
  | ok new s1 =>
    rw [after_ok hrun] at hstart
    rw [after_bind_ok hrun]
    exact ⟨s1, _, hstart, .waits, .refl _⟩

/-- Whatever a state does, its instruction is performed, if there is one, and the rest is the start or the end of a
frame. -/
lemma execute_turns : ∃ s1 worlds,
    (s1 = s ∨ ∃ i, g.due s = some i ∧ i.opcode.needs ≤ g.machine.stack.length ∧ s1 = (g.perform i.opcode).after s) ∧
      Turns g s1 worlds ((execute {} g).after s) := by
  obtain hdue | ⟨op, s1, h | ⟨o, h⟩ | ⟨f, h⟩⟩ := execute_split g s
  · rw [after_ok (execute_beyond hdue)]
    exact ⟨s, _, .inl rfl, s, _, .refl s, .opens g.world, .refl _⟩
  · have hturns := (fail_turns g s1 op).bind (f := fun r => pure (ended op r)) fun _ => inferInstance
    rw [after_congr (execute_faults h)]
    obtain ⟨⟨i, hi, rfl⟩, ⟨-, rfl⟩ | ⟨hroom, _, _, hrun⟩⟩ := h
    · exact ⟨s1, [], .inl rfl, hturns⟩
    · exact ⟨s1, [], .inr ⟨i, hi, hroom, (after_error hrun).symm⟩, hturns⟩
  · rw [after_congr (execute_performs h)]
    obtain ⟨⟨i, hi, rfl⟩, hroom, hrun⟩ := h
    have hs1 := (after_ok hrun).symm
    cases o with
    | states gs => exact ⟨s1, [], .inr ⟨i, hi, hroom, hs1⟩, .of_calm _ s1⟩
    | call tx waiting =>
      exact ⟨s1, [], .inr ⟨i, hi, hroom, hs1⟩, (startFrame_turns g s1 tx waiting.world).bind fun _ => inferInstance⟩
    | halt final data reverted =>
      obtain ⟨worlds, hturns⟩ := finishFrame_turns g s1 final i.opcode data reverted
      exact ⟨s1, worlds, .inr ⟨i, hi, hroom, hs1⟩, hturns.bind fun _ => inferInstance⟩
  · rw [after_error (execute_stops h)]
    obtain ⟨⟨i, hi, rfl⟩, hroom, hrun, -⟩ := h
    exact ⟨s1, [], .inr ⟨i, hi, hroom, (after_error hrun).symm⟩, .of_grows (.refl s1)⟩

end

lemma Turned.evolves (h : Turned g s worlds s') : s.Evolves assigns s' := by
  cases h with
  | same => exact .of_grows (.refl s)
  | waits =>
    refine ⟨fun {n c} hn => ⟨c, ?_, .refl c⟩, rfl, fun _ {_ _} => id⟩
    show (s.shared.suspended.push g)[n]? = some c
    grind
  | @recalls n c' hc =>
    have hwaits : (s.shared.suspended.getD n default).Waits c' := by
      rcases hc with rfl | rfl <;> exact ⟨_, _, _, rfl⟩
    refine ⟨fun {m c} hm => ?_, rfl, fun _ {_ _} => id⟩
    show ∃ g', (s.shared.suspended.setIfInBounds n c')[m]? = some g' ∧ c.Waits g'
    by_cases hmn : n = m
    · subst hmn
      rw [Array.getD_eq_getD_getElem?, hm] at hwaits
      have hn := (getElem?_eq_some_iff.1 hm).1
      exact ⟨c', by simp [hn], hwaits⟩
    · exact ⟨c, by rw [Array.getElem?_setIfInBounds_ne hmn, hm], .refl c⟩
  | opens w => exact ⟨fun hn => ⟨_, hn, .refl _⟩, rfl, fun _ {_ _} => id⟩

lemma Turns.evolves (h : Turns g s worlds s') : s.Evolves assigns s' := by
  obtain ⟨s1, s2, hs1, hturned, hs2⟩ := h
  exact (Session.Evolves.of_grows hs1).trans (hturned.evolves.trans (.of_grows hs2))

/-- Whatever a state does, callers go on waiting, and programs stay unless it ends the creation of an account. -/
lemma execute_evolves (g : GState) (s : Session) : s.Evolves (g.EndsCreation s) ((execute {} g).after s) := by
  obtain ⟨s1, worlds, rfl | ⟨i, hi, -, rfl⟩, hturns⟩ := execute_turns g s
  · exact hturns.evolves
  · have hperform := ((g.perform_mild i.opcode).goes s).mono fun h => (⟨h.1, i, hi, h.2⟩ : g.EndsCreation s)
    exact hperform.trans hturns.evolves

/-- The session in which states have been executed one after the other, in any order, with other work in between that
leaves programs alone and callers waiting. -/
inductive Works (K : GState → Session → Prop) (s : Session) : Session → Prop
  | start : Works K s s
  | idle {s' s'' : Session} (h : Works K s s') (hs : s'.Evolves False s'') : Works K s s''
  | execute {s' : Session} {g : GState} (h : Works K s s') (hg : K g s') : Works K s ((execute {} g).after s')

lemma Works.evolves {K : GState → Session → Prop} (h : Works K s s') :
    s.Evolves (∃ g s, K g s ∧ g.EndsCreation s) s' := by
  induction h with
  | start => exact .of_grows (.refl s)
  | idle _ hs ih => exact ih.trans (hs.mono False.elim)
  | @execute s' g _ hg ih => exact ih.trans ((execute_evolves g s').mono fun hc => ⟨g, s', hg, hc⟩)

lemma Works.leavesCode (h : Works GState.LeavesCode s s') : s.Evolves False s' :=
  h.evolves.mono fun ⟨_, _, hleaves, hends⟩ => hleaves hends

end Explore
end EvmAudit
