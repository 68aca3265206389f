import EvmAudit.Proofs.Frames

/-!
# Deployments

The data that a frame returns when it makes an account become the code of that account: they are assigned to its program,
for everyone who has it. Empty data are dropped, and an instruction that is a fault of the machine has assigned nothing.
-/

namespace EvmAudit

open Engine

variable {f : Fault} {code : Bytecode} {items : List Item} {s s' : Session} {p : ProgramId} {g : GState} {op : Opcode}
  {o : Outcome}

/-! ## Assigning code -/

def Fault.IsFinal (f : Fault) : Prop := ∃ cause text, f = .failure cause text ∧ cause ≠ .unsupported

lemma not_isFinal_unsupported (text : String) : ¬ (Fault.failure .unsupported text).IsFinal := by
  rintro ⟨_, _, hf, hcause⟩
  cases hf
  exact hcause rfl

lemma not_isFinal_vm (v : VmFault) (text : String) : ¬ (Fault.vm v text).IsFinal := by
  rintro ⟨_, _, hf, -⟩
  cases hf

section

variable {α β : Type} {r : Except Fault α}

def FailsFinally (r : Except Fault α) : Prop := ∀ f, r = .error f → f.IsFinal

lemma FailsFinally.ok (a : α) : FailsFinally (.ok a : Except Fault α) := by
  rintro _ ⟨⟩

lemma FailsFinally.error (h : f.IsFinal) : FailsFinally (.error f : Except Fault α) := by
  rintro _ ⟨⟩
  exact h

lemma FailsFinally.bind {f : α → Except Fault β} (hr : FailsFinally r) (hf : ∀ a, FailsFinally (f a)) :
    FailsFinally (r >>= f) := by
  cases r with
  | ok a => exact hf a
  | error e => exact .error (hr e rfl)

lemma FailsFinally.map (hr : FailsFinally r) (f : α → β) : FailsFinally (r.map f) := by
  cases r with
  | ok a => exact .ok _
  | error e => exact .error (hr e rfl)

end

lemma Bytecode.bytesOf_fails (items : List Item) : FailsFinally (bytesOf items) := by
  unfold bytesOf
  split
  · exact .error ⟨_, _, rfl, by decide⟩
  · split
    · exact .ok _
    · exact .error ⟨_, _, rfl, by decide⟩

lemma Selectors.find_fails (t : Selectors) (selector : String) : FailsFinally (t.find selector) := by
  have hnormalise : FailsFinally (normalise selector) := by
    unfold normalise
    extract_lets s
    split
    · exact .ok _
    · exact .error ⟨_, _, rfl, by decide⟩
  refine hnormalise.bind fun s => ?_
  split
  · exact .ok _
  · dsimp only
    split
    · exact .ok _
    · exact .ok _

lemma FunctionInfo.read_fails (known : Selectors) (arguments : List (Option Argument)) (index : Int) :
    FailsFinally (read known arguments index) := by
  have hselector a : FailsFinally (selectorOf a) := by
    cases a with
    | hex text => exact .ok _
    | cells items => exact (Bytecode.bytesOf_fails items).bind fun _ => .ok _
  have hdigits a : FailsFinally (digitsOf a) := by
    cases a with
    | hex text => exact .ok _
    | cells items => exact (Bytecode.bytesOf_fails items).map _
  unfold read
  cases Sequence.at? arguments index with
  | none => exact .error ⟨_, _, rfl, by decide⟩
  | some a =>
    cases a with
    | none => exact .error ⟨_, _, rfl, by decide⟩
    | some first =>
      refine (hselector first).bind fun selector => (known.find_fails selector).bind fun found => ?_
      dsimp only
      split
      · refine (hdigits _).bind fun digits => ?_
        split
        · exact .ok _
        · exact .error ⟨_, _, rfl, by decide⟩
      · exact .ok _

namespace Program

lemma addEntries_fault (arguments : List (Option Argument)) (indices : List Nat) (r : Assigned)
    (h : (addEntries arguments indices r).fault = some f) : r.fault = some f ∨ f.IsFinal := by
  induction indices generalizing r with
  | nil => exact .inl h
  | cons i rest ih =>
    unfold addEntries at h
    split at h
    · rename_i info known _
      exact ih ⟨r.program.addEntry info, known, r.fault⟩ h
    · rename_i he
      cases h
      exact .inr (FunctionInfo.read_fails _ _ _ f he)

/-- The program has a code, with the instructions of that code. -/
structure IsOf (p : Program) (c : Bytecode) : Prop where
  code : p.code = c
  instrs : Instr.ofCode c = .ok p.instrs.toList

variable {p : Program} {known : Selectors}

lemma assign_isOf (h : (p.assign known code).fault = none) : (p.assign known code).program.IsOf code := by
  unfold assign at h ⊢
  cases hinstrs : Instr.ofCode code with
  | error f =>
    rw [hinstrs] at h
    cases h
  | ok instrs =>
    refine ⟨?_, ?_⟩
    · exact (addEntries_keeps _ _ _).1
    · rw [(addEntries_keeps _ _ _).2, hinstrs]

lemma assign_fault (h : (p.assign known (.cells items)).fault = some f) : f.IsFinal := by
  have hinstrs : FailsFinally (Instr.ofCells items) := by
    unfold Instr.ofCells
    extract_lets tail decoded
    have hdecoded trailer : FailsFinally (decoded trailer) := .ok _
    split
    · exact hdecoded false
    · exact ((Bytecode.bytesOf_fails tail).map _).bind hdecoded
  unfold assign at h
  split at h
  · rename_i e he
    cases h
    exact hinstrs f he
  · exact (addEntries_fault _ _ _ h).resolve_left nofun

end Program

def Session.KeepsOthers (s : Session) (p : ProgramId) (s' : Session) : Prop :=
  ∀ {i : Nat} {q : Program}, i ≠ p → s.code.programs[i]? = some q → s'.code.programs[i]? = some q

structure Session.Assigns (s : Session) (p : ProgramId) (code : Bytecode) (s' : Session) : Prop where
  program : p < s.code.programs.size → ∃ q, s'.code.programs[p]? = some q ∧ q.IsOf code
  others : s.KeepsOthers p s'
  suspended : s'.shared.suspended = s.shared.suspended
  openWorlds : s'.openWorlds = s.openWorlds
  work : s'.work = s.work

lemma Session.Grows.size (h : s.Grows s') (hp : p < s.code.programs.size) : p < s'.code.programs.size :=
  (getElem?_eq_some_iff.1 (h.programs (Array.getElem?_eq_getElem hp))).1

namespace Session.Assigns

variable {s'' : Session}

lemma of_grows (hs : s.Grows s') (h : s'.Assigns p code s'') : s.Assigns p code s'' :=
  ⟨fun hp => h.program (hs.size hp), fun hi hq => h.others hi (hs.programs hq), h.suspended.trans hs.suspended,
    h.openWorlds.trans hs.openWorlds, h.work.trans hs.work⟩

end Session.Assigns

namespace Engine

/-- The session in which a program has been assigned a code, as far as it goes. -/
def reassigned (s : Session) (p : ProgramId) (r : Program.Assigned) : Session :=
  { s with code := ⟨s.code.programs.setIfInBounds p r.program, r.known⟩ }

lemma assign_eq (p : ProgramId) (code : Bytecode) (s : Session) : ∃ q : Program,
    let r := q.assign s.code.selectors code
    assign p code s = match r.fault with
      | some f => .error f (reassigned s p r)
      | none => .ok () (reassigned s p r) := by
  refine ⟨s.code.programs.getD p default, ?_⟩
  extract_lets r
  show (match r.fault with
    | some f => throw f
    | none => return () : Engine Unit) (reassigned s p r) = _
  cases r.fault <;> rfl

lemma reassigned_others (p : ProgramId) (r : Program.Assigned) : s.KeepsOthers p (reassigned s p r) := by
  intro i q hi hq
  show (s.code.programs.setIfInBounds p _)[i]? = some q
  rw [Array.getElem?_setIfInBounds_ne hi.symm, hq]

lemma assign_run (h : assign p code s = .ok () s') : s.Assigns p code s' := by
  obtain ⟨q, hq⟩ := assign_eq p code s
  rw [hq] at h
  split at h
  · cases h
  rename_i hfault
  cases h
  refine ⟨fun hp => ⟨_, ?_, Program.assign_isOf hfault⟩, reassigned_others p _, rfl, rfl, rfl⟩
  show (s.code.programs.setIfInBounds p _)[p]? = some _
  simp [hp]

lemma assign_error (h : assign p (.cells items) s = .error f s') : f.IsFinal ∧ s.KeepsOthers p s' := by
  obtain ⟨q, hq⟩ := assign_eq p (.cells items) s
  rw [hq] at h
  split at h
  · rename_i hfault
    cases h
    exact ⟨Program.assign_fault hfault, reassigned_others p _⟩
  · cases h

end Engine

/-! ## The end of a creation -/

namespace Step

variable {reverted : Bool}

/-- What ending a creation with data comes to: empty data are dropped, others are assigned to the program of the active
account. A fault of the machine comes before that. -/
inductive Hands (g : GState) (s : Session) (items : List Item) (reverted : Bool) :
    EStateM.Result Fault Session (Effect × GState) → Prop
  | dropped {s' : Session} (hs : s.Grows s') : Hands g s items reverted (.ok (.halt none reverted, g) s')
  | assigned {s' : Session} (text : String) (hs : s.Assigns g.active.code (.cells items) s') :
      Hands g s items reverted (.ok (.halt (some (.address text)) reverted, g) s')
  | fails {s' : Session} (f : Fault) (hs : s.Grows s') : Hands g s items reverted (.error f s')
  | stops {f : Fault} {s' : Session} (hf : f.IsFinal) (hs : s.KeepsOthers g.active.code s') :
      Hands g s items reverted (.error f s')

lemma Hands.of_grows {s1 : Session} {r : EStateM.Result Fault Session (Effect × GState)} (hs : s.Grows s1)
    (h : Hands g s1 items reverted r) : Hands g s items reverted r := by
  cases h with
  | dropped h => exact .dropped (hs.trans h)
  | assigned text h => exact .assigned text (.of_grows hs h)
  | fails f h => exact .fails f (hs.trans h)
  | stops hf h => exact .stops hf fun hi hq => h hi (hs.programs hq)

lemma Hands.lift {α : Type} {c : Calc α} {f : α → Step Effect} (hf : ∀ a s', Hands g s' items reverted (f a g s')) :
    Hands g s items reverted ((liftM c >>= f) g s) := by
  have hc : Yields (liftM c) g s (fun _ g' => g' = g ∧ True) := .calc .any
  cases hr : (liftM c : Step α) g s with
  | ok r s1 =>
    obtain ⟨a, g1⟩ := r
    obtain ⟨hs1, hg1, -⟩ := hc.ok hr
    obtain rfl : g1 = g := hg1
    rw [bind_ok hr]
    exact (hf a s1).of_grows hs1
  | error e s1 =>
    rw [bind_error hr]
    exact .fails e (hc.error hr)

lemma deploy_hands (g : GState) (s : Session) (items : List Item) (reverted : Bool) :
    Hands g s items reverted (deploy items reverted g s) := by
  have hget : (get : Step GState) g s = .ok (g, g) s := rfl
  unfold deploy
  rw [bind_ok hget]
  cases hrun : assign g.active.code (.cells items) s with
  | error f s1 =>
    obtain ⟨hf, hothers⟩ := assign_error hrun
    rw [bind_error (lift_error hrun)]
    exact .stops hf hothers
  | ok u s1 =>
    have hassigns := assign_run hrun
    rw [bind_ok (lift_ok hrun)]
    cases g.env.active with
    | none => exact .stops ⟨_, _, rfl, by decide⟩ hassigns.others
    | some v =>
      have hprogram : program g.active.code s1 = .ok (s1.code.programs.getD g.active.code default) s1 := rfl
      dsimp only
      rw [bind_ok (lift_ok hprogram)]
      split
      · exact .stops ⟨_, _, rfl, by decide⟩ hassigns.others
      · exact .assigned _ hassigns

lemma halt_hands (hg : g.IsCreation) (length : Expr) (s : Session) :
    Hands g s items reverted (halt (some (.bytes items (.expr length))) reverted g s) := by
  unfold halt
  rw [bind_ok (isCreation_run hg)]
  refine .lift fun _ s1 => .lift fun isEmpty s2 => ?_
  cases isEmpty with
  | true => exact .dropped (.refl s2)
  | false => exact deploy_hands g s2 items reverted

end Step

/-- The data that the instruction ends a frame with, and their length. -/
def Opcode.output : Opcode → Step (List Item × Expr)
  | .revert => Step.revoked
  | _ => Step.returned

lemma Opcode.effectOf_output (h : op.returnsData = true) : op.effectOf = (do
    let r ← op.output
    Step.halt (some (.bytes r.1 (.expr r.2))) (op == .revert)) := by
  cases op with
  | ret | revert => rfl
  | _ => cases h

instance Opcode.output_calm (op : Opcode) : op.output.Calm .all := by
  unfold output
  split <;> infer_instance

namespace GState

variable {a : Account}

def output (g : GState) (op : Opcode) : Engine (List Item) := do
  let (r, _) ← op.output.run (← g.copy)
  return r.1

lemma Stays.active_code {g' : GState} (h : g.Stays g') (ha : g.world.find? g.env.active = some a) :
    g'.active.code = a.code := by
  obtain ⟨a', ha', hcode⟩ := h.world.found ha
  rw [active, h.env, ha', Option.getD_some, hcode]

inductive Hands (g : GState) (op : Opcode) (s : Session) : EStateM.Result Fault Session Outcome → Prop
  | dropped {final : GState} {s' : Session} (hfinal : g.Stays final) (hs : s.Grows s') :
      Hands g op s (.ok (.halt final none (op == .revert)) s')
  | assigned {final : GState} {items : List Item} {s₁ s' : Session} (text : String) (hfinal : g.Stays final)
      (houtput : g.output op s = .ok items s₁) (hs : s.Assigns final.active.code (.cells items) s') :
      Hands g op s (.ok (.halt final (some (.address text)) (op == .revert)) s')
  | fails {s' : Session} (f : Fault) (hs : s.Grows s') : Hands g op s (.error f s')
  | stops {final : GState} {f : Fault} {s' : Session} (hfinal : g.Stays final) (hf : f.IsFinal)
      (hs : s.KeepsOthers final.active.code s') : Hands g op s (.error f s')

section

variable (hg : g.IsCreation) (hop : op.returnsData = true)
include hg hop

lemma perform_ends (s : Session) : g.Hands op s (g.perform op s) := by
  simp only [perform]
  split
  · exact .fails _ (.refl s)
  unfold run
  cases hcopy : g.copy false s with
  | error f s1 =>
    rw [bind_error hcopy]
    exact .fails f ((g.copy_yields false s).error hcopy)
  | ok g1 s1 =>
    obtain ⟨hs1, hg1, -⟩ := (g.copy_yields false s).ok hcopy
    rw [bind_ok hcopy, Opcode.effectOf_output hop]
    unfold StateT.run
    cases houtput : op.output g1 s1 with
    | error f s2 =>
      rw [bind_error (Step.bind_error houtput)]
      exact .fails f (hs1.trans (((op.output_calm).stays g1 s1).error houtput))
    | ok r s2 =>
      obtain ⟨⟨items, length⟩, g2⟩ := r
      obtain ⟨hs2, hg2, -⟩ := (op.output_calm.stays g1 s1).ok houtput
      have hs2 := hs1.trans hs2
      have hg2 := (Stays.of_copyOf hg1).trans hg2
      have hrun : g.output op s = .ok items s2 := by
        unfold output
        rw [bind_ok hcopy, bind_ok (show op.output.run g1 s1 = _ from houtput)]
        rfl
      have hhands : Step.Hands g2 s items (op == .revert) (Step.halt _ (op == .revert) g2 s2) :=
        (Step.halt_hands ((isCreation_congr hg2.frames).2 hg) length s2).of_grows hs2
      have heffect := Step.bind_ok houtput (f := fun r => .halt (some (.bytes r.1 (.expr r.2))) (op == .revert))
      generalize Step.halt (some (.bytes items (.expr length))) (op == .revert) g2 s2 = r at hhands heffect
      -- nothing fails once the frame has ended
      cases hhands with
      | dropped hs =>
        rw [bind_ok heffect]
        exact .dropped hg2 hs
      | assigned text hs =>
        rw [bind_ok heffect]
        exact .assigned text hg2 hrun hs
      | fails f hs =>
        rw [bind_error heffect]
        exact .fails f hs
      | stops hf hs =>
        rw [bind_error heffect]
        exact .stops hg2 hf hs

lemma perform_hands (ha : g.world.find? g.env.active = some a) (h : g.perform op s = .ok o s') :
    ∃ final, g.Stays final ∧
      (o = .halt final none (op == .revert) ∧ s.Grows s' ∨ ∃ text items s1,
        o = .halt final (some (.address text)) (op == .revert) ∧ g.output op s = .ok items s1 ∧
          s.Assigns a.code (.cells items) s') := by
  have hends := perform_ends hg hop s
  rw [h] at hends
  cases hends with
  | dropped hfinal hs => exact ⟨_, hfinal, .inl ⟨rfl, hs⟩⟩
  | assigned text hfinal houtput hs => exact ⟨_, hfinal, .inr ⟨text, _, _, rfl, houtput, hfinal.active_code ha ▸ hs⟩⟩

lemma perform_others (ha : g.world.find? g.env.active = some a) {i : Nat} {q : Program} (hi : i ≠ a.code)
    (hq : s.code.programs[i]? = some q) : ((g.perform op).after s).code.programs[i]? = some q := by
  have hends := perform_ends hg hop s
  unfold after
  generalize g.perform op s = r at hends ⊢
  cases hends with
  | dropped hfinal hs | fails f hs => exact hs.programs hq
  | assigned text hfinal houtput hs => exact hs.others (hfinal.active_code ha ▸ hi) hq
  | stops hfinal hf hs => exact hs (hfinal.active_code ha ▸ hi) hq

end

lemma perform_halts (hop : op.halts = true) (h : g.perform op s = .ok o s') :
    ∃ final data, o = .halt final data (op == .revert) ∧ final.frames = g.frames := by
  by_cases hg : g.IsCreation ∧ op.returnsData = true
  · have hends := perform_ends hg.1 hg.2 s
    rw [h] at hends
    cases hends with
    | dropped hfinal | assigned _ hfinal => exact ⟨_, _, rfl, hfinal.frames⟩
  · obtain ⟨-, final, data, rfl, -, hframes⟩ := (perform_closes hop hg s).ok h
    exact ⟨final, data, rfl, hframes⟩

lemma perform_error (h : g.perform op s = .error f s') : f.IsFinal ∨ s.Grows s' := by
  by_cases hg : g.IsCreation ∧ op.returnsData = true
  · have hends := perform_ends hg.1 hg.2 s
    rw [h] at hends
    cases hends with
    | fails _ hs => exact .inr hs
    | stops _ hf => exact .inl hf
  · refine .inr ?_
    cases hdata : op.returnsData with
    | false => exact ((g.perform_calm hdata).grows s).error h
    | true => exact (perform_closes (op.halts_of_returnsData hdata) hg s).error h

end GState

/-!
# Ends of frames

A frame ends by an instruction that halts or by a fault. Either way the call that the waiting caller is in gets finished:
in the caller's own world with the conditions of the ended frame added, or, when the frame did not take back what it did,
in a copy of the caller that has the world of the ended frame.
-/

variable {node : Option Nat}

/-! ## What is due -/

lemma GState.due_of_programs {i : Instr} (h : g.due s = some i)
    (hs : ∀ {p}, s.code.programs[g.env.code]? = some p → s'.code.programs[g.env.code]? = some p) :
    g.due s' = some i := by
  unfold due at h ⊢
  split at h
  · cases h
  rename_i hpc
  rw [if_neg hpc]
  rw [Array.getD_eq_getD_getElem?] at h ⊢
  cases hp : s.code.programs[g.env.code]? with
  | none =>
    rw [hp] at h
    cases h
  | some p =>
    rw [hp] at h
    rwa [hs hp]

lemma GState.due_congr {g' : GState} (henv : g'.env = g.env) (hpc : g'.machine.pc = g.machine.pc) : g'.due s = g.due s := by
  unfold due
  rw [henv, hpc]

lemma GState.Faults.grows (h : g.Faults op s s') : s.Grows s' := by
  obtain ⟨-, ⟨-, rfl⟩ | ⟨-, v, text, hrun⟩⟩ := h
  · exact .refl s'
  · exact (perform_error hrun).resolve_left (not_isFinal_vm v text)

namespace Explore

variable {r : GState.Executed}

lemma execute_cases (h : execute {} g s = .ok r s') : (g.due s = none ∧ r.successors = []) ∨
    ∃ op s1, g.Faults op s s1 ∨ ∃ o, g.Performs op s o s1 := by
  obtain hdue | ⟨op, s1, hfaults | hperforms | ⟨f, hstops⟩⟩ := execute_split g s
  · rw [execute_beyond hdue] at h
    cases h
    exact .inl ⟨hdue, rfl⟩
  · exact .inr ⟨op, s1, .inl hfaults⟩
  · exact .inr ⟨op, s1, .inr hperforms⟩
  · rw [execute_stops hstops] at h
    cases h

/-! ## Back in the caller -/

variable {caller c last : GState} {n : Nat} {data : Option ReturnData} {reverted : Bool} {gs : List GState}

lemma suspended_run (hn : s.shared.suspended[n]? = some caller) : suspended n s = .ok caller s := by
  show EStateM.Result.ok (s.shared.suspended.getD n default) s = _
  rw [Array.getD_eq_getD_getElem?, hn, Option.getD_some]

lemma resume_of_finish {P : GState → Prop}
    (h : ∀ i s1, c.due s = some i → s.Grows s1 → (c.finish i.opcode).Yields s1 fun o =>
      ∀ gs, o = .states gs → ∀ g ∈ gs, P { g with node := node }) :
    (resume c node).Yields s fun gs => ∀ g ∈ gs, P g := by
  have hat : (c.instrAt? c.machine.pc).Yields s (· = c.due s) := by
    rw [Yields, c.instrAt?_run s]
    exact ⟨.refl s, rfl⟩
  refine hat.bind fun due s1 hs1 hdue => ?_
  split
  · exact .throw _
  refine (h _ s1 hdue.symm hs1).attempt.bind fun r s2 _ hr => ?_
  split
  · exact .pure (List.forall_mem_map.2 (hr _ rfl _ rfl))
  -- a caller that meets a fault here does not go on
  iterate 2 exact .pure (List.forall_mem_nil _)
  exact .throw _

lemma resume_within (c : GState) (node : Option Nat) (loads : Bool) (hoff : loads = false → s.loader.isNone = true) :
    (resume c node).Yields s fun gs => ∀ g ∈ gs, c.Passes { loads := loads } true true g := by
  refine resume_of_finish fun i s1 _ hs1 => ?_
  refine (GState.finish_within i.opcode fun hl => hs1.loader.trans (hoff hl)).mono ?_
  rintro _ ho gs rfl g hg
  obtain ⟨g1, g2, _, hg1, hg2, rfl⟩ := ho.2 g hg
  exact ⟨g1, g2, node, hg1, hg2, rfl⟩

lemma resume_passes {gs : List GState} (h : resume c node s = .ok gs s') (hg : g ∈ gs) :
    c.Passes { loads := true } true true g := ((resume_within c node true nofun).ok h).2 g hg

lemma of_onGraph {α : Type} {a : α} {f : Nat → Graph → Unit × Graph} {c : Engine α}
    (h : (match node with
      | some n => do
        onGraph (f n)
        c
      | _ => c) s = .ok a s') : ∃ s1, s.Grows s1 ∧ c s1 = .ok a s' := by
  cases node with
  | none => exact ⟨s, .refl s, h⟩
  | some n =>
    obtain ⟨_, s1, hgraph, h⟩ := of_bind_ok h
    exact ⟨s1, (Calm.ok hgraph), h⟩

lemma fail_run {tx : Tx} {rest : List Frame} {r : GState × List GState} (hf : last.frames = ⟨tx, some n⟩ :: rest)
    (hn : s.shared.suspended[n]? = some caller) (hr : fail {} last op s = .ok r s') :
    ∃ s1, (resaved s n (failed caller last)).Grows s1 ∧ resume (failed caller last) last.node s1 = .ok r.2 s' := by
  rw [fail_unobserved, hf] at hr
  dsimp only at hr
  rw [bind_ok (suspended_run hn)] at hr
  obtain ⟨s1, hs1, hr⟩ := of_onGraph hr
  obtain ⟨gs, s2, hgs, hpure⟩ := of_bind_ok hr
  cases hpure
  exact ⟨s1, hs1, hgs⟩

/-- A caller that its call is finished in, after a frame that halted in a state. -/
structure Handed (caller last : GState) (data : Option ReturnData) (reverted : Bool) (c : GState) : Prop where
  env : c.env = caller.env
  frames : c.frames = caller.frames
  /-- A caller that made an account pays for it. -/
  machine : ¬ last.IsCreation → caller.machine.CopyOf c.machine
  paid : ∃ m, caller.machine.CopyOf m ∧ (c.machine = m ∨ c.machine = m.useGas last.machine.minGas last.machine.maxGas)
  returned : c.lastReturn = data
  notes : List.Forall₂ Note.CopyOf (noted caller last).notes c.notes
  /-- What was done in the frame is taken back, but for its conditions. -/
  reverts : reverted = true → ∃ w, caller.world.CopyFor caller.env.active w ∧
    c.world = { w with constraints := caller.world.constraints ++ last.world.constraints }
  commits : reverted = false → last.world.CopyOf c.world ∧ c.world.constraints = last.world.constraints ∧
    (last.world.find? caller.env.active).isSome

lemma handBack_run (hn : s.shared.suspended[n]? = some caller) (hr : handBack last n data reverted s = .ok gs s') :
    ∃ c s1, Handed caller last data reverted c ∧ (resaved s n (noted caller last)).Grows s1 ∧
      resume c last.node s1 = .ok gs s' := by
  unfold handBack at hr
  rw [bind_ok (suspended_run hn)] at hr
  obtain ⟨_, _, ⟨⟩, hr⟩ := of_bind_ok hr
  obtain ⟨c, s1, hcopy, hr⟩ := of_bind_ok hr
  obtain ⟨hs1, hc, hcs⟩ := ((noted caller last).copy_yields false _).ok hcopy
  have henv : c.env = caller.env := by rw [hc.rest]; rfl
  have hframes : c.frames = caller.frames := by rw [hc.rest]; rfl
  have hconstraints : c.world.constraints = caller.world.constraints := hcs rfl
  cases reverted with
  | true =>
    refine ⟨{ c with
      world := { c.world with constraints := c.world.constraints ++ last.world.constraints }, lastReturn := data },
      s1, ⟨henv, hframes, fun _ => hc.machine, ⟨_, hc.machine, .inl rfl⟩, rfl, hc.notes,
        fun _ => ⟨c.world, hc.world, ?_⟩, nofun⟩, hs1, hr⟩
    rw [hconstraints]
  | false =>
    obtain ⟨w, s2, hw, hr⟩ := of_bind_ok hr
    obtain ⟨hs2, hw, hwcs, -⟩ := (last.world.copy_does false).yields.ok hw
    split at hr
    · cases hr
    rename_i hactive
    rw [henv] at hactive
    refine ⟨{ c with
      world := w, lastReturn := data
      machine := if last.tx?.any (·.kind == .creation) then c.machine.useGas last.machine.minGas last.machine.maxGas
        else c.machine }, s2, ⟨henv, hframes, fun hlast => ?_, ⟨_, hc.machine, ?_⟩, rfl, hc.notes, nofun,
          fun _ => ⟨hw, hwcs rfl, ?_⟩⟩, hs1.trans hs2, hr⟩
    · have hkind := Bool.eq_false_iff.2 hlast
      simp only [hkind]
      exact hc.machine
    · split
      · exact .inr rfl
      · exact .inl rfl
    · rw [Option.isNone_iff_eq_none] at hactive
      exact Option.isSome_iff_ne_none.2 hactive

end Explore
end EvmAudit
