import EvmAudit.Proofs.Calls

/-!
# What observers are told

An observer that drops a state of a list is not shown the one behind it. The observers of the end of a transaction are
told of an instruction that halts or meets a fault, and of no other end of a frame. The observers of a call are shown
the states that follow it only if it is answered at once: when it starts a frame, these states are shown to the observers
of the instruction that ends the frame.
-/

namespace EvmAudit

open Hooks
open Engine (bind_ok of_bind_ok bind_congr_run attempt)

variable {g g' final : GState} {s s' : Session} {misses : Bool} {h' : Hooks} {f : Frame} {rest : List Frame}

/-! ## Going over a list of states -/

/-- What becomes of a state when an observer goes over a list. -/
inductive Verdict where
  | kept (g : GState)
  | dropped
  | passed (g : GState)

def Verdict.left? : Verdict → Option GState
  | .kept g | .passed g => some g
  | .dropped => none

namespace Hooks

variable {o : Observer} {gs : List GState} {vs : List Verdict}

/-- An observer goes over a list of states, and over the one behind a state that it drops it passes. -/
def sweep (o : Observer) : Bool → List GState → Engine (List Verdict)
  | _, [] => return []
  | true, g :: gs => return .passed g :: (← sweep o false gs)
  | false, g :: gs => do
    match ← Engine.attempt (o g) with
    | .ok g => return .kept g :: (← sweep o false gs)
    | .error .skipState => return .dropped :: (← sweep o true gs)
    | .error f => throw f

/-- The states that an observer does not drop when it is shown each of them. -/
def sift (o : Observer) : List GState → Engine (List GState)
  | [] => return []
  | g :: gs => do
    match ← Engine.attempt (o g) with
    | .ok g => return g :: (← sift o gs)
    | .error .skipState => sift o gs
    | .error f => throw f

/-- From a place on, an observer leaves what it leaves when it goes over the states there. -/
lemma tellEach_append (o : Observer) (n : Nat) (misses : Bool) (pre gs : List GState) (hn : gs.length ≤ n) :
    tellEach o n (pre.length + misses.toNat) (pre ++ gs) =
      (do return pre ++ (← sweep o misses gs).filterMap Verdict.left?) := by
  induction gs generalizing n misses pre with
  | nil =>
    cases n <;> simp [tellEach, sweep]
  | cons g gs ih =>
    cases misses with
    | true =>
      have hrest := ih n false (pre ++ [g]) (Nat.le_of_succ_le hn)
      simpa [sweep, Verdict.left?] using hrest
    | false =>
      obtain ⟨n, rfl⟩ := Nat.exists_eq_succ_of_ne_zero (Nat.ne_zero_of_lt hn)
      have hn := Nat.le_of_succ_le_succ hn
      have hplace : (pre ++ g :: gs)[pre.length]? = some g := by simp
      simp only [Bool.toNat_false, Nat.add_zero, tellEach, hplace, sweep, bind_assoc]
      refine bind_congr fun r => ?_
      cases r with
      | ok g' =>
        have hrest := ih n false (pre ++ [g']) hn
        simpa [Verdict.left?] using hrest
      | error f =>
        cases f with
        | skipState =>
          have herase : (pre ++ g :: gs).eraseIdx pre.length = pre ++ gs := by
            simp [List.eraseIdx_append_of_length_le (Nat.le_refl _)]
          have hrest := ih n true pre hn
          simpa [Verdict.left?, List.filterMap_cons, herase] using hrest
        | _ => rfl

/-- What an observer has done with the states of a list, after one that it dropped or not. -/
structure Swept (misses : Bool) (gs : List GState) (vs : List Verdict) : Prop where
  length : vs.length = gs.length
  /-- The states that it was not shown are those behind one that it dropped. -/
  passed : ∀ i g, vs[i]? = some (.passed g) ↔
    gs[i]? = some g ∧ ((i = 0 ∧ misses = true) ∨ ∃ j, i = j + 1 ∧ vs[j]? = some .dropped)

lemma Swept.cons {misses' : Bool} {v : Verdict} (h : Swept misses' gs vs)
    (hv : ∀ g', v = .passed g' ↔ g' = g ∧ misses = true) (hmisses : misses' = true ↔ v = .dropped) :
    Swept misses (g :: gs) (v :: vs) where
  length := congrArg (· + 1) h.length
  passed i g' := by
    cases i with
    | zero => simpa [eq_comm] using hv g'
    | succ i =>
      rw [List.getElem?_cons_succ, h.passed i g']
      cases i with
      | zero => simp [hmisses]
      | succ i => simp

lemma sweep_swept (h : sweep o misses gs s = .ok vs s') : Swept misses gs vs := by
  induction gs generalizing misses vs s with
  | nil =>
    cases h
    exact ⟨rfl, by simp⟩
  | cons g gs ih =>
    cases misses with
    | true =>
      obtain ⟨vs, s1, hvs, hpure⟩ := of_bind_ok h
      cases hpure
      exact (ih hvs).cons (by simp [eq_comm]) (by simp)
    | false =>
      obtain ⟨r, s1, hr, h⟩ := of_bind_ok h
      split at h
      iterate 2
        obtain ⟨vs, s2, hvs, hpure⟩ := of_bind_ok h
        cases hpure
        exact (ih hvs).cons (by simp) (by simp)
      cases h

lemma sift_of_sweep (h : sweep o false gs s = .ok vs s') (hlast : ∀ v ∈ vs.dropLast, v ≠ .dropped) :
    sift o gs s = .ok (vs.filterMap Verdict.left?) s' := by
  induction gs generalizing vs s with
  | nil =>
    cases h
    rfl
  | cons g gs ih =>
    obtain ⟨r, s1, hr, h⟩ := of_bind_ok h
    rw [sift, bind_ok hr]
    split at h
    · obtain ⟨vs, s2, hvs, hpure⟩ := of_bind_ok h
      cases hpure
      have hrest := ih hvs fun v hv => hlast v (by cases vs <;> simp_all)
      exact bind_ok hrest
    · obtain ⟨vs, s2, hvs, hpure⟩ := of_bind_ok h
      cases hpure
      cases gs with
      | nil =>
        cases hvs
        rfl
      | cons next gs =>
        -- the drop is not at the end of the list
        cases vs with
        | nil => cases (sweep_swept hvs).length
        | cons v vs => exact absurd rfl (hlast .dropped (by simp))
    · cases h

/-- The observers of a list of states go over it one after the other. Each leaves those that it does not drop, in their
order, but it is never shown the state behind one that it drops; it is shown all of them just if it drops none but the
last. -/
theorem dropping_hides_the_next (os : List Observer) (gs : List GState) :
    tellAll os gs = os.foldlM (fun gs o => do return (← sweep o false gs).filterMap Verdict.left?) gs ∧
    ∀ (o : Observer) (gs : List GState) (s : Session) (vs : List Verdict) (s' : Session),
      sweep o false gs s = .ok vs s' → vs.length = gs.length ∧
        (∀ i g, vs[i + 1]? = some (.passed g) ↔ gs[i + 1]? = some g ∧ vs[i]? = some .dropped) ∧
        (∀ g, vs[0]? ≠ some (.passed g)) ∧
        ((∀ v ∈ vs.dropLast, v ≠ .dropped) → sift o gs s = .ok (vs.filterMap Verdict.left?) s') := by
  refine ⟨?_, fun o gs s vs s' h => ?_⟩
  · exact congrArg (List.foldlM · gs os) (funext₂ fun gs o => tellEach_append o gs.length false [] gs (Nat.le_refl _))
  · have hswept := sweep_swept h
    refine ⟨hswept.length, fun i g => ?_, fun g => ?_, sift_of_sweep h⟩
    all_goals simp [hswept.passed]

/-- Of three states that it would drop, an observer is not shown the second. -/
theorem second_of_three_is_passed : ∃ vs,
    sweep (fun _ => throw .skipState) false [default, default, default] default = .ok vs default ∧
      vs[1]? = some (.passed default) := by
  refine ⟨[.dropped, .passed default, .dropped], rfl, ?_⟩
  have hhidden := (dropping_hides_the_next [] []).2 (fun _ => throw .skipState) [default, default, default] default _ _ rfl
  exact (hhidden.2.1 0 default).2 ⟨rfl, rfl⟩

/-- An observer that would drop every state leaves the second of two. -/
theorem second_is_hidden : tellAll [fun _ => throw .skipState] [default, default] default = .ok [default] default ∧
    sift (fun _ => throw .skipState) [default, default] default = .ok [] default := ⟨rfl, rfl⟩

end Hooks
namespace Explore

variable {h : Hooks} {op : Opcode} {plan : Plan} {isCreation : Bool}

/-! ## Up to the instruction, and from there -/

/-- What a state has come to when its instruction has been looked at. -/
inductive Fate where
  | dropped (g : GState)
  | behind (g : GState)
  | short (g : GState) (op : Opcode)
  | performed (g : GState) (op : Opcode) (r : Except Fault Outcome)

def Fate.opcode? : Fate → Option Opcode
  | .dropped _ | .behind _ => none
  | .short _ op | .performed _ op _ => some op

def Fate.isStart : Fate → Bool
  | .performed _ _ (.ok (.call ..)) => true
  | _ => false

/-- Did the instruction end the frame, by halting or by a fault of the machine? -/
def Fate.isEnd : Fate → Bool
  | .performed _ _ (.ok (.halt ..)) | .performed _ _ (.error (.vm _ _)) => true
  | _ => false

def approach (h : Hooks) (g : GState) : Engine Fate := do
  match ← .attempt (tell h.onState g) with
  | .error .skipState => return .dropped g
  | .error f => throw f
  | .ok g =>
    match ← g.instrAt? g.machine.pc with
    | none => return .behind g
    | some i =>
      if g.machine.stack.length < i.opcode.needs then return .short g i.opcode
      match ← .attempt (tell (h.before i.opcode) g) with
      | .error .skipState => return .dropped g
      | .error f => throw f
      | .ok g => return .performed g i.opcode (← .attempt (g.perform i.opcode))

def told (h : Hooks) (op : Opcode) (r : GState × List GState) : Engine GState.Executed := do
  return { state := r.1, successors := ← tellAll (h.after op) r.2, opcode := some op }

def conclude (h : Hooks) : Fate → Engine GState.Executed
  | .dropped g => return { state := g }
  | .behind g => do
    keepWorld h g
    return { state := g }
  | .short g op => do told h op (← fail h g op)
  | .performed g op (.ok (.states gs)) => told h op (g, gs)
  | .performed g op (.ok (.call tx waiting)) => do
    return { state := g, successors := [← startFrame g tx waiting.world], opcode := some op }
  | .performed g op (.ok (.halt final data reverted)) => do told h op (← finishFrame h g final op data reverted)
  | .performed g op (.error (.vm _ _)) => do
    let g ← tell (h.onEnd.map (fun o => o ⟨g.tx?, false, false⟩)) g
    told h op (← fail h g op)
  | .performed _ _ (.error f) => throw f

lemma execute_eq_conclude (h : Hooks) (g : GState) : execute h g = approach h g >>= conclude h := by
  unfold execute approach
  simp only [bind_assoc]
  refine bind_congr fun r => ?_
  rcases r with f | g
  · cases f <;> rfl
  simp only [bind_assoc]
  refine bind_congr fun i => ?_
  cases i with
  | none => rfl
  | some i =>
    dsimp only
    split
    · rfl
    simp only [bind_assoc]
    refine bind_congr fun r => ?_
    rcases r with f | g
    · cases f <;> rfl
    simp only [bind_assoc]
    refine bind_congr fun r => ?_
    rcases r with f | o
    · cases f <;> rfl
    · cases o <;> rfl

lemma execute_of_approach {fate : Fate} (happroach : approach h g s = .ok fate s') :
    execute h g s = conclude h fate s' := by
  rw [execute_eq_conclude]
  exact bind_ok happroach

/-- Observers that differ only in what a state does not come to make no difference to it. -/
lemma execute_congr (hstate : h'.onState = h.onState) (hbefore : h'.before = h.before)
    (hworld : h'.onWorld = h.onWorld) (hsuccess : h'.onSuccess = h.onSuccess)
    (hfate : ∀ fate s', approach h g s = .ok fate s' → (fate.isEnd = true → h'.onEnd = h.onEnd) ∧
      ∀ op, fate.opcode? = some op → fate.isStart = false → h'.after op = h.after op) :
    execute h' g s = execute h g s := by
  rw [execute_eq_conclude, execute_eq_conclude]
  refine bind_congr_run ?_ fun fate s' happroach => ?_
  · simp [approach, hstate, hbefore]
  obtain ⟨hend, hafter⟩ := hfate fate s' happroach
  rcases fate with g | g | ⟨g, op⟩ | ⟨g, op, f | o⟩
  · rfl
  · simp [conclude, keepWorld, hworld]
  · simp [conclude, told, fail, hafter op rfl rfl]
  · cases f with
    | vm => simp [conclude, told, fail, hend rfl, hafter op rfl rfl]
    | _ => rfl
  · cases o with
    | states gs => simp [conclude, told, hafter op rfl rfl]
    | call tx waiting => rfl
    | halt => simp [conclude, told, finishFrame, keepWorld, hworld, hsuccess, hend rfl, hafter op rfl rfl]

/-! ## The states that are met -/

/-- A state is taken from the list of work in time. -/
def Taken (plan : Plan) (isCreation : Bool) (s : Session) (g : GState) (s' : Session) : Prop :=
  ∃ s₁, takeShallow plan (s.work.size + 1) s = .ok (some g) s₁ ∧ isTimeOver plan isCreation s₁ = .ok false s'

/-- While the list of work is worked on, a state is met in a session. -/
inductive Meets (h : Hooks) (plan : Plan) (isCreation : Bool) (s : Session) : GState → Session → Prop
  | first {g : GState} {s' : Session} (hg : Taken plan isCreation s g s') : Meets h plan isCreation s g s'
  | next {g g' : GState} {final : Option GState} {s₁ s₂ s' : Session} (hg : Meets h plan isCreation s g s₁)
      (hexpand : expand h plan g s₁ = .ok final s₂) (hg' : Taken plan isCreation s₂ g' s') :
      Meets h plan isCreation s g' s'

lemma Meets.later {final : Option GState} {s1 s2 : Session} (hg : Taken plan isCreation s g s1)
    (hexpand : expand h plan g s1 = .ok final s2) (hg' : Meets h plan isCreation s2 g' s') :
    Meets h plan isCreation s g' s' := by
  induction hg' with
  | first htaken => exact .next (.first hg) hexpand htaken
  | next _ hexpand' htaken ih => exact .next ih hexpand' htaken

/-- Observers that make no difference to the states that are met make none to the work. -/
lemma work_congr (hstop : h'.onWorkStop = h.onWorkStop)
    (hexecute : ∀ g s1, Meets h plan isCreation s g s1 → execute h' g s1 = execute h g s1) (n : Nat)
    (finals : List GState) : work h' plan isCreation n finals s = work h plan isCreation n finals s := by
  induction n generalizing s finals with
  | zero => rfl
  | succ n ih =>
    refine bind_congr_run rfl fun _ _ hget => ?_
    cases hget
    refine bind_congr_run rfl fun taken s1 htake => ?_
    cases taken with
    | none => simp [hstop]
    | some g =>
      refine bind_congr_run rfl fun isOver s2 hover => ?_
      cases isOver with
      | true => rfl
      | false =>
        have htaken : Taken plan isCreation s g s2 := ⟨s1, htake, hover⟩
        refine bind_congr_run (bind_congr_run ?_ fun _ _ _ => rfl) fun final s3 hexpand => ?_
        · rw [attempt, attempt, hexecute g s2 (.first htaken)]
        · exact ih (fun g' s' hg' => hexecute g' s' (.later htaken hexpand hg')) _

/-! ## Ends of transactions -/

/-- Executing a state tells nobody that a transaction has ended. -/
def TellsNoEnd (h : Hooks) (g : GState) (s : Session) : Prop := ∀ os, execute { h with onEnd := os } g s = execute h g s

/-- Executing a state gets to a point where the observers of ends are told once, and what follows does not depend on who
they are. -/
def TellsEnd (h : Hooks) (g : GState) (s : Session) (ending : TxEnd) (final : GState) (s' : Session) : Prop :=
  ∃ rest : GState → Engine GState.Executed, ∀ os : List (TxEnd → Observer),
    execute { h with onEnd := os } g s = (tell (os.map fun o => o ending) final >>= rest) s'

/-- No other end is told of: not that of a frame whose instruction lacks operands or that has no instruction left. -/
lemma tellsNoEnd_of_not_isEnd (hend : ∀ fate s', approach h g s = .ok fate s' → fate.isEnd = false) :
    TellsNoEnd h g s := by
  refine fun os => execute_congr rfl rfl rfl rfl fun fate s' happroach => ⟨fun htrue => ?_, fun _ _ _ => rfl⟩
  cases (hend fate s' happroach).symm.trans htrue

/-- What remains to be done at the end of a frame when the observers of ends have been told. -/
def finishTold (h : Hooks) (g : GState) (f : Frame) (op : Opcode) (data : Option ReturnData) (reverted : Bool)
    (final : GState) : Engine (GState × List GState) := do
  match f.caller with
  | none =>
    if (f.tx.kind == .message || data.isSome) && !reverted then
      let g ← h.onSuccess g
      keepWorld h { final with world := { final.world with node := g.node } }
      return (g, [])
    return (g, [])
  | some waiting =>
    let _ ← tellAll (h.after op) [final]
    return (g, ← handBack g waiting data reverted)

lemma tellsEnd_of_halt {data : Option ReturnData} {reverted : Bool}
    (happroach : approach h g s = .ok (.performed g' op (.ok (.halt final data reverted))) s')
    (hframes : final.frames = f :: rest) : TellsEnd h g s ⟨some f.tx, f.caller.isSome, reverted⟩ final s' := by
  refine ⟨fun final => finishTold h g' f op data reverted final >>= told h op, fun os => ?_⟩
  rw [execute_of_approach (h := { h with onEnd := os }) happroach, ← bind_assoc]
  simp only [conclude, finishFrame]
  rewrite [hframes]
  rfl

/-- The end of a frame is told of once where its instruction halts or meets a fault, and otherwise not at all: not where
the instruction lacks operands, and not where there is none left. -/
theorem ends_are_told_of_halts_and_faults (h : Hooks) :
    (∀ g s fate s', approach h g s = .ok fate s' → (fate.isEnd = false → TellsNoEnd h g s) ∧
      (∀ g' op final data reverted f rest, fate = .performed g' op (.ok (.halt final data reverted)) →
        final.frames = f :: rest → TellsEnd h g s ⟨some f.tx, f.caller.isSome, reverted⟩ final s') ∧
      ∀ g' op kind message, fate = .performed g' op (.error (.vm kind message)) →
        TellsEnd h g s ⟨g'.tx?, false, false⟩ g' s') ∧
    ∀ plan isCreation n finals s, (∀ g s₁ fate s₂, Meets h plan isCreation s g s₁ → approach h g s₁ = .ok fate s₂ →
        fate.isEnd = false) →
      ∀ os, work { h with onEnd := os } plan isCreation n finals s = work h plan isCreation n finals s := by
  refine ⟨fun g s fate s' happroach => ⟨fun hend => ?_, ?_, ?_⟩, fun plan isCreation n finals s hends os => ?_⟩
  · refine tellsNoEnd_of_not_isEnd fun fate' s'' hagain => ?_
    cases happroach.symm.trans hagain
    exact hend
  · rintro g' op final data reverted f rest rfl
    exact tellsEnd_of_halt happroach
  · rintro g' op kind message rfl
    exact ⟨fun g => fail h g op >>= told h op, fun os => execute_of_approach (h := { h with onEnd := os }) happroach⟩
  · refine work_congr ?_ (fun g s₁ hmeets => ?_) n finals
    · rfl
    · exact tellsNoEnd_of_not_isEnd (fun fate s₂ => hends g s₁ fate s₂ hmeets) os

/-- A frame that lacks operands ends untold. -/
theorem missing_operands_are_not_told : TellsNoEnd {} (.ofOperands []) (.ofCodes ["01"]) := by
  obtain ⟨fate, s', happroach, hend⟩ : ∃ fate s', approach {} (.ofOperands []) (.ofCodes ["01"]) = .ok fate s' ∧
      fate.isEnd = false := by decide +kernel
  exact ((ends_are_told_of_halts_and_faults {}).1 _ _ _ _ happroach).1 hend

/-- An observer that would end the analysis is not told of a frame that lacks operands, nor of one that runs off its
code. -/
theorem ends_that_are_not_told :
    Engine.passes (execute { onEnd := [fun _ _ => throw (.exit none)] } (.ofOperands [])) (.ofCodes ["01"])
      (fun r _ => r.state.frames.isEmpty) = true ∧
    Engine.passes (execute { onEnd := [fun _ _ => throw (.exit none)] } (.ofOperands [])) (.ofCodes [""])
      (fun _ s => s.openWorlds.length == 1) = true := by
  decide +kernel

end Explore

/-! ## Instructions of calls -/

def Hooks.withAfter (h : Hooks) (op : Opcode) (os : List Observer) : Hooks :=
  { h with after := fun e => if e = op then os else h.after e }

lemma Hooks.tellAll_nil (os : List Observer) : tellAll os [] = pure [] := by
  induction os with
  | nil => rfl
  | cons o os ih => exact ih

namespace Explore

/-- The observers of an instruction make a difference only where it is due and does not start a frame. -/
lemma execute_withAfter (hstarts : ∀ fate s', approach h g s = .ok fate s' → fate.opcode? = some op →
    fate.isStart = true) (os : List Observer) : execute (h.withAfter op os) g s = execute h g s := by
  refine execute_congr rfl rfl rfl rfl fun fate s' happroach => ⟨fun _ => rfl, fun e he hstart => if_neg ?_⟩
  rintro rfl
  cases (hstarts fate s' happroach he).symm.trans hstart

/-- The states that are left are those in which a caller goes on, if there are any. -/
def GoesBack {α : Type} (states : α → List GState) (c : Engine α) : Prop :=
  ∀ s a s', c s = .ok a s' → states a = [] ∨ ∃ caller node s₁, resume caller node s₁ = .ok (states a) s'

namespace GoesBack

variable {α β : Type} {states : α → List GState}

lemma pure {a : α} (h : states a = []) : GoesBack states (pure a) := by
  rintro _ _ _ ⟨⟩
  exact .inl h

lemma throw (f : Fault) : GoesBack states (throw f) := by
  rintro _ _ _ ⟨⟩

lemma next {c : Engine β} {f : β → Engine α} (hf : ∀ b, GoesBack states (f b)) : GoesBack states (c >>= f) := by
  intro s a s' h
  obtain ⟨b, s1, -, h⟩ := of_bind_ok h
  exact hf b s1 a s' h

lemma pair {c : Engine (List GState)} (hc : GoesBack id c) (g : GState) : GoesBack Prod.snd (do return (g, ← c)) := by
  intro s p s' h
  obtain ⟨gs, s1, hgs, hpure⟩ := of_bind_ok h
  cases hpure
  exact hc s gs s' hgs

end GoesBack

lemma resume_goesBack (c : GState) (node : Option Nat) : GoesBack id (resume c node) :=
  fun s _ _ h => .inr ⟨c, node, s, h⟩

lemma fail_goesBack (h : Hooks) (g : GState) (op : Opcode) : GoesBack Prod.snd (fail h g op) := by
  unfold fail
  split
  · exact .throw _
  · exact .pure rfl
  · refine .next fun gs => .next fun caller => .next fun _ => ?_
    split
    · exact .next fun _ => (resume_goesBack _ _).pair _
    · exact (resume_goesBack _ _).pair _

lemma handBack_goesBack (g : GState) (n : Nat) (data : Option ReturnData) (reverted : Bool) :
    GoesBack id (handBack g n data reverted) := by
  refine .next fun caller => .next fun _ => .next fun c => ?_
  split
  · exact resume_goesBack _ _
  · refine .next fun world => ?_
    split
    · exact .throw _
    · exact resume_goesBack _ _

lemma finishFrame_goesBack (h : Hooks) (g final : GState) (op : Opcode) (data : Option ReturnData) (reverted : Bool) :
    GoesBack Prod.snd (finishFrame h g final op data reverted) := by
  unfold finishFrame
  split
  · exact .throw _
  refine .next fun final => ?_
  split
  · split
    · exact .next fun _ => .next fun _ => .pure rfl
    · exact .pure rfl
  · exact .next fun _ => (handBack_goesBack _ _ _ _).pair g

lemma told_of_goesBack {c : Engine (GState × List GState)} (hc : GoesBack Prod.snd c) {r : GState.Executed}
    (hr : (c >>= told h op) s = .ok r s') (hsome : r.successors ≠ []) : ∃ caller node gs s1 s2,
      resume caller node s1 = .ok gs s2 ∧ tellAll (h.after op) gs s2 = .ok r.successors s' := by
  obtain ⟨p, s1, hp, hr⟩ := of_bind_ok hr
  obtain ⟨gs, s2, hgs, hpure⟩ := of_bind_ok hr
  cases hpure
  obtain hnone | ⟨caller, node, s0, hresume⟩ := hc s p s1 hp
  · rw [hnone, tellAll_nil] at hgs
    cases hgs
    exact absurd rfl hsome
  · exact ⟨caller, node, p.2, s0, s1, hresume, hgs⟩

/-- A call that is answered at once is shown to its observers, once and with all its successors. One that starts a
frame never is, whatever becomes of the frame; the observers of the instruction that ends the frame are shown the states
in which the caller goes on. -/
theorem calls_that_start_frames_are_not_shown (h : Hooks) (k : CallKind) :
    (∀ g s g' gs s₁, approach h g s = .ok (.performed g' k.opcode (.ok (.states gs))) s₁ →
      execute h g s = told h k.opcode (g', gs) s₁) ∧
    (∀ plan isCreation n finals s, (∀ g s₁ fate s₂, Meets h plan isCreation s g s₁ → approach h g s₁ = .ok fate s₂ →
        fate.opcode? = some k.opcode → fate.isStart = true) →
      ∀ os, work (h.withAfter k.opcode os) plan isCreation n finals s = work h plan isCreation n finals s) ∧
    ∀ g s fate op s₁ r s', approach h g s = .ok fate s₁ → fate.opcode? = some op →
      ((∃ g', fate = .short g' op) ∨ fate.isEnd = true) → execute h g s = .ok r s' → r.successors ≠ [] →
      ∃ caller node gs s₂ s₃, resume caller node s₂ = .ok gs s₃ ∧
        Hooks.tellAll (h.after op) gs s₃ = .ok r.successors s' := by
  refine ⟨fun g s g' gs s₁ => execute_of_approach, fun plan isCreation n finals s hstarts os => ?_, ?_⟩
  · refine work_congr ?_ (fun g s₁ hmeets => ?_) n finals
    · rfl
    · exact execute_withAfter (fun fate s₂ => hstarts g s₁ fate s₂ hmeets) os
  intro g s fate op s₁ r s' happroach hop hend hr hsome
  rw [execute_of_approach happroach] at hr
  rcases fate with g | g | ⟨g, e⟩ | ⟨g, e, f | o⟩
  · cases hop
  · cases hop
  · cases hop
    exact told_of_goesBack (fail_goesBack h g op) hr hsome
  · cases hop
    cases f with
    | vm =>
      obtain ⟨g₂, s₂, -, hr⟩ := of_bind_ok hr
      exact told_of_goesBack (fail_goesBack h g₂ op) hr hsome
    | _ => simp [Fate.isEnd] at hend
  · cases hop
    cases o with
    | halt final data reverted => exact told_of_goesBack (finishFrame_goesBack h g final op data reverted) hr hsome
    | _ => simp [Fate.isEnd] at hend

def Fate.isCall : Fate → Bool
  | .performed _ .call (.ok (.states gs)) => gs.length == 1
  | _ => false

theorem call_without_code_is_shown : ∃ g gs s', gs.length = 1 ∧
    execute {} (.ofOperands [100000, 512, 0, 0, 0, 0, 0]) (.ofCodes ["f1", ""]) = told {} .call (g, gs) s' := by
  obtain ⟨fate, s', happroach, htest⟩ : ∃ fate s',
      approach {} (.ofOperands [100000, 512, 0, 0, 0, 0, 0]) (.ofCodes ["f1", ""]) = .ok fate s' ∧ fate.isCall := by
    decide +kernel
  unfold Fate.isCall at htest
  split at htest
  · rename_i g gs
    exact ⟨g, gs, s', eq_of_beq htest, (calls_that_start_frames_are_not_shown {} .call).1 _ _ _ _ _ happroach⟩
  · cases htest

def droppingAfter (op : Opcode) : Hooks := ({} : Hooks).withAfter op [fun _ => throw .skipState]

/-- The states that a call goes on in whose frame ends at once. -/
def returnedTo (h : Hooks) : Engine (List GState) := do
  match (← execute h (.ofOperands [100000, 512, 0, 0, 0, 0, 0])).successors with
  | [g] => return (← execute h g).successors
  | _ => throw .outOfRange

/-- The observers of a call do not drop the state after it, but those of the stop in its frame do. -/
theorem stops_show_what_calls_do_not :
    Engine.passes (returnedTo (droppingAfter .call)) (.ofCodes ["f1", "00"]) (fun gs _ => gs.length == 1) = true ∧
    Engine.passes (returnedTo (droppingAfter .stop)) (.ofCodes ["f1", "00"]) (fun gs _ => gs.isEmpty) = true := by
  decide +kernel

end Explore
end EvmAudit
