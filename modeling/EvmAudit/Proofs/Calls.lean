import EvmAudit.Proofs.Finish

/-!
# Calls and the ends of their frames

A call that starts a frame suspends its caller. The caller stays suspended, in the world that it had, however much is
executed in the meantime, and the end of the frame calls it back.
-/

namespace EvmAudit

open Engine GState

variable {g caller c : GState} {k : CallKind} {s s' s1 : Session} {tx : Tx} {r : GState.Executed}
  {K : GState → Session → Prop} {op : Opcode}

/-! ## Starting a frame -/

def Session.KeepsCode (s s' : Session) : Prop :=
  ∀ {i : Nat} {p : Program}, s.code.programs[i]? = some p → s'.code.programs[i]? = some p

lemma CallKind.goesOn (k : CallKind) :
    k.opcode.halts = false ∧ k.opcode.creates = false ∧ k.opcode.returnsData = false := by
  cases k <;> decide

lemma GState.not_isCreation {f : Frame} {rest : List Frame} (h : g.frames = f :: rest)
    (hkind : f.tx.kind = .message) : ¬ g.IsCreation := by
  unfold IsCreation tx?
  rw [h]
  simp [hkind]

namespace Explore

variable {start last : GState} {i : Instr} {n : Nat}

structure Starts (caller : GState) (k : CallKind) (s : Session) (start : GState) (s' : Session) : Prop where
  call : ∃ tx waiting s₁, caller.Performs k.opcode s (.call tx waiting) s₁
  execute : execute {} caller s = .ok { state := caller, successors := [start], opcode := some k.opcode } s'

/-- The state is in the frame of a call; the caller is suspended under a number, as it was but for its conditions, its
notes and what was returned to it. -/
structure Awaits (caller : GState) (i : Instr) (n : Nat) (last : GState) (s : Session) : Prop where
  frame : ∃ tx rest, last.frames = ⟨tx, some n⟩ :: rest ∧ tx.kind = .message
  suspended : ∃ c, s.shared.suspended[n]? = some c ∧ caller.Waits c
  due : caller.due s = some i

lemma startFrame_run {w : World} (h : startFrame caller tx w s = .ok start s') :
    start.frames = ⟨tx, some s.shared.suspended.size⟩ :: caller.frames ∧
      s'.shared.suspended = s.shared.suspended.push caller ∧ s.KeepsCode s' ∧ tx.Begins w start := by
  obtain ⟨new, s1, hnew, h⟩ := of_bind_ok h
  obtain ⟨hs1, hbegins⟩ := (tx.start_yields w s).ok hnew
  cases h
  refine ⟨?_, ?_, hs1.programs, hbegins.accounts, hbegins.constraints, hbegins.isStatic, hbegins.active,
    hbegins.machine⟩
  · show _ :: _ = _
    rw [hs1.suspended]
  · show s1.shared.suspended.push caller = _
    rw [hs1.suspended]

lemma Starts.frame (h : Starts caller k s start s') : ∃ tx n, tx.kind = .message ∧
    start.frames = ⟨tx, some n⟩ :: caller.frames ∧ s'.shared.suspended[n]? = some caller ∧ s.KeepsCode s' := by
  obtain ⟨tx, waiting, s1, hperforms⟩ := h.call
  have hyields := perform_within (g := caller) (s := s) true k.goesOn.1 k.goesOn.2.1 nofun
  obtain ⟨hs1, -, hkind, -⟩ := hyields.ok hperforms.run
  have hrun := h.execute
  rw [execute_performs hperforms] at hrun
  obtain ⟨new, s2, hnew, hpure⟩ := of_bind_ok hrun
  cases hpure
  obtain ⟨hframes, hsuspended, hprograms, -⟩ := startFrame_run hnew
  refine ⟨tx, s1.shared.suspended.size, hkind, hframes, ?_, fun hp => hprograms (hs1.programs hp)⟩
  rw [hsuspended, Array.getElem?_push_size]

lemma Starts.awaits (h : Starts caller k s start s') : ∃ i n, i.opcode = k.opcode ∧ Awaits caller i n start s' := by
  obtain ⟨_, _, _, hperforms⟩ := h.call
  obtain ⟨i, hi, hop⟩ := hperforms.isAt
  obtain ⟨tx, n, hkind, hframes, hsuspended, hprograms⟩ := h.frame
  exact ⟨i, n, hop, ⟨tx, _, hframes, hkind⟩, ⟨caller, hsuspended, .refl caller⟩, due_of_programs hi hprograms⟩

lemma Awaits.of_evolves (h : Awaits caller i n start s) (hevolves : s.Evolves False s')
    (hlast : last.frames = start.frames) : Awaits caller i n last s' := by
  obtain ⟨c, hc, hwaits⟩ := h.suspended
  obtain ⟨c', hc', hwaits'⟩ := hevolves.suspended hc
  refine ⟨hlast ▸ h.frame, ⟨c', hc', hwaits.trans hwaits'⟩, ?_⟩
  exact due_of_programs h.due (hevolves.programs id)

lemma execute_evolves_run (h : execute {} last s = .ok r s') :
    s.Evolves (last.EndsCreation s) s' := after_ok h ▸ execute_evolves last s

lemma Starts.evolves (h : Starts caller k s start s') : s.Evolves False s' := by
  obtain ⟨tx, waiting, s1, hperforms⟩ := h.call
  obtain ⟨i, hi, hop⟩ := hperforms.isAt
  refine (execute_evolves_run h.execute).mono ?_
  rintro ⟨-, j, hj, hdata⟩
  rw [hi] at hj
  cases hj
  rw [hop, k.goesOn.2.2] at hdata
  cases hdata

/-- From the start of a call to the last state of its frame, programs and callers stay what they are, and the caller goes on
waiting. -/
lemma Starts.awaits_last {s0 s2 : Session} (hstart : Starts caller k s0 start s1)
    (hworks : Works GState.LeavesCode s1 s2) (hlast : last.frames = start.frames) :
    ∃ i n, i.opcode = k.opcode ∧ Awaits caller i n last s2 ∧ s0.Evolves False s2 := by
  obtain ⟨i, n, hk, hawaits⟩ := hstart.awaits
  exact ⟨i, n, hk, hawaits.of_evolves hworks.leavesCode hlast, hstart.evolves.trans hworks.leavesCode⟩

/-! ## The end of a frame -/

section

variable (h : Awaits caller i n last s)
include h

lemma Awaits.not_isCreation : ¬ last.IsCreation := by
  obtain ⟨tx, rest, hframes, hkind⟩ := h.frame
  exact GState.not_isCreation hframes hkind

lemma Awaits.due_of_waits (hc : caller.Waits c)
    (hs : ∀ {i : Nat} {p}, s.code.programs[i]? = some p → s'.code.programs[i]? = some p) : c.due s' = some i := by
  obtain ⟨_, _, _, rfl⟩ := hc
  exact due_of_programs h.due hs

lemma Awaits.waits (hc : s.shared.suspended[n]? = some c) : caller.Waits c := by
  obtain ⟨c', hc', hwaits⟩ := h.suspended
  obtain rfl : c' = c := Option.some.inj (hc'.symm.trans hc)
  exact hwaits

/-- A fault in the frame of a call: the caller is called back in its own world, under the conditions of the frame, and
these conditions stay with it. -/
lemma Awaits.fails (hk : i.opcode = k.opcode) (hc : s.shared.suspended[n]? = some c) (hfaults : last.Faults op s s1)
    (hr : execute {} last s = .ok r s') : s'.shared.suspended = s.shared.suspended.setIfInBounds n (failed c last) ∧
    ∃ s2, s2.loader.isNone = s.loader.isNone ∧ ∀ g ∈ r.successors, (failed c last).Resumes k i s2 g := by
  obtain ⟨tx, rest, hframes, -⟩ := h.frame
  have hs1 := hfaults.grows
  rw [execute_faults hfaults] at hr
  obtain ⟨p, s2, hp, hpure⟩ := of_bind_ok hr
  cases hpure
  obtain ⟨s2, hs2, hresume⟩ := fail_run hframes (by rw [hs1.suspended, hc]) hp
  have hdue : (failed c last).due s2 = some i :=
    h.due_of_waits ((h.waits hc).trans ⟨_, _, c.notes, rfl⟩) fun hp => hs2.programs (hs1.programs hp)
  obtain ⟨hs', hresumes⟩ := (resume_yields hdue hk _).ok hresume
  refine ⟨?_, s2, hs2.loader.trans hs1.loader, hresumes⟩
  rw [hs'.suspended, hs2.suspended, ← hs1.suspended]
  rfl

/-- A halt in the frame of a call: the caller is called back in a copy, and keeps the notes that follow the frame. -/
lemma Awaits.halts {o : Outcome} (hk : i.opcode = k.opcode) (hc : s.shared.suspended[n]? = some c)
    (hop : op.halts = true) (hperforms : last.Performs op s o s1) (hr : execute {} last s = .ok r s') :
    s'.shared.suspended = s.shared.suspended.setIfInBounds n (noted c last) ∧
    ∃ data c' s2, data.isSome = op.returnsData ∧ Handed c last data (op == .revert) c' ∧
      s2.loader.isNone = s.loader.isNone ∧ ∀ g ∈ r.successors, c'.Resumes k i s2 g := by
  obtain ⟨tx, rest, hframes, -⟩ := h.frame
  obtain ⟨hs1, final, data, rfl, hdata, hfinal⟩ :=
    (perform_closes hop (fun hc => h.not_isCreation hc.1) s).ok hperforms.run
  rw [execute_performs hperforms] at hr
  obtain ⟨p, s2, hp, hpure⟩ := of_bind_ok hr
  cases hpure
  rw [finishFrame_unobserved, hfinal, hframes] at hp
  obtain ⟨gs, s2, hback, hpure⟩ := of_bind_ok hp
  cases hpure
  obtain ⟨c', s2, hhanded, hs2, hresume⟩ := handBack_run (by rw [hs1.suspended, hc]) hback
  have hdue : c'.due s2 = some i := by
    obtain ⟨st, rs, hm, -⟩ := hhanded.machine h.not_isCreation
    rw [due_congr hhanded.env (by rw [hm])]
    exact h.due_of_waits (h.waits hc) fun hp => hs2.programs (hs1.programs hp)
  obtain ⟨hs', hresumes⟩ := (resume_yields hdue hk _).ok hresume
  refine ⟨?_, data, c', s2, hdata, hhanded, hs2.loader.trans hs1.loader, hresumes⟩
  rw [hs'.suspended, hs2.suspended, ← hs1.suspended]
  rfl

end

end Explore

/-! ## Calls that can be run -/

def Program.ofHex (code : String) : Program := (assign { code := .hex code } {} (.hex code)).program

def Session.ofCodes (codes : List String) : Session := { code := { programs := (codes.map .ofHex).toArray } }

def Account.bare (address : Nat) (code : ProgramId) : Account :=
  { address := .literal address, name := "", code := code
    storage := { array := .filled 256 256 0, filled := true, address := some (.literal address) } }

/-- The account at 256 is running, with these operands, and there is an account at 512. They have the first two programs
of the session. -/
def GState.ofOperands (operands : List Nat) : GState where
  id := 0
  world := { accounts := [(some 256, .bare 256 0), (some 512, .bare 512 1)] }
  env := { (default : Environment) with active := some 256, address := .literal 256, code := 0, callValue := .int 0 }
  machine := { stack := operands.map (.expr <| .literal ·) }
  frames := [⟨{ (default : Tx) with id := "1", gasLimit := .int 8000000 }, none⟩]

namespace GState

lemma ofOperands_sound {operands : List Nat} (h : operands.length ≤ 1024) : (ofOperands operands).machine.Sound where
  stack := by
    intro i hi
    obtain ⟨n, -, rfl⟩ := List.mem_map.1 hi
    rfl
  room := by
    show (operands.map _).length ≤ 1024
    rwa [List.length_map]
  returns := List.forall_mem_nil _
  returnRoom := Nat.zero_le _

def isReady (g : GState) (op : Opcode) (s : Session) : Bool :=
  (g.due s).any (·.opcode == op) && decide (op.needs ≤ g.machine.stack.length)

instance : Decidable (g.IsAt op s) := decidable_of_iff ((g.due s).any (·.opcode == op)) (by simp [IsAt, Option.any_eq_true])

lemma isReady_iff : g.isReady op s = true ↔ g.IsAt op s ∧ op.needs ≤ g.machine.stack.length := by
  simp [isReady, IsAt, Option.any_eq_true]

/-- Is the instruction due, and is it performed with an outcome that passes a test? -/
def performs (g : GState) (op : Opcode) (s : Session) (test : Outcome → Bool) : Bool :=
  g.isReady op s && passes (g.perform op) s fun o _ => test o

lemma exists_performs_iff {T : Outcome → Session → Prop} : (∃ o s', g.Performs op s o s' ∧ T o s') ↔
    g.isReady op s = true ∧ ∃ o s', g.perform op s = .ok o s' ∧ T o s' := by
  rw [isReady_iff]
  constructor
  · rintro ⟨o, s', h, ho⟩
    exact ⟨⟨h.isAt, h.room⟩, o, s', h.run, ho⟩
  · rintro ⟨⟨hat, hroom⟩, o, s', hrun, ho⟩
    exact ⟨o, s', ⟨hat, hroom, hrun⟩, ho⟩

instance {T : Outcome → Session → Prop} [∀ o s', Decidable (T o s')] : Decidable (∃ o s', g.Performs op s o s' ∧ T o s') :=
  decidable_of_iff' _ exists_performs_iff

lemma exists_faults_iff : (∃ s', g.Faults op s s') ↔ g.IsAt op s ∧ (g.machine.stack.length < op.needs ∨
    ∃ e s', g.perform op s = .error e s' ∧ e.isVm = true) := by
  constructor
  · rintro ⟨s', hat, hless | ⟨-, v, text, hrun⟩⟩
    · exact ⟨hat, .inl hless.1⟩
    · exact ⟨hat, .inr ⟨_, s', hrun, rfl⟩⟩
  · rintro ⟨hat, h⟩
    by_cases hless : g.machine.stack.length < op.needs
    · exact ⟨s, hat, .inl ⟨hless, rfl⟩⟩
    · obtain ⟨e, s', hrun, he⟩ := h.resolve_left hless
      cases e with
      | vm v text => exact ⟨s', hat, .inr ⟨Nat.not_lt.1 hless, v, text, hrun⟩⟩
      | _ => cases he

instance : Decidable (∃ s', g.Faults op s s') := decidable_of_iff' _ exists_faults_iff

end GState

namespace Explore

instance decidableOne {α : Type} {l : List α} {T : α → Prop} [DecidablePred T] : Decidable (∃ a, l = [a] ∧ T a) :=
  match l with
  | [a] => decidable_of_iff (T a) (by simp)
  | [] | _ :: _ :: _ => isFalse (by simp)

def LeadsTo (g : GState) (s : Session) (T : GState → Session → Prop) : Prop :=
  ∃ r s', execute {} g s = .ok r s' ∧ ∃ g', r.successors = [g'] ∧ T g' s'

variable {T : GState → Session → Prop}

section

variable [∀ g s, Decidable (T g s)]

instance : Decidable (LeadsTo g s T) :=
  inferInstanceAs (Decidable (∃ r s', execute {} g s = .ok r s' ∧ ∃ g', r.successors = [g'] ∧ T g' s'))

instance {o : Outcome} : Decidable (∃ tx waiting, o = .call tx waiting) :=
  match o with
  | .call tx waiting => isTrue ⟨tx, waiting, rfl⟩
  | .states _ | .halt _ _ _ => isFalse (by simp)

end

lemma exists_starts_iff : (∃ start s', Starts caller k s start s' ∧ T start s') ↔
    (∃ o s', caller.Performs k.opcode s o s' ∧ ∃ tx waiting, o = .call tx waiting) ∧ LeadsTo caller s T := by
  constructor
  · rintro ⟨start, s', h, hT⟩
    obtain ⟨tx, waiting, s1, hperforms⟩ := h.call
    exact ⟨⟨_, s1, hperforms, tx, waiting, rfl⟩, _, s', h.execute, start, rfl, hT⟩
  · rintro ⟨⟨_, s1, hperforms, tx, waiting, rfl⟩, r, s', hr, g', hsuccessors, hT⟩
    have hrun := hr
    rw [execute_performs hperforms] at hrun
    obtain ⟨start, s2, hstart, hpure⟩ := of_bind_ok hrun
    cases hpure
    cases hsuccessors
    exact ⟨g', s', ⟨⟨tx, waiting, s1, hperforms⟩, hr⟩, hT⟩

instance [∀ g s, Decidable (T g s)] : Decidable (∃ start s', Starts caller k s start s' ∧ T start s') :=
  decidable_of_iff' _ exists_starts_iff

end Explore
end EvmAudit
