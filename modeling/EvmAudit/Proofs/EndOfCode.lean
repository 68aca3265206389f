import EvmAudit.Proofs.Returns

/-!
# The end of the code

A code that is followed by one more byte, a stop, has one more instruction. A state behind the last instruction of the
first code is at the stop of the second. There the transaction ends: its observers are told, a caller that waits goes
on, and the world is left open if nobody waits. Behind the last instruction nothing of this happens, and the world of the
state is left open in any case.
-/

namespace EvmAudit

open Engine

variable {bytes : List Nat} {g : GState} {s : Session} {n a : Nat}

/-! ## One more instruction -/

namespace Instr

/-- No immediate is cut off at the end. -/
inductive Whole : List Nat → Prop
  | nil : Whole []
  | cons {b : Nat} {rest : List Nat} (fits : Evm.immediateLength b ≤ rest.length)
      (tail : Whole (rest.drop (Evm.immediateLength b))) : Whole (b :: rest)

lemma ofByte?_stop : Opcode.ofByte? 0 = some .stop := by decide

lemma decode_stop (h : Whole bytes) (address : Nat) :
    decode Opcode.ofByte? hexArgument (bytes.length + 1) address (bytes ++ [0]) =
      decode Opcode.ofByte? hexArgument bytes.length address bytes ++ [⟨address + bytes.length, .stop, none⟩] := by
  induction h generalizing address with
  | nil => simp [decode, ofByte?_stop, immediates]
  | @cons b rest fits tail ih =>
    have hspan := span_ofByte? b
    have hcell : ofCell Opcode.ofByte? hexArgument address b (rest ++ [0]) =
        ofCell Opcode.ofByte? hexArgument address b rest := by
      unfold ofCell
      rw [hspan, List.take_append_of_le_length fits]
    have hroom : rest.length + 1 - Evm.immediateLength b = (rest.drop (Evm.immediateLength b)).length + 1 := by
      rw [List.length_drop]
      omega
    have hend : address + 1 + Evm.immediateLength b + (rest.drop (Evm.immediateLength b)).length =
        address + (rest.length + 1) := by
      omega
    rw [List.cons_append, List.length_cons, decode_cons, decode_cons, hcell, hspan, hroom,
      List.drop_append_of_le_length fits, ih, hend, List.length_drop, List.cons_append]

lemma ofBytes_stop (h : Whole bytes) (hkept : keptLength bytes = bytes.length)
    (hkept' : keptLength (bytes ++ [0]) = bytes.length + 1) :
    ofBytes (bytes ++ [0]) = ofBytes bytes ++ [⟨bytes.length, .stop, none⟩] := by
  rw [ofBytes_eq, ofBytes_eq, hkept, hkept', decode_stop h, Nat.zero_add]

end Instr

lemma Program.ofHex_instrs {text : String} (h : Hex.decode? text = some bytes) :
    (ofHex text).instrs = (Instr.ofBytes bytes).toArray := by
  simp only [ofHex, assign, Instr.ofCode, h]
  rw [(addEntries_keeps _ _ _).2]

def GState.RunsCode (g : GState) (bytes : List Nat) (s : Session) : Prop :=
  ∃ p, s.code.programs[g.env.code]? = some p ∧ p.instrs = (Instr.ofBytes bytes).toArray

lemma GState.RunsCode.due (h : g.RunsCode bytes s) (hpc : g.machine.pc = n) : g.due s = (Instr.ofBytes bytes)[n]? := by
  obtain ⟨p, hp, hinstrs⟩ := h
  unfold GState.due
  rw [if_neg (by omega), Array.getD_eq_getD_getElem?, hp, Option.getD_some, hinstrs, hpc, Int.toNat_natCast,
    List.getElem?_toArray]

lemma GState.perform_stop (hsound : g.machine.Sound) (s : Session) :
    (g.perform .stop).Does s fun o => ∃ last, o = .halt last none false ∧ g.CopyOf last := by
  show Does (g.run _ _ _) s _
  refine (copy_does hsound false).bind fun last s1 _ ⟨hcopy, _⟩ => ?_
  have hhalt := Step.halt_empty false last s1
  refine .bind ⟨_, s1, hhalt, .refl s1, rfl⟩ ?_
  rintro _ s2 _ rfl
  exact .pure ⟨last, rfl, hcopy⟩

namespace Explore

variable {h : Hooks} {g caller : GState} {s s' s'' : Session} {tx : Tx} {waiting : Option Nat} {rest : List Frame}
  {r : GState.Executed}

lemma attempt_tell {os : List Observer} (h : os = []) : attempt (Hooks.tell os g) s = .ok (.ok g) s := by
  rw [h]
  rfl

lemma execute_behind (hstate : h.onState = []) (hdue : g.due s = none) : execute h g s = (do
    keepWorld h g
    return { state := g } : Engine GState.Executed) s := by
  unfold execute
  rw [bind_ok (attempt_tell hstate)]
  dsimp only
  rw [bind_ok (g.instrAt?_run s), hdue]

lemma execute_stop (hstate : h.onState = []) (hbefore : h.before .stop = []) (hdue : g.due s = some ⟨a, .stop, none⟩)
    (hsound : g.machine.Sound) : ∃ last s1, s.Grows s1 ∧ g.CopyOf last ∧ execute h g s = (do
      let r ← finishFrame h g last .stop none false
      return { state := r.1, successors := ← Hooks.tellAll (h.after .stop) r.2, opcode := some .stop } :
        Engine GState.Executed) s1 := by
  obtain ⟨_, s1, hrun, hs1, last, rfl, hcopy⟩ := GState.perform_stop hsound s
  refine ⟨last, s1, hs1, hcopy, ?_⟩
  have hneeds : ¬ g.machine.stack.length < Opcode.stop.needs := Nat.not_lt_zero _
  unfold execute
  rw [bind_ok (attempt_tell hstate)]
  dsimp only
  rw [bind_ok (g.instrAt?_run s), hdue]
  dsimp only
  rw [if_neg hneeds, bind_ok (attempt_tell hbefore)]
  dsimp only
  rw [bind_ok (attempt_ok hrun)]

/-! ## Without observers -/

/-- Without a caller, a stop leaves a world open that is a copy of the state's own, and there the transaction ends. -/
lemma stop_opens (hdue : g.due s = some ⟨a, .stop, none⟩) (hsound : g.machine.Sound)
    (hframes : g.frames = ⟨tx, none⟩ :: rest) (hkind : tx.kind = .message) :
    ∃ last s', g.CopyOf last ∧ execute {} g s = .ok { state := g, opcode := some .stop } s' ∧
      s'.openWorlds = s.openWorlds ++ [{ last.world with node := g.node }] := by
  obtain ⟨last, s1, hs1, hcopy, hrun⟩ := execute_stop (h := {}) rfl rfl hdue hsound
  have hlast : last.frames = ⟨tx, none⟩ :: rest := by rw [hcopy.rest, hframes]
  rw [finishFrame_unobserved, hlast] at hrun
  dsimp only at hrun
  rw [hkind] at hrun
  refine ⟨last, { s1 with openWorlds := s1.openWorlds ++ [{ last.world with node := g.node }] }, hcopy, hrun.trans rfl, ?_⟩
  rw [← hs1.openWorlds]

lemma stop_resumes (hdue : g.due s = some ⟨a, .stop, none⟩) (hsound : g.machine.Sound)
    (hframes : g.frames = ⟨tx, some n⟩ :: rest) (hcaller : s.shared.suspended[n]? = some caller)
    (hr : execute {} g s = .ok r s') :
    s'.openWorlds = s.openWorlds ∧ ∀ g' ∈ r.successors, g'.frames = caller.frames := by
  obtain ⟨last, s1, hs1, hcopy, hrun⟩ := execute_stop (h := {}) rfl rfl hdue hsound
  have hlast : last.frames = ⟨tx, some n⟩ :: rest := by rw [hcopy.rest, hframes]
  rw [hrun, finishFrame_unobserved, hlast] at hr
  obtain ⟨_, s2, hfinish, hr⟩ := of_bind_ok hr
  cases hr
  obtain ⟨gs, s2, hback, hpair⟩ := of_bind_ok hfinish
  cases hpair
  obtain ⟨c, s3, hhanded, hs3, hresume⟩ := handBack_run (hs1.suspended ▸ hcaller) hback
  obtain ⟨hs', hpasses⟩ := (resume_within c g.node true nofun).ok hresume
  refine ⟨?_, fun g' hg' => ?_⟩
  · rw [hs'.openWorlds, hs3.openWorlds]
    exact hs1.openWorlds
  · rw [(hpasses g' hg').stays.frames, hhanded.frames]

/-- A code and the code with a stop behind it do not end in the same way. Behind the last instruction of the first the
world of the state is left open, in a called frame as well, no caller goes on, and no observer but those of worlds is told
anything. At the stop of the second all observers of ends are told; without a caller a copy of the world is left open, and
with a caller no world is left open, and the caller goes on. -/
theorem end_of_code_is_no_stop {bytes : List Nat} (hwhole : Instr.Whole bytes)
    (hkept : Instr.keptLength bytes = bytes.length) (hkept' : Instr.keptLength (bytes ++ [0]) = bytes.length + 1)
    (hs : g.RunsCode bytes s) (hs' : g.RunsCode (bytes ++ [0]) s') (hpc : g.machine.pc = (Instr.ofBytes bytes).length)
    (hsound : g.machine.Sound) (hframes : g.frames = ⟨tx, waiting⟩ :: rest) (hkind : tx.kind = .message)
    (hstate : h.onState = []) (hbefore : h.before .stop = []) :
    -- behind the last instruction
    execute h g s = (do
      keepWorld h g
      return { state := g } : Engine GState.Executed) s ∧
    execute {} g s = .ok { state := g } { s with openWorlds := s.openWorlds ++ [g.world] } ∧
    -- at the stop
    (∃ last s₁, s'.Grows s₁ ∧ g.CopyOf last ∧ execute h g s' = (do
      let last ← Hooks.tell (h.onEnd.map fun o => o ⟨some tx, waiting.isSome, false⟩) last
      match waiting with
      | none =>
        let g ← h.onSuccess g
        keepWorld h { last with world := { last.world with node := g.node } }
        return { state := g, successors := ← Hooks.tellAll (h.after .stop) [], opcode := some .stop }
      | some n =>
        let _ ← Hooks.tellAll (h.after .stop) [last]
        let gs ← handBack g n none false
        return { state := g, successors := ← Hooks.tellAll (h.after .stop) gs, opcode := some .stop } :
          Engine GState.Executed) s₁) ∧
    (waiting = none → ∃ last s'', g.CopyOf last ∧ execute {} g s' = .ok { state := g, opcode := some .stop } s'' ∧
      s''.openWorlds = s'.openWorlds ++ [{ last.world with node := g.node }]) ∧
    ∀ {n caller r s''}, waiting = some n →
      s'.shared.suspended[n]? = some caller → execute {} g s' = .ok r s'' →
      s''.openWorlds = s'.openWorlds ∧ ∀ g' ∈ r.successors, g'.frames = caller.frames := by
  have hbehind : g.due s = none := by
    rw [hs.due hpc]
    exact List.getElem?_eq_none (Nat.le_refl _)
  have hstop : g.due s' = some ⟨bytes.length, .stop, none⟩ := by
    rw [hs'.due hpc, Instr.ofBytes_stop hwhole hkept hkept', List.getElem?_append_right (Nat.le_refl _), Nat.sub_self]
    rfl
  refine ⟨execute_behind hstate hbehind, execute_beyond hbehind, ?_, ?_, ?_⟩
  · obtain ⟨last, s₁, hs₁, hcopy, hrun⟩ := execute_stop hstate hbefore hstop hsound
    have hlast : last.frames = ⟨tx, waiting⟩ :: rest := by rw [hcopy.rest, hframes]
    refine ⟨last, s₁, hs₁, hcopy, hrun.trans ?_⟩
    unfold finishFrame
    rw [hlast]
    cases waiting with
    | none => simp [hkind, bind_assoc]
    | some n => simp [bind_assoc]
  · rintro rfl
    exact stop_opens hstop hsound hframes hkind
  · rintro n caller r s'' rfl hcaller hr
    exact stop_resumes hstop hsound hframes hcaller hr

def behindFirst : GState := { GState.ofOperands [] with machine := { (GState.ofOperands []).machine with pc := 1 } }

theorem end_of_code_is_no_stop_behind_jumpdest :
    behindFirst.RunsCode [0x5b] (.ofCodes ["5b"]) ∧ behindFirst.RunsCode [0x5b, 0] (.ofCodes ["5b00"]) ∧
    execute {} behindFirst (.ofCodes ["5b"]) =
      .ok { state := behindFirst } { Session.ofCodes ["5b"] with openWorlds := [behindFirst.world] } ∧
    ∃ last s'', behindFirst.CopyOf last ∧
      execute {} behindFirst (.ofCodes ["5b00"]) = .ok { state := behindFirst, opcode := some .stop } s'' ∧
      s''.openWorlds = [{ last.world with node := behindFirst.node }] := by
  have hs : behindFirst.RunsCode [0x5b] (.ofCodes ["5b"]) := ⟨_, rfl, Program.ofHex_instrs (by decide +kernel)⟩
  have hs' : behindFirst.RunsCode [0x5b, 0] (.ofCodes ["5b00"]) := ⟨_, rfl, Program.ofHex_instrs (by decide +kernel)⟩
  have hwhole : Instr.Whole [0x5b] := .cons (by decide) .nil
  have hpc : behindFirst.machine.pc = (Instr.ofBytes [0x5b]).length := by decide +kernel
  have hsound : behindFirst.machine.Sound := ⟨List.forall_mem_nil _, by decide, List.forall_mem_nil _, by decide⟩
  obtain ⟨-, hbehind, -, hstop, -⟩ := end_of_code_is_no_stop (h := {}) hwhole (by decide) (by decide) hs hs' hpc hsound
    rfl rfl rfl rfl
  exact ⟨hs, hs', hbehind, hstop rfl⟩

/-- An account is called whose code is one jump destination, and behind it the caller does not go on: the world of the call
is left open. With a stop behind the jump destination the caller goes on, and no world is left open. -/
theorem caller_waits_forever_at_end_of_code :
    (∃ start s₁ g s₂ r s₃, Starts payment .call (.ofCodes ["f1", "5b"]) start s₁ ∧
      (∃ r₁, execute {} start s₁ = .ok r₁ s₂ ∧ r₁.successors = [g]) ∧ execute {} g s₂ = .ok r s₃ ∧
      r.successors = [] ∧ s₃.openWorlds.length = 1) ∧
    ∃ start s₁ g s₂ r s₃, Starts payment .call (.ofCodes ["f1", "5b00"]) start s₁ ∧
      (∃ r₁, execute {} start s₁ = .ok r₁ s₂ ∧ r₁.successors = [g]) ∧ execute {} g s₂ = .ok r s₃ ∧
      r.successors.length = 1 ∧ s₃.openWorlds = [] := by
  have htest codes (count worlds : Nat) (h : ∃ start s₁, Starts payment .call (.ofCodes codes) start s₁ ∧
      LeadsTo start s₁ fun g s₂ => ∃ r s₃, execute {} g s₂ = .ok r s₃ ∧
        r.successors.length = count ∧ s₃.openWorlds.length = worlds) :
      ∃ start s₁ g s₂ r s₃, Starts payment .call (.ofCodes codes) start s₁ ∧
        (∃ r₁, execute {} start s₁ = .ok r₁ s₂ ∧ r₁.successors = [g]) ∧ execute {} g s₂ = .ok r s₃ ∧
        r.successors.length = count ∧ s₃.openWorlds.length = worlds := by
    obtain ⟨start, s₁, hstart, r₁, s₂, hr₁, g, hsuccessors, r, s₃, hrest⟩ := h
    exact ⟨start, s₁, g, s₂, r, s₃, hstart, ⟨r₁, hr₁, hsuccessors⟩, hrest⟩
  obtain ⟨start, s₁, g, s₂, r, s₃, hstart, hfirst, hr, hnone, hone⟩ := htest ["f1", "5b"] 0 1 (by decide +kernel)
  refine ⟨⟨start, s₁, g, s₂, r, s₃, hstart, hfirst, hr, List.length_eq_zero_iff.1 hnone, hone⟩, ?_⟩
  obtain ⟨start, s₁, g, s₂, r, s₃, hstart, hfirst, hr, hone, hnone⟩ := htest ["f1", "5b00"] 1 0 (by decide +kernel)
  exact ⟨start, s₁, g, s₂, r, s₃, hstart, hfirst, hr, hone, List.length_eq_zero_iff.1 hnone⟩

end Explore
end EvmAudit
