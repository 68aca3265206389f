import EvmAudit.Proofs.Runs
import EvmAudit.Proofs.TypedCalls

/-!
# Typed runs

Executing a typed state leads to typed states, whether its frame goes on, starts another one or ends: a caller waits as it
is, and what it is handed back is typed. So in every state of a run that begins with typed transactions, the operand stack
holds at most 1024 items, all of them words, a memory cell holds a byte, and a cell whose place is known is within memory.
-/

namespace EvmAudit

open List

variable {c g : GState} {n : Nat} {gs : List GState} {s s₀ : Session} {codes : List String}

/-! ## Callers -/

namespace Engine

variable {α β : Type} {R : β → Prop}

lemma suspend_typed (h : c.Typed) : (suspend c).Typed fun _ => True := by
  refine fun s hs => ⟨⟨hs.programs, fun c' hc' => ?_⟩, trivial⟩
  rcases Array.mem_push.1 hc' with hc' | rfl
  · exact hs.suspended c' hc'
  · exact h

lemma setSuspended_typed (h : c.Typed) (n : Nat) : (setSuspended n c).Typed fun _ => True := by
  refine fun s hs => ⟨⟨hs.programs, fun c' hc' => ?_⟩, trivial⟩
  rcases Array.mem_or_eq_of_mem_setIfInBounds hc' with hc' | rfl
  · exact hs.suspended c' hc'
  · exact h

lemma suspended_typed {f : GState → Engine β} (hs : s.Typed) (hn : s.shared.suspended[n]? = some c)
    (hf : ∀ c, c.Typed → (f c).Typed R) : (suspended n >>= f).TypedIn s R := by
  have hc := hs.suspended c (Array.mem_of_getElem? hn)
  exact (hf c hc s hs).of_eq (bind_ok (Explore.suspended_run hn))

end Engine

namespace Explore

variable {g' : GState} {s' : Session} {data : Option ReturnData}

lemma failed_typed (h : c.Typed) (last : GState) : (failed c last).Typed :=
  ⟨h.world.of_accounts rfl h.world.balances, h.env, h.machine, nofun⟩

lemma resume_typed (h : c.Typed) (node : Option Nat) : (resume c node).Typed fun gs => ∀ g ∈ gs, g.Typed := by
  refine .of_yields fun s hs => resume_of_finish fun i s1 _ hs1 => .of_run ?_
  rintro _ s2 hrun gs rfl g hg
  exact { ((h.finish i.opcode s1 (hs.grows hs1)).ok hrun).2 g hg with }

lemma fail_typed (hs : s.Typed) (hbacks : s.Backs g.frames) (op : Opcode) :
    (fail {} g op).TypedIn s fun r => ∀ g' ∈ r.2, g'.Typed := by
  rw [fail_unobserved]
  split
  · exact Engine.Typed.throw _ s hs
  · exact Engine.Typed.pure (forall_mem_nil _) s hs
  rename_i hframes
  obtain ⟨c, hc, -⟩ := hbacks _ _ _ hframes
  refine Engine.suspended_typed hs hc fun c hc => ?_
  have hfailed := failed_typed hc g
  have hresume rest : Engine.Typed (do return ({ g with frames := rest }, ← resume (failed c g) g.node))
      fun r : GState × List GState => ∀ g' ∈ r.2, g'.Typed :=
    (resume_typed hfailed _).bind fun _ hgs => .pure hgs
  refine (Engine.setSuspended_typed hfailed _).bind fun _ _ => ?_
  split
  · exact Engine.Typed.calm.bind fun _ _ => hresume _
  · exact hresume _

lemma handBack_typed (hs : s.Typed) (hn : s.shared.suspended[n]? = some c) (hg : g.Typed)
    (hdata : ∀ r, data = some r → r.Typed) (reverted : Bool) :
    (handBack g n data reverted).TypedIn s fun gs => ∀ g' ∈ gs, g'.Typed := by
  refine Engine.suspended_typed hs hn fun c hc => ?_
  have hnoted : (noted c g).Typed := { hc with }
  refine (Engine.setSuspended_typed hnoted n).bind fun _ _ => ?_
  refine (Engine.Typed.of_yields fun s _ => hnoted.copy false s).bind fun c' hc' => ?_
  have hworld : World.Typed { c'.world with constraints := c'.world.constraints ++ g.world.constraints } :=
    hc'.world.of_accounts rfl hc'.world.balances
  have hback {w} (hw : w.Typed) {m} (hm : m.Typed) :
      GState.Typed { c' with world := w, lastReturn := data, machine := m } := ⟨hw, hc'.env, hm, hdata⟩
  -- the caller goes on in its own world after a revert, and in that of the frame otherwise
  split
  · exact resume_typed (hback hworld hc'.machine) _
  refine (Engine.Typed.of_yields fun s _ => hg.world.copy false s).bind fun w hw => ?_
  split
  · exact .throw _
  · refine resume_typed (hback hw ?_) _
    split
    · exact hc'.machine.useGas _ _
    · exact hc'.machine

lemma startFrame_typed (hg : g.Typed) {tx : Tx} (htx : tx.Typed) {w : World} (hw : w.Typed) :
    (startFrame g tx w).Typed GState.Typed :=
  (Engine.Typed.of_yields fun s _ => Tx.start_typed htx hw s).bind fun _ hnew =>
    (Engine.suspend_typed hg).bind fun _ _ => .pure { hnew with }

lemma finishFrame_typed (hs : s.Typed) (hg : g.Typed) {final : GState} (hbacks : s.Backs final.frames) (op : Opcode)
    (hdata : ∀ r, data = some r → r.Typed) (reverted : Bool) :
    (finishFrame {} g final op data reverted).TypedIn s fun r => ∀ g' ∈ r.2, g'.Typed := by
  rw [finishFrame_unobserved]
  split
  · exact Engine.Typed.throw _ s hs
  · split
    · exact ⟨⟨hs.programs, hs.suspended⟩, forall_mem_nil _⟩
    · exact Engine.Typed.pure (forall_mem_nil _) s hs
  · rename_i hframes
    obtain ⟨c, hc, -⟩ := hbacks _ _ _ hframes
    exact (handBack_typed hs hc hg hdata reverted).bind fun _ hgs => .pure hgs

/-- One step: from a typed state, whose callers wait, there are only typed ones. -/
lemma execute_typed (hs : s.Typed) (hg : g.Typed) (hbacks : s.Backs g.frames) :
    (execute {} g).TypedIn s fun r => ∀ g' ∈ r.successors, g'.Typed := by
  -- callers wait while an instruction is performed
  have hstill {s1 : Session} (h : s1.shared.suspended = s.shared.suspended) : s1.Backs g.frames := by
    intro tx n rest hframes
    rw [h]
    exact hbacks tx n rest hframes
  obtain hdue | ⟨op, s1, hfaults | ⟨o, hperforms⟩ | ⟨f, hstops⟩⟩ := execute_split g s
  · refine .of_eq ?_
      (execute_beyond hdue)
    exact ⟨⟨hs.programs, hs.suspended⟩, forall_mem_nil _⟩
  · have hgrows := hfaults.grows
    refine .of_eq ?_ (execute_faults hfaults)
    exact (fail_typed (hs.grows hgrows) (hstill hgrows.suspended) op).bind fun _ hgs => .pure hgs
  · obtain ⟨hs1, ho⟩ := (hg.perform op s hs).ok hperforms.run
    refine .of_eq ?_ (execute_performs hperforms)
    cases o with
    | states gs => exact Engine.Typed.pure ho s1 hs1
    | call tx waiting =>
      refine Engine.Typed.bind (startFrame_typed hg ho.1 ho.2.world) (fun new hnew => .pure ?_) s1 hs1
      exact forall_mem_singleton.2 hnew
    | halt final data reverted =>
      have hfinal := hstill (GState.perform_suspended hperforms.run)
      rw [← final_frames hperforms] at hfinal
      exact (finishFrame_typed hs1 hg hfinal op ho.2 reverted).bind fun _ hgs => .pure hgs
  · refine .of_eq ?_ (execute_stops hstops)
    exact (hg.perform op s hs).error hstops.run

/-! ## All along a run -/

lemma relabels_typed (h : g.Typed) (hlabels : g.Relabels g') : g'.Typed := by
  obtain ⟨node, notes, function, rfl⟩ := hlabels
  exact { h with env := { h.env with } }

lemma tends_typed (h : s.Typed) (hs : s.Tends s') : s'.Typed := by
  refine ⟨fun p hp => ?_, hs.suspended ▸ h.suspended⟩
  obtain ⟨i, hi⟩ := Array.mem_iff_getElem?.1 hp
  rcases hs.added hi with hp | ⟨code, hcode, hcells⟩
  · exact h.programs p (Array.mem_of_getElem? hp)
  refine hcode.typed ?_
  cases code with
  | hex text | raw bytes => trivial
  | cells items =>
    -- only a program that is there has such a code
    obtain ⟨j, q, hq, hsame⟩ := hcells items rfl
    have hq := (h.programs q (Array.mem_of_getElem? hq)).code
    rwa [hsame] at hq

lemma opens_typed (hs : s.Typed) (h : Opens (fun tx w => tx.Typed ∧ w.Typed) s g s') : s'.Typed ∧ g.Typed := by
  obtain ⟨tx, w, g0, cs, txs, node, ⟨htx, hw⟩, hstart, rfl⟩ := h
  obtain ⟨hgrows, hg0⟩ := (Tx.start_typed htx hw s).ok hstart
  exact ⟨hs.grows hgrows, { hg0 with world := hg0.world.of_accounts rfl hg0.world.balances }⟩

lemma Run.typed {K : GState → Session → Prop} (h : Run (fun tx w => tx.Typed ∧ w.Typed) K s₀ gs s)
    (h0 : s₀.shared.suspended = #[]) (hs0 : s₀.Typed) : s.Typed ∧ ∀ g ∈ gs, g.Typed := by
  induction h with
  | start => exact ⟨hs0, forall_mem_nil _⟩
  | idle _ hs ih => exact ⟨tends_typed ih.1 hs, ih.2⟩
  | opens _ hg ih =>
    obtain ⟨hs', hg⟩ := opens_typed ih.1 hg
    exact ⟨hs', forall_mem_cons.2 ⟨hg, ih.2⟩⟩
  | label _ hg hlabels ih => exact ⟨ih.1, forall_mem_cons.2 ⟨relabels_typed (ih.2 _ hg) hlabels, ih.2⟩⟩
  | @step _ g s s' r hrun hg _ hr ih =>
    obtain ⟨hs', hsuccessors⟩ := (execute_typed ih.1 (ih.2 g hg) ((hrun.backed h0).states g hg)).ok hr
    exact ⟨hs', forall_mem_append.2 ⟨hsuccessors, ih.2⟩⟩
  | @skip _ g s s' hrun hg _ hr ih =>
    have hs' := (execute_typed ih.1 (ih.2 g hg) ((hrun.backed h0).states g hg)).error hr
    exact ⟨hs'.resolve_left (not_isFinal_unsupported ""), ih.2⟩

end Explore

/-! ## Places in memory -/

namespace Term

mutual

def isClosed : Term → Bool
  | .const _ _ | .truth _ => true
  | .symbol _ _ | .prop _ | .select _ _ => false
  | .arith _ a b | .cmp _ a b | .xor a b => a.isClosed && b.isClosed
  | .ite c a b => c.isClosed && (a.isClosed && b.isClosed)
  | .extract _ _ e | .not e => e.isClosed
  | .concat parts | .sum parts | .conj parts | .disj parts | .apply _ parts _ => allClosed parts

def allClosed : List Term → Bool
  | [] => true
  | t :: ts => t.isClosed && allClosed ts

end

mutual

lemma eval_of_isClosed (σ : Assignment) : (t : Term) → t.isClosed = true → ∃ v, t.eval σ = some v
  | .const v _, _ => ⟨v, rfl⟩
  | .truth b, _ => ⟨ofBool b, rfl⟩
  | .arith _ a b, h | .cmp _ a b, h | .xor a b, h => by
    obtain ⟨ha, hb⟩ := Bool.and_eq_true_iff.1 h
    obtain ⟨x, hx⟩ := eval_of_isClosed σ a ha
    obtain ⟨y, hy⟩ := eval_of_isClosed σ b hb
    simp [eval, hx, hy]
  | .ite c a b, h => by
    obtain ⟨hc, h⟩ := Bool.and_eq_true_iff.1 h
    obtain ⟨ha, hb⟩ := Bool.and_eq_true_iff.1 h
    obtain ⟨z, hz⟩ := eval_of_isClosed σ c hc
    simp only [eval, hz]
    split
    · exact eval_of_isClosed σ a ha
    · exact eval_of_isClosed σ b hb
  | .extract _ _ e, h | .not e, h => by
    obtain ⟨x, hx⟩ := eval_of_isClosed σ e h
    simp [eval, hx]
  | .concat parts, h | .sum parts, h | .conj parts, h | .disj parts, h | .apply _ parts _, h => by
    obtain ⟨vs, hvs⟩ := evalList_of_allClosed σ parts h
    simp [eval, evalParts_eq, hvs]

lemma evalList_of_allClosed (σ : Assignment) : (ts : List Term) → allClosed ts = true → ∃ vs, evalList σ ts = some vs
  | [], _ => ⟨[], rfl⟩
  | t :: ts, h => by
    obtain ⟨ht, hts⟩ := Bool.and_eq_true_iff.1 h
    obtain ⟨v, hv⟩ := eval_of_isClosed σ t ht
    obtain ⟨vs, hvs⟩ := evalList_of_allClosed σ ts hts
    simp [evalList, hv, hvs]

end

end Term

namespace Memory

variable {m : Memory} {place : Term} {i : Item}

/-- The memory holds an item at a place, which is a number or an expression. -/
def HasCell (m : Memory) (place : Term) (i : Item) : Prop :=
  (∃ v, place = .const v 256 ∧ m.cells.get? v = some i) ∨ ∃ c ∈ m.odd, place = c.index.term ∧ c.content = i

lemma Typed.isCell (h : m.Typed) (hi : m.HasCell place i) : i.IsCell := by
  rcases hi with ⟨v, -, hv⟩ | ⟨c, hc, -, rfl⟩
  · exact (h.cells hv).2
  · exact (h.odd c hc).2

lemma Typed.within (h : m.Typed) (hi : m.HasCell place i) {v : Nat} (hv : place.value? = some v) : v < m.size := by
  rcases hi with ⟨n, rfl, hn⟩ | ⟨c, hc, rfl, -⟩
  · cases hv
    exact (h.cells hn).1
  · rw [(h.odd c hc).1] at hv
    cases hv

end Memory

namespace Explore

lemma plainMessage_typed : plainMessage.Typed :=
  ⟨⟨⟨rfl, rfl⟩, rfl⟩, .inr ⟨rfl, rfl⟩, forall_mem_nil _, trivial, trivial, .inr ⟨rfl, rfl⟩, trivial⟩

lemma ofOperands_world_typed (operands : List Nat) : (GState.ofOperands operands).world.Typed := by
  refine ⟨fun {key a} ha => ?_, rfl⟩
  have hbare n code : (Account.bare n code).Typed := ⟨⟨rfl, rfl⟩, rfl⟩
  change lookup key [(some 256, .bare 256 0), (some 512, .bare 512 1)] = some a at ha
  simp only [lookup_cons] at ha
  split at ha
  · cases ha
    exact hbare 256 0
  · split at ha
    · cases ha
      exact hbare 512 1
    · cases ha

lemma ofCodes_typed (h : ∀ code ∈ codes, (Program.assign { code := .hex code } {} (.hex code)).fault = none) :
    ∀ p ∈ (Session.ofCodes codes).code.programs, p.Typed := by
  intro p hp
  obtain ⟨code, hcode, rfl⟩ := mem_map.1 (mem_toArray.1 hp)
  exact (Program.assign_isOf (h code hcode)).typed trivial

/-- A message that leads on is a run that begins with a typed transaction. -/
lemma exists_typed_run (codes : List String) (n : Nat) {T : GState → Session → Prop}
    (h : ∃ g s, plainMessage.start (GState.ofOperands []).world (.ofCodes codes) = .ok g s ∧
      LeadsOn T n { g with frames := [⟨plainMessage, none⟩] } s) :
    ∃ gs g s, Run (fun tx w => tx.Typed ∧ w.Typed) (fun _ _ => True) (.ofCodes codes) gs s ∧ g ∈ gs ∧ T g s :=
  exists_run codes n ⟨plainMessage_typed, ofOperands_world_typed []⟩ h

end Explore
end EvmAudit
