import EvmAudit.Proofs.Frames

/-!
# Succession

What executing a state leads to, whoever looks on: states with numbers of their own that belong to the node of the state,
and to no node that was not known before. Observers may write down what they like, add notes or drop a state, as long as
they are discreet: they neither renumber a state nor move it to another node.
-/

namespace EvmAudit

open List Hooks

variable {g g' : GState} {s s' s'' : Session} {gs gs' : List GState} {known : Option Nat → Prop} {os : List Observer}
  {h : Hooks}

variable {α β : Type}

/-! ## Instructions -/

/-- The frame ends, or goes on in states that have numbers of their own. -/
def Effect.Follows (g : GState) (s : Session) (e : Effect) (g' : GState) (s' : Session) : Prop :=
  (∃ data reverted, e = .halt data reverted) ∨ g'.id = g.id ∧ g.Alters g' ∧ e.Numbered g s s'

lemma Step.Orderly.follows {x : Step Effect} [hx : x.Orderly Session.Rests] (g : GState) (s : Session) :
    x.Ends Session.Rests g s (Effect.Follows g s) := (hx.ends g s).rests.mono fun _ _ _ _ h => .inr h

lemma Opcode.effectOf_follows (op : Opcode) (g : GState) (s : Session) :
    op.effectOf.Ends Session.Rests g s (Effect.Follows g s) := by
  have hconstant f : (effectOf.constant f).Orderly Session.Rests := .next fun _ => inferInstance
  cases op with
  | selfdestruct => exact (Step.selfDestruct_ends g s).rests.mono fun _ _ _ _ h => .inl ⟨_, _, h.2⟩
  | _ =>
    simp only [effectOf]
    exact Step.Orderly.follows g s

/-- The states have numbers of their own, which were given out between two sessions, belong where the state that they come
from belongs, and no account of theirs has been deleted. -/
structure GState.Begets (g : GState) (s s' : Session) (gs : List GState) : Prop where
  nodup : (gs.map (·.id)).Nodup
  alters : ∀ g' ∈ gs, g.Alters g'
  stands : ∀ g' ∈ gs, g'.world.Stands
  number : ∀ g' ∈ gs, g'.NumberedIn s s'

/-- What performing an instruction leads to: states with numbers of their own, or a world that belongs to the same node. -/
def Outcome.Numbered (g : GState) (s s' : Session) : Outcome → Prop
  | .states gs => g.Begets s s' gs
  | .call _ waiting => g.world.Alters waiting.world ∧ waiting.world.Stands
  | .halt _ _ _ => True

namespace GState

def Remade (g g' : GState) : Prop := ∃ m, g' = { g with machine := m }

lemma Begets.remade (h : g.Begets s s' gs) (hgs : Forall₂ Remade gs gs') : g.Begets s s' gs' := by
  have hids : gs'.map (·.id) = gs.map (·.id) := by
    clear h
    induction hgs with
    | nil => rfl
    | cons hg _ ih =>
      obtain ⟨m, rfl⟩ := hg
      rw [map_cons, map_cons, ih]
  refine ⟨hids ▸ h.nodup, fun g' hg' => ?_, fun g' hg' => ?_, fun g' hg' => ?_⟩
  all_goals obtain ⟨g1, hg1, m, rfl⟩ := exists_of_forall2 hgs g' hg'
  · exact (h.alters g1 hg1).trans (.of_machine m)
  · exact h.stands g1 hg1
  · exact h.number g1 hg1

lemma mapM_meter_keeps (gs : List GState) (s : Session) :
    (gs.mapM meter).Keeps s fun gs' _ => Forall₂ Remade gs gs' := by
  refine .of_yields ((Engine.Yields.mapM fun g _ s => g.meter_yields s).mono fun _ hgs' => hgs'.imp ?_)
  rintro g g' ⟨op, hop⟩
  exact ⟨_, hop.booked⟩

lemma settle_keeps {s0 : Session} (isMetered advances : Bool) (h : g.Begets s0 s gs) : Engine.Keeps (do
      let gs ← if isMetered then gs.mapM meter else pure gs
      return Outcome.states (if advances then gs.map advance else gs)) s fun o s' => o.Numbered g s0 s' := by
  have hadvance gs : Forall₂ Remade gs (if advances then gs.map advance else gs) := by
    split
    · exact forall₂_map_right_iff.2 (forall₂_same.2 fun g _ => ⟨_, rfl⟩)
    · exact forall₂_same.2 fun g _ => ⟨g.machine, rfl⟩
  have hlater {s'} (hs : s.Rests s') : g.Begets s0 s' gs :=
    { h with number := fun g' hg' => ⟨(h.number g' hg').1, Nat.lt_of_lt_of_le (h.number g' hg').2 hs.next⟩ }
  cases isMetered with
  | true => exact (mapM_meter_keeps gs s).bind fun gs' s' hs hgs' => .pure (((hlater hs).remade hgs').remade (hadvance gs'))
  | false => exact .pure (h.remade (hadvance gs))

lemma run_keeps (g : GState) {step : Step Effect} (hstep : ∀ g s, step.Ends Session.Rests g s (Effect.Follows g s))
    (isMetered advances : Bool) (s : Session) :
    (g.run step isMetered advances).Keeps s fun o s' => o.Numbered g s s' := by
  refine (g.copy_keeps false s).bind fun g0 s1 hs1 ⟨halters, hstands, hn⟩ => ?_
  refine .bind (hstep g0 s1) fun r s2 hs2 hr => ?_
  obtain ⟨e, g1⟩ := r
  -- a state that came from the copy comes from the state itself
  have hbegets {gs} (h : g0.Spawns s1 s2 gs) : g.Begets s s2 gs := by
    refine ⟨h.nodup, fun g' hg' => halters.trans (h.alters g' hg'), fun g' hg' => ?_, fun g' hg' => ?_⟩
    · exact (h.alters g' hg').world.stands hstands
    · rcases h.number g' hg' with heq | hnew
      · rw [NumberedIn, heq]
        exact ⟨hn.1, Nat.lt_of_lt_of_le hn.2 hs2.next⟩
      · exact ⟨Nat.le_trans hs1.next hnew.1, hnew.2⟩
  dsimp only
  split
  · obtain ⟨hid, hg1, -⟩ := hr.resolve_left nofun
    refine settle_keeps isMetered advances (hbegets ⟨by simp, ?_, ?_⟩)
    · exact forall_mem_singleton.2 hg1
    · exact forall_mem_singleton.2 (.inl hid)
  · exact settle_keeps isMetered advances (hbegets (hr.resolve_left nofun).2.2)
  · obtain ⟨-, hg1, -⟩ := hr.resolve_left nofun
    exact .pure ⟨halters.world.trans hg1.world, hg1.world.stands hstands⟩
  · exact .pure trivial

lemma perform_keeps (g : GState) (op : Opcode) (s : Session) :
    (g.perform op).Keeps s fun o s' => o.Numbered g s s' := by
  unfold perform
  split
  · exact .throw _
  · exact g.run_keeps op.effectOf_follows _ _ s

lemma finish_keeps (g : GState) (op : Opcode) (s : Session) : (g.finish op).Keeps s fun o s' => o.Numbered g s s' := by
  have hrun {step : Step Effect} [hx : step.Orderly Session.Rests] : (g.run step true true).Keeps s fun o s' => o.Numbered g s s' :=
    g.run_keeps (fun g s => Step.Orderly.follows g s) true true s
  cases op with
  | create | create2 | call | callcode | delegatecall | staticcall => exact hrun
  | _ => exact .throw _

end GState

/-! ## Nodes that are known -/

structure Graph.Settles (γ γ' : Graph) : Prop where
  edges : γ'.edges = γ.edges
  visited : γ'.nodes.map (·.visited) = γ.nodes.map (·.visited)

namespace Graph.Settles

variable {γ γ' γ'' : Graph}

lemma refl (γ : Graph) : γ.Settles γ := ⟨rfl, rfl⟩

lemma trans (h : γ.Settles γ') (h' : γ'.Settles γ'') : γ.Settles γ'' :=
  ⟨h'.edges.trans h.edges, h'.visited.trans h.visited⟩

lemma size (h : γ.Settles γ') : γ'.nodes.size = γ.nodes.size := by
  have hsizes := congrArg Array.size h.visited
  rwa [Array.size_map, Array.size_map] at hsizes

lemma grow (γ : Graph) (node owner : Nat) (cs : Constraints) : γ.Settles (γ.grow node owner cs) := by
  refine ⟨rfl, Array.ext_getElem? fun i => ?_⟩
  simp only [Graph.grow, Array.getElem?_map, Array.getElem?_modify]
  split
  · cases γ.nodes[i]? with
    | none => rfl
    | some n =>
      simp only [Option.map_some]
      split <;> rfl
  · rfl

end Graph.Settles

/-- Callers wait, and their worlds are, at places that are known. -/
def Session.Knows (known : Option Nat → Prop) (s : Session) : Prop :=
  ∀ c ∈ s.shared.suspended, known c.node ∧ known c.world.node

/-- Numbers are not taken back, the work is left as it is, no node is added or entered, and the worlds and callers that
are new are at places that are known. -/
structure Session.Proceeds (known : Option Nat → Prop) (s s' : Session) : Prop where
  next : s.nextState ≤ s'.nextState
  graph : s.graph.Settles s'.graph
  work : s'.work = s.work
  openWorlds : ∀ w ∈ s'.openWorlds, w ∈ s.openWorlds ∨ known w.node
  suspended : s.Knows known → s'.Knows known

lemma Session.Proceeds.of_rests (h : s.Rests s') : s.Proceeds known s' where
  next := h.next
  graph := by
    rw [h.graph]
    exact .refl _
  work := h.work
  openWorlds w hw := .inl (h.openWorlds ▸ hw)
  suspended hs := by
    unfold Knows
    rwa [h.suspended]

lemma Session.Proceeds.trans (h : s.Proceeds known s') (h' : s'.Proceeds known s'') : s.Proceeds known s'' where
  next := Nat.le_trans h.next h'.next
  graph := h.graph.trans h'.graph
  work := h'.work.trans h.work
  openWorlds w hw := (h'.openWorlds w hw).elim (h.openWorlds w) .inr
  suspended hs := h'.suspended (h.suspended hs)

namespace Engine

variable {c : Engine α} {P : α → Session → Prop}

instance : Session.Passage (Session.Proceeds known) := ⟨.of_rests, .trans⟩

lemma Ends.kept {T : Session → Session → Prop} [Session.Passage T] {f : α → Engine β} {R : β → Session → Prop}
    (hc : c.Keeps s P) (hf : ∀ a s', T s s' → P a s' → Ends T (f a) s' R) : Ends T (c >>= f) s R := (hc.of_rests).bind hf

/-- The session proceeds, and the result and the session, if there is a result, are of this kind. -/
abbrev Proceeds (known : Option Nat → Prop) (c : Engine α) (s : Session) (P : α → Session → Prop) : Prop :=
  Ends (Session.Proceeds known) c s P

lemma suspended_keeps (hnone : known none) (hs : s.Knows known) (n : Nat) :
    (suspended n).Keeps s fun c _ => known c.node ∧ known c.world.node := by
  refine .pure (?_ : known (s.shared.suspended.getD n default).node ∧ _)
  rw [Array.getD_eq_getD_getElem?]
  cases hn : s.shared.suspended[n]? with
  | none => exact ⟨hnone, hnone⟩
  | some c => exact hs c (Array.mem_of_getElem? hn)

section

variable (hnode : known g.node) (hworld : known g.world.node)
include hnode hworld

lemma setSuspended_proceeds {n : Nat} : (setSuspended n g).Proceeds known s fun _ _ => True := by
  refine ⟨⟨Nat.le_refl _, .refl _, rfl, fun _ => .inl, fun hs c hc => ?_⟩, fun _ _ _ => trivial⟩
  rcases Array.mem_or_eq_of_mem_setIfInBounds hc with hc | rfl
  · exact hs c hc
  · exact ⟨hnode, hworld⟩

lemma suspend_proceeds : (suspend g).Proceeds known s fun _ _ => True := by
  refine ⟨⟨Nat.le_refl _, .refl _, rfl, fun _ => .inl, fun hs c hc => ?_⟩, fun _ _ _ => trivial⟩
  rcases Array.mem_push.1 hc with hc | rfl
  · exact hs c hc
  · exact ⟨hnode, hworld⟩

end

lemma grow_proceeds (node owner : Nat) (cs : Constraints) :
    (onGraph fun graph => ((), graph.grow node owner cs)).Proceeds known s fun _ _ => True :=
  ⟨⟨Nat.le_refl _, .grow s.graph node owner cs, rfl, fun _ => .inl, id⟩, fun _ _ _ => trivial⟩

end Engine

/-! ## Discreet observers -/

structure GState.Retells (g g' : GState) : Prop where
  id : g'.id = g.id
  alters : g.Alters g'

/-- An observer that leaves a state its number and its node, and no trace in the session but what it writes down. -/
def Observer.IsDiscreet (o : Observer) : Prop := ∀ g s, (o g).Keeps s fun g' _ => g.Retells g'

structure Hooks.AreDiscreet (h : Hooks) : Prop where
  onState : ∀ o ∈ h.onState, Observer.IsDiscreet o
  before : ∀ op, ∀ o ∈ h.before op, Observer.IsDiscreet o
  after : ∀ op, ∀ o ∈ h.after op, Observer.IsDiscreet o
  onWorld : ∀ o ∈ h.onWorld, Observer.IsDiscreet o
  onEnd : ∀ o ∈ h.onEnd, ∀ ending, Observer.IsDiscreet (o ending)
  onSuccess : Observer.IsDiscreet h.onSuccess
  onStart : ∀ c ∈ h.onStart, Engine.Orderly c
  onStop : ∀ c ∈ h.onStop, Engine.Orderly c
  onTxsStart : ∀ c ∈ h.onTxsStart, Engine.Orderly c
  onTxsStop : ∀ c ∈ h.onTxsStop, Engine.Orderly c
  onRoundStart : ∀ c ∈ h.onRoundStart, Engine.Orderly c
  onRoundStop : ∀ c ∈ h.onRoundStop, Engine.Orderly c
  onWorkStart : ∀ c ∈ h.onWorkStart, Engine.Orderly c
  onWorkStop : ∀ c ∈ h.onWorkStop, Engine.Orderly c

structure GState.Retold (gs gs' : List GState) : Prop where
  ids : (gs'.map (·.id)).Sublist (gs.map (·.id))
  states : ∀ g' ∈ gs', ∃ g ∈ gs, g.Retells g'

namespace GState

variable {g'' : GState} {gs'' : List GState}

lemma Retells.refl (g : GState) : g.Retells g := ⟨rfl, .refl g⟩

lemma Retells.trans (h : g.Retells g') (h' : g'.Retells g'') : g.Retells g'' :=
  ⟨h'.id.trans h.id, h.alters.trans h'.alters⟩

namespace Retold

lemma of_sublist (h : gs'.Sublist gs) : Retold gs gs' := ⟨h.map _, fun g hg => ⟨g, h.subset hg, .refl g⟩⟩

lemma refl (gs : List GState) : Retold gs gs := of_sublist (.refl gs)

lemma trans (h : Retold gs gs') (h' : Retold gs' gs'') : Retold gs gs'' := by
  refine ⟨h'.ids.trans h.ids, fun g'' hg'' => ?_⟩
  obtain ⟨g', hg', hrest⟩ := h'.states g'' hg''
  obtain ⟨g, hg, hfirst⟩ := h.states g' hg'
  exact ⟨g, hg, hfirst.trans hrest⟩

lemma set {i : Nat} (hi : gs[i]? = some g) (h : g.Retells g') : Retold gs (gs.set i g') := by
  refine ⟨?_, fun g1 hg1 => ?_⟩
  · obtain ⟨hlt, rfl⟩ := List.getElem?_eq_some_iff.1 hi
    rw [map_set, h.id, ← map_set, set_getElem_self]
  · rcases mem_or_eq_of_mem_set hg1 with hg1 | rfl
    · exact ⟨g1, hg1, .refl g1⟩
    · exact ⟨g, mem_of_getElem? hi, h⟩

end Retold
end GState

namespace Hooks

lemma tell_keeps (hos : ∀ o ∈ os, Observer.IsDiscreet o) (g : GState) (s : Session) :
    (tell os g).Keeps s fun g' _ => g.Retells g' := by
  induction os generalizing g s with
  | nil => exact .pure (.refl g)
  | cons o os ih =>
    refine (hos o (by simp) g s).bind fun g1 s1 _ hg1 => ?_
    exact (ih (fun o ho => hos o (by simp [ho])) g1 s1).mono fun g2 _ _ hg2 => hg1.trans hg2

lemma tellEach_keeps {o : Observer} (ho : o.IsDiscreet) (n i : Nat) (gs : List GState) (s : Session) :
    (tellEach o n i gs).Keeps s fun gs' _ => GState.Retold gs gs' := by
  induction n generalizing i gs s with
  | zero => exact .pure (.refl gs)
  | succ n ih =>
    unfold tellEach
    split
    · exact .pure (.refl gs)
    rename_i g hg
    refine (ho g s).attempt.bind fun r s1 _ hr => ?_
    split
    · rename_i g'
      exact (ih _ _ s1).mono fun gs' _ _ hgs' => (GState.Retold.set hg (hr g' rfl)).trans hgs'
    · exact (ih _ _ s1).mono fun gs' _ _ hgs' => (GState.Retold.of_sublist (eraseIdx_sublist gs i)).trans hgs'
    · exact .throw _

lemma tellAll_keeps (hos : ∀ o ∈ os, Observer.IsDiscreet o) (gs : List GState) (s : Session) :
    (tellAll os gs).Keeps s fun gs' _ => GState.Retold gs gs' := by
  induction os generalizing gs s with
  | nil => exact .pure (.refl gs)
  | cons o os ih =>
    refine (tellEach_keeps (hos o (by simp)) _ _ gs s).bind fun gs1 s1 _ hgs1 => ?_
    exact (ih (fun o ho => hos o (by simp [ho])) gs1 s1).mono fun _ _ _ h => hgs1.trans h

lemma areDiscreet_empty : AreDiscreet {} := by
  constructor
  case onSuccess => exact fun g _ => .pure (.refl g)
  case before | after => exact fun _ => forall_mem_nil _
  all_goals exact forall_mem_nil _

lemma AreDiscreet.onEnd_tells (hh : h.AreDiscreet) (ending : TxEnd) :
    ∀ o ∈ h.onEnd.map (· ending), Observer.IsDiscreet o := by
  simp only [mem_map]
  rintro _ ⟨o, ho, rfl⟩
  exact hh.onEnd o ho ending

end Hooks

/-! ## Heirs -/

/-- States that come after one that has been executed: numbered apart, at one node, with worlds from places that are known
and in which no account is deleted. -/
structure GState.Heirs (node : Option Nat) (known : Option Nat → Prop) (s s' : Session) (gs : List GState) : Prop where
  nodup : (gs.map (·.id)).Nodup
  node : ∀ g ∈ gs, g.node = node
  world : ∀ g ∈ gs, known g.world.node
  stands : ∀ g ∈ gs, g.world.Stands
  number : ∀ g ∈ gs, g.NumberedIn s s'

namespace GState.Heirs

variable {node : Option Nat} {s1 : Session}

lemma nil : Heirs node known s s' [] :=
  ⟨nodup_nil, forall_mem_nil _, forall_mem_nil _, forall_mem_nil _, forall_mem_nil _⟩

lemma of_begets (h : g.Begets s s' gs) (hknown : known g.world.node) : Heirs g.node known s s' gs where
  nodup := h.nodup
  node g' hg' := (h.alters g' hg').node
  world g' hg' := by rwa [(h.alters g' hg').world.node]
  stands := h.stands
  number := h.number

lemma retold (h : Heirs node known s s' gs) (hgs : Retold gs gs') : Heirs node known s s' gs' := by
  refine ⟨h.nodup.sublist hgs.ids, ?_, ?_, ?_, ?_⟩
  all_goals
    intro g' hg'
    obtain ⟨g, hg, hretells⟩ := hgs.states g' hg'
  · rw [hretells.alters.node, h.node g hg]
  · rw [hretells.alters.world.node]
    exact h.world g hg
  · exact hretells.alters.world.stands (h.stands g hg)
  · rw [NumberedIn, hretells.id]
    exact h.number g hg

lemma widen (h : Heirs node known s1 s' gs) (hs : s.nextState ≤ s1.nextState) (hs' : s'.nextState ≤ s''.nextState) :
    Heirs node known s s'' gs :=
  { h with
    number := fun g hg => ⟨Nat.le_trans hs (h.number g hg).1, Nat.lt_of_lt_of_le (h.number g hg).2 hs'⟩ }

end GState.Heirs

namespace Explore

open Engine (Proceeds)
open GState (Heirs)

variable {op : Opcode}

lemma keepWorld_proceeds (hh : h.AreDiscreet) (hworld : known g.world.node) :
    (keepWorld h g).Proceeds known s fun _ _ => True := by
  refine .kept (tell_keeps hh.onWorld g s).attempt fun r s1 _ hr => ?_
  split
  · rename_i g'
    refine (Engine.Ends.modify ⟨Nat.le_refl _, .refl _, rfl, fun w hw => ?_, id⟩).mono fun _ _ _ _ => trivial
    rcases mem_append.1 hw with hw | hw
    · exact .inl hw
    · rw [mem_singleton.1 hw, (hr g' rfl).alters.world.node]
      exact .inr hworld
  · exact .pure trivial
  · exact .throw _

lemma resume_keeps (c : GState) (node : Option Nat) (hworld : known c.world.node) (s : Session) :
    (resume c node).Keeps s fun gs s' => Heirs node known s s' gs := by
  refine .next fun i s1 hs1 => ?_
  cases i with
  | none => exact .throw _
  | some i =>
    refine (c.finish_keeps i.opcode s1).attempt.bind fun r s2 hs2 hr => ?_
    split
    · rename_i gs
      have hbegets : c.Begets s1 s2 gs := hr _ rfl
      have hheirs := Heirs.of_begets hbegets hworld
      refine .pure (.widen ⟨?_, ?_, ?_, ?_, ?_⟩ hs1.next (Nat.le_refl _))
      · rw [map_map]
        exact hheirs.nodup
      all_goals
        intro g' hg'
        obtain ⟨g, hg, rfl⟩ := mem_map.1 hg'
      · rfl
      · exact hheirs.world g hg
      · exact hheirs.stands g hg
      · exact hheirs.number g hg
    · exact .pure .nil
    · exact .pure .nil
    · exact .throw _

variable (hh : h.AreDiscreet) (hnone : known none) (hnode : known g.node) (hworld : known g.world.node)
  (hs : s.Knows known)

include hh hnone hs in
/-- A fault ends a frame, and the caller goes on at the node of the frame. -/
lemma fail_proceeds (op : Opcode) (g : GState) :
    (fail h g op).Proceeds known s fun r s' => Heirs g.node known s s' r.2 := by
  unfold fail
  split
  · exact .throw _
  · exact .pure .nil
  rename_i waiting rest _
  refine .kept (tellAll_keeps (hh.after op) _ s) fun gs s1 hs1 hgs => ?_
  have hnode : (gs.headD { g with frames := rest }).node = g.node := by
    cases gs with
    | nil => rfl
    | cons g1 gs =>
      obtain ⟨g0, hg0, hretells⟩ := hgs.states g1 (by simp)
      rw [mem_singleton.1 hg0] at hretells
      exact hretells.alters.node
  refine .kept (Engine.suspended_keeps hnone (hs1.suspended hs) waiting) fun caller s2 hs2 hknown => ?_
  refine (Engine.setSuspended_proceeds (by exact hknown.1) (by exact hknown.2)).bind fun _ s3 hs3 _ => ?_
  have hs3 := hs1.trans (hs2.trans hs3)
  extract_lets _ goOn
  have hresume {s4} (hs4 : s.Proceeds known s4) : (goOn ()).Proceeds known s4 fun r s' => Heirs g.node known s s' r.2 := by
    refine .kept (resume_keeps _ _ (by exact hknown.2) s4) fun gs' s5 _ hgs' => .pure ?_
    rw [hnode] at hgs'
    exact hgs'.widen hs4.next (Nat.le_refl _)
  split
  · rename_i node _
    exact (Engine.grow_proceeds node caller.id _).bind fun _ s4 hs4 _ => hresume (hs3.trans hs4)
  · exact hresume hs3

include hnone hworld hs in
/-- A frame that has ended well hands its world back, and the caller goes on at the node of the frame. -/
lemma handBack_proceeds (waiting : Nat) (data : Option ReturnData) (reverted : Bool) :
    (handBack g waiting data reverted).Proceeds known s fun gs s' => Heirs g.node known s s' gs := by
  unfold handBack
  refine .kept (Engine.suspended_keeps hnone hs waiting) fun caller s1 hs1 hknown => ?_
  dsimp only
  refine (Engine.setSuspended_proceeds (by exact hknown.1) (by exact hknown.2)).bind fun _ s2 hs2 _ => ?_
  refine .kept (GState.copy_keeps _ false s2) fun c s3 hs3 ⟨halters, _, _⟩ => ?_
  have hs3 := hs1.trans (hs2.trans hs3)
  have hc : known c.world.node := by
    rw [halters.world.node]
    exact hknown.2
  have hresume (c : GState) (hc : known c.world.node) {s4 : Session} (hs4 : s.Proceeds known s4) :
      (resume c g.node).Proceeds known s4 fun gs s' => Heirs g.node known s s' gs :=
    .of_rests ((resume_keeps c g.node hc s4).mono fun _ _ _ hgs => hgs.widen hs4.next (Nat.le_refl _))
  split
  · exact hresume _ (by exact hc) hs3
  refine .kept (.of_yields (g.world.copy_does false).yields) fun w s4 hs4 hw => ?_
  have hw : known w.node := by
    rw [(World.Alters.of_copyOf hw.1).node]
    exact hworld
  split
  · exact .throw _
  · exact hresume _ (by exact hw) (hs3.trans hs4)

include hh hnone hnode hworld hs in
lemma finishFrame_proceeds (final : GState) (op : Opcode) (data : Option ReturnData) (reverted : Bool) :
    (finishFrame h g final op data reverted).Proceeds known s fun r s' => Heirs g.node known s s' r.2 := by
  unfold finishFrame
  split
  · exact .throw _
  refine .kept (tell_keeps (hh.onEnd_tells _) final s) fun final s1 hs1 _ => ?_
  split
  · split
    · refine .kept (hh.onSuccess g s1) fun g1 s2 _ hg1 => ?_
      refine (keepWorld_proceeds hh ?_).bind fun _ s3 _ _ => .pure .nil
      rw [hg1.alters.node]
      exact hnode
    · exact .pure .nil
  · refine .kept (tellAll_keeps (hh.after op) _ s1) fun _ s2 hs2 _ => ?_
    have hs2 := hs1.trans hs2
    refine (handBack_proceeds hnone hworld (hs2.suspended hs) _ data reverted).bind fun gs s3 _ hgs => .pure ?_
    exact hgs.widen hs2.next (Nat.le_refl _)

include hnode hworld in
lemma startFrame_proceeds (tx : Tx) (w : World) (hw : g.world.Alters w) (hstands : w.Stands) :
    (startFrame g tx w).Proceeds known s fun g' s' => Heirs g.node known s s' [g'] := by
  refine .kept (tx.start_keeps w s) fun new s1 hs1 ⟨hnew, hn, _⟩ => ?_
  refine (Engine.suspend_proceeds hnode hworld).bind fun waiting s2 hs2 _ => .pure ⟨by simp, ?_, ?_, ?_, ?_⟩
  all_goals refine forall_mem_singleton.2 ?_
  · rfl
  · show known new.world.node
    rw [hnew.node, hw.node]
    exact hworld
  · exact hnew.stands hstands
  · exact ⟨hn.1, Nat.lt_of_lt_of_le hn.2 hs2.next⟩

variable (known) in
include hh hnone hnode hworld hs in
/-- Executing a state leads to states with numbers of their own, at the node of the state. -/
lemma execute_proceeds : (execute h g).Proceeds known s fun r s' => Heirs g.node known s s' r.successors := by
  -- what observers are told of the successors changes nothing of the kind
  have htold {g1 : GState} (hg1 : g1.node = g.node) (op : Opcode) {c : Engine (GState × List GState)} {s1 : Session}
      (hc : c.Proceeds known s1 fun r s' => Heirs g1.node known s s' r.2) : Proceeds known (do
        let r ← c
        return { state := r.1, successors := ← tellAll (h.after op) r.2, opcode := some op : GState.Executed }) s1
      fun r s' => Heirs g.node known s s' r.successors := by
    refine hc.bind fun r s2 _ hr => ?_
    refine .kept (tellAll_keeps (hh.after op) r.2 s2) fun gs s3 hs3 hgs => .pure ?_
    rw [hg1] at hr
    exact (hr.retold hgs).widen (Nat.le_refl _) hs3.next
  have hfail (g1 : GState) (op : Opcode) {s1 : Session} (hs1 : s.Proceeds known s1) :
      (fail h g1 op).Proceeds known s1 fun r s' => Heirs g1.node known s s' r.2 :=
    (fail_proceeds hh hnone (hs1.suspended hs) op g1).mono fun _ _ _ hr => hr.widen hs1.next (Nat.le_refl _)
  unfold execute
  refine .kept (tell_keeps hh.onState g s).attempt fun r s1 hs1 hr => ?_
  split
  · exact .pure .nil
  · exact .throw _
  rename_i g1
  have hg1 : g.Retells g1 := hr g1 rfl
  refine .kept (.of_orderly (c := g1.instrAt? g1.machine.pc)) fun i s2 hs2 _ => ?_
  have hs2 := hs1.trans hs2
  split
  · refine (keepWorld_proceeds hh ?_).bind fun _ s3 _ _ => .pure .nil
    rw [hg1.alters.world.node]
    exact hworld
  rename_i i
  dsimp only
  split
  · exact htold hg1.alters.node _ (hfail g1 _ hs2)
  refine .kept (tell_keeps (hh.before _) g1 s2).attempt fun r s3 hs3 hr => ?_
  have hs3 := hs2.trans hs3
  split
  · exact .pure .nil
  · exact .throw _
  rename_i g2
  have hg2 : g.Retells g2 := hg1.trans (hr g2 rfl)
  have hnode2 : known g2.node := hg2.alters.node ▸ hnode
  have hworld2 : known g2.world.node := hg2.alters.world.node ▸ hworld
  refine .kept (g2.perform_keeps i.opcode s3).attempt fun o s4 hs4 ho => ?_
  have hs4' := hs3.trans hs4
  split
  · rename_i gs
    have hheirs := Heirs.of_begets (ho _ rfl) hworld2
    exact htold (c := pure (g2, gs)) hg2.alters.node _ (.pure (hheirs.widen hs3.next (Nat.le_refl _)))
  · rename_i tx waiting
    have hwaiting : g2.world.Alters waiting.world ∧ waiting.world.Stands := ho _ rfl
    refine (startFrame_proceeds hnode2 hworld2 tx _ hwaiting.1 hwaiting.2).bind fun g' s5 _ hg' => .pure ?_
    rw [hg2.alters.node] at hg'
    exact hg'.widen hs4'.next (Nat.le_refl _)
  · refine htold hg2.alters.node _ ?_
    refine (finishFrame_proceeds hh hnone hnode2 hworld2 (hs4'.suspended hs) _ _ _ _).mono ?_
    exact fun _ _ _ hr => hr.widen hs4'.next (Nat.le_refl _)
  · refine .kept (tell_keeps (hh.onEnd_tells _) g2 s4) fun g3 s5 hs5 hg3 => ?_
    exact htold (hg2.trans hg3).alters.node _ (hfail g3 _ (hs4'.trans hs5))
  · exact .throw _

end Explore
end EvmAudit
