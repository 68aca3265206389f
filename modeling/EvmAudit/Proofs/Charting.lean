import EvmAudit.Proofs.Succession
import EvmAudit.Proofs.WorkList

/-!
# The forest of states

The nodes of the control-flow graph are the trees of a forest: an edge leads from a node to one that was recorded later,
and at most one edge leads to a node. The states that ever waited are divided up among the nodes: each is in the list of
exactly one node, its own, and there it is once. Numbers tell states apart, and a number that was given out is not given
out again, so what was divided up once stays divided up.
-/

namespace EvmAudit

open List

variable {g : GState} {next n : Nat} {node : FlowNode} {gs : List GState} {s s' s'' : Session}

variable {α β : Type}

/-! ## Graphs -/

namespace Graph

variable {γ γ' γ'' : Graph}

def members (γ : Graph) : List GState := (γ.nodes.map (·.visited)).toList.flatten

def Records (γ : Graph) (place : Option Nat) : Prop := ∀ n, place = some n → n < γ.nodes.size

/-- The state belongs to a node of the graph. -/
def Places (γ : Graph) (g : GState) : Prop := ∃ n, g.node = some n ∧ n < γ.nodes.size

def Owns (γ : Graph) (g : GState) : Prop := ∃ n node, g.node = some n ∧ γ.nodes[n]? = some node ∧ g ∈ node.visited

lemma Places.records (h : γ.Places g) : γ.Records g.node := by
  obtain ⟨n, hn, hlt⟩ := h
  intro m hm
  obtain rfl := Option.some.inj (hn.symm.trans hm)
  exact hlt

/-- Every edge leads from a node to one that was recorded later, and no two edges lead to the same node. -/
structure IsForest (γ : Graph) : Prop where
  edges : ∀ e ∈ γ.edges, ∃ n, e.source = some n ∧ n < e.target ∧ e.target < γ.nodes.size
  targets : (γ.edges.map (·.target)).Nodup

/-- The graph is a forest, and its states have numbers of their own that were given out. -/
structure IsDivided (γ : Graph) (next : Nat) : Prop where
  forest : γ.IsForest
  nodup : (γ.members.map (·.id)).Nodup
  below : ∀ g ∈ γ.members, g.id < next

structure Extends (γ γ' : Graph) : Prop where
  kept : ∀ {n : Nat} {node : FlowNode}, γ.nodes[n]? = some node →
    ∃ node', γ'.nodes[n]? = some node' ∧ node.visited ⊆ node'.visited

namespace Extends

lemma refl (γ : Graph) : γ.Extends γ := ⟨fun h => ⟨_, h, fun _ => id⟩⟩

lemma trans (h : γ.Extends γ') (h' : γ'.Extends γ'') : γ.Extends γ'' := by
  constructor
  intro n node hn
  obtain ⟨node', hn', hsub⟩ := h.kept hn
  obtain ⟨node'', hn'', hsub'⟩ := h'.kept hn'
  exact ⟨node'', hn'', Subset.trans hsub hsub'⟩

lemma records (h : γ.Extends γ') {place : Option Nat} (hplace : γ.Records place) : γ'.Records place := by
  intro n hn
  obtain ⟨node', hnode', -⟩ := h.kept (Array.getElem?_eq_getElem (hplace n hn))
  exact (getElem?_eq_some_iff.1 hnode').1

lemma places (h : γ.Extends γ') (hg : γ.Places g) : γ'.Places g := by
  obtain ⟨n, hn, -⟩ := id hg
  exact ⟨n, hn, h.records hg.records n hn⟩

lemma owns (h : γ.Extends γ') (hg : γ.Owns g) : γ'.Owns g := by
  obtain ⟨n, node, hplace, hnode, hmem⟩ := hg
  obtain ⟨node', hnode', hsub⟩ := h.kept hnode
  exact ⟨n, node', hplace, hnode', hsub hmem⟩

lemma of_settles (h : γ.Settles γ') : γ.Extends γ' := by
  constructor
  intro n node hn
  have hvisited : γ'.nodes[n]?.map (·.visited) = some node.visited := by
    rw [← Array.getElem?_map, h.visited, Array.getElem?_map, hn]
    rfl
  obtain ⟨node', hnode', heq⟩ := Option.map_eq_some_iff.1 hvisited
  exact ⟨node', hnode', heq ▸ .refl _⟩

end Extends

lemma Settles.members (h : γ.Settles γ') : γ'.members = γ.members := by
  unfold Graph.members
  rw [h.visited]

lemma IsDivided.settles (h : γ.IsDivided next) (hγ : γ.Settles γ') {next' : Nat} (hle : next ≤ next') :
    γ'.IsDivided next' where
  forest := by
    refine ⟨fun e he => ?_, hγ.edges ▸ h.forest.targets⟩
    rw [hγ.size]
    exact h.forest.edges e (hγ.edges ▸ he)
  nodup := hγ.members ▸ h.nodup
  below g hg := Nat.lt_of_lt_of_le (h.below g (hγ.members ▸ hg)) hle

/-! ### A new node -/

lemma members_add (γ : Graph) (h : node.visited = []) : (γ.add node).2.members = γ.members := by
  simp [members, add, h]

lemma size_lt_add (γ : Graph) (node : FlowNode) : γ.nodes.size < (γ.add node).2.nodes.size := by
  show γ.nodes.size < (γ.nodes.push node).size
  rw [Array.size_push]
  omega

lemma extends_add (γ : Graph) (node : FlowNode) : γ.Extends (γ.add node).2 := by
  constructor
  intro n node' hn
  refine ⟨node', ?_, .refl _⟩
  have hlt := (getElem?_eq_some_iff.1 hn).1
  show (γ.nodes.push node)[n]? = some node'
  rw [Array.getElem?_push_lt hlt, ← Array.getElem?_eq_getElem hlt, hn]

lemma IsDivided.add (h : γ.IsDivided next) (hnode : node.visited = []) : (γ.add node).2.IsDivided next where
  forest := by
    refine ⟨fun e he => ?_, h.forest.targets⟩
    obtain ⟨n, hsource, hlt, hsize⟩ := h.forest.edges e he
    exact ⟨n, hsource, hlt, Nat.lt_trans hsize (γ.size_lt_add node)⟩
  nodup := by rw [members_add γ hnode]; exact h.nodup
  below g hg := h.below g (members_add γ hnode ▸ hg)

lemma IsDivided.connect (h : γ.IsDivided next) (hnode : node.visited = []) (hn : n < γ.nodes.size) (kind : EdgeKind)
    (condition : Option Expr) : ((γ.add node).2.connect ⟨some n, γ.nodes.size, kind, condition⟩).IsDivided next where
  forest := by
    have hadd := (h.add hnode).forest
    refine ⟨forall_mem_cons.2 ⟨⟨n, rfl, hn, γ.size_lt_add node⟩, hadd.edges⟩, ?_⟩
    refine nodup_cons.2 ⟨fun hmem => ?_, hadd.targets⟩
    obtain ⟨e, he, htarget⟩ := mem_map.1 hmem
    obtain ⟨-, -, -, hlt⟩ := h.forest.edges e he
    exact absurd htarget (Nat.ne_of_lt hlt)
  nodup := (h.add hnode).nodup
  below := (h.add hnode).below

/-! ### A state in a node -/

lemma members_visit (hn : n < γ.nodes.size) (g : GState) : (γ.visit n g).members.Perm (g :: γ.members) := by
  have hlist (l : List (List GState)) n (hn : n < l.length) : (l.modify n (g :: ·)).flatten.Perm (g :: l.flatten) := by
    induction l generalizing n with
    | nil => cases hn
    | cons a l ih =>
      cases n with
      | zero => exact .refl _
      | succ n =>
        have hrest := ih n (Nat.lt_of_succ_lt_succ hn)
        exact (hrest.append_left a).trans perm_middle
  have hmap : ((γ.visit n g).nodes.map (·.visited)).toList = (γ.nodes.map (·.visited)).toList.modify n (g :: ·) := by
    simp only [visit, Array.toList_map, Array.toList_modify]
    refine ext_getElem? fun i => ?_
    simp only [getElem?_map, getElem?_modify]
    cases γ.nodes.toList[i]? with
    | none => rfl
    | some node => by_cases hi : n = i <;> simp [hi]
  unfold members
  rw [hmap]
  exact hlist _ n (by simpa using hn)

lemma extends_visit (γ : Graph) (n : Nat) (g : GState) : γ.Extends (γ.visit n g) := by
  constructor
  intro i node hi
  by_cases hn : n = i
  · refine ⟨{ node with visited := g :: node.visited }, ?_, fun _ => mem_cons_of_mem g⟩
    simp [visit, Array.getElem?_modify, hn, hi]
  · exact ⟨node, by simp [visit, Array.getElem?_modify, hn, hi], .refl _⟩

lemma owns_visit (hn : n < γ.nodes.size) (hg : g.node = some n) : (γ.visit n g).Owns g := by
  refine ⟨n, { γ.nodes[n] with visited := g :: γ.nodes[n].visited }, hg, ?_, mem_cons_self⟩
  simp [visit, Array.getElem?_modify, Array.getElem?_eq_getElem hn]

/-- States that may be put into the graph: they have numbers of their own, and belong to nodes of the graph. -/
structure Awaits (γ : Graph) (next : Nat) (gs : List GState) : Prop where
  divided : γ.IsDivided next
  nodup : (gs.map (·.id)).Nodup
  fresh : ∀ g ∈ gs, ∀ g' ∈ γ.members, g'.id ≠ g.id
  below : ∀ g ∈ gs, g.id < next
  places : ∀ g ∈ gs, ∃ n, g.node = some n ∧ n < γ.nodes.size

lemma Awaits.visit (h : γ.Awaits next (g :: gs)) (hg : g.node = some n) :
    (γ.visit n g).Awaits next gs ∧ (γ.visit n g).Owns g := by
  obtain ⟨m, hm, hlt⟩ := h.places g (by simp)
  obtain rfl := Option.some.inj (hg.symm.trans hm)
  have hperm := members_visit hlt g
  have hsize : (γ.visit n g).nodes.size = γ.nodes.size := Array.size_modify
  obtain ⟨hnot, hnodup⟩ := nodup_cons.1 h.nodup
  refine ⟨⟨⟨⟨?_, h.divided.forest.targets⟩, ?_, fun g' hg' => ?_⟩, hnodup, fun g1 hg1 g' hg' => ?_, ?_, ?_⟩, owns_visit hlt hg⟩
  · intro e he
    rw [hsize]
    exact h.divided.forest.edges e he
  · refine (hperm.map _).nodup_iff.2 (nodup_cons.2 ⟨fun hmem => ?_, h.divided.nodup⟩)
    obtain ⟨g', hg', hid⟩ := mem_map.1 hmem
    exact h.fresh g (by simp) g' hg' hid
  · rcases mem_cons.1 (hperm.subset hg') with rfl | hg'
    · exact h.below g' (by simp)
    · exact h.divided.below g' hg'
  · rcases mem_cons.1 (hperm.subset hg') with rfl | hg'
    · exact fun hid => hnot (mem_map.2 ⟨g1, hg1, hid.symm⟩)
    · exact h.fresh g1 (by simp [hg1]) g' hg'
  · exact fun g' hg' => h.below g' (by simp [hg'])
  · intro g' hg'
    rw [hsize]
    exact h.places g' (by simp [hg'])

end Graph

/-! ## Sessions -/

/-- The graph is divided up, the states that wait are in it, and their worlds, those that are open and the callers that
wait belong to it. -/
structure Session.Charted (s : Session) : Prop where
  graph : s.graph.IsDivided s.nextState
  waiting : ∀ g ∈ s.work.states, s.graph.Owns g ∧ s.graph.Records g.world.node
  openWorlds : ∀ w ∈ s.openWorlds, s.graph.Records w.node
  callers : s.Knows s.graph.Records

lemma Session.Charted.of_extends (hs : s.Charted) (hgraph : s'.graph.IsDivided s'.nextState)
    (hextends : s.graph.Extends s'.graph) (hwork : s'.work = s.work) (hopen : s'.openWorlds = s.openWorlds)
    (hsuspended : s'.shared.suspended = s.shared.suspended) : s'.Charted where
  graph := hgraph
  waiting g hg := by
    rw [hwork] at hg
    exact ⟨hextends.owns (hs.waiting g hg).1, hextends.records (hs.waiting g hg).2⟩
  openWorlds w hw := by
    rw [hopen] at hw
    exact hextends.records (hs.openWorlds w hw)
  callers c hc := by
    rw [hsuspended] at hc
    exact ⟨hextends.records (hs.callers c hc).1, hextends.records (hs.callers c hc).2⟩

/-- A session that is charted stays so, and its nodes stay, with their states. -/
def Session.Charts (s s' : Session) : Prop := s.Charted → s'.Charted ∧ s.graph.Extends s'.graph

namespace Session.Charts

lemma trans (h : s.Charts s') (h' : s'.Charts s'') : s.Charts s'' := fun hs =>
  ⟨(h' (h hs).1).1, (h hs).2.trans (h' (h hs).1).2⟩

/-- What happens beside the graph, as long as what belongs to a node belongs to one of the graph. -/
lemma of_proceeds (h : s.Proceeds s.graph.Records s') : s.Charts s' := by
  intro hs
  have hextends : s.graph.Extends s'.graph := .of_settles h.graph
  refine ⟨⟨hs.graph.settles h.graph h.next, fun g hg => ?_, fun w hw => ?_, fun c hc => ?_⟩, hextends⟩
  · rw [h.work] at hg
    exact ⟨hextends.owns (hs.waiting g hg).1, hextends.records (hs.waiting g hg).2⟩
  · exact hextends.records ((h.openWorlds w hw).elim (hs.openWorlds w) id)
  · have hknown := h.suspended hs.callers c hc
    exact ⟨hextends.records hknown.1, hextends.records hknown.2⟩

instance : Session.Passage Charts := ⟨fun h => of_proceeds (.of_rests h), trans⟩

end Session.Charts

lemma Session.Charted.rests (hs : s.Charted) (h : s.Rests s') : s'.Charted := (Passage.of_rests (T := Charts) h hs).1

/-- The graph may have more nodes, but no more states. -/
structure Session.Enlarges (s s' : Session) : Prop where
  next : s.nextState ≤ s'.nextState
  graph : s.graph.IsDivided s.nextState → s'.graph.IsDivided s'.nextState
  members : s'.graph.members = s.graph.members
  grows : s.graph.Extends s'.graph
  work : s'.work = s.work
  openWorlds : s'.openWorlds = s.openWorlds
  suspended : s'.shared.suspended = s.shared.suspended

namespace Session.Enlarges

lemma of_rests (h : s.Rests s') : s.Enlarges s' where
  next := h.next
  graph hs := by
    rw [h.graph]
    exact hs.settles (.refl _) h.next
  members := by rw [h.graph]
  grows := by
    rw [h.graph]
    exact .refl _
  work := h.work
  openWorlds := h.openWorlds
  suspended := h.suspended

lemma trans (h : s.Enlarges s') (h' : s'.Enlarges s'') : s.Enlarges s'' where
  next := Nat.le_trans h.next h'.next
  graph hs := h'.graph (h.graph hs)
  members := h'.members.trans h.members
  grows := h.grows.trans h'.grows
  work := h'.work.trans h.work
  openWorlds := h'.openWorlds.trans h.openWorlds
  suspended := h'.suspended.trans h.suspended

instance : Session.Passage Enlarges := ⟨of_rests, trans⟩

lemma charts (h : s.Enlarges s') : s.Charts s' := fun hs =>
  ⟨.of_extends hs (h.graph hs.graph) h.grows h.work h.openWorlds h.suspended, h.grows⟩

lemma add (hnode : node.visited = []) {source : Option Nat} (hsource : s.graph.Records source) (keeps : Bool)
    (hkeeps : keeps = true → source.isSome = true) (kind : EdgeKind) (condition : Option Expr) :
    s.Enlarges { s with graph := (if keeps = true then
      (s.graph.add node).2.connect ⟨source, s.graph.nodes.size, kind, condition⟩ else (s.graph.add node).2) } := by
  refine ⟨Nat.le_refl _, fun hs => ?_, ?_, ?_, rfl, rfl, rfl⟩
  · show (if keeps = true then _ else _ : Graph).IsDivided _
    split
    · rename_i hk
      obtain ⟨n, rfl⟩ := Option.isSome_iff_exists.1 (hkeeps hk)
      exact hs.connect hnode (hsource n rfl) kind condition
    · exact hs.add hnode
  · show (if keeps = true then _ else _ : Graph).members = s.graph.members
    split <;> exact s.graph.members_add hnode
  · show s.graph.Extends (if keeps = true then _ else _)
    split <;> exact ⟨(s.graph.extends_add node).kept⟩

end Session.Enlarges

lemma Engine.Ends.recast {c : Engine α} {P : α → Session → Prop} {T U : Session → Session → Prop}
    (hc : Ends T c s P) (h : ∀ s', T s s' → U s s') : Ends U c s fun a s' => T s s' ∧ P a s' :=
  ⟨h _ hc.1, fun _ _ ha => hc.ok ha⟩

namespace Explore

open Engine (Ends)
open Session (Charts Enlarges)

variable {h : Hooks} {plan : Plan}

/-! ## The states that come next -/

/-- The state has another node, maybe, and is otherwise the same to the graph. -/
structure Placed (g g' : GState) (s : Session) : Prop where
  id : g'.id = g.id
  world : g'.world = g.world
  place : ∃ n, g'.node = some n ∧ n < s.graph.nodes.size

lemma Placed.later {g' : GState} (h : Placed g g' s) (hs : s.graph.Extends s'.graph) : Placed g g' s' :=
  ⟨h.id, h.world, hs.places h.place⟩

lemma enterNode_enlarges (kind : EdgeKind) (condition : Option Expr) (hg : s.graph.Places g) :
    Ends Enlarges (enterNode plan kind condition g) s fun g' s' => Placed g g' s' := by
  have hsome : g.node.isSome = true := by
    obtain ⟨n, hn, -⟩ := hg
    rw [hn]
    rfl
  refine .next fun i s1 hs1 => ?_
  replace hs1 := Enlarges.of_rests hs1
  split
  · exact .pure ⟨rfl, rfl, hs1.grows.places hg⟩
  extract_lets surroundings rest
  have hrest last s1 (hs1 : s.Enlarges s1) : Ends Enlarges (rest last) s1 fun g' s' => Placed g g' s' := by
    refine .next fun p s2 hs2 => ?_
    have hplace := (hs1.trans (.of_rests hs2)).grows.records hg.records
    refine .bind ⟨?_, ?_⟩ fun n s3 hs3 hn => .pure ⟨rfl, rfl, n, rfl, hn⟩
    · exact .add rfl hplace plan.keepsGraph (fun _ => hsome) kind condition
    · rintro _ _ ⟨⟩
      show s2.graph.nodes.size < (if plan.keepsGraph = true then _ else _ : Graph).nodes.size
      split <;> exact Graph.size_lt_add _ _
  cases g.world.txs.getLast? with
  | some tx => exact hrest tx s1 hs1
  | none => exact .throw _

lemma enterAll_enlarges {enter : GState → Engine GState}
    (henter : ∀ {g s}, s.graph.Places g → Ends Enlarges (enter g) s fun g' s' => Placed g g' s') (gs : List GState)
    (hgs : ∀ g ∈ gs, s.graph.Places g) :
    Ends Enlarges (gs.mapM enter) s fun gs' s' => Forall₂ (Placed · · s') gs gs' := by
  induction gs generalizing s with
  | nil => exact .pure .nil
  | cons g gs ih =>
    rw [mapM_cons]
    refine (henter (hgs g (by simp))).bind fun g' s1 hs1 hg' => ?_
    have hgs1 : ∀ g ∈ gs, s1.graph.Places g := fun g hg => hs1.grows.places (hgs g (by simp [hg]))
    exact (ih hgs1).bind fun gs' s2 hs2 hgs' => .pure (.cons (hg'.later hs2.grows) hgs')

lemma visitAll_run (hgs : s.graph.Awaits next gs) : ∃ γ, gs.forM visit s = .ok () { s with graph := γ } ∧
    γ.IsDivided next ∧ s.graph.Extends γ ∧ ∀ g ∈ gs, γ.Owns g := by
  induction gs generalizing s with
  | nil => exact ⟨s.graph, rfl, hgs.divided, .refl _, forall_mem_nil _⟩
  | cons g gs ih =>
    obtain ⟨n, hn, -⟩ := hgs.places g (by simp)
    obtain ⟨hrest, howns⟩ := hgs.visit hn
    obtain ⟨γ, hrun, hdivided, hextends, hall⟩ := ih (s := { s with graph := s.graph.visit n g }) hrest
    refine ⟨γ, ?_, hdivided, (s.graph.extends_visit n g).trans hextends, forall_mem_cons.2 ⟨hextends.owns howns, hall⟩⟩
    have hfirst : visit g s = .ok () { s with graph := s.graph.visit n g } := by
      rw [visit, hn]
      rfl
    exact .trans (Engine.bind_ok hfirst) hrun

lemma awaits_placed {gs' : List GState} (hgs : s.graph.Awaits s.nextState gs) (hs : s.Enlarges s')
    (hplaced : Forall₂ (Placed · · s') gs gs') : s'.graph.Awaits s'.nextState gs' := by
  have hids : gs'.map (·.id) = gs.map (·.id) := by
    clear hgs
    induction hplaced with
    | nil => rfl
    | cons hg _ ih => rw [map_cons, map_cons, ih, hg.id]
  refine ⟨hs.graph hgs.divided, hids ▸ hgs.nodup, fun g' hg' => ?_, fun g' hg' => ?_, fun g' hg' => ?_⟩
  all_goals obtain ⟨g, hg, hplaced⟩ := exists_of_forall2 hplaced g' hg'
  · rw [hs.members, hplaced.id]
    exact hgs.fresh g hg
  · rw [hplaced.id]
    exact Nat.lt_of_lt_of_le (hgs.below g hg) hs.next
  · exact hplaced.place

lemma chart_charts (plan : Plan) (op : Option Opcode) (hgs : s.graph.Awaits s.nextState gs)
    (hworlds : ∀ g ∈ gs, s.graph.Records g.world.node) : Ends Charts (chart plan op gs) s fun gs' s' =>
      ∀ g ∈ gs', s'.graph.Owns g ∧ s'.graph.Records g.world.node := by
  unfold chart
  extract_lets _ finish
  have hvisit {gs' s1} (hs1 : s.Enlarges s1) (hplaced : Forall₂ (Placed · · s1) gs gs') :
      Ends Charts (finish gs') s1 fun gs' s' => ∀ g ∈ gs', s'.graph.Owns g ∧ s'.graph.Records g.world.node := by
    obtain ⟨γ, hrun, hdivided, hextends, howns⟩ := visitAll_run (awaits_placed hgs hs1 hplaced)
    have hafter : s1.Charts { s1 with graph := γ } := fun hs => ⟨.of_extends hs hdivided hextends rfl rfl rfl, hextends⟩
    refine .bind (c := gs'.forM visit) (P := fun _ s' => s' = { s1 with graph := γ }) ⟨?_, ?_⟩ ?_
    · rw [Engine.after_ok hrun]
      exact hafter
    · intro _ s' hs'
      rw [hrun] at hs'
      cases hs'
      rfl
    · rintro _ s2 - rfl
      refine .pure fun g' hg' => ⟨howns g' hg', ?_⟩
      obtain ⟨g, hg, hplaced⟩ := exists_of_forall2 hplaced g' hg'
      rw [hplaced.world]
      exact hextends.records (hs1.grows.records (hworlds g hg))
  have hsame : Forall₂ (Placed · · s) gs gs := forall₂_same.2 fun g hg => ⟨rfl, rfl, hgs.places g hg⟩
  have hstay := hvisit (.of_rests (.refl s)) hsame
  have henter {enter} (hc : ∀ {g s}, s.graph.Places g → Ends Enlarges (enter g) s fun g' s' => Placed g g' s') :
      Ends Charts (gs.mapM enter >>= finish) s
        fun gs' s' => ∀ g ∈ gs', s'.graph.Owns g ∧ s'.graph.Records g.world.node :=
    ((enterAll_enlarges hc gs hgs.places).recast fun _ => Enlarges.charts).bind fun gs' s1 _ h => hvisit h.1 h.2
  have hbranch {g s} (hg : s.graph.Places g) :
      Ends Enlarges (branchOff plan g) s fun g' s' => Placed g g' s' := by
    unfold branchOff
    split
    · exact enterNode_enlarges _ _ hg
    · exact .throw _
  split
  · exact henter (enterNode_enlarges _ _)
  · exact henter hbranch
  iterate 2
    split
    · exact henter hbranch
    · exact hstay
  · exact henter (enterNode_enlarges _ _)
  · exact hstay

lemma push_charts (hgs : ∀ g ∈ gs, s.graph.Owns g ∧ s.graph.Records g.world.node) :
    Ends Charts (Engine.onWork fun w => ((), w.push gs)) s fun _ _ => True := by
  refine ⟨fun hs => ⟨⟨hs.graph, fun g hg => ?_, hs.openWorlds, hs.callers⟩, .refl _⟩, fun _ _ _ => trivial⟩
  have hmem : g ∈ (s.work.queue ++ gs) ++ s.work.pending := hg
  simp only [mem_append] at hmem
  rcases hmem with (hold | hnew) | hold
  · exact hs.waiting g (mem_append_left _ hold)
  · exact hgs g hnew
  · exact hs.waiting g (mem_append_right _ hold)

instance {f : α → Engine Bool} [hf : ∀ a, Engine.Orderly (f a)] (xs : List α) :
    Engine.Orderly (xs.filterM f) := by
  have haux (xs kept : List α) : Engine.Orderly (xs.filterAuxM f kept) := by
    induction xs generalizing kept with
    | nil => exact .pure _
    | cons x xs ih => exact .next fun b => ih _
  exact .next fun _ => .pure _

/-- The states that come after one that is in the graph are put into the graph, and go to work. -/
lemma expand_charts (hh : h.AreDiscreet) (hplace : s.graph.Places g)
    (hworld : s.graph.Records g.world.node) (hs : s.Charted) : Ends Charts (expand h plan g) s fun _ _ => True := by
  have hexecute := execute_proceeds s.graph.Records hh nofun hplace.records hworld hs.callers
  refine (hexecute.attempt.recast fun _ => .of_proceeds).bind ?_
  rintro r s1 - ⟨hs1, hr⟩
  split
  · split
    · exact .pure trivial
    · exact .throw _
  rename_i r
  have hheirs := hr r rfl
  refine .get ?_
  extract_lets push
  -- whatever is done to the list of successors, what is left of it may be put into the graph
  have hpush {gs} (hgs : gs.Sublist r.successors) {s2} (hs2 : s1.Rests s2) : Ends Charts (push gs) s2 fun _ _ => True := by
    have hheirs := (hheirs.retold (.of_sublist hgs)).widen (Nat.le_refl _) hs2.next
    have hawaits : s2.graph.Awaits s2.nextState gs := by
      refine ⟨?_, hheirs.nodup, fun g' hg' g1 hg1 => ?_, fun g' hg' => (hheirs.number g' hg').2, fun g' hg' => ?_⟩
      · exact ((Charts.of_proceeds hs1 hs).1.rests hs2).graph
      · rw [hs2.graph, hs1.graph.members] at hg1
        have hold := hs.graph.below g1 hg1
        have hnew := (hheirs.number g' hg').1
        omega
      · rw [hs2.graph, hs1.graph.size, hheirs.node g' hg']
        exact hplace
    have hworlds : ∀ g' ∈ gs, s2.graph.Records g'.world.node := by
      intro g' hg' n hn
      rw [hs2.graph, hs1.graph.size]
      exact hheirs.world g' hg' n hn
    refine (chart_charts plan r.opcode hawaits hworlds).bind fun gs' s3 _ hgs' => ?_
    refine (push_charts hgs').bind fun _ s4 _ _ => (Ends.modify fun hs => ?_).bind fun _ s5 _ _ => .pure trivial
    exact ⟨.of_extends hs hs.graph (.refl _) rfl rfl rfl, .refl _⟩
  split
  · have hfilter := Ends.of_yields (T := Session.Rests) (.filterM (s := s1)
      (f := fun g => g.world.constraints.isPossible) r.successors)
    exact .after_rests hfilter fun gs s2 hs2 hgs => hpush hgs hs2
  · exact hpush (.refl _) (.refl _)

/-! ## Transactions that begin -/

abbrev addRoot (plan : Plan) (w : World) (node : FlowNode) : Engine Nat :=
  .onGraph (fun graph =>
    let (n, graph) := graph.add node
    (n, if plan.keepsGraph && w.node.isSome then graph.connect ⟨w.node, n, .transaction, none⟩ else graph))

/-- A transaction that begins in a world of the graph begins a tree, or goes on from the node of the world. -/
lemma begin_charts (plan : Plan) (tx : Tx) {w : World} {conditions : GState → Calc Constraints}
    (hw : s.graph.Records w.node) (hs : s.Charted) : Ends Charts (begin plan tx w conditions) s fun _ _ => True := by
  refine .after_rests (tx.start_keeps w s) ?_
  rintro g s1 hs1 ⟨halters, ⟨hfresh, hgiven⟩, -⟩
  refine .next fun cs s2 hs2 => ?_
  replace hgiven := Nat.lt_of_lt_of_le hgiven hs2.next
  replace hs2 := hs1.trans hs2
  have hw2 : s2.graph.Records w.node := by rwa [hs2.graph]
  have hadd : ∀ {node}, node.visited = [] →
      Ends Enlarges (addRoot plan w node) s2 fun n s3 => n < s3.graph.nodes.size := by
    intro node hnode
    refine ⟨.add hnode hw2 (plan.keepsGraph && w.node.isSome) (fun h => (Bool.and_eq_true_iff.1 h).2) _ _, ?_⟩
    rintro _ _ ⟨⟩
    show s2.graph.nodes.size < (if _ then _ else _ : Graph).nodes.size
    split <;> exact Graph.size_lt_add _ _
  refine ((hadd ?_).recast fun _ => Enlarges.charts).bind ?_
  · split <;> rfl
  rintro n s3 - ⟨hs3, hn⟩
  -- the state of the transaction goes into that node
  extract_lets _ _ g'
  have hawaits : s3.graph.Awaits s3.nextState [g'] := by
    refine ⟨hs3.graph (hs.rests hs2).graph, by simp, forall_mem_singleton.2 fun g1 hg1 => ?_, ?_, ?_⟩
    · rw [hs3.members, hs2.graph] at hg1
      exact Nat.ne_of_lt (Nat.lt_of_lt_of_le (hs.graph.below g1 hg1) hfresh)
    · exact forall_mem_singleton.2 (Nat.lt_of_lt_of_le hgiven hs3.next)
    · exact forall_mem_singleton.2 ⟨n, rfl, hn⟩
  obtain ⟨hvisit, howns⟩ := hawaits.visit rfl
  have hgrows := s3.graph.extends_visit n g'
  refine .bind (P := fun _ s' => s' = { s3 with graph := s3.graph.visit n g' }) ⟨fun hs => ?_, ?_⟩ ?_
  · exact ⟨.of_extends hs hvisit.divided hgrows rfl rfl rfl, hgrows⟩
  · rintro _ _ ⟨⟩
    rfl
  · rintro _ _ - rfl
    refine push_charts (forall_mem_singleton.2 ⟨howns, hgrows.records ?_⟩)
    show s3.graph.Records g.world.node
    rw [halters.node]
    exact hs3.grows.records hw2

end Explore
end EvmAudit
