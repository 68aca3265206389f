import EvmAudit.Proofs.Calls
import EvmAudit.Proofs.Charting
import Mathlib.Data.List.Nodup
import Mathlib.Logic.Relation

/-!
# The forest of states

An exploration moves in steps: a transaction begins in a world, a state is taken, its successors take its place. Each
step leaves the session charted, so whatever transactions are made and whatever became of them, the graph is a forest
whose nodes divide up among them all states that ever waited.
-/

namespace EvmAudit

open List Engine

variable {h : Hooks} {plan : Plan} {g : GState} {s s' : Session} {w : World}

/-! ## Taking a state -/

/-- States that waited may be gone, and other worlds be open. -/
structure Session.Drops (s s' : Session) : Prop where
  next : s.nextState ≤ s'.nextState
  graph : s'.graph = s.graph
  work : s'.work.states ⊆ s.work.states
  openWorlds : ∀ w ∈ s'.openWorlds, w ∈ s.openWorlds ∨ s.graph.Records w.node
  suspended : s'.shared.suspended = s.shared.suspended

namespace Session.Drops

variable {s'' : Session}

lemma of_rests (h : s.Rests s') : s.Drops s' where
  next := h.next
  graph := h.graph
  work := by
    rw [h.work]
    exact .refl _
  openWorlds w hw := .inl (by rwa [h.openWorlds] at hw)
  suspended := h.suspended

lemma trans (h : s.Drops s') (h' : s'.Drops s'') : s.Drops s'' where
  next := Nat.le_trans h.next h'.next
  graph := h'.graph.trans h.graph
  work := Subset.trans h'.work h.work
  openWorlds w hw := by
    rcases h'.openWorlds w hw with hw | hw
    · exact h.openWorlds w hw
    · rw [h.graph] at hw
      exact .inr hw
  suspended := h'.suspended.trans h.suspended

lemma setWorlds {ws : List World} (h : ∀ w ∈ ws, w ∈ s.openWorlds ∨ s.graph.Records w.node) :
    s.Drops { s with openWorlds := ws } :=
  ⟨Nat.le_refl _, rfl, .refl _, h, rfl⟩

lemma charts (h : s.Drops s') : s.Charts s' := by
  intro hs
  refine ⟨⟨?_, fun g hg => ?_, fun w hw => ?_, fun c hc => ?_⟩, h.graph ▸ .refl _⟩
  · rw [h.graph]
    exact hs.graph.settles (.refl _) h.next
  · rw [h.graph]
    exact hs.waiting g (h.work hg)
  · rw [h.graph]
    exact (h.openWorlds w hw).elim (hs.openWorlds w) id
  · rw [h.graph]
    exact hs.callers c (h.suspended ▸ hc)

end Session.Drops

namespace Explore

open Engine (Ends)

/-- The state that is taken is one of those that waited, as an observer may have left it. -/
def Picks (c : Engine (Option GState)) (s : Session) : Prop :=
  Ends Session.Drops c s fun r _ => ∀ g, r = some g → ∃ g₀ ∈ s.work.states, g₀.Retells g

instance : Sifts Session.Drops GState.Retells where
  trans := .trans
  tame _ h := .of_rests h
  setWork h := ⟨Nat.le_refl _, rfl, h, fun _ => .inl, rfl⟩
  work h := h.work
  retrans h h' := h.trans h'
  noted _ _ := ⟨rfl, rfl, .refl _⟩

/-- The plan takes states from those that wait, and looks at them without changing anything. -/
structure Plan.IsOrderly (plan : Plan) : Prop where
  taker : ∀ take, plan.taker = some take → ∀ s, Picks take s
  isReached : ∀ g, Engine.Orderly (plan.isReached g)

lemma takeShallow_picks (hplan : plan.IsOrderly) (n : Nat) (s : Session) : Picks (takeShallow plan n) s := by
  refine takeShallow_selects (fun _ => id) (fun s1 hs1 => ?_) n
  cases htaker : plan.taker with
  | none => exact takeWith_selects hs1 (fun g => ⟨fun s => .of_rests ((hplan.isReached g).rests s)⟩) _
  | some take =>
    refine (hplan.taker take htaker s1).mono fun _ _ _ hr g hg => ?_
    obtain ⟨g0, hg0, hrel⟩ := hr g hg
    exact ⟨g0, hs1 g0 hg0, hrel⟩

/-! ## Moves -/

inductive Moves (h : Hooks) (plan : Plan) : Session → Session → Prop where
  | begin {s : Session} {w : World} {conditions : GState → Calc Constraints} (tx : Tx)
      (hw : s.graph.Records w.node) : Moves h plan s ((begin plan tx w conditions).after s)
  /-- A state that waited is replaced by its successors. -/
  | expand {s : Session} {g₀ g : GState} (hg₀ : s.graph.Owns g₀) (hworld : s.graph.Records g₀.world.node)
      (hg : g₀.Retells g) : Moves h plan s ((expand h plan g).after s)
  /-- Nothing is added to the graph or to the list of work. -/
  | drop {s s' : Session} (hs : s.Drops s') : Moves h plan s s'

lemma Moves.charts (hh : h.AreDiscreet) (hmove : Moves h plan s s') : s.Charts s' := by
  intro hs
  cases hmove with
  | begin tx hw => exact (begin_charts plan tx hw hs).1 hs
  | @expand g0 g hg0 hworld hg =>
    have hplace : s.graph.Places g := by
      obtain ⟨n, node, hn, hnode, -⟩ := hg0
      exact ⟨n, hg.alters.node.trans hn, (getElem?_eq_some_iff.1 hnode).1⟩
    exact (expand_charts hh hplace (hg.alters.world.node ▸ hworld) hs).1 hs
  | drop hdrop => exact hdrop.charts hs

abbrev Explores (h : Hooks) (plan : Plan) : Session → Session → Prop := Relation.ReflTransGen (Moves h plan)

instance : Session.Passage (Explores h plan) := ⟨fun hs => .single (.drop (.of_rests hs)), .trans⟩

lemma Explores.charts (hh : h.AreDiscreet) (hmoves : Explores h plan s s') : s.Charts s' := by
  induction hmoves with
  | refl => exact Session.Passage.of_rests (.refl s)
  | tail _ hmove ih => exact ih.trans (hmove.charts hh)

end Explore

lemma Session.Charted.explores {plan : Explore.Plan} (hs : s.Charted) (hh : h.AreDiscreet)
    (hmoves : Explore.Explores h plan s s') : s'.Charted := (hmoves.charts hh hs).1

namespace Explore

open Engine (Ends)

/-! ## Transactions -/

lemma runAll_orderly {cs : List (Engine Unit)} (hcs : ∀ c ∈ cs, Orderly c) : Orderly (Hooks.runAll cs) := by
  induction cs with
  | nil => exact .pure _
  | cons c cs ih =>
    have : Orderly (id c) := hcs c (by simp)
    exact .next fun _ => ih fun c hc => hcs c (by simp [hc])

/-- All that the computation does to the session is part of an exploration. -/
abbrev Roams {α : Type} (h : Hooks) (plan : Plan) (c : Engine α) (s : Session) : Prop :=
  Ends (Explores h plan) c s fun _ _ => True

lemma expand_explores {g0 : GState} (hs : s.Charted) (hdrops : s.Drops s') (hg0 : g0 ∈ s.work.states)
    (hg : g0.Retells g) : Roams h plan (expand h plan g) s' := by
  have howns := hs.waiting g0 hg0
  rw [← hdrops.graph] at howns
  exact ⟨.single (.expand howns.1 howns.2 hg), fun _ _ _ => trivial⟩

lemma begin_explores (tx : Tx) {conditions : GState → Calc Constraints} {w' : World} (hs : s.Rests s')
    (halters : w.Alters w') (hw : s.graph.Records w.node) : Roams h plan (begin plan tx w' conditions) s' := by
  rw [← hs.graph, ← halters.node] at hw
  exact ⟨.single (.begin tx hw), fun _ _ _ => trivial⟩

lemma takeWorlds_explores (hs : s.Charted) : Ends (Explores h plan) takeWorlds s fun ws s' =>
    ∀ w ∈ ws, s'.graph.Records w.node := by
  refine ⟨.single (.drop (.setWorlds (forall_mem_nil _))), ?_⟩
  rintro _ _ ⟨⟩
  exact hs.openWorlds

lemma foldlM_explores {α : Type} (hh : h.AreDiscreet) {f : α → World → Engine α}
    (hf : ∀ {a w s}, s.graph.Records w.node → Roams h plan (f a w) s) (ws : List World)
    (hws : ∀ w ∈ ws, s.graph.Records w.node) (hs : s.Charted) (a : α) : Roams h plan (ws.foldlM f a) s := by
  induction ws generalizing s a with
  | nil => exact .pure trivial
  | cons w ws ih =>
    refine (hf (hws w (by simp))).bind fun a s1 hs1 _ => ?_
    obtain ⟨hcharted, hextends⟩ := hs1.charts hh hs
    exact ih (fun w hw => hextends.records (hws w (by simp [hw]))) hcharted a

lemma forM_explores (hh : h.AreDiscreet) {f : World → Engine Unit} (hf : ∀ {w s}, s.graph.Records w.node →
      Roams h plan (f w) s) (ws : List World) (hws : ∀ w ∈ ws, s.graph.Records w.node)
    (hs : s.Charted) : Roams h plan (ws.forM f) s := by
  have heq : ws.forM f = ws.foldlM (fun _ w => f w) () := by
    clear hws
    induction ws with
    | nil => rfl
    | cons w ws ih => exact congrArg (f w >>= ·) (funext fun _ => ih)
  rw [heq]
  exact foldlM_explores hh hf ws hws hs ()

instance (tx : Tx) : Engine.Orderly (bySomeActor tx) := .next fun _ => .next fun _ => inferInstance

section

variable (hh : h.AreDiscreet) (hplan : plan.IsOrderly) (hs : s.Charted)
include hh hplan hs

lemma work_explores (isCreation : Bool) (n : Nat) (finals : List GState) :
    Roams h plan (work h plan isCreation n finals) s := by
  induction n generalizing s finals with
  | zero => exact .pure trivial
  | succ n ih =>
    refine .get ?_
    have htake := (takeShallow_picks hplan (s.work.size + 1) s).recast (U := Explores h plan) fun _ hs => .single (.drop hs)
    refine htake.bind ?_
    rintro r s1 hpath ⟨hdrops, hr⟩
    have hs1 := hs.explores hh hpath
    cases r with
    | none =>
      have := runAll_orderly hh.onWorkStop
      exact .next fun _ _ _ => .pure trivial
    | some g =>
      obtain ⟨g0, hg0, hrel⟩ := hr g rfl
      refine .next fun isOver s2 hs2 => ?_
      split
      · exact .pure trivial
      · refine (expand_explores hs (hdrops.trans (.of_rests hs2)) hg0 hrel).bind fun final s3 hs3 _ => ih ?_ _
        exact (hs1.rests hs2).explores hh hs3

lemma run_explores (isCreation : Bool) : Roams h plan (run h plan isCreation) s := by
  have := runAll_orderly hh.onWorkStart
  exact .next fun _ s1 hs1 => work_explores hh hplan (hs.rests hs1) isCreation patience []

variable (target : Expr)

lemma sendUnknown_explores (choices : List (List Nat)) :
    Roams h plan (sendUnknown h plan target choices) s := by
  refine (takeWorlds_explores hs).bind fun ws s1 hs1 hws => ?_
  have hcharted := hs.explores hh hs1
  refine (forM_explores hh (fun {w s} hw => ?_) ws hws hcharted).bind fun _ s2 hs2 _ => ?_
  · refine .after_rests (.of_yields (w.lookup_alters target s)) ?_
    rintro ⟨callee, w'⟩ s1 hs1 halters
    dsimp only
    split
    · exact .pure trivial
    refine .next fun id s2 hs2 => .next fun sender s3 hs3 => .next fun data s4 hs4 => .next fun price s5 hs5 => ?_
    refine .next fun value s6 hs6 => .next fun tx s7 hs7 => .next fun someActor s8 hs8 => ?_
    have hrests := ((((((hs1.trans hs2).trans hs3).trans hs4).trans hs5).trans hs6).trans hs7).trans hs8
    exact begin_explores tx hrests halters hw
  · exact (run_explores hh hplan (hcharted.explores hh hs2) false).bind fun _ _ _ _ => .pure trivial

lemma createUnknown_explores (code : Bytecode) (name : String) (creator : Expr) (hw : s.graph.Records w.node) :
    Roams h plan (createUnknown h plan w code name creator) s := by
  refine .bind (P := fun _ _ => True) ?_ fun address s1 hs1 _ => ?_
  · have hdrop : Explores h plan s { s with openWorlds := [] } := .single (.drop (.setWorlds (forall_mem_nil _)))
    refine (Ends.modify hdrop).bind ?_
    rintro _ s1 - rfl
    refine .next fun id s2 hs2 => .next fun price s3 hs3 => .next fun program s4 hs4 => .next fun value s5 hs5 => ?_
    refine .after_rests (.of_yields (Tx.creation_alters w _ name none s5)) ?_
    rintro ⟨tx, w'⟩ s6 hs6 halters
    refine .next fun someActor s7 hs7 => ?_
    have hrests := ((((hs2.trans hs3).trans hs4).trans hs5).trans hs6).trans hs7
    exact (begin_explores tx hrests halters hw).bind fun _ _ _ _ => .pure trivial
  · exact (run_explores hh hplan (hs.explores hh hs1) true).bind fun _ _ _ _ => .pure trivial

lemma sendKnown_explores (t : KnownTx) (code : Option Bytecode) :
    Roams h plan (sendKnown h plan target t code) s := by
  refine (takeWorlds_explores hs).bind fun ws s1 hs1 hws => ?_
  have hcharted := hs.explores hh hs1
  refine (foldlM_explores hh (fun {code w s} hw => ?_) ws hws hcharted code).bind fun _ s2 hs2 _ => ?_
  · refine .next fun id s1 hs1 => .after_rests (.of_yields (w.lookup_alters target s1)) ?_
    rintro ⟨callee, w'⟩ s2 hs2 halters
    have hs2 := hs1.trans hs2
    simp only [pure_bind]
    split
    on_goal 2 =>
      refine .next fun program s3 hs3 => ?_
      replace hs2 := hs2.trans hs3
    all_goals
      refine .next fun program s4 hs4 => .next fun data s5 hs5 => .next fun tx s6 hs6 => ?_
      have hrests := ((hs2.trans hs4).trans hs5).trans hs6
      exact (begin_explores tx hrests halters hw).bind fun _ _ _ _ => .pure trivial
  · exact run_explores hh hplan (hcharted.explores hh hs2) false

lemma createKnown_explores (t : KnownTx) : Roams h plan (createKnown h plan t) s := by
  refine (takeWorlds_explores hs).bind fun ws s1 hs1 hws => ?_
  have hcharted := hs.explores hh hs1
  refine (forM_explores hh (fun {w s} hw => ?_) ws hws hcharted).bind fun _ s2 hs2 _ => ?_
  · refine .next fun id s1 hs1 => .next fun program s2 hs2 => ?_
    refine .after_rests (.of_yields (Tx.creation_alters w _ "" none s2)) ?_
    rintro ⟨tx, w'⟩ s3 hs3 halters
    exact begin_explores tx ((hs1.trans hs2).trans hs3) halters hw
  · exact run_explores hh hplan (hcharted.explores hh hs2) true

lemma rounds_explores (n i : Nat) : Roams h plan (rounds h plan target n i) s := by
  induction n generalizing s i with
  | zero => exact .pure trivial
  | succ n ih =>
    have := runAll_orderly hh.onRoundStart
    have := runAll_orderly hh.onRoundStop
    refine .get ?_
    split
    · exact .pure trivial
    split
    on_goal 1 =>
      refine .get (.after_rests (.of_yields (.filterM s.openWorlds)) fun ws s1 hs1 hws => ?_)
      have hopen : ∀ w ∈ ws, w ∈ s1.openWorlds ∨ s1.graph.Records w.node := fun w hw =>
        .inl (hs1.openWorlds ▸ hws.subset hw)
      have hdrop : Explores h plan s1 { s1 with openWorlds := ws } := .single (.drop (.setWorlds hopen))
      refine (Ends.modify hdrop).bind ?_
      rintro _ s2 hs2 -
      replace hs := (hs.rests hs1).explores hh hs2
    all_goals
      refine .get (.next fun choices s1 hs1 => .next fun _ s2 hs2 => ?_)
      have hs2 := hs.rests (hs1.trans hs2)
      refine (sendUnknown_explores hh hplan hs2 target choices).bind fun _ s3 hs3 _ => .next fun _ s4 hs4 => ih ?_ _
      exact (hs2.explores hh hs3).rests hs4

lemma transactions_explores : Roams h plan (transactions h plan target) s := by
  have := runAll_orderly hh.onTxsStart
  have := runAll_orderly hh.onTxsStop
  refine .next fun _ s1 hs1 => ?_
  exact (rounds_explores hh hplan (hs.rests hs1) target plan.rounds 0).bind fun _ _ _ _ => .of_orderly

lemma messages_explores (target : Int) (hw : s.graph.Records w.node) : Roams h plan (messages h plan w target) s := by
  have := runAll_orderly hh.onStart
  have := runAll_orderly hh.onStop
  refine .next fun _ s1 hs1 => ?_
  have hopen : ∀ w' ∈ [w], w' ∈ s1.openWorlds ∨ s1.graph.Records w'.node :=
    forall_mem_singleton.2 (.inr (by rwa [hs1.graph]))
  have hdrop : Explores h plan s1 { s1 with openWorlds := [w] } := .single (.drop (.setWorlds hopen))
  refine (Ends.modify hdrop).bind fun _ s2 hs2 _ => ?_
  refine .next fun address s3 hs3 => ?_
  have hcharted := ((hs.rests hs1).explores hh hs2).rests hs3
  exact (transactions_explores hh hplan hcharted address).bind fun _ _ _ _ => .of_orderly

lemma creation_explores (code : Bytecode) (name : String) (hw : s.graph.Records w.node) :
    Roams h plan (creation h plan w code name) s := by
  have := runAll_orderly hh.onStart
  have := runAll_orderly hh.onStop
  refine .next fun _ s1 hs1 => .next fun creator s2 hs2 => ?_
  have hs2 := hs1.trans hs2
  have hcharted := hs.rests hs2
  refine (createUnknown_explores hh hplan hcharted code name creator (by rwa [hs2.graph])).bind fun address s3 hs3 _ => ?_
  exact (transactions_explores hh hplan (hcharted.explores hh hs3) address).bind fun _ _ _ _ => .of_orderly

/-! ## All that ever waited -/

inductive Request where
  | send (target : Expr) (choices : List (List Nat))
  | create (w : World) (code : Bytecode) (name : String) (creator : Expr)
  | sendKnown (target : Expr) (t : KnownTx) (code : Option Bytecode)
  | createKnown (t : KnownTx)
  | messages (w : World) (target : Int)
  | creation (w : World) (code : Bytecode) (name : String)

namespace Request

def perform (h : Hooks) (plan : Plan) : Request → Engine Unit
  | send target choices => Explore.sendUnknown h plan target choices
  | create w code name creator => do let _ ← createUnknown h plan w code name creator
  | sendKnown target t code => do let _ ← Explore.sendKnown h plan target t code
  | createKnown t => do let _ ← Explore.createKnown h plan t
  | messages w target => Explore.messages h plan w target
  | creation w code name => Explore.creation h plan w code name

/-- A world that comes with the request was not explored before. -/
def IsNew : Request → Prop
  | create w _ _ _ | messages w _ | creation w _ _ => w.node = none
  | _ => True

lemma perform_explores {r : Request} (hr : r.IsNew) :
    Roams h plan (r.perform h plan) s := by
  have hnone {w : World} (hw : w.node = none) : s.graph.Records w.node := by
    intro n hn
    rw [hw] at hn
    cases hn
  cases r with
  | send target choices => exact sendUnknown_explores hh hplan hs target choices
  | create w code name creator =>
    exact (createUnknown_explores hh hplan hs code name creator (hnone hr)).bind fun _ _ _ _ => .pure trivial
  | sendKnown target t code => exact (sendKnown_explores hh hplan hs target t code).bind fun _ _ _ _ => .pure trivial
  | createKnown t => exact (createKnown_explores hh hplan hs t).bind fun _ _ _ _ => .pure trivial
  | messages w target => exact messages_explores hh hplan hs target (hnone hr)
  | creation w code name => exact creation_explores hh hplan hs code name (hnone hr)

omit hs in
lemma performAll_explores (rs : List Request) (hrs : ∀ r ∈ rs, r.IsNew)
    (hs : s.Charted) : Roams h plan (rs.forM (perform h plan)) s := by
  induction rs generalizing s with
  | nil => exact .pure trivial
  | cons r rs ih =>
    refine (perform_explores hh hplan hs (hrs r (by simp))).bind fun _ s1 hs1 _ => ?_
    exact ih (fun r hr => hrs r (by simp [hr])) (hs.explores hh hs1)

end Request

/-- The sessions that the work on the list of states goes through: the first one, and then one after each state. -/
def stages (h : Hooks) (plan : Plan) (isCreation : Bool) : Nat → Session → List Session
  | 0, s => [s]
  | n + 1, s => s :: match takeShallow plan (s.work.size + 1) s with
    | .ok (some g) s₁ =>
      match isTimeOver plan isCreation s₁ with
      | .ok false s₂ =>
        match expand h plan g s₂ with
        | .ok _ s₃ => stages h plan isCreation n s₃
        | .error _ s₃ => [s₃]
      | _ => []
    | _ => []

omit hs in
lemma stages_explores (isCreation : Bool) (n : Nat) (finals : List GState) (hs : s.Charted) : ∀ s1 ∈ stages h plan isCreation n s,
      Explores h plan s s1 ∧ Explores h plan s1 ((work h plan isCreation n finals).after s) := by
  induction n generalizing s finals with
  | zero => exact forall_mem_singleton.2 ⟨.refl, .refl⟩
  | succ n ih =>
    refine forall_mem_cons.2 ⟨⟨.refl, (work_explores hh hplan hs isCreation _ finals).1⟩, ?_⟩
    intro s1 hs1
    split at hs1
    case h_2 => cases hs1
    rename_i g s2 htake
    split at hs1
    case h_2 => cases hs1
    rename_i s3 hover
    -- a state was taken in time, and is expanded
    obtain ⟨hdrops, hpick⟩ := (takeShallow_picks hplan (s.work.size + 1) s).ok htake
    obtain ⟨g0, hg0, hrel⟩ := hpick g rfl
    have hrests : s2.Rests s3 := after_ok hover ▸ Goes.goes s2
    have hdrops := hdrops.trans (.of_rests hrests)
    have hexpand : Ends (Explores h plan) (expand h plan g) s3 fun _ _ => True := expand_explores hs hdrops hg0 hrel
    have hs3 : Explores h plan s s3 := .single (.drop hdrops)
    have hwork := work_turn (h := h) htake hover n finals
    split at hs1
    · rename_i final s4 hrun
      have hs4 := hs3.trans (hexpand.ok hrun).1
      have hafter := after_congr (hwork.trans (bind_ok hrun))
      obtain ⟨hto, hon⟩ := ih (final.toList ++ finals) (hs.explores hh hs4) s1 hs1
      exact ⟨hs4.trans hto, hafter ▸ hon⟩
    · rename_i f s4 hrun
      obtain rfl := mem_singleton.1 hs1
      have hs1 := after_error hrun ▸ hexpand.1
      rw [after_error (hwork.trans (bind_error hrun))]
      exact ⟨hs3.trans hs1, .refl⟩

end

end Explore

structure Session.IsFresh (s : Session) : Prop where
  graph : s.graph = {}
  work : s.work.states = []
  callers : s.shared.suspended = #[]
  openWorlds : ∀ w ∈ s.openWorlds, w.node = none

lemma Session.IsFresh.charted (h : s.IsFresh) : s.Charted := by
  refine ⟨?_, ?_, ?_, ?_⟩
  · rw [h.graph]
    have hmembers : Graph.members {} = [] := by simp [Graph.members]
    refine ⟨⟨forall_mem_nil _, nodup_nil⟩, ?_, ?_⟩
    · rw [hmembers]
      exact nodup_nil
    · rw [hmembers]
      exact forall_mem_nil _
  · rw [h.work]
    exact forall_mem_nil _
  · intro w hw n hn
    rw [h.openWorlds w hw] at hn
    cases hn
  · intro c hc
    rw [h.callers] at hc
    simp at hc

namespace Graph

variable {γ : Graph} {next : Nat}

def OwnsOnce (γ : Graph) (g : GState) : Prop :=
  ∃ n node, g.node = some n ∧ γ.nodes[n]? = some node ∧ node.states.filter (·.id == g.id) = [g] ∧
    ∀ m node', γ.nodes[m]? = some node' → m ≠ n → ∀ g' ∈ node'.states, g'.id ≠ g.id

/-- A list whose members are told apart by a mark has one member with the mark of a given one. -/
lemma filter_eq_singleton {gs : List GState} (hgs : (gs.map (·.id)).Nodup) (hg : g ∈ gs) :
    gs.filter (·.id == g.id) = [g] := by
  induction gs with
  | nil => cases hg
  | cons g' gs ih =>
    obtain ⟨hnot, hnodup⟩ := nodup_cons.1 hgs
    have hapart : ∀ g ∈ gs, g.id ≠ g'.id := fun g hg hid => hnot (mem_map.2 ⟨g, hg, hid⟩)
    rcases mem_cons.1 hg with rfl | hg
    · simpa using hapart
    · rw [filter_cons_of_neg (by simpa using (hapart g hg).symm), ih hnodup hg]

lemma Owns.once (h : γ.Owns g) (hγ : γ.IsDivided next) : γ.OwnsOnce g := by
  obtain ⟨n, node, hn, hnode, hg⟩ := h
  obtain ⟨hwithin, hbetween⟩ : (∀ l ∈ γ.nodes.toList.map (·.visited.map (·.id)), l.Nodup) ∧
      (γ.nodes.toList.map (·.visited.map (·.id))).Pairwise Disjoint := by
    have hnodup := hγ.nodup
    rwa [members, map_flatten, nodup_flatten, Array.toList_map, map_map] at hnodup
  have hget {m : Nat} {node'} (hnode' : γ.nodes[m]? = some node') :
      (γ.nodes.toList.map (·.visited.map (·.id)))[m]? = some (node'.visited.map (·.id)) := by
    rw [getElem?_map, Array.getElem?_toList, hnode']
    rfl
  refine ⟨n, node, hn, hnode, ?_, fun m node' hnode' hne g' hg' hid => ?_⟩
  · refine filter_eq_singleton ?_ (mem_reverse.2 hg)
    rw [FlowNode.states, map_reverse, nodup_reverse]
    exact hwithin _ (mem_of_getElem? (hget hnode))
  have hmem : g.id ∈ node.visited.map (·.id) := mem_map.2 ⟨g, hg, rfl⟩
  have hmem' : g.id ∈ node'.visited.map (·.id) := mem_map.2 ⟨g', mem_reverse.1 hg', hid⟩
  obtain ⟨hm, hm'⟩ := List.getElem?_eq_some_iff.1 (hget hnode')
  obtain ⟨hn, hn'⟩ := List.getElem?_eq_some_iff.1 (hget hnode)
  rw [← hn'] at hmem
  rw [← hm'] at hmem'
  rcases Nat.lt_or_gt_of_ne hne with hlt | hlt
  · exact pairwise_iff_getElem.1 hbetween m n hm hn hlt hmem' hmem
  · exact pairwise_iff_getElem.1 hbetween n m hn hm hlt hmem hmem'

end Graph

/-- Whatever an exploration is asked for, one thing after the other, it makes moves, and the work on a list of states
goes through its stages by moves. At any time the graph is a forest, and a state that waited at any time before is in the
list of exactly one node, once. -/
theorem Explore.flow_graph_is_forest (hh : h.AreDiscreet) (hplan : plan.IsOrderly) (hs : s.IsFresh) :
    (∀ rs : List Request, (∀ r ∈ rs, r.IsNew) → Explores h plan s ((rs.forM (Request.perform h plan)).after s)) ∧
    (∀ isCreation n finals s₁, Explores h plan s s₁ → ∀ s₂ ∈ stages h plan isCreation n s₁,
      Explores h plan s₁ s₂ ∧ Explores h plan s₂ ((work h plan isCreation n finals).after s₁)) ∧
    ∀ s₁ s₂, Explores h plan s s₁ → Explores h plan s₁ s₂ →
      s₂.graph.IsForest ∧ ∀ g ∈ s₁.work.states, s₂.graph.OwnsOnce g := by
  refine ⟨fun rs hrs => (Request.performAll_explores hh hplan rs hrs hs.charted).1, ?_, ?_⟩
  · exact fun isCreation n finals s₁ hs₁ => stages_explores hh hplan isCreation n finals (hs.charted.explores hh hs₁)
  · intro s₁ s₂ hs₁ hs₂
    have hcharted₁ := hs.charted.explores hh hs₁
    obtain ⟨hcharted₂, hextends⟩ := hs₂.charts hh hcharted₁
    exact ⟨hcharted₂.graph.forest, fun g hg => (hextends.owns (hcharted₁.waiting g hg).1).once hcharted₂.graph⟩

/-- The account at 256 branches on the amount that it is sent, and both branches are followed. -/
def Explore.beforeBranching : Session := { Session.ofCodes ["34600557005b00", "00"] with
  openWorlds := [(GState.ofOperands []).world], options := { pruning := false } }

theorem Explore.flow_graph_is_forest_after_two_messages : Hooks.AreDiscreet {} ∧ Plan.IsOrderly {} ∧ beforeBranching.IsFresh ∧
    ∃ s, ([.send (.literal 256) [], .send (.literal 256) []].forM (Request.perform {} {})) beforeBranching = .ok () s ∧
      s.graph.nodes.size = 9 ∧ s.graph.edges.length = 8 ∧ s.graph.IsForest := by
  have hplan : Plan.IsOrderly {} := by
    refine ⟨?_, fun _ => inferInstance⟩
    intro take htake
    cases htake
  have hs : beforeBranching.IsFresh := ⟨rfl, rfl, rfl, forall_mem_singleton.2 rfl⟩
  obtain ⟨_, s, hrun, hnodes, hedges⟩ : ∃ u s,
      ([.send (.literal 256) [], .send (.literal 256) []].forM (Request.perform {} {})) beforeBranching = .ok u s ∧
      s.graph.nodes.size = 9 ∧ s.graph.edges.length = 8 := by decide +kernel
  obtain ⟨hrequests, -, hforest⟩ := flow_graph_is_forest Hooks.areDiscreet_empty hplan hs
  have hmoves := hrequests [.send (.literal 256) [], .send (.literal 256) []] (by simp [Request.IsNew])
  rw [after_ok hrun] at hmoves
  exact ⟨Hooks.areDiscreet_empty, hplan, hs, s, hrun, hnodes, hedges, (hforest _ s hmoves .refl).1⟩
end EvmAudit
