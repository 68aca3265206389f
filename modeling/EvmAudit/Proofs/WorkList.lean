import EvmAudit.Proofs.TameSteps

/-!
# The list of work

Whatever the order of a plan, a state that is taken was waiting, and nothing but its notes has changed since; the states
that are left were waiting too. Successors are put into the graph, which changes no more than their labels.
-/

namespace EvmAudit

open List Work
open Engine (of_bind_ok)

variable {g g' : GState} {pool : GState → Prop} {s s' : Session} {plan : Plan} {gs : List GState}
  {final : Option GState}

def Work.states {α : Type} (w : Work α) : List α := w.queue ++ w.pending

/-- The same state but for its labels: its node, its notes, and the name of the function that is at work. -/
def GState.Relabels (g g' : GState) : Prop :=
  ∃ node notes function, g' = { g with node := node, notes := notes, env := { g.env with function := function } }

namespace GState.Relabels

variable {g'' : GState}

lemma refl (g : GState) : g.Relabels g := ⟨g.node, g.notes, g.env.function, rfl⟩

lemma trans (h : g.Relabels g') (h' : g'.Relabels g'') : g.Relabels g'' := by
  obtain ⟨_, _, _, rfl⟩ := h
  obtain ⟨node, notes, function, rfl⟩ := h'
  exact ⟨node, notes, function, rfl⟩

end GState.Relabels

/-! ## Taking a state -/

namespace Work

variable {α : Type} {w w' : Work α} {a : α}

structure Takes (w : Work α) (a : α) (w' : Work α) : Prop where
  taken : a ∈ w.states
  left : ∀ b ∈ w'.states, b ∈ w.states

lemma takeAt_takes {i : Nat} (h : w.takeAt i = some (a, w')) : w.Takes a w' := by
  unfold takeAt at h
  split at h
  · rename_i b hb
    cases h
    refine ⟨mem_append_left _ (mem_of_getElem? hb), fun b hb => ?_⟩
    rcases mem_append.1 hb with hb | hb
    · exact mem_append_left _ (mem_of_mem_eraseIdx hb)
    · exact mem_append_right _ hb
  · cases h

lemma narrow_states (w : Work α) (importance : α → Int) (width : Int) :
    ∀ b ∈ (w.narrow importance width).states, b ∈ w.states := by
  intro b hb
  rcases mem_append.1 hb with hb | hb
  · exact mem_append_left _ ((mergeSort_perm _ _).subset (mem_of_mem_take hb))
  · exact mem_append_right _ hb

lemma take_takes {s : Search} {importance : α → Int} (h : w.take s importance = some (a, w')) : w.Takes a w' := by
  cases s with
  | depthFirst | breadthFirst | delayed => exact takeAt_takes h
  | anyState | weighted =>
    simp only [take, takeShown] at h
    split at h
    · have htakes := takeAt_takes h
      exact ⟨htakes.taken, htakes.left⟩
    · exact takeAt_takes h
  | beam width =>
    have htakes := takeAt_takes h
    exact ⟨w.narrow_states importance width _ htakes.taken, fun b hb =>
      w.narrow_states importance width b (htakes.left b hb)⟩

end Work

/-- The session is the same as far as it matters to states, and only states of a pool wait. -/
structure Session.Sheds (pool : GState → Prop) (s s' : Session) : Prop where
  programs : ∀ {i : Nat} {p : Program}, s.code.programs[i]? = some p → s'.code.programs[i]? = some p
  suspended : s'.shared.suspended = s.shared.suspended
  openWorlds : s'.openWorlds = s.openWorlds
  work : ∀ g ∈ s'.work.states, pool g

namespace Session.Sheds

variable {s'' : Session}

lemma of_grows (hs : ∀ g ∈ s.work.states, pool g) (h : s.Grows s') : s.Sheds pool s' :=
  { h with work := by rwa [h.work] }

lemma trans (h : s.Sheds pool s') (h' : s'.Sheds pool s'') : s.Sheds pool s'' :=
  ⟨fun hp => h'.programs (h.programs hp), h'.suspended.trans h.suspended, h'.openWorlds.trans h.openWorlds, h'.work⟩

end Session.Sheds

namespace Explore

open Engine (Ends Goes)

/-- A way for sessions to go over into others while a state is looked for, in which no more states come to wait, and what
may become of a state that is looked at. -/
class Sifts (T : Session → Session → Prop) (R : outParam (GState → GState → Prop)) : Prop extends Session.Course T where
  setWork : ∀ {s : Session} {w : Work GState}, w.states ⊆ s.work.states → T s { s with work := w }
  work : ∀ {s s'}, T s s' → s'.work.states ⊆ s.work.states
  retrans : ∀ {g g' g''}, R g g' → R g' g'' → R g g''
  noted : ∀ (g : GState) (notes : List Note), R g { g with notes := notes }

/-- A state of a pool is taken, or none. -/
def Selects (T : Session → Session → Prop) (R : GState → GState → Prop) (pool : GState → Prop)
    (c : Engine (Option GState)) (s : Session) : Prop :=
  Ends T c s fun r _ => ∀ g, r = some g → ∃ g₀, pool g₀ ∧ R g₀ g

variable {T : Session → Session → Prop} {R : GState → GState → Prop} [hT : Sifts T R]

namespace Selects

lemma nothing : Selects T R pool (return none) s := .pure fun _ h => nomatch h

lemma one (hg : pool g) (hg' : R g g') : Selects T R pool (return some g') s :=
  .pure fun _ h => ⟨g, hg, Option.some.inj h ▸ hg'⟩

lemma throw (f : Fault) : Selects T R pool (throw f) s := Ends.throw f

lemma bind {α : Type} {c : Engine α} {f : α → Engine (Option GState)} (hc : T s (c.after s))
    (hf : ∀ a s', c s = .ok a s' → T s s' → Selects T R pool (f a) s') : Selects T R pool (c >>= f) s :=
  Ends.bind ⟨hc, fun _ _ h => h⟩ fun a s' hs h => hf a s' h hs

lemma next {α : Type} {c : Engine α} {f : α → Engine (Option GState)} [hc : Goes T c] [hc' : c.Orderly]
    (hf : ∀ a s', s.Rests s' → Selects T R pool (f a) s') : Selects T R pool (c >>= f) s :=
  bind (hc.goes s) fun a s' h _ => hf a s' (Engine.after_ok h ▸ hc'.rests s)

lemma setWork {k : Engine (Option GState)} {h : Session → Work GState} (hw : (h s).states ⊆ s.work.states)
    (hk : Selects T R pool k { s with work := h s }) :
    Selects T R pool (do modify (fun s => { s with work := h s }); k) s := by
  refine bind (hT.setWork hw) ?_
  rintro _ _ ⟨⟩ _
  exact hk

lemma andThen {c : Engine (Option GState)} {f : Option GState → Engine (Option GState)} (hc : Selects T R pool c s)
    (hnone : f none = return none) (hsome : ∀ g0 g s', T s s' → pool g0 → R g0 g → Selects T R pool (f (some g)) s') :
    Selects T R pool (c >>= f) s := by
  refine bind hc.1 fun r s' h hs => ?_
  cases r with
  | none =>
    rw [hnone]
    exact nothing
  | some g =>
    obtain ⟨g0, hg0, hg⟩ := hc.2 _ s' h g rfl
    exact hsome g0 g s' hs hg0 hg

end Selects

include hT in
lemma firstFresh_goes [hreached : ∀ g, Engine.Goes T (plan.isReached g)] (i : Nat) (gs : List GState) :
    Engine.Goes T (firstFresh plan.isReached i gs) := by
  induction gs generalizing i with
  | nil => exact .pure _
  | cons g rest ih =>
    have := ih (i + 1)
    unfold firstFresh
    infer_instance

section

variable (hs : ∀ g ∈ s.work.states, pool g)
include hs

include hT in
lemma pool_later (h : T s s') : ∀ g ∈ s'.work.states, pool g :=
  fun g hg => hs g (hT.work h hg)

lemma takeDelayed_selects (n : Nat) : Selects T R pool (takeDelayed n) s := by
  induction n generalizing s with
  | zero => exact .nothing
  | succ n ih =>
    refine .get ?_
    dsimp only
    split
    · rename_i g rest hq
      refine Selects.next fun all s1 hs1 => .next fun t s2 hs2 => ?_
      rw [← (hs1.trans hs2).work] at hs hq ⊢
      have hg : pool g := hs g (by simp [states, hq])
      split
      · exact .setWork (by simp [states, hq]) (.one hg (hT.noted g g.notes))
      · rename_i models _
        have hw : states { s2.work with queue := rest, pending := s2.work.pending ++ [g], models := models } ⊆ s2.work.states := by
          simp [states, hq]
        exact .setWork hw (ih (pool_later hs (hT.setWork hw)))
      · exact .setWork (by simp [states, hq]) (.throw _)
    · split
      · exact Selects.nothing
      rename_i hq g rest hp
      have hg : pool g := hs g (by simp [states, hp])
      have hw : states { s.work with pending := rest } ⊆ s.work.states := by simp [states, hp]
      refine Selects.setWork hw (.next fun m s1 hs1 => ?_)
      split
      · exact .setWork (.refl _) (.one hg (hT.noted g g.notes))
      · refine ih fun b hb => hs b (hw ?_)
        rwa [hs1.work] at hb

abbrev handOut (take : Work GState → Option (GState × Work GState)) (w : Work GState) : Option GState × Work GState :=
  match take w with
  | some (g, w) => (some g, w)
  | none => (none, { w with queue := [] })

lemma onWork_selects {take : Work GState → Option (GState × Work GState)}
    (htake : ∀ {g w}, take s.work = some (g, w) → s.work.Takes g w) :
    Selects T R pool (Engine.onWork (handOut take)) s := by
  unfold Selects Ends Engine.after Engine.onWork handOut
  cases hr : take s.work with
  | none =>
    simp only [hr]
    refine ⟨hT.setWork (subset_append_right _ _), ?_⟩
    rintro _ _ ⟨⟩ _ ⟨⟩
  | some p =>
    have htakes := htake hr
    simp only [hr]
    refine ⟨hT.setWork htakes.left, ?_⟩
    rintro _ _ ⟨⟩ _ ⟨⟩
    exact ⟨p.1, hs _ htakes.taken, hT.noted p.1 p.1.notes⟩

lemma takeNext_selects (search : Search) : Selects T R pool (takeNext search) s := by
  unfold takeNext
  split
  · exact .get (takeDelayed_selects hs _)
  · exact .get (onWork_selects hs take_takes)

lemma takeBounded_selects (bound : Int) {inner : Engine (Option GState)}
    (hinner : ∀ s, (∀ g ∈ s.work.states, pool g) → Selects T R pool inner s) (n : Nat) :
    Selects T R pool (takeBounded bound inner n) s := by
  induction n generalizing s with
  | zero => exact .nothing
  | succ n ih =>
    refine (hinner s hs).andThen rfl fun g0 g s1 hs1 hg0 hg => .next fun i s2 hs2 => ?_
    have hone : Selects T R pool (return some (addToTrace g i.address)) s2 := by
      refine .one hg0 (hT.retrans hg ?_)
      unfold addToTrace
      dsimp only
      split <;> exact hT.noted g _
    dsimp only
    split
    · split
      · split
        · exact .nothing
        · exact .throw _
      split
      · exact hone
      · split
        · exact ih fun b hb => pool_later hs hs1 b (hs2.work ▸ hb)
        · exact hone
    · exact hone

lemma takeWith_selects (hreached : ∀ g, Goes T (plan.isReached g)) (extensions : List Extension) :
    Selects T R pool (takeWith plan extensions) s := by
  induction extensions generalizing s with
  | nil => exact takeNext_selects hs plan.search
  | cons e rest ih =>
    cases e with
    | loops bound => exact .get (takeBounded_selects hs bound (fun s hs => ih hs) _)
    | fresh =>
      refine .get (Selects.bind ((firstFresh_goes _ _).goes s) fun i s1 _ hs1 => ?_)
      split
      · exact ih (pool_later hs hs1)
      · exact onWork_selects (pool_later hs hs1) takeAt_takes

lemma takeShallow_selects (htake : ∀ s, (∀ g ∈ s.work.states, pool g) →
      Selects T R pool (plan.taker.getD (takeWith plan plan.extensions)) s) (n : Nat) :
    Selects T R pool (takeShallow plan n) s := by
  induction n generalizing s with
  | zero => exact .nothing
  | succ n ih =>
    refine (htake s hs).andThen rfl fun g0 g s1 hs1 hg0 hg => ?_
    dsimp only
    split
    · exact ih (pool_later hs hs1)
    · exact .one hg0 hg

end

/-- The plan takes states from the list of work, and looks at them without changing anything. -/
structure Plan.IsPlain (plan : Plan) : Prop where
  taker : plan.taker = none
  isReached : ∀ g, Engine.Calm (plan.isReached g)

instance : Sifts (fun s s' => s.Sheds (· ∈ s.work.states) s') GState.Relabels where
  trans h h' := h.trans { h' with work := fun g hg => h.work g (h'.work g hg) }
  tame h _ := .of_grows (fun _ => id) h
  setWork h := ⟨id, rfl, rfl, fun _ hg => h hg⟩
  work h := h.work
  retrans := .trans
  noted g notes := ⟨g.node, notes, g.env.function, rfl⟩

lemma takeShallow_takes (hplan : plan.IsPlain) (n : Nat) (s : Session) :
    Selects (fun s s' => s.Sheds (· ∈ s.work.states) s') GState.Relabels (· ∈ s.work.states) (takeShallow plan n) s := by
  refine takeShallow_selects (fun _ => id) (fun s hs => ?_) n
  rw [hplan.taker]
  exact takeWith_selects hs (fun g => ⟨fun s => .of_grows (fun _ => id) ((hplan.isReached g).grows s).after⟩) _

end Explore

/-! ## Successors -/

namespace Engine

variable {α : Type}

instance Calm.forM {f : α → Engine PUnit} {xs : List α} [hf : ∀ a, Calm (f a)] : Calm (xs.forM f) := by
  induction xs with
  | nil => exact .pure _
  | cons a xs ih => exact .next fun _ => ih

lemma Yields.filterM {f : α → Engine Bool} [hf : ∀ a, Calm (f a)] (xs : List α) :
    (xs.filterM f).Yields s (Sublist · xs) := by
  -- what has been kept so far is gathered in front, the latest first
  have haux (xs kept : List α) s :
      (xs.filterAuxM f kept).Yields s (fun ys => ∃ zs : List α, zs.Sublist xs ∧ ys = zs.reverse ++ kept) := by
    induction xs generalizing kept s with
    | nil => exact .pure ⟨[], .slnil, rfl⟩
    | cons x xs ih =>
      refine .next fun b s' => (ih _ s').mono ?_
      rintro _ ⟨zs, hzs, rfl⟩
      cases b with
      | true => exact ⟨x :: zs, hzs.cons_cons x, by simp⟩
      | false => exact ⟨zs, hzs.cons x, rfl⟩
  refine (haux xs [] s).bind ?_
  rintro _ _ _ ⟨zs, hzs, rfl⟩
  exact .pure (by simpa using hzs)

end Engine

namespace Explore

lemma enterNode_yields (plan : Plan) (kind : EdgeKind) (condition : Option Expr) (g : GState) (s : Session) :
    (enterNode plan kind condition g).Yields s (g.Relabels ·) := by
  refine .next fun i s1 => ?_
  split
  · exact .pure (.refl g)
  extract_lets surroundings rest
  have hrest last s : (rest last).Yields s (g.Relabels ·) := .next fun p _ => .next fun n _ => .pure ⟨_, _, _, rfl⟩
  cases g.world.txs.getLast? with
  | some tx => exact hrest tx s1
  | none => exact .throw _

abbrev visit (g : GState) : Engine Unit :=
  match g.node with
  | some n => .onGraph (fun graph => ((), graph.visit n g))
  | none => throw .noSuchPart

abbrev branchOff (plan : Plan) (g : GState) : Engine GState :=
  match g.world.constraints.getLast? with
  | some c => enterNode plan .conditional (some c) g
  | none => throw .outOfRange

structure Relabelled (gs gs' : List GState) : Prop where
  length : gs'.length ≤ gs.length
  states : ∀ g' ∈ gs', ∃ g ∈ gs, g.Relabels g'

lemma chart_yields (plan : Plan) (op : Option Opcode) (gs : List GState) (s : Session) :
    (chart plan op gs).Yields s (Relabelled gs) := by
  unfold chart
  extract_lets _ finish
  have hvisit {gs'} (hgs' : Relabelled gs gs') s : (finish gs').Yields s (Relabelled gs) := by
    have (g : GState) : Engine.Calm (visit g) := by
      unfold visit
      split <;> infer_instance
    exact .next fun _ _ => .pure hgs'
  have henter {f : GState → Engine GState} (hf : ∀ g s, (f g).Yields s (g.Relabels ·)) :
      (gs.mapM f >>= finish).Yields s (Relabelled gs) :=
    (Engine.Yields.mapM fun g _ s => hf g s).bind fun gs' s' _ h => hvisit ⟨Nat.le_of_eq h.length_eq.symm, exists_of_forall2 h⟩ s'
  have hbranch g s : (branchOff plan g).Yields s (g.Relabels ·) := by
    unfold branchOff
    split
    · exact enterNode_yields _ _ _ g s
    · exact .throw _
  have hstay := hvisit ⟨Nat.le_refl _, fun g hg => ⟨g, hg, .refl g⟩⟩ s
  split
  · exact henter (enterNode_yields plan _ _)
  · exact henter hbranch
  iterate 2
    split
    · exact henter hbranch
    · exact hstay
  · exact henter (enterNode_yields plan _ _)
  · exact hstay

/-- Executing a state leads to its successors, or to none where something is not supported. -/
def Leads (g : GState) (s : Session) (gs : List GState) (s' : Session) : Prop :=
  (∃ r, execute {} g s = .ok r s' ∧ r.successors = gs) ∨ execute {} g s = .error (.failure .unsupported "") s' ∧ gs = []

end Explore

structure Session.Pushes (s : Session) (gs : List GState) (s' : Session) : Prop where
  programs : ∀ {i : Nat} {p : Program}, s.code.programs[i]? = some p → s'.code.programs[i]? = some p
  suspended : s'.shared.suspended = s.shared.suspended
  openWorlds : s'.openWorlds = s.openWorlds
  work : s'.work = s.work.push gs

lemma Session.Pushes.states (h : s.Pushes gs s') : ∀ g ∈ s'.work.states, g ∈ s.work.states ∨ g ∈ gs := by
  intro g hg
  rw [h.work] at hg
  have hstates : g ∈ (s.work.queue ++ gs) ++ s.work.pending := hg
  simp only [mem_append] at hstates
  rcases hstates with (hold | hnew) | hold
  · exact .inl (mem_append_left _ hold)
  · exact .inr hnew
  · exact .inl (mem_append_right _ hold)

namespace Explore

/-- The successors of a state that is expanded go to work, under other labels, but for those that are known to be
impossible. -/
lemma expand_run (h : expand {} plan g s = .ok final s') : ∃ gs s1 gs', Leads g s gs s1 ∧
    Relabelled gs gs' ∧ s1.Pushes gs' s' := by
  obtain ⟨r, s1, hr, h⟩ := of_bind_ok h
  unfold Engine.attempt at hr
  cases hexecute : execute {} g s with
  | error f s2 =>
    rw [hexecute] at hr
    cases hr
    dsimp only at h
    split at h
    · rename_i hf
      cases h
      rw [eq_of_beq hf] at hexecute
      refine ⟨[], _, [], .inr ⟨hexecute, rfl⟩, ⟨Nat.le_refl 0, forall_mem_nil _⟩, id, rfl, rfl, ?_⟩
      rw [push, append_nil]
    · cases h
  | ok r s2 =>
    rw [hexecute] at hr
    cases hr
    refine ⟨r.successors, s1, ?_⟩
    obtain ⟨_, _, hget, h⟩ := of_bind_ok h
    cases hget
    extract_lets push at h
    have hpush {gs s2} (hgs : gs.Sublist r.successors) (hs2 : s1.Grows s2) (h : push gs s2 = .ok final s') :
        ∃ gs', Relabelled r.successors gs' ∧ s1.Pushes gs' s' := by
      obtain ⟨gs', s3, hchart, h⟩ := of_bind_ok h
      obtain ⟨hs3, hgs'⟩ := (chart_yields plan _ gs s2).ok hchart
      have hs3 := hs2.trans hs3
      cases h
      refine ⟨gs', ⟨Nat.le_trans hgs'.length hgs.length_le, fun g' hg' => ?_⟩, hs3.programs, hs3.suspended,
        hs3.openWorlds, ?_⟩
      · obtain ⟨g, hg, hrel⟩ := hgs'.states g' hg'
        exact ⟨g, hgs.subset hg, hrel⟩
      · show s3.work.push gs' = _
        rw [hs3.work]
    have hpushed : ∃ gs', Relabelled r.successors gs' ∧ s1.Pushes gs' s' := by
      split at h
      · obtain ⟨gs, s3, hfilter, h⟩ := of_bind_ok h
        obtain ⟨hs3, hgs⟩ := (Engine.Yields.filterM r.successors).ok hfilter
        exact hpush hgs hs3 h
      · exact hpush (.refl _) (.refl s1) h
    obtain ⟨gs', hgs', hpushes⟩ := hpushed
    exact ⟨gs', .inl ⟨r, hexecute, rfl⟩, hgs', hpushes⟩

/-! ## The whole exploration -/

instance {T : Session → Session → Prop} [Session.Course T] (plan : Plan) (isCreation : Bool) :
    Engine.Goes T (isTimeOver plan isCreation) := by
  unfold isTimeOver
  infer_instance

/-- The states that an exploration executes, one after the other, each with the session that it finds. -/
def history (plan : Plan) (isCreation : Bool) : Nat → Session → List (GState × Session)
  | 0, _ => []
  | n + 1, s =>
    match takeShallow plan (s.work.size + 1) s with
    | .ok (some g) s₁ =>
      match isTimeOver plan isCreation s₁ with
      | .ok false s₂ => (g, s₂) :: match expand {} plan g s₂ with
        | .ok _ s₃ => history plan isCreation n s₃
        | .error _ _ => []
      | _ => []
    | _ => []

/-- The state that is taken in time is expanded, and the work goes on from there. -/
lemma work_turn {h : Hooks} {isCreation : Bool} {s1 s2 : Session}
    (htake : takeShallow plan (s.work.size + 1) s = .ok (some g) s1) (hover : isTimeOver plan isCreation s1 = .ok false s2)
    (n : Nat) (finals : List GState) : work h plan isCreation (n + 1) finals s = (do
      let final ← expand h plan g
      work h plan isCreation n (final.toList ++ finals) : Engine (List GState)) s2 := by
  conv_lhs => unfold work
  exact (Engine.bind_ok htake).trans (Engine.bind_ok hover)

/-- What holds at first, and goes on to hold when a state is taken and when it is expanded, holds in the end. -/
lemma work_induction (hplan : plan.IsPlain) {I : List (GState × Session) → Session → Prop}
    (hidle : ∀ {run s s1}, I run s → s.Sheds (· ∈ s.work.states) s1 → I run s1)
    (hturn : ∀ {run s s1 g0 g final s2}, I run s → s.Sheds (· ∈ s.work.states) s1 → g0 ∈ s.work.states →
      g0.Relabels g → expand {} plan g s1 = .ok final s2 → I (run ++ [(g, s1)]) s2)
    {isCreation : Bool} {n : Nat} {finals finals' : List GState} {run : List (GState × Session)} (hs : I run s)
    (h : work {} plan isCreation n finals s = .ok finals' s') : I (run ++ history plan isCreation n s) s' := by
  induction n generalizing s finals run with
  | zero =>
    cases h
    rwa [history, append_nil]
  | succ n ih =>
    obtain ⟨_, _, hget, h⟩ := of_bind_ok h
    cases hget
    obtain ⟨taken, s1, htake, h⟩ := of_bind_ok h
    obtain ⟨hsheds, hg⟩ := (takeShallow_takes hplan _ s).ok htake
    unfold history
    rw [htake]
    cases taken with
    | none =>
      cases h
      rw [append_nil]
      exact hidle hs hsheds
    | some g =>
      obtain ⟨g0, hg0, hrel⟩ := hg g rfl
      obtain ⟨isOver, s2, hover, h⟩ := of_bind_ok h
      have hs2 := Engine.Calm.ok hover
      have hsheds := hsheds.trans (.of_grows hsheds.work hs2)
      dsimp only
      rw [hover]
      cases isOver with
      | true =>
        cases h
        rw [append_nil]
        exact hidle hs hsheds
      | false =>
        obtain ⟨final, s3, hexpand, h⟩ := of_bind_ok h
        dsimp only
        rw [hexpand, append_cons]
        exact ih (hturn hs hsheds hg0 hrel hexpand) h

end Explore
end EvmAudit
