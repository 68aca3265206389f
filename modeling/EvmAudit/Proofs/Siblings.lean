import EvmAudit.Proofs.Returns

/-!
# Paths that share a caller

A frame may branch, and then several states wait to call the same suspended caller back. The caller is one state for all
of them, and the end of one path leaves traces in it: a fault leaves the conditions of the path, a halt leaves the notes
that follow it. So the order in which the paths end shows. The conditions of a path that has failed come back with the
later ones that revert or fail, its notes with all later ones; stack, accounts and balances are never affected.
-/

namespace EvmAudit.Explore

variable {caller c last : GState} {k : CallKind} {i : Instr} {n : Nat} {x : BitVec 256} {e : Ending}
  {es : List (GState × Ending)} {s s' s'' : Session} {r : GState.Executed}

/-! ## Traces of the paths that have ended -/

def leftBy (es : List (GState × Ending)) : Constraints := es.flatMap fun p => p.2.left p.1

def carriedBy (es : List (GState × Ending)) : List Note := es.flatMap fun p => p.2.carried p.1

def outlivedAll (c : GState) (es : List (GState × Ending)) : GState := es.foldl (fun c p => outlived c p.1 p.2) c

lemma outlivedAll_append {α : Type} {f : GState → List α} {new : GState → Ending → List α}
    (h : ∀ c last e, f (outlived c last e) = f c ++ new last e) :
    f (outlivedAll c es) = f c ++ es.flatMap fun p => new p.1 p.2 := by
  induction es generalizing c with
  | nil => exact (List.append_nil _).symm
  | cons p es ih =>
    calc f (outlivedAll c (p :: es))
      _ = f (outlived c p.1 p.2) ++ es.flatMap fun p => new p.1 p.2 := ih
      _ = f c ++ (p :: es).flatMap fun p => new p.1 p.2 := by rw [h, List.append_assoc]; rfl

lemma outlivedAll_constraints : (outlivedAll c es).world.constraints = c.world.constraints ++ leftBy es := by
  have hone c last e : (outlived c last e).world.constraints = c.world.constraints ++ e.left last := by
    cases e with
    | fault => rfl
    | halt _ => exact (List.append_nil _).symm
  exact outlivedAll_append (f := (·.world.constraints)) hone

lemma outlivedAll_notes : (outlivedAll c es).notes = c.notes ++ carriedBy es := by
  have hone c last e : (outlived c last e).notes = c.notes ++ e.carried last := by
    cases e with
    | fault => exact (List.append_nil _).symm
    | halt _ => rfl
  exact outlivedAll_append hone

/-! ## Paths that end one after the other -/

/-- The state is in the frame of a call that its caller waits for under this number. -/
def AnswersTo (n : Nat) (g : GState) : Prop := ∃ tx rest, g.frames = ⟨tx, some n⟩ :: rest ∧ tx.kind = .message

/-- Paths to the same caller have ended one after the other, in these ways, with other work in between that does not touch
the caller. -/
inductive Close (n : Nat) (x : BitVec 256) (s : Session) : List (GState × Ending) → Session → Prop
  | start : Close n x s [] s
  | idle {es : List (GState × Ending)} {s' s'' : Session} (h : Close n x s es s') (hs : s'.Evolves False s'')
      (hn : s''.shared.suspended[n]? = s'.shared.suspended[n]?) : Close n x s es s''
  | close {es : List (GState × Ending)} {last : GState} {e : Ending} {r : GState.Executed} {s' s'' : Session}
      (h : Close n x s es s') (hlast : AnswersTo n last) (hreaches : last.world.Reaches x) (hends : last.Ends e s')
      (hr : execute {} last s' = .ok r s'') : Close n x s (es ++ [(last, e)]) s''

lemma AnswersTo.awaits {start : GState} (hlast : AnswersTo n last) (h : Awaits caller i n start s)
    (hs : s.Evolves False s') : Awaits caller i n last s' := by
  obtain ⟨c, hc, hwaits⟩ := h.suspended
  obtain ⟨c', hc', hwaits'⟩ := hs.suspended hc
  exact ⟨hlast, ⟨c', hc', hwaits.trans hwaits'⟩, GState.due_of_programs h.due (hs.programs id)⟩

lemma Close.suspended {start : GState} (hclose : Close n x s es s') (h : Awaits caller i n start s)
    (hk : i.opcode = k.opcode) (hoffline : s.loader.isNone = true) (hc : s.shared.suspended[n]? = some c)
    (hcaller : caller.Names x) : s.Evolves False s' ∧ s'.shared.suspended[n]? = some (outlivedAll c es) := by
  induction hclose with
  | start => exact ⟨.of_grows (.refl s), hc⟩
  | idle _ hs hn ih => exact ⟨ih.1.trans hs, hn.trans ih.2⟩
  | @close es last e r s' s'' _ hlast hreaches hends hr ih =>
    obtain ⟨hevolves, hc'⟩ := ih
    have hawaits := hlast.awaits h hevolves
    have hs'' : s'.Evolves False s'' := (execute_evolves_run hr).mono fun hends => hawaits.not_isCreation hends.1
    obtain ⟨hsuspended, -⟩ := hawaits.returned hk (hevolves.loader.trans hoffline) hc' hcaller hreaches hends hr
    refine ⟨hevolves.trans hs'', ?_⟩
    have hn := (getElem?_eq_some_iff.1 hc').1
    rw [hsuspended, Array.getElem?_setIfInBounds_self_of_lt hn, outlivedAll, outlivedAll, List.foldl_append]
    rfl

/-! ## The last path -/

lemma Awaits.intact (h : Awaits caller i n last s) (hk : i.opcode = k.opcode) (hoffline : s.loader.isNone = true)
    (hends : last.Ends e s) (hr : execute {} last s = .ok r s') :
    ∀ g ∈ r.successors, (if e.commits then last.world else caller.world).Intact caller.env.active g.world := by
  cases e with
  | fault =>
    obtain ⟨op, s1, hfaults⟩ := hends
    exact h.undoes hk hoffline hfaults hr
  | halt op =>
    obtain ⟨hop, o, s1, hperforms⟩ := hends
    by_cases hrevert : op = .revert
    · subst hrevert
      exact h.reverts hk hoffline hperforms hr
    · have hcommits : (Ending.halt op).commits = true := bne_iff_ne.2 hrevert
      rw [hcommits]
      exact h.commits hk hoffline hop hrevert hperforms hr

/-- A state that goes on in the caller after a path has ended, when others that share the caller have ended before. -/
structure CalledBack (caller c : GState) (es : List (GState × Ending)) (last : GState) (e : Ending) (k : CallKind)
    (i : Instr) (g : GState) : Prop where
  stack : ∃ flag : Expr, flag.term = caller.flag i ∧ g.machine.stack = .expr flag :: caller.machine.stack.drop k.arity
  world : (if e.commits then last.world else caller.world).Intact caller.env.active g.world
  /-- The conditions of others that failed are there if this path reverts or fails. -/
  constraints : ∃ added, g.world.constraints =
      (if e.commits then [] else c.world.constraints ++ leftBy es) ++ last.world.constraints ++ added ∧
    added.map Expr.term = (e.verdict k (caller.knowsRange k)).toList.map (caller.flag i).flagIs
  notes : List.Forall₂ Note.CopyOf (c.notes ++ carriedBy es ++ e.carried last) g.notes

/-- When a path ends, what comes of it depends on the path, on how it ends, and on the conditions and notes that others
that share its caller have left; it depends on nothing else that they did. -/
theorem end_after_siblings (h : Awaits caller i n last s) (hk : i.opcode = k.opcode) (hoffline : s.loader.isNone = true)
    (hc : s.shared.suspended[n]? = some c) (hcaller : caller.Names x) (hreaches : last.world.Reaches x)
    (hclose : Close n x s es s') (hends : last.Ends e s') (hr : execute {} last s' = .ok r s'') :
    ∀ g ∈ r.successors, CalledBack caller c es last e k i g := by
  intro g hg
  obtain ⟨hevolves, hc'⟩ := hclose.suspended h hk hoffline hc hcaller
  have hlast : AnswersTo n last := h.frame
  have hawaits := hlast.awaits h hevolves
  have hoffline := hevolves.loader.trans hoffline
  obtain ⟨-, hreturned⟩ := hawaits.returned hk hoffline hc' hcaller hreaches hends hr
  obtain ⟨hstack, ⟨added, hconstraints, hadded⟩, hnotes⟩ := hreturned g hg
  -- to the call the caller is what it was: only conditions, notes and what was returned are new
  have hwaits := hawaits.waits hc'
  have hsame : (outlivedAll c es).machine = caller.machine ∧ (outlivedAll c es).flag i = caller.flag i := by
    obtain ⟨_, _, _, hw⟩ := hwaits
    rw [hw]
    exact ⟨rfl, rfl⟩
  have hknows : (outlivedAll c es).knowsRange k = caller.knowsRange k := by
    unfold GState.knowsRange
    rw [hsame.1]
  rw [hsame.1, hsame.2] at hstack
  rw [hknows, hsame.2] at hadded
  refine ⟨hstack, hawaits.intact hk hoffline hends hr g hg, ⟨added, ?_, hadded⟩, ?_⟩
  · rw [hconstraints, conditions, outlivedAll_constraints]
    cases e.commits <;> rfl
  · rwa [outlivedAll_notes] at hnotes

/-- The same path under a further condition. -/
def elsewhere (g : GState) : GState :=
  { g with world := { g.world with constraints := g.world.constraints ++ [⟨0, 0, .prop "elsewhere"⟩] } }

/-- Two paths fail one after the other in a code that fails at once. -/
theorem end_after_siblings_invalid : ∃ start s₁ s₂ r s₃ c i n, Starts payment .call (.ofCodes ["f1", "fe"]) start s₁ ∧
    s₁.shared.suspended[n]? = some c ∧ Close n 512 s₁ [(elsewhere start, .fault)] s₂ ∧
    execute {} start s₂ = .ok r s₃ ∧ r.successors.length = 1 ∧
    ∀ g ∈ r.successors, CalledBack payment c [(elsewhere start, .fault)] start .fault .call i g := by
  have htest : ∃ start s₁, Starts payment .call (.ofCodes ["f1", "fe"]) start s₁ ∧
      (∃ s', (elsewhere start).Faults .invalid s₁ s') ∧ (start.world.find? (some 512)).isSome ∧
      ∃ r₁ s₂, execute {} (elsewhere start) s₁ = .ok r₁ s₂ ∧ (∃ s', start.Faults .invalid s₂ s') ∧
      ∃ r₂ s₃, execute {} start s₂ = .ok r₂ s₃ ∧ r₂.successors.length = 1 := by decide +kernel
  obtain ⟨start, s₁, hstart, ⟨_, hfaults₁⟩, hfound, r₁, s₂, hr₁, ⟨_, hfaults₂⟩, r₂, s₃, hr₂, hone⟩ := htest
  obtain ⟨i, n, hk, hawaits⟩ := hstart.awaits
  have hnames : payment.Names 512 := ⟨GState.ofOperands_sound (by decide), ⟨.literal 512, rfl, rfl, rfl, rfl, rfl⟩, .inr rfl⟩
  have hclose : Close n 512 s₁ [(elsewhere start, .fault)] s₂ :=
    .close .start hawaits.frame (.inr hfound) ⟨_, _, hfaults₁⟩ hr₁
  obtain ⟨c, hc, -⟩ := hawaits.suspended
  refine ⟨start, s₁, s₂, r₂, s₃, c, i, n, hstart, hc, hclose, hr₂, hone, ?_⟩
  exact end_after_siblings hawaits hk (hstart.evolves.loader.trans rfl) hc hnames (.inr hfound) hclose ⟨_, _, hfaults₂⟩ hr₂

def answers (g : GState) : Option Nat := g.frames.head?.bind (·.caller)

instance decidableTwo {α : Type} {l : List α} {T : α → α → Prop} [∀ a b, Decidable (T a b)] :
    Decidable (∃ a b, l = [a, b] ∧ T a b) :=
  match l with
  | [a, b] => decidable_of_iff (T a b) (by simp)
  | [] | [_] | _ :: _ :: _ :: _ => isFalse (by simp)

-- an instance is as large as the run that it decides
set_option synthInstance.maxSize 2048

/-- In a code that branches on the time and fails on both sides, the second side comes back under two conditions if it ends
first, and under four if it ends after the other one. -/
theorem order_of_siblings_shows : ∃ start s₀ a b s, Starts payment .call (.ofCodes ["f1", "42600557fe5bfe"]) start s₀ ∧
    answers a = answers start ∧ answers b = answers start ∧
    ∃ r₁ s₁ g r₂ s₂ g' r₃ s₃, (∃ s', a.Faults .invalid s s') ∧ execute {} a s = .ok r₁ s₁ ∧
    (∃ s', b.Faults .invalid s s') ∧ execute {} b s = .ok r₂ s₂ ∧ r₂.successors = [g] ∧
    (∃ s', b.Faults .invalid s₁ s') ∧ execute {} b s₁ = .ok r₃ s₃ ∧ r₃.successors = [g'] ∧
    g.world.constraints.length = 2 ∧ g'.world.constraints.length = 4 := by
  have htest : ∃ start s₀, Starts payment .call (.ofCodes ["f1", "42600557fe5bfe"]) start s₀ ∧
      LeadsTo start s₀ fun g s => LeadsTo g s fun g s =>
      ∃ r s', execute {} g s = .ok r s' ∧ ∃ a b, r.successors = [a, b] ∧ LeadsTo b s' fun b s =>
        answers a = answers start ∧ answers b = answers start ∧
        (∃ s', a.Faults .invalid s s') ∧ (∃ s', b.Faults .invalid s s') ∧
        LeadsTo b s (fun g _ => g.world.constraints.length = 2) ∧
        LeadsTo a s fun _ s₁ => (∃ s', b.Faults .invalid s₁ s') ∧
          LeadsTo b s₁ fun g _ => g.world.constraints.length = 4 := by decide +kernel
  obtain ⟨start, s₀, hstart, _, _, -, _, -, _, _, -, _, -, _, _, -, a, _, -, _, s, -, b, -, ha, hb, hfa, hfb,
    ⟨r₂, s₂, hr₂, g, hg, htwo⟩, r₁, s₁, hr₁, _, -, hfb', r₃, s₃, hr₃, g', hg', hfour⟩ := htest
  exact ⟨start, s₀, a, b, s, hstart, ha, hb, r₁, s₁, g, r₂, s₂, g', r₃, s₃, hfa, hr₁, hfb, hr₂, hg, hfb', hr₃, hg', htwo,
    hfour⟩

end EvmAudit.Explore
