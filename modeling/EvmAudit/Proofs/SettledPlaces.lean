import EvmAudit.Audit.Report
import EvmAudit.Proofs.Runs

/-!
# Settled places

A detector that begins again forgets what it has found, but not which places it has settled. So it does what a new one
would do as long as it is told about other places; at a place that was settled before it says nothing. That no other
trace is left is shown for each function that detectors are made of: whatever places are settled besides, it does the same.
-/

namespace EvmAudit

variable {d : Detector} {s1 : Session}

set_option synthInstance.maxSize 1024

/-- A place of a code, as a detector settles it. -/
abbrev Spot := Detector × Option Int × String

lemma Findings.knows_iff {f : Findings} {a : Option Int} {h : String} :
    f.knows d a h = true ↔ (d, a, h) ∈ f.settled := by
  simp [knows]

def Session.withSettled (s : Session) (spots : List Spot) : Session :=
  { s with findings := { s.findings with settled := spots } }

/-- The sessions are the same, but in the first one old places are settled as well. -/
def Session.Beyond (s s' : Session) (old : List Spot) : Prop :=
  ∃ spots, s = s'.withSettled spots ∧ ∀ p, p ∈ spots ↔ p ∈ s'.findings.settled ∨ p ∈ old

variable {α β : Type} {old : List Spot} {s s' : Session}

inductive Alike (old : List Spot) : EStateM.Result Fault Session α → EStateM.Result Fault Session α → Prop where
  | ok (a : α) {s s' : Session} (h : s.Beyond s' old) : Alike old (.ok a s) (.ok a s')
  | error (e : Fault) {s s' : Session} (h : s.Beyond s' old) : Alike old (.error e s) (.error e s')

def withSettled (spots : List Spot) : EStateM.Result Fault Session α → EStateM.Result Fault Session α
  | .ok a s => .ok a (s.withSettled spots)
  | .error e s => .error e (s.withSettled spots)

namespace Engine

variable {c : Engine α} {f : α → Engine β}

lemma alike_bind (hc : Alike old (c s) (c s'))
    (hf : ∀ a s1 s1', c s' = .ok a s1' → s1.Beyond s1' old → Alike old (f a s1) (f a s1')) :
    Alike old ((c >>= f) s) ((c >>= f) s') := by
  generalize hr : c s = r, hr' : c s' = r' at hc
  cases hc with
  | ok a h =>
    rw [bind_ok hr, bind_ok hr']
    exact hf a _ _ hr' h
  | error e h =>
    rw [bind_error hr, bind_error hr']
    exact .error e h

/-- Whatever places are settled besides, the computation does the same. -/
class Blind (c : Engine α) : Prop where
  alike : ∀ {old : List Spot} {s s' : Session}, s.Beyond s' old → Alike old (c s) (c s')

namespace Blind

instance pure (a : α) : Blind (Pure.pure a) := ⟨.ok a⟩

instance throw (e : Fault) : Blind (throw e : Engine α) := ⟨.error e⟩

instance bind [hc : Blind c] [hf : ∀ a, Blind (f a)] : Blind (c >>= f) :=
  ⟨fun h => alike_bind (hc.alike h) fun a _ _ _ h => (hf a).alike h⟩

lemma next [hc : Blind c] (hf : ∀ a, Blind (f a)) : Blind (c >>= f) := bind

instance stop (e : Fault) : Blind (MonadExcept.throw e >>= f) := ⟨.error e⟩

lemma aside (hc : ∀ s spots, c (s.withSettled spots) = withSettled spots (c s)) : Blind c where
  alike {old s s'} h := by
    obtain ⟨spots, rfl, hspots⟩ := h
    rw [hc]
    have hself : c s' = withSettled s'.findings.settled (c s') := hc s' s'.findings.settled
    cases hr : c s'
    all_goals
      rw [hr] at hself
      injection hself with _ hself
    · refine .ok _ ⟨spots, rfl, ?_⟩
      rwa [hself]
    · refine .error _ ⟨spots, rfl, ?_⟩
      rwa [hself]

instance lift (c : Calc α) : Blind (liftM c : Engine α) := .aside fun s spots => by
  have hledger : (s.withSettled spots).ledger = s.ledger := rfl
  simp only [liftM, monadLift, MonadLift.monadLift, hledger]
  cases c s.ledger <;> rfl

instance attempt [hc : Blind c] : Blind (attempt c) where
  alike {old s s'} h := by
    have halike := hc.alike h
    unfold Engine.attempt
    generalize c s = r, c s' = r' at halike
    cases halike <;> exact .ok _ ‹_›

instance ofExcept (r : Except Fault α) : Blind (ofExcept r) := by
  cases r
  · exact throw _
  · exact pure _

lemma ite {p : Prop} [Decidable p] {a b : Engine α} (ha : Blind a) (hb : Blind b) : Blind (if p then a else b) := by
  split <;> assumption

instance {p : Prop} [Decidable p] {a b : Engine α} [ha : Blind a] [hb : Blind b] : Blind (if p then a else b) := ha.ite hb

variable (xs : List α)

instance foldlM {g : β → α → Engine β} [h : ∀ b a, Blind (g b a)] (b : β) : Blind (xs.foldlM g b) := by
  induction xs generalizing b with
  | nil => exact pure b
  | cons a xs ih => exact bind

instance mapM {g : α → Engine β} [∀ a, Blind (g a)] : Blind (xs.mapM g) := by
  induction xs with
  | nil => exact pure []
  | cons a xs ih =>
    rw [List.mapM_cons]
    infer_instance

instance forM {g : α → Engine PUnit} [∀ a, Blind (g a)] : Blind (xs.forM g) := by
  induction xs with
  | nil => exact pure ()
  | cons a xs ih => exact bind

instance filterMapM {g : α → Engine (Option β)} [∀ a, Blind (g a)] : Blind (xs.filterMapM g) := by
  have hloop (xs : List α) (ys : List β) : Blind (List.filterMapM.loop g xs ys) := by
    induction xs generalizing ys with
    | nil => exact pure _
    | cons a xs ih => exact @bind _ _ _ _ _ fun o => by cases o <;> exact ih _
  exact hloop xs []

/-- A computation that reads of the session what it would read of it whatever was settled. -/
lemma read {f : Session → Engine β} (hf : ∀ s spots, f (s.withSettled spots) = f s) [h : ∀ s, Blind (f s)] :
    Blind (get >>= f) where
  alike {_ _ s'} hs := by
    obtain ⟨spots, rfl, hspots⟩ := hs
    show Alike _ (f (s'.withSettled spots) _) _
    rw [hf]
    exact (h s').alike ⟨spots, rfl, hspots⟩

end Blind

instance (i : ProgramId) : Blind (program i) := .aside fun _ _ => rfl

instance (n : Nat) : Blind (suspicions n) := .aside fun _ _ => rfl

instance (xs : List Suspicion) : Blind (newSuspicions xs) := .aside fun _ _ => rfl

instance (n : Nat) (xs : List Suspicion) : Blind (setSuspicions n xs) := .aside fun _ _ => rfl

end Engine

open Engine (Blind)

/-! ### Queries and scenarios -/

namespace Query

instance (q : Query) : Blind q.outOfTime := .aside fun _ _ => rfl

instance (t : Term) : Blind (quick t) :=
  @.read _ _ (fun _ _ => rfl) fun _ => .next fun _ => @.next _ _ _ _ (.aside fun _ _ => rfl) fun _ => .pure _

instance : Blind hashConditions := by
  refine @.read _ _ (fun _ _ => rfl) fun s => .next fun r => @.next _ _ _ _ (.aside fun _ _ => rfl) fun _ => .pure _

instance (q : Query) (items : List Item) : Blind (search.answer q items) := by
  simp only [search.answer]
  split
  on_goal 1 => refine .next fun props => .next fun all => .next fun t => ?_
  all_goals
    refine .next fun found => ?_
    split
    · infer_instance
    · exact .next fun terms => .next fun m => @.next _ _ _ _ (.aside fun _ _ => rfl) fun _ => .pure _

instance (q : Query) (key : QueryKey) : Blind (q.search key) := by
  simp only [search, map_eq_pure_bind]
  refine .next fun late => ?_
  split
  · infer_instance
  · split
    · infer_instance
    · split
      all_goals exact .next fun hash => .next fun m => @.next _ _ _ _ (.aside fun _ _ => rfl) fun _ => .pure _

instance (q : Query) : Blind q.solve := by
  refine .next fun key => @.read _ _ (fun _ _ => rfl) fun s => ?_
  split <;> infer_instance

end Query

instance Detect.found?_blind {α : Type} {c : Engine α} [Blind c] : Blind (found? c) := by
  refine .next fun r => ?_
  split <;> infer_instance

namespace Scenario

instance (m : Model) (tx : Tx) : Blind (call m tx) := by
  refine .next fun address => ?_
  split
  · refine .next fun value => .next fun caller => ?_
    split
    · infer_instance
    · refine .next fun p => ?_
      split <;> infer_instance
  · infer_instance

instance (m : Model) (start : ArrayTerm) (key : Nat) (a : Account) : Blind (account m start key a) := by
  have hcode : Blind a.codeText := by
    refine .next fun p => ?_
    split <;> infer_instance
  simp only [account]
  infer_instance

instance (g : GState) (m : Model) : Blind (ofModel g m) := by
  simp only [ofModel]
  split
  · refine .next fun calls => @.next _ _ _ _ (@.mapM _ _ _ _ (fun p => ?_)) fun accounts => ?_
    all_goals split <;> infer_instance
  · infer_instance

instance (g : GState) (cs : Constraints) : Blind (of g cs) := .next fun p => by
  infer_instance

end Scenario

namespace GState

variable (g : GState)

instance : Blind g.instr := by
  simp only [instr, instrAt?]
  infer_instance

instance : Blind g.codeHash := .aside fun _ _ => rfl

instance : Blind g.previousOpcode := by
  refine .next fun p => ?_
  dsimp only
  split <;> infer_instance

instance (conditions : List Expr) : Blind (g.isPossible conditions) := .next fun _ => inferInstance

instance (conditions : List Expr) : Blind (g.scenario? conditions) := Detect.found?_blind

variable (w : Weakness)

instance (a : Int) (j : Json) : Blind (g.issue a w j) := .bind

instance (j : Json) : Blind (g.issueHere w j) := .bind

instance (issues : List Issue) : Blind (g.reportHere issues w) := .next fun found => by
  split <;> infer_instance

instance (d : Detector) (a : Int) (cs : List Expr) : Blind (g.suspicion d a w cs) := .bind

instance : Blind g.suspicionList := by
  simp only [suspicionList]
  split <;> infer_instance

instance (xs : List Suspicion) : Blind (g.suspect xs) := .next fun _ => inferInstance

end GState

/-! ### Detectors -/

namespace Detect

variable (g : GState)

instance : Blind attacker := .read fun _ _ => rfl

instance : Blind (arbitraryDelegateCall g) := .next fun _ => inferInstance

instance : Blind (externalCalls g) := by
  iterate refine .next fun _ => ?_
  split <;> infer_instance

instance : Blind (etherThief g) := by
  refine .next fun attacker => ?_
  split <;> infer_instance

instance : Blind (multipleSends g) := by
  have hfirst (g : GState) (xs : List Int) : Blind (multipleSends.firstPossible g xs) := by
    induction xs with
    | nil => exact .pure _
    | cons a xs ih =>
      refine .next fun found => ?_
      split <;> infer_instance
  refine .next fun i => ?_
  split
  on_goal 5 => infer_instance
  all_goals split <;> infer_instance

instance : Blind (stateChangeAfterCall g) := by
  have hmoves (g : GState) (e : Expr) : Blind (movesEther g e) := by
    refine .next fun n => ?_
    split <;> infer_instance
  have hnote (g : GState) : Blind (noteCall g) := .next fun _ => inferInstance
  have hissue (g : GState) (top : List Item) (chosen : Bool) : Blind (changeIssue g top chosen) := by
    simp only [changeIssue]
    split
    · refine .next fun gas => .next fun enough => .next fun ordinary => ?_
      split
      on_goal 1 => refine .next fun same => ?_
      all_goals
        refine .next fun conditions => .next fun found => ?_
        split <;> infer_instance
    · infer_instance
  have hfound (g : GState) (n : Note) : Blind (match n with
      | .externalCall top chosen changes => if changes == 0 then return none else changeIssue g top chosen
      | _ => return none : Engine (Option Suspicion)) := by
    split <;> infer_instance
  refine .next fun i => .ite (.pure _) ?_
  refine .ite (.next fun amount => .next fun moves => .next fun g => ?_) (.next fun g => ?_)
  all_goals
    refine .ite (.next fun g => ?_) (.next fun g => ?_)
    all_goals exact @.next _ _ _ _ (@.filterMapM _ _ _ _ (hfound g)) fun found => .pure _

instance : Blind (uncheckedRetval g) := by
  refine .next fun i => ?_
  split
  iterate 2
    refine @.foldlM _ _ _ _ (fun b r => .next fun isOne => .next fun found => ?_) _
    split
    · infer_instance
    · refine .next fun isZero => .next fun found => ?_
      split <;> infer_instance
  · refine .next fun op => ?_
    split
    · refine .next fun result => ?_
      split <;> infer_instance
    · infer_instance

instance : Blind (arbitraryJump g) := by
  have hone (target : Expr) : Blind (hasOneTarget g target) := by
    refine .next fun m => ?_
    split
    · infer_instance
    · refine .next fun t => .next fun number => ?_
      split <;> infer_instance
  refine .next fun target => .next fun isSymbolic => ?_
  split
  · refine .next fun isOne => ?_
    split <;> infer_instance
  · infer_instance

instance (e : Expr) (weakness : Mark → Option Weakness) : Blind (reportMarks g e weakness) := by
  refine .next fun ms => @.foldlM _ _ _ _ (fun b m => ?_) _
  dsimp only
  split <;> infer_instance

instance : Blind (txOrigin g) := .next fun _ => inferInstance

instance : Blind (beforePredictable g) := by
  refine .next fun i => ?_
  split <;> infer_instance

instance : Blind (afterPredictable g) := by
  simp only [afterPredictable]
  refine .next fun op => ?_
  split <;> infer_instance

instance : Blind (requirementViolation g) := by
  simp only [requirementViolation]
  refine .next fun op => .ite (.next fun e => .next fun n => .next fun _ => .pure _) ?_
  refine @.next _ _ _ _ ?_ fun first => @.next _ _ _ _ ?_ fun second => .pure _
  -- both operands are looked at alike
  all_goals
    refine .next fun e => .next fun ms => @.foldlM _ _ _ _ (fun b m => ?_) _
    split
    · refine .next fun found => ?_
      split <;> infer_instance
    · infer_instance

instance : Blind (userAssertions g) := by
  have hassertion : Blind (userAssertion? g) := by
    refine .next fun i => ?_
    split
    · refine .next fun e => .next fun v => ?_
      split <;> infer_instance
    · split <;> infer_instance
  refine .next fun message => ?_
  split <;> infer_instance

instance : Blind (accidentallyKillable g) := by
  simp only [accidentallyKillable]
  refine .next fun target => .next fun attacker => .next fun senders => .next fun chosen => .next fun found => ?_
  split
  on_goal 2 => refine .next fun found => ?_
  all_goals
    refine .next fun found => ?_
    split <;> infer_instance

instance : Blind (arbitraryStorage g) := .next fun _ => inferInstance

/-! ### Overflows -/

instance (e : Expr) (operation : String) (condition : Expr) :
    Blind (markOverflow g e operation condition) := by
  exact .next fun i => .next fun hash => @.next _ _ _ _ (.aside fun _ _ => rfl) fun _ => inferInstance

instance : Blind (operands g) := by
  have hword (g : GState) (n : Nat) : Blind (wordAt g n) := by
    refine .next fun i => ?_
    split <;> infer_instance
  simp only [operands]
  infer_instance

instance (operation : String) (op : CmpOp) : Blind (beforeArith g operation op) := .next fun _ => inferInstance

instance : Blind (beforePower g) := by
  refine .next fun r => .next fun exponent => .next fun base => ?_
  split <;> infer_instance

instance (used : List Expr) : Blind (noteMarks g used) := by
  simp only [noteMarks]
  split <;> infer_instance

instance (state : Nat) (site : OverflowSite) (condition : Expr) : Blind (canLeave state site condition) := by
  refine @.read _ _ (fun _ _ => rfl) fun s => ?_
  dsimp only
  split
  · infer_instance
  · split
    · infer_instance
    · refine .next fun r => ?_
      split <;> exact @.next _ _ _ _ (.aside fun _ _ => rfl) fun _ => .pure _

instance : Blind (atEnd g) := by
  simp only [atEnd]
  refine .next fun g => @.foldlM _ _ _ _ (fun b m => ?_) _
  split
  · refine @.read _ _ (fun _ _ => rfl) fun s => ?_
    refine .next fun can => ?_
    split
    · refine .next fun found => ?_
      split <;> infer_instance
    · infer_instance
  · infer_instance

instance : Blind (integerArithmetics g) := by
  refine .next fun i => ?_
  have hused (n : Nat) : Blind (integerArithmetics.noteUsed g n) := .next fun _ => inferInstance
  have hreturned : Blind (noteReturned g) := .next fun _ => inferInstance
  split
  on_goal 5 =>
    refine .next fun i => ?_
    split
  all_goals infer_instance

lemma beyond_append (new : List Spot) {spots : List Spot} (hs : ∀ p, p ∈ spots ↔ p ∈ s.findings.settled ∨ p ∈ old)
    (p : Spot) : p ∈ new ++ spots ↔ p ∈ new ++ s.findings.settled ∨ p ∈ old := by
  rw [List.mem_append, List.mem_append, hs, or_assoc]

instance (d : Detector) (issues : List Issue) (remember : Bool) : Blind (keep d issues remember) where
  alike h := by
    obtain ⟨spots, rfl, hspots⟩ := h
    cases remember with
    | false => exact .ok _ ⟨spots, rfl, hspots⟩
    | true => exact .ok _ ⟨_, rfl, beyond_append _ hspots⟩

instance : Blind (review g) := by
  have hexamine (b : GState × List Suspicion) (x : Suspicion) : Blind (examine GState.scenario? b x) := by
    refine .next fun found => ?_
    split
    · infer_instance
    · exact .read fun _ _ => rfl
  simp only [review, reviewWith]
  infer_instance

instance : Blind (isPanic g) := by
  simp only [isPanic]
  refine .next fun start => .next fun length => .next fun a => .next fun stop => .next fun b => ?_
  split
  · refine .next fun data => ?_
    split
    all_goals
      refine .next fun isSelector => ?_
      split
      · infer_instance
      · split <;> infer_instance
  · infer_instance

instance (i : Instr) : Blind (failedAt? g i) := by
  simp only [failedAt?]
  infer_instance

end Detect

namespace Detector

open Detect
open Engine (alike_bind bind_ok of_bind_ok)

variable {phase : Option Phase} {g : GState}

instance (r : GState × List Suspicion) : Blind (suspecting r) := .bind

instance finding_blind (r : GState × List Issue) : Blind (finding r) := .pure _

instance : Blind (lookAtCall g) := .bind

lemma analyse_blind (hd : d ≠ .exceptions) : Blind (d.analyse phase g) := by
  unfold analyse
  split
  on_goal 4 => split
  all_goals first
    | infer_instance
    | exact absurd rfl hd

/-- The place that a detector looks up before it says anything about a state, if it looks one up. -/
def consults (d : Detector) (g : GState) : Engine (Option Spot) := do
  match d with
  | .exceptions =>
    let g := withJumps g
    let i ← g.instr
    if i.opcode == .jump then return none
    return (← failedAt? g i).map (fun p => (.exceptions, p))
  | d => return some (d, some ((← g.instr).address : Int), ← g.codeHash)

lemma consults_of_ne (hd : d ≠ .exceptions) :
    d.consults g = do return some (d, some ((← g.instr).address : Int), ← g.codeHash) := by
  unfold consults
  split
  · exact absurd rfl hd
  · rfl

lemma alike_lookup (place : Option Int × String) {b : Bool} {c c' : Engine α} [hc : Blind c] (hs : s.Beyond s' old)
    (hb : b = true → (d, place) ∉ old) (hc' : Alike old (c' s) (c' s')) :
    Alike old ((get >>= fun s : Session => if b && s.findings.knows d place.1 place.2 then c else c') s)
      ((get >>= fun s : Session => if b && s.findings.knows d place.1 place.2 then c else c') s') := by
  have hsame : (b && s.findings.knows d place.1 place.2) = (b && s'.findings.knows d place.1 place.2) := by
    cases b with
    | false => rfl
    | true =>
      obtain ⟨spots, rfl, hspots⟩ := hs
      rw [Bool.true_and, Bool.true_and, Bool.eq_iff_iff, Findings.knows_iff, Findings.knows_iff]
      exact (hspots _).trans (or_iff_left (hb rfl))
  show Alike old ((if (b && s.findings.knows d place.1 place.2) = true then c else c') s)
    ((if (b && s'.findings.knows d place.1 place.2) = true then c else c') s')
  rw [hsame]
  split
  · exact hc.alike hs
  · exact hc'

lemma exceptions_alike (hs : s.Beyond s' old) (hoff : ∀ p s1, consults .exceptions g s' = .ok (some p) s1 → p ∉ old) :
    Alike old (Detect.exceptions g s) (Detect.exceptions g s') := by
  refine alike_bind (Blind.alike hs) fun i s1 s1' hi h1 => ?_
  split
  · cases List.findIdx? isJump (withJumps g).notes <;> exact .ok _ h1
  rename_i hjump
  refine alike_bind (Blind.alike h1) fun place s2 s2' hplace h2 => ?_
  cases place with
  | none => exact .ok _ h2
  | some place =>
    have hp : consults .exceptions g s' = .ok (some (.exceptions, place)) s2' := by
      refine (bind_ok hi).trans ?_
      rw [if_neg hjump]
      exact bind_ok hplace
    refine alike_lookup place (b := true) h2 (fun _ => hoff _ _ hp) (@Blind.alike _ _ ?_ _ _ _ h2)
    refine .next fun found => ?_
    split
    · infer_instance
    · refine .next fun issue => @.next _ _ _ _ ⟨fun h => ?_⟩ fun _ => .pure _
      obtain ⟨spots, rfl, hspots⟩ := h
      exact .ok _ ⟨_, rfl, beyond_append [_] hspots⟩

lemma inspect_alike (hs : s.Beyond s' old) (hoff : ∀ p s1, d.consults g s' = .ok (some p) s1 → p ∉ old) :
    Alike old (d.inspect phase g s) (d.inspect phase g s') := by
  obtain ⟨i, hi⟩ : ∃ i, g.instr s' = .ok i s' := ⟨_, g.instr_eq s'⟩
  obtain ⟨hash, hhash⟩ : ∃ hash, g.codeHash s' = .ok hash s' := ⟨_, rfl⟩
  refine alike_bind (Blind.alike hs) fun i s1 s1' hi' h1 => ?_
  cases hi.symm.trans hi'
  refine alike_bind (Blind.alike h1) fun hash s2 s2' hhash' h2 => ?_
  cases hhash.symm.trans hhash'
  have hfinds : Alike old (d.analyse phase g s2) (d.analyse phase g s') := by
    by_cases hd : d = .exceptions
    · subst hd
      exact alike_bind (exceptions_alike h2 hoff) fun r _ _ _ h => (finding_blind r).alike h
    · exact (analyse_blind hd).alike h2
  refine alike_lookup (_, _) h2 ?_ (alike_bind hfinds fun r s3 s3' _ h3 => ?_)
  · intro hd
    refine hoff _ s' ?_
    rw [consults_of_ne (bne_iff_ne.1 hd)]
    exact (bind_ok hi).trans (bind_ok hhash)
  · refine @Blind.alike _ _ ?_ _ _ _ h3
    dsimp only
    split
    · exact .read fun _ _ => rfl
    · infer_instance

lemma settled_of_blind {c : Engine α} [hc : Blind c] {a : α} {p : Spot} (h : c s = .ok a s1)
    (hp : p ∈ s.findings.settled) : p ∈ s1.findings.settled := by
  have hs : s.Beyond (s.withSettled []) s.findings.settled := ⟨_, rfl, fun p => (or_iff_right List.not_mem_nil).symm⟩
  have halike := hc.alike hs
  rw [h] at halike
  generalize c (s.withSettled []) = r at halike
  cases halike with
  | ok _ h =>
    obtain ⟨spots, rfl, hspots⟩ := h
    exact (hspots p).2 (.inr hp)

lemma inspect_settled (phase : Option Phase) {p : Spot} (hp : d.consults g s = .ok (some p) s1)
    (hsettled : p ∈ s.findings.settled) : ∃ g', d.inspect phase g s = .ok (g', some []) s1 := by
  obtain ⟨i, hi⟩ : ∃ i, g.instr s = .ok i s := ⟨_, g.instr_eq s⟩
  obtain ⟨hash, hhash⟩ : ∃ hash, g.codeHash s = .ok hash s := ⟨_, rfl⟩
  have hget {s} : (get : Engine Session) s = .ok s s := rfl
  by_cases hd : d = .exceptions
  · subst hd
    obtain ⟨j, s2, hj, hp⟩ := of_bind_ok hp
    split at hp
    · cases hp
    rename_i hjump
    obtain ⟨place, s3, hplace, hp⟩ := of_bind_ok hp
    cases place with
    | none => cases hp
    | some place =>
      cases hp
      have hfound : Detect.exceptions g s = .ok (withJumps g, []) s1 := by
        refine (bind_ok hj).trans ?_
        rw [if_neg hjump]
        refine (bind_ok hplace).trans ((bind_ok hget).trans ?_)
        rw [if_pos (Findings.knows_iff.2 (settled_of_blind hplace (settled_of_blind hj hsettled)))]
        rfl
      have hfinds : analyse .exceptions phase g s = .ok (withJumps g, some []) s1 := bind_ok hfound
      exact ⟨_, (bind_ok hi).trans ((bind_ok hhash).trans ((bind_ok hget).trans (bind_ok hfinds)))⟩
  · rw [consults_of_ne hd, bind_ok hi, bind_ok hhash] at hp
    cases hp
    refine ⟨g, (bind_ok hi).trans ((bind_ok hhash).trans ((bind_ok hget).trans ?_))⟩
    rw [if_pos (by rw [Findings.knows_iff.2 hsettled, bne_iff_ne.2 hd]; rfl)]
    rfl

/-- What a detector is told: that a state has reached an instruction, or that it has ended its transaction well. -/
inductive Visit where
  | reached (phase : Option Phase) (g : GState)
  | ended (g : GState)

def attend (d : Detector) : Visit → Engine (GState × Option (List Issue))
  | .reached phase g => d.inspect phase g
  | .ended g => return (← review g, none)

def StaysOff (d : Detector) (old : List Spot) : List Visit → Session → Prop
  | [], _ => True
  | v :: vs, s => (∀ phase g p s₁, v = .reached phase g → d.consults g s = .ok (some p) s₁ → p ∉ old) ∧
    ∀ r s₁, d.attend v s = .ok r s₁ → d.StaysOff old vs s₁

lemma attendAll_alike {visits : List Visit} (hs : s.Beyond s' old) (hoff : d.StaysOff old visits s') :
    Alike old (visits.mapM d.attend s) (visits.mapM d.attend s') := by
  induction visits generalizing s s' with
  | nil => exact .ok [] hs
  | cons v visits ih =>
    rw [List.mapM_cons]
    have hone : Alike old (d.attend v s) (d.attend v s') := by
      cases v with
      | reached phase g => exact inspect_alike hs fun p s1 hp => hoff.1 phase g p s1 rfl hp
      | ended g => exact (Blind.bind).alike hs
    refine alike_bind hone fun r s1 s1' hr h1 => alike_bind (ih h1 (hoff.2 r s1' hr)) fun rs s2 s2' hrs h2 => ?_
    exact .ok _ h2

def resetIn (d : Detector) (s : Session) : Session := { s with findings := s.findings.reset [d] }

def settledIn (d : Detector) (s : Session) : List Spot := s.findings.settled.filter (·.1 == d)

def renewedIn (d : Detector) (s : Session) : Session := (d.resetIn s).withSettled (s.findings.settled.filter (·.1 != d))

lemma resetIn_beyond (d : Detector) (s : Session) : (d.resetIn s).Beyond (d.renewedIn s) (d.settledIn s) := by
  refine ⟨s.findings.settled, rfl, fun p => ?_⟩
  show _ ↔ p ∈ s.findings.settled.filter (·.1 != d) ∨ p ∈ s.findings.settled.filter (·.1 == d)
  rw [List.mem_filter, List.mem_filter, ← and_or_left]
  exact (and_iff_left (by cases h : p.1 == d <;> simp [bne, h])).symm

/-- A detector that begins again does what a new one does as long as it is told about places that it had not settled. At
those it had settled it finds nothing any more. -/
theorem reset_is_new_off_settled_places (d : Detector) (s : Session) :
    (∀ visits, d.StaysOff (d.settledIn s) visits (d.renewedIn s) →
      Alike (d.settledIn s) (visits.mapM d.attend (d.resetIn s)) (visits.mapM d.attend (d.renewedIn s))) ∧
    ∀ phase g p s₁, d.consults g (d.resetIn s) = .ok (some p) s₁ → p ∈ d.settledIn s →
      ∃ g', d.inspect phase g (d.resetIn s) = .ok (g', some []) s₁ :=
  ⟨fun _ hoff => attendAll_alike (resetIn_beyond d s) hoff,
    fun phase _ _ _ hp hsettled => inspect_settled phase hp (List.mem_of_mem_filter hsettled)⟩

/-- A message has led to an instruction that nobody has assigned. -/
def stranded : GState :=
  let g := GState.ofOperands []
  { g with world := { g.world with txs := [{ Explore.plainMessage with value := .expr (.literal 0) }] } }

/-- The session of a program with an instruction that nobody has assigned, and with these findings. -/
def strandedIn (f : Findings) : Session := { Session.ofCodes ["fe"] with findings := f }

lemma stranded_consults : ∃ hash, ∀ f, consults .exceptions stranded (strandedIn f) =
    .ok (some (.exceptions, none, hash)) (strandedIn f) := by
  let i := ((withJumps stranded).due (strandedIn {})).getD ⟨0, .stop, none⟩
  have hop : i.opcode = .invalid := by decide +kernel
  let hash := CodeHash.text {} ((strandedIn {}).code.programs.getD 0 default).code
  refine ⟨hash, fun f => ?_⟩
  have hi : (withJumps stranded).instr (strandedIn f) = .ok i (strandedIn f) :=
    bind_ok ((withJumps stranded).instrAt?_run _)
  have hplace : failedAt? (withJumps stranded) i (strandedIn f) = .ok (some (none, hash)) (strandedIn f) := by
    unfold failedAt?
    rw [hop]
    rfl
  refine (bind_ok hi).trans ?_
  rw [hop]
  exact bind_ok hplace

theorem reset_is_new_after_another_jump : ∃ hash : String,
    (let s := strandedIn { settled := [(.exceptions, some 5, hash)] }
    StaysOff .exceptions (settledIn .exceptions s) [.reached none stranded] (renewedIn .exceptions s) ∧
    Alike (settledIn .exceptions s) ([.reached none stranded].mapM (attend .exceptions) (resetIn .exceptions s))
      ([.reached none stranded].mapM (attend .exceptions) (renewedIn .exceptions s))) ∧
    let s := strandedIn { settled := [(.exceptions, none, hash)] }
    consults .exceptions stranded (resetIn .exceptions s) = .ok (some (.exceptions, none, hash)) (resetIn .exceptions s) ∧
    ∃ g', inspect .exceptions none stranded (resetIn .exceptions s) = .ok (g', some []) (resetIn .exceptions s) := by
  obtain ⟨hash, hp⟩ := stranded_consults
  refine ⟨hash, ⟨?_, (reset_is_new_off_settled_places .exceptions _).1 _ ?_⟩, hp _, ?_⟩
  iterate 2
    refine ⟨?_, fun _ _ _ => trivial⟩
    rintro _ _ p s₂ ⟨⟩ hconsults
    cases (hp {}).symm.trans hconsults
    exact fun h => nomatch List.mem_singleton.1 h
  · exact (reset_is_new_off_settled_places .exceptions _).2 none stranded _ _ (hp _) List.mem_cons_self

end Detector
end EvmAudit
