import EvmAudit.Detect.Report
import EvmAudit.Proofs.Session

/-!
# Reviews

At the end of a transaction its suspicions are reviewed: each of them becomes an issue of its detector, or it stays a
suspicion of the state. None is lost and none is reported twice, however often the state is reviewed. What the search for
a scenario answers is not looked into.
-/

namespace EvmAudit.Detect

open List Engine Note

/-- A search for scenarios that always answers and leaves alone what the review is about. -/
structure Oracle (ask : GState → List Expr → Engine (Option Json)) : Prop where
  answers : ∀ g conditions s, ∃ r s', ask g conditions s = .ok r s' ∧ s'.findings = s.findings ∧
    s'.shared.suspicions = s.shared.suspicions ∧ s'.options = s.options

/-- Each member of a list is either reported, with what was found for it, or kept; both in order. -/
inductive Split {α β : Type} (answered : α → Option β → Prop) : List α → List (α × β) → List α → Prop
  | nil : Split answered [] [] []
  | report {x : α} {b : β} {xs : List α} {ys : List (α × β)} {zs : List α} (h : answered x (some b))
      (hs : Split answered xs ys zs) : Split answered (x :: xs) ((x, b) :: ys) zs
  | keep {x : α} {xs : List α} {ys : List (α × β)} {zs : List α} (h : answered x none) (hs : Split answered xs ys zs) :
      Split answered (x :: xs) ys (x :: zs)

/-- Rounds in which what one of them keeps is split by the next. -/
inductive Rounds {α β : Type} (answered : α → Option β → Prop) : List α → List (List (α × β)) → List α → Prop
  | nil {xs : List α} : Rounds answered xs [] xs
  | cons {xs zs left : List α} {ys : List (α × β)} {rounds : List (List (α × β))} (h : Split answered xs ys zs)
      (hs : Rounds answered zs rounds left) : Rounds answered xs (ys :: rounds) left

section Split

variable {α β : Type} {answered : α → Option β → Prop} {xs left : List α}

lemma Split.perm {ys : List (α × β)} {zs : List α} (h : Split answered xs ys zs) : (ys.map (·.1) ++ zs).Perm xs := by
  induction h with
  | nil => exact .refl _
  | report h hs ih => exact ih.cons _
  | keep h hs ih => exact perm_middle.trans (ih.cons _)

lemma Rounds.perm {rounds : List (List (α × β))} (h : Rounds answered xs rounds left) :
    (rounds.flatten.map (·.1) ++ left).Perm xs := by
  induction h with
  | nil => exact .refl _
  | cons h hs ih =>
    rw [flatten_cons, map_append, append_assoc]
    exact (ih.append_left _).trans h.perm

end Split

def suspicionsOf (g : GState) (s : Session) : List Suspicion :=
  ((g.notes.findSome? pool?).map fun pool => s.shared.suspicions.getD pool []).getD []

/-- The search was asked about a suspicion on this path, and this was the answer. -/
def Answered (ask : GState → List Expr → Engine (Option Json)) (path : Constraints) (x : Suspicion) (r : Option Json) :
    Prop :=
  ∃ g s s', g.world.constraints = path ∧ ask g x.conditions s = .ok r s'

/-- The session has these issues more than before, or none if notes stand in for them; the state has a note for each. -/
structure Reported (g : GState) (s : Session) (found : List (Suspicion × Json)) (g' : GState) (s' : Session) : Prop where
  machine : g'.machine = g.machine
  path : g'.world.constraints = g.world.constraints
  options : s'.options = s.options
  issues : s'.findings.issues = if s.options.useIssueNotes then s.findings.issues else
    (found.map fun (x, scenario) => (x.detector, issueOf x g.machine scenario)).reverse ++ s.findings.issues
  notes : g'.notes.countP Note.staysWithWorld = g.notes.countP Note.staysWithWorld + found.length

namespace Reported

variable {g g1 g2 : GState} {s s1 s2 : Session} {ys zs : List (Suspicion × Json)}

lemma refl (g : GState) (s : Session) : Reported g s [] g s := ⟨rfl, rfl, rfl, by simp, rfl⟩

lemma trans (h : Reported g s ys g1 s1) (h' : Reported g1 s1 zs g2 s2) : Reported g s (ys ++ zs) g2 s2 where
  machine := h'.machine.trans h.machine
  path := h'.path.trans h.path
  options := h'.options.trans h.options
  issues := by
    rw [h'.issues, h.issues, h.options, h.machine]
    split <;> simp
  notes := by
    rw [h'.notes, h.notes, length_append]
    omega

lemma of_detector (h : Reported g s ys g1 s1) (hnotes : s.options.useIssueNotes = false) (d : Detector) :
    s1.findings.of d = s.findings.of d ++
      (ys.filter (·.1.detector == d)).map fun (x, scenario) => issueOf x g.machine scenario := by
  unfold Findings.of
  rw [h.issues, hnotes, if_neg Bool.false_ne_true, filter_append, reverse_append, map_append,
    filter_reverse, reverse_reverse, filter_map, map_map]
  rfl

end Reported

section Review

variable {ask : GState → List Expr → Engine (Option Json)}

lemma examine_spec (hask : Oracle ask) (g : GState) (left : List Suspicion) (x : Suspicion) (s : Session) :
    ∃ r g' s', Answered ask g.world.constraints x r ∧
      examine ask (g, left) x s = .ok (g', if r.isNone then left ++ [x] else left) s' ∧
      s'.shared.suspicions = s.shared.suspicions ∧ g'.notes.findSome? pool? = g.notes.findSome? pool? ∧
      Reported g s (r.toList.map (x, ·)) g' s' := by
  obtain ⟨r, s1, hrun, hfindings, hsuspicions, hoptions⟩ := hask.answers g x.conditions s
  have hanswered : Answered ask g.world.constraints x r := ⟨g, s, s1, rfl, hrun⟩
  cases r with
  | none =>
    refine ⟨none, g, s1, hanswered, ?_, hsuspicions, rfl, rfl, rfl, hoptions, ?_, rfl⟩
    · exact bind_ok hrun
    · simp [hfindings]
  | some scenario =>
    -- the issue is kept, or the note alone stands for it
    have hnotes : (g.annotate .issue).notes = g.notes ++ [.issue] := rfl
    have hpool : (g.annotate .issue).notes.findSome? pool? = g.notes.findSome? pool? := by
      rw [hnotes, findSome?_append]
      exact Option.or_none
    have hcount : (g.annotate .issue).notes.countP staysWithWorld = g.notes.countP staysWithWorld + 1 := by
      rw [hnotes, countP_append]
      rfl
    have hflag : s1.options.useIssueNotes = s.options.useIssueNotes := by rw [hoptions]
    have hrest : examine ask (g, left) x s = .ok (g.annotate .issue, left) (if s.options.useIssueNotes then s1 else
        { s1 with findings := {
          s1.findings with
          issues := (x.detector, issueOf x g.machine scenario) :: s1.findings.issues
          settled := (x.detector, some x.address, x.codeHash) :: s1.findings.settled } }) := by
      refine (bind_ok hrun).trans ?_
      refine (bind_ok (get_run s1)).trans ?_
      simp only [hflag]
      cases s.options.useIssueNotes <;> rfl
    refine ⟨some scenario, g.annotate .issue, _, hanswered, hrest, ?_, hpool, rfl, rfl, ?_, ?_, hcount⟩
    · split <;> exact hsuspicions
    · split
      · exact hoptions
      · exact hoptions
    · split
      · rw [hfindings]
      · rw [hfindings]
        rfl

/-- What a review goes through is split into what it reports and what it leaves. -/
lemma foldlM_examine (hask : Oracle ask) (xs : List Suspicion) (g : GState) (left : List Suspicion) (s : Session) :
    ∃ ys zs g' s', Split (Answered ask g.world.constraints) xs ys zs ∧
    xs.foldlM (examine ask) (g, left) s = .ok (g', left ++ zs) s' ∧ s'.shared.suspicions = s.shared.suspicions ∧
    g'.notes.findSome? pool? = g.notes.findSome? pool? ∧ Reported g s ys g' s' := by
  induction xs generalizing g left s with
  | nil => exact ⟨[], [], g, s, .nil, by rw [append_nil]; rfl, rfl, rfl, .refl g s⟩
  | cons x xs ih =>
    obtain ⟨r, g1, s1, hanswered, hrun, hlists, hpool, hreported⟩ := examine_spec hask g left x s
    obtain ⟨ys, zs, g', s', hsplit, hrest, hlists', hpool', hreported'⟩ :=
      ih g1 (if r.isNone then left ++ [x] else left) s1
    rw [hreported.path] at hsplit
    have hboth := hreported.trans hreported'
    have hlists := hlists'.trans hlists
    have hpool := hpool'.trans hpool
    rw [foldlM_cons, bind_ok hrun, hrest]
    cases r with
    | none => exact ⟨ys, x :: zs, g', s', .keep hanswered hsplit, by simp, hlists, hpool, hboth⟩
    | some scenario => exact ⟨(x, scenario) :: ys, zs, g', s', .report hanswered hsplit, rfl, hlists, hpool, hboth⟩

lemma findSome?_movePool {notes : List Note} {pool : Nat} (h : notes.findSome? pool? = some pool) (pool' : Nat) :
    (notes.map (·.movePool pool pool')).findSome? pool? = some pool' := by
  induction notes with
  | nil => cases h
  | cons n notes ih =>
    cases n with
    | potential p =>
      obtain rfl : p = pool := Option.some.inj h
      show some (if p == p then pool' else p) = some pool'
      simp
    | _ => exact ih h

/-- The state names a list with its suspicions, which is new if it had none. -/
lemma suspicionList_spec (g : GState) (s : Session) : ∃ pool g' s', g.suspicionList s = .ok (pool, g') s' ∧
    g'.notes.findSome? pool? = some pool ∧ s'.shared.suspicions.getD pool [] = suspicionsOf g s ∧ Reported g s [] g' s' := by
  unfold GState.suspicionList suspicionsOf
  cases hpool : g.notes.findSome? pool? with
  | some pool => exact ⟨pool, g, s, rfl, hpool, rfl, .refl g s⟩
  | none =>
    refine ⟨_, _, _, rfl, ?_, by simp, rfl, rfl, rfl, by simp, ?_⟩
    · show (g.notes ++ [_]).findSome? pool? = _
      rw [findSome?_append, hpool]
      rfl
    · show (g.notes ++ [_]).countP staysWithWorld = _
      rw [countP_append]
      rfl

/-- A review splits the suspicions of a state, which has what is left of them afterwards. -/
lemma reviewWith_spec (hask : Oracle ask) (g : GState) (s : Session) :
    ∃ ys zs g' s', Split (Answered ask g.world.constraints) (suspicionsOf g s) ys zs ∧ reviewWith ask g s = .ok g' s' ∧
      suspicionsOf g' s' = zs ∧ Reported g s ys g' s' := by
  obtain ⟨pool, g0, s0, hlist, hpool, hxs, hnamed⟩ := suspicionList_spec g s
  obtain ⟨ys, zs, g1, s1, hsplit, hrun, hlists, hpool1, hexamined⟩ :=
    foldlM_examine hask (s0.shared.suspicions.getD pool []) g0 [] s0
  rw [hxs, hnamed.path] at hsplit
  have hreported := hnamed.trans hexamined
  refine ⟨ys, zs, _, _, hsplit, (bind_ok hlist).trans ((bind_ok rfl).trans ((bind_ok hrun).trans rfl)), ?_, ?_⟩
  · show (((g1.notes.map (·.movePool pool s1.shared.suspicions.size)).findSome? pool?).map _).getD [] = zs
    rw [findSome?_movePool (hpool1.trans hpool)]
    simp
  · refine { hreported with notes := .trans ?_ hreported.notes }
    rw [countP_map]
    congr 1
    funext n
    cases n <;> rfl

def reviewTimes (ask : GState → List Expr → Engine (Option Json)) : Nat → GState → Engine GState
  | 0, g => return g
  | n + 1, g => do reviewTimes ask n (← reviewWith ask g)

lemma reviewTimes_spec (hask : Oracle ask) (n : Nat) (g : GState) (s : Session) :
    ∃ rounds left g' s', reviewTimes ask n g s = .ok g' s' ∧ rounds.length = n ∧
      Rounds (Answered ask g.world.constraints) (suspicionsOf g s) rounds left ∧ suspicionsOf g' s' = left ∧
      Reported g s rounds.flatten g' s' := by
  induction n generalizing g s with
  | zero => exact ⟨[], _, g, s, rfl, rfl, .nil, rfl, .refl g s⟩
  | succ n ih =>
    obtain ⟨ys, zs, g1, s1, hsplit, hrun, rfl, hreported⟩ := reviewWith_spec hask g s
    obtain ⟨rounds, left, g', s', hrest, rfl, hrounds, hleft, hreported'⟩ := ih g1 s1
    rw [hreported.path] at hrounds
    exact ⟨ys :: rounds, left, g', s', (bind_ok hrun).trans hrest, rfl, .cons hsplit hrounds, hleft,
      hreported.trans hreported'⟩

/-- However often a state is reviewed, each round turns some of the suspicions that the one before has kept into one issue
of their detector each, in order, and keeps the others, in order. Over all rounds together no suspicion is lost and none
is reported twice. -/
theorem suspicions_reported_once (hask : Oracle ask) (n : Nat) (g : GState) (s : Session) :
    ∃ rounds left g' s', reviewTimes ask n g s = .ok g' s' ∧ rounds.length = n ∧
      Rounds (Answered ask g.world.constraints) (suspicionsOf g s) rounds left ∧ suspicionsOf g' s' = left ∧
      (rounds.flatten.map (·.1) ++ left).Perm (suspicionsOf g s) ∧
      (s.options.useIssueNotes = false → ∀ d, s'.findings.of d = s.findings.of d ++
        (rounds.flatten.filter (·.1.detector == d)).map fun (x, scenario) => issueOf x g.machine scenario) ∧
      g'.notes.countP Note.staysWithWorld = g.notes.countP Note.staysWithWorld + rounds.flatten.length := by
  obtain ⟨rounds, left, g', s', hrun, hlength, hrounds, hleft, hreported⟩ := reviewTimes_spec hask n g s
  exact ⟨rounds, left, g', s', hrun, hlength, hrounds, hleft, hrounds.perm, hreported.of_detector, hreported.notes⟩

end Review

/-- A search that has a scenario for what is under no condition. -/
def findsUnconditional : GState → List Expr → Engine (Option Json) :=
  fun _ conditions => return if conditions.isEmpty then some .null else none

/-- Two suspicions, of which one is under a condition, are reviewed twice. -/
theorem two_suspicions_reviewed_twice : Oracle findsUnconditional ∧
    ∃ (rounds : List (List (Suspicion × Json))) (g' : GState) (s' : Session),
      reviewTimes findsUnconditional 2 { (default : GState) with notes := [.potential 0] }
        { shared := { suspicions := #[[default, { (default : Suspicion) with conditions := [default] }]] } } = .ok g' s' ∧
      rounds.length = 2 ∧ rounds.flatten.length + (suspicionsOf g' s').length = 2 := by
  have hask : Oracle findsUnconditional := ⟨fun _ _ s => ⟨_, s, rfl, rfl, rfl, rfl⟩⟩
  obtain ⟨rounds, left, g', s', hrun, hlength, -, rfl, hperm, -⟩ := suspicions_reported_once hask 2
    { (default : GState) with notes := [.potential 0] }
    { shared := { suspicions := #[[default, { (default : Suspicion) with conditions := [default] }]] } }
  refine ⟨hask, rounds, g', s', hrun, hlength, ?_⟩
  have hsize := hperm.length_eq
  rwa [length_append, length_map] at hsize

end EvmAudit.Detect
