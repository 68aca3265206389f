import EvmAudit.Proofs.WorkList

/-!
# Beam search

A search that looks at importance ranks the states that wait, the most important first and those of one importance as
they stood, and drops what is beyond its width. It hands out the first of those that are kept.
-/

namespace EvmAudit

open List

namespace Work

variable {α : Type} (w : Work α) (importance : α → Int)

def ranked : List α := w.queue.mergeSort fun a b => importance a ≥ importance b

lemma narrow_eq_take (n : Nat) : w.narrow importance n = { w with queue := (w.ranked importance).take n } := by
  simp [narrow, ranked, Sequence.bound]

lemma ranked_perm : w.ranked importance ~ w.queue := mergeSort_perm _ _

lemma ranked_pairwise : (w.ranked importance).Pairwise (importance · ≥ importance ·) := by
  refine (pairwise_mergeSort (fun a b c => ?_) (fun a b => ?_) w.queue).imp of_decide_eq_true
  · simpa using fun hab hbc => Int.le_trans hbc hab
  · simpa using Int.le_total (importance b) (importance a)

/-- States of one importance stay in the order in which they waited. -/
lemma ranked_filter (p : Int) :
    (w.ranked importance).filter (importance · = p) = w.queue.filter (importance · = p) := by
  have hequal : (w.queue.filter (importance · = p)).Pairwise fun a b => decide (importance a ≥ importance b) := by
    refine pairwise_of_forall_mem_list fun a ha b hb => ?_
    simp_all
  have hsub := (sublist_mergeSort (by simpa using fun a b c hab hbc => Int.le_trans hbc hab)
    (by simpa using fun a b => Int.le_total _ _) hequal filter_sublist).filter (importance · = p)
  simp only [filter_filter, Bool.and_self] at hsub
  exact (hsub.eq_of_length ((w.ranked_perm importance).filter _).length_eq.symm).symm

end Work

/-- A beam of a width keeps that many states, or all that wait if they are fewer. They stand before those that are dropped
in one order by falling importance, in which states of one importance stand as they waited. The next state is the first
of those that are kept, no other is more important, and the rest of them goes on waiting. -/
theorem Explore.beam_keeps_the_best (n : Nat) (s : Session) : ∃ kept dropped : List GState,
    let importance (g : GState) : Int := g.importance s.shared.suspicions
    s.work.narrow importance n = { s.work with queue := kept } ∧ kept.length = min n s.work.queue.length ∧
      kept ++ dropped ~ s.work.queue ∧ (kept ++ dropped).Pairwise (importance · ≥ importance ·) ∧
      (∀ p, (kept ++ dropped).filter (importance · = p) = s.work.queue.filter (importance · = p)) ∧
      (∀ a ∈ kept, ∀ b ∈ dropped, importance b ≤ importance a) ∧
      takeNext (.beam n) s = .ok kept.head? { s with work := { s.work with queue := kept.tail } } ∧
      ∀ a ∈ kept.head?, ∀ b ∈ s.work.queue, importance b ≤ importance a := by
  set importance : GState → Int := fun g => g.importance s.shared.suspicions
  have hnarrow := s.work.narrow_eq_take importance n
  have hperm := s.work.ranked_perm importance
  have hsorted := s.work.ranked_pairwise importance
  have hsplit := take_append_drop n (s.work.ranked importance)
  refine ⟨_, (s.work.ranked importance).drop n, hnarrow, ?_, ?_⟩
  · rw [length_take, hperm.length_eq]
  rw [hsplit]
  refine ⟨hperm, hsorted, s.work.ranked_filter importance, ?_, ?_, ?_⟩
  · rw [← hsplit] at hsorted
    exact (pairwise_append.1 hsorted).2.2
  · show Engine.onWork (handOut fun w => (w.narrow importance n).takeAt 0) s = _
    simp only [Engine.onWork, hnarrow, Work.takeAt]
    cases (s.work.ranked importance).take n <;> rfl
  · intro a ha b hb
    obtain ⟨rest, hrest⟩ : ∃ rest, s.work.ranked importance = a :: rest := by
      rw [← hsplit]
      exact ⟨_, congrArg (· ++ _) (eq_cons_of_mem_head? ha)⟩
    rw [hrest] at hsorted hperm
    rcases mem_cons.1 (hperm.mem_iff.2 hb) with rfl | hb
    · exact Int.le_refl _
    · exact rel_of_pairwise_cons hsorted hb

/-!
# States that are put off

States whose conditions hold in no known model are put off, and tried again when nothing else waits. Whatever is answered
about a state, it is not lost: it waits, or was handed out once, or was dropped once because it had no model.
-/

namespace Explore

open Work

def Waits (s : Session) (queue later : List GState) : Prop := s.work.queue = queue ∧ s.work.pending = later

/-- The session in which the first of the states that were put off is asked for a model. -/
def tries (s : Session) (rest : List GState) : Session := { s with work := { s.work with queue := [], pending := rest } }

/-- A call of the search, round by round: the states that it drops, and how it ends. The answers to its questions are
those that are given at that point of the call. -/
inductive Delays : Session → List GState → EStateM.Result Fault Session (Option GState) → Prop
  | fits {s s' g rest later} (hs : Waits s (g :: rest) later) (hs' : Waits s' rest later) : Delays s [] (.ok (some g) s')
  | putOff {s s₁ g rest later dropped e} (hs : Waits s (g :: rest) later) (hs₁ : Waits s₁ rest (later ++ [g]))
    (h : Delays s₁ dropped e) : Delays s dropped e
  | unclear {s s' g rest later t f} (hs : Waits s (g :: rest) later) (hask : s.work.models.ask t = .error f) :
    Delays s [] (.error f s')
  | has {s s₁ s' g rest m} (hs : Waits s [] (g :: rest))
    (hask : g.world.constraints.model? (tries s rest) = .ok (some m) s₁) (hs' : Waits s' [] rest) :
    Delays s [] (.ok (some g) s')
  | drops {s s₁ g rest dropped e} (hs : Waits s [] (g :: rest))
    (hask : g.world.constraints.model? (tries s rest) = .ok none s₁) (hs₁ : Waits s₁ [] rest)
    (h : Delays s₁ dropped e) : Delays s (g :: dropped) e
  | fails {s s' g rest f} (hs : Waits s [] (g :: rest)) (hask : g.world.constraints.model? (tries s rest) = .error f s') :
    Delays s [] (.error f s')
  | idle {s} (hs : Waits s [] []) : Delays s [] (.ok none s)

/-- A search that is asked for states while others are added, and while the session does other things: the states that
were added so far, those that were handed out and those that were dropped. -/
inductive Serves : List GState → List GState → List GState → Session → Prop
  | start {s} (hs : Waits s [] []) : Serves [] [] [] s
  | add {added given dropped s} (h : Serves added given dropped s) (gs : List GState) :
    Serves (added ++ gs) given dropped { s with work := s.work.push gs }
  | meanwhile {added given dropped s s'} (h : Serves added given dropped s)
    (hs' : Waits s' s.work.queue s.work.pending) : Serves added given dropped s'
  | take {added given dropped more s s' r} (h : Serves added given dropped s) (hr : takeNext .delayed s = .ok r s')
    (hmore : Delays s more (.ok r s')) : Serves added (given ++ r.toList) (dropped ++ more) s'

variable {added given dropped : List GState} {r : Option GState} {s s' : Session}

lemma Delays.perm (h : Delays s dropped (.ok r s')) : s.work.states ~ r.toList ++ dropped ++ s'.work.states := by
  generalize he : EStateM.Result.ok r s' = e at h
  induction h with
  | fits hs hs' | has hs _ hs' =>
    cases he
    rw [states, states, hs.1, hs.2, hs'.1, hs'.2]
    exact .refl _
  | @putOff _ _ g rest later _ _ hs hs₁ _ ih =>
    refine .trans ?_ (ih he)
    rw [states, states, hs.1, hs.2, hs₁.1, hs₁.2, ← append_assoc]
    exact (perm_append_singleton g _).symm
  | @drops _ _ g _ _ _ hs _ hs₁ _ ih =>
    have hperm := ih he
    rw [states, hs₁.1, hs₁.2, append_assoc] at hperm
    rw [states, hs.1, hs.2, append_assoc]
    exact (hperm.cons g).trans perm_middle.symm
  | unclear | fails => cases he
  | idle hs =>
    cases he
    exact .refl _

lemma Serves.perm (h : Serves added given dropped s) : added ~ given ++ dropped ++ s.work.states := by
  induction h with
  | start hs =>
    rw [states, hs.1, hs.2]
    exact .refl _
  | @add _ _ _ s _ gs ih =>
    refine (ih.append_right gs).trans ?_
    simp only [states, Work.push, append_assoc]
    exact ((perm_append_comm.append_left _).append_left _).append_left _
  | meanwhile _ hs' ih =>
    rw [states, hs'.1, hs'.2]
    exact ih
  | take _ _ hmore ih =>
    refine (ih.trans (hmore.perm.append_left _)).trans ?_
    simp only [append_assoc]
    exact (perm_append_comm_assoc _ _ _).append_left _

end Explore
end EvmAudit
