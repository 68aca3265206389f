import EvmAudit.Proofs.SelfDestruct
import EvmAudit.Proofs.Succession
import EvmAudit.Proofs.WorkList

/-!
# Accounts that were deleted

A copy of a world has every account with all that belongs to it, but forgets which accounts were deleted. Every
instruction works on a copy, so no state beyond the first of a transaction knows of any. Only a world that was left open
by the instruction itself still says so, and there no message is sent to the account.
-/

namespace EvmAudit

open Engine (bind_ok)

lemma World.copy_preserved (w : World) (deep : Bool) (s : Session) : (w.copy deep).Does s fun w' =>
    w'.balances = w.balances ∧ ∀ key, Option.Rel Account.Preserved (w.find? key) (w'.find? key) :=
  (w.copy_does deep).mono fun _ hw => ⟨by rw [hw.1.rest], hw.2.2⟩

namespace Explore

variable {plan : Plan} {g : GState} {s s' : Session}

/-! ## States that come after others -/

/-- Executing a state leaves the work as it is, and in no state that it leads to is an account deleted. -/
lemma Leads.stands {gs : List GState} (h : Leads g s gs s') : s'.work = s.work ∧ ∀ g' ∈ gs, g'.world.Stands := by
  have hproceeds := execute_proceeds (g := g) (fun _ => True) Hooks.areDiscreet_empty trivial trivial trivial
    (s := s) (fun _ _ => ⟨trivial, trivial⟩)
  rcases h with ⟨r, hr, rfl⟩ | ⟨hr, rfl⟩
  · exact ⟨(Engine.after_ok hr ▸ hproceeds.1).work, (hproceeds.2 r s' hr).stands⟩
  · exact ⟨(Engine.after_error hr ▸ hproceeds.1).work, List.forall_mem_nil _⟩

/-- The state is one of those that waited at first, or no account is deleted in it. -/
def Derives (s₀ : Session) (g : GState) : Prop := (∃ g₀ ∈ s₀.work.states, g₀.Relabels g) ∨ g.world.Stands

lemma Derives.relabels {s0 : Session} {g' : GState} (h : Derives s0 g) (hg : g.Relabels g') : Derives s0 g' := by
  rcases h with ⟨g0, hg0, hrel⟩ | hstands
  · exact .inl ⟨g0, hg0, hrel.trans hg⟩
  · obtain ⟨_, _, _, rfl⟩ := hg
    exact .inr hstands

/-- While an exploration goes on, accounts are deleted in none but the states that it began with. -/
lemma history_derives (hplan : plan.IsPlain) {isCreation : Bool} {n : Nat} {finals finals' : List GState}
    (h : work {} plan isCreation n finals s = .ok finals' s') : ∀ p ∈ history plan isCreation n s, Derives s p.1 := by
  have hinvariant : (∀ p ∈ [] ++ history plan isCreation n s, Derives s p.1) ∧ ∀ g ∈ s'.work.states, Derives s g := by
    refine work_induction (I := fun run s' => (∀ p ∈ run, Derives s p.1) ∧ ∀ g ∈ s'.work.states, Derives s g) hplan
      ?_ ?_ ⟨List.forall_mem_nil _, fun g hg => .inl ⟨g, hg, .refl g⟩⟩ h
    · rintro run s1 s2 ⟨hrun, hwait⟩ hsheds
      exact ⟨hrun, fun g hg => hwait g (hsheds.work g hg)⟩
    rintro run s1 s2 g0 g final s3 ⟨hrun, hwait⟩ hsheds hg0 hrel hexpand
    refine ⟨List.forall_mem_append.2 ⟨hrun, List.forall_mem_singleton.2 ((hwait g0 hg0).relabels hrel)⟩, ?_⟩
    obtain ⟨gs, s4, gs', hleads, hgs', hpushes⟩ := expand_run hexpand
    intro g1 hg1
    rcases hpushes.states g1 hg1 with hold | hnew
    · rw [hleads.stands.1] at hold
      exact hwait g1 (hsheds.work g1 hold)
    · obtain ⟨g2, hg2, hrel⟩ := hgs'.states g1 hnew
      exact .relabels (.inr (hleads.stands.2 g2 hg2)) hrel
  exact hinvariant.1

/-! ## Messages that are not sent -/

lemma takeNext_idle (hs : s.work.states = []) (search : Search) : takeNext search s = .ok none s := by
  obtain ⟨hqueue, hpending⟩ := List.append_eq_nil_iff.1 hs
  have hat i : s.work.takeAt i = none := by simp [Work.takeAt, hqueue]
  have htake importance : s.work.take search importance = none := by
    cases search with
    | depthFirst | breadthFirst | delayed => exact hat _
    | anyState | weighted =>
      simp only [Work.take, Work.takeShown]
      split <;> simp [Work.takeAt, hqueue]
    | beam width => simp [Work.take, Work.narrow, Work.takeAt, hqueue]
  have hordered : Engine.onWork (handOut (·.take search fun g => g.importance s.shared.suspicions)) s = .ok none s := by
    simp [Engine.onWork, htake, ← hqueue]
  cases search with
  | delayed =>
    show takeDelayed (2 * s.work.size + 1) s = _
    rw [takeDelayed, bind_ok (Engine.get_run s), hqueue, hpending]
    rfl
  | _ => exact hordered

lemma takeShallow_idle (hplan : plan.IsPlain) (hs : s.work.states = []) (n : Nat) :
    takeShallow plan n s = .ok none s := by
  have hwith extensions : takeWith plan extensions s = .ok none s := by
    induction extensions with
    | nil => exact takeNext_idle hs plan.search
    | cons e rest ih =>
      cases e with
      | loops bound =>
        show takeBounded bound (takeWith plan rest) (s.work.size + 1) s = _
        exact bind_ok ih
      | fresh =>
        show (firstFresh plan.isReached 0 s.work.queue >>= _) s = _
        rw [(List.append_eq_nil_iff.1 hs).1]
        exact ih
  cases n with
  | zero => rfl
  | succ n =>
    unfold takeShallow
    rw [hplan.taker]
    exact bind_ok (hwith plan.extensions)

lemma run_idle (hplan : plan.IsPlain) (hs : s.work.states = []) (isCreation : Bool) :
    run {} plan isCreation s = .ok [] s := by
  show work {} plan isCreation patience [] s = _
  show (takeShallow plan (s.work.size + 1) >>= _) s = _
  rw [bind_ok (takeShallow_idle hplan hs _)]
  rfl

/-- No message is sent to an account that has been deleted in every world that is open. -/
lemma sendUnknown_deleted (hplan : plan.IsPlain) {σ : Valuation} {width : Nat} {x : BitVec width} {target : Expr}
    (hx : target.Denotes σ x) (hs : s.work.states = [])
    (hgiven : ∀ w ∈ s.openWorlds, ∃ a, w.find? target.term.value? = some a ∧ a.deleted = true)
    (choices : List (List Nat)) :
    ∃ l, sendUnknown {} plan target choices s = .ok () { s with ledger := l, openWorlds := [] } := by
  have hlookup (w : World) (hw : ∃ a, w.find? target.term.value? = some a ∧ a.deleted = true) s :
      ∃ a l, w.lookup target s = .ok (a, w) { s with ledger := l } ∧ a.deleted = true := by
    obtain ⟨a, ha, hdeleted⟩ := hw
    obtain ⟨key, l, hkey, rfl⟩ := Expr.value?_gives hx s.ledger
    refine ⟨a, l, ?_, hdeleted⟩
    have hlift := Engine.lift_ok hkey
    rw [World.lookup, bind_ok hlift, World.lookupAt, ha]
    rfl
  have hloop (send : Account × World → Engine Unit) (ws : List World)
      (hws : ∀ w ∈ ws, ∃ a, w.find? target.term.value? = some a ∧ a.deleted = true) s :
      ∃ l, (ws.forM fun w => do
        let r ← w.lookup target
        unless r.1.deleted do send r : Engine Unit) s = .ok () { s with ledger := l } := by
    induction ws generalizing s with
    | nil => exact ⟨s.ledger, rfl⟩
    | cons w ws ih =>
      obtain ⟨a, l, hw, hdeleted⟩ := hlookup w (hws w (by simp)) s
      obtain ⟨l', hrest⟩ := ih (fun w hw => hws w (by simp [hw])) { s with ledger := l }
      refine ⟨l', ?_⟩
      have hfirst : (do
          let r ← w.lookup target
          unless r.1.deleted do send r : Engine Unit) s = .ok () { s with ledger := l } := by
        rw [bind_ok hw]
        simp only [hdeleted]
        rfl
      exact .trans (bind_ok hfirst) hrest
  obtain ⟨l, hl⟩ := hloop _ s.openWorlds hgiven { s with openWorlds := [] }
  refine ⟨l, ?_⟩
  have htake : takeWorlds s = .ok s.openWorlds { s with openWorlds := [] } := rfl
  unfold sendUnknown
  rw [bind_ok htake, bind_ok hl]
  exact bind_ok (run_idle (s := { s with ledger := l, openWorlds := [] }) hplan hs false)

/-- A copy of a world, deep or not, has every account under the same name, with the same nonce, code, balance, storage and
slots that are known, but in none of them it shows that the account was deleted. So in an exploration accounts are deleted
in none but the states that it began with. Where the worlds that are open say themselves that an account was deleted, no
message is sent to it. -/
theorem copies_forget_deletion (hplan : plan.IsPlain) :
    (∀ (w : World) (deep : Bool) (s : Session), (w.copy deep).Does s fun w' =>
      w'.balances = w.balances ∧ ∀ key, Option.Rel Account.Preserved (w.find? key) (w'.find? key)) ∧
    (∀ {isCreation : Bool} {n : Nat} {finals finals' : List GState} {s s' : Session},
      work {} plan isCreation n finals s = .ok finals' s' → ∀ p ∈ history plan isCreation n s,
        (∃ g₀ ∈ s.work.states, g₀.Relabels p.1) ∨ p.1.world.Stands) ∧
    ∀ {σ : Valuation} {width : Nat} {x : BitVec width} {target : Expr} {s : Session} (choices : List (List Nat)),
      target.Denotes σ x → s.work.states = [] →
      (∀ w ∈ s.openWorlds, ∃ a, w.find? target.term.value? = some a ∧ a.deleted = true) →
      ∃ l, sendUnknown {} plan target choices s = .ok () { s with ledger := l, openWorlds := [] } :=
  ⟨World.copy_preserved, history_derives hplan, fun choices hx hs hgiven => sendUnknown_deleted hplan hx hs hgiven choices⟩

/-- The account at 256 gives itself up for whoever sends the message; the account at 512 stops. -/
def beforeGivingUp : Session := { Session.ofCodes ["33ff", "00"] with openWorlds := [(GState.ofOperands []).world] }

def afterGivingUp : World := (GState.ofOperands []).world.put (some 256) { Account.bare 256 0 with deleted := true }

theorem copies_forget_deletion_at_256 : Plan.IsPlain {} ∧
    (∃ w' s', afterGivingUp.copy true {} = .ok w' s' ∧ w'.balances = afterGivingUp.balances ∧
      ∀ key, Option.Rel Account.Preserved (afterGivingUp.find? key) (w'.find? key)) ∧
    ∃ l, sendUnknown {} {} (.literal 256) [] { beforeGivingUp with openWorlds := [afterGivingUp] } =
      .ok () { beforeGivingUp with ledger := l, openWorlds := [] } := by
  have hplan : Plan.IsPlain {} := ⟨rfl, fun _ => inferInstance⟩
  obtain ⟨hcopy, -, hsend⟩ := copies_forget_deletion hplan
  obtain ⟨w', s', hrun, -, hpreserved⟩ := hcopy afterGivingUp true {}
  have hx : (Expr.literal 256).Denotes default (256 : BitVec 256) := ⟨rfl, rfl, rfl, rfl⟩
  have hgiven : ∀ w ∈ [afterGivingUp], ∃ a, w.find? (some 256) = some a ∧ a.deleted = true :=
    List.forall_mem_singleton.2 ⟨_, rfl, rfl⟩
  exact ⟨hplan, ⟨w', s', hrun, hpreserved⟩, hsend [] hx rfl hgiven⟩

/-- An account gives itself up in one transaction, and the world that is left says so. After a transaction of another
account it does not any more, and a message is sent to the account that was deleted. -/
theorem deleted_account_is_called_again : ∃ s₁ s₂ s₃,
    sendUnknown {} {} (.literal 256) [] beforeGivingUp = .ok () s₁ ∧
    s₁.openWorlds.map (fun w => (w.find? (some 256)).map (·.deleted)) = [some true] ∧
    sendUnknown {} {} (.literal 512) [] s₁ = .ok () s₂ ∧
    s₂.openWorlds.map (fun w => (w.find? (some 256)).map (·.deleted)) = [some false] ∧
    sendUnknown {} {} (.literal 256) [] s₂ = .ok () s₃ ∧
    s₃.openWorlds.map (fun w => w.txs.length) = [3] := by
  obtain ⟨_, s₁, h₁, hopen₁, _, s₂, h₂, hopen₂, _, s₃, h₃, hopen₃⟩ : ∃ u s₁,
      sendUnknown {} {} (.literal 256) [] beforeGivingUp = .ok u s₁ ∧
      s₁.openWorlds.map (fun w => (w.find? (some 256)).map (·.deleted)) = [some true] ∧
      ∃ u s₂, sendUnknown {} {} (.literal 512) [] s₁ = .ok u s₂ ∧
      s₂.openWorlds.map (fun w => (w.find? (some 256)).map (·.deleted)) = [some false] ∧
      ∃ u s₃, sendUnknown {} {} (.literal 256) [] s₂ = .ok u s₃ ∧
      s₃.openWorlds.map (fun w => w.txs.length) = [3] := by decide +kernel
  exact ⟨s₁, s₂, s₃, h₁, hopen₁, h₂, hopen₂, h₃, hopen₃⟩

end Explore
end EvmAudit
