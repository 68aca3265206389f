import EvmAudit.Proofs.Steps
import EvmAudit.Proofs.WorkList

/-!
# Constructors

All paths of a constructor share the program of the new account: the account is in the world of each of them, and a copy
of a world copies accounts but not programs. A state on such a path, or in a frame that a path waits for, leaves that
program alone until the path returns data.
-/

namespace EvmAudit

open Engine GState

variable {key : Option Nat} {p : ProgramId} {others : List (Option Nat)} {callers : Array GState} {g g' final : GState}
  {s s' s1 : Session} {op : Opcode} {o : Outcome} {f : Fault} {n : Nat} {tx : Tx} {rest : List Frame}

/-! ## Whose program it is -/

structure World.Owns (key : Option Nat) (p : ProgramId) (others : List (Option Nat)) (w : World) : Prop where
  own : ∃ a, w.find? key = some a ∧ a.code = p
  others : ∀ k ∈ others, ∃ a, w.find? k = some a ∧ a.code ≠ p

lemma World.Owns.of_keeps {w w' : World} (h : w.Owns key p others) (hw : w.Keeps w') : w'.Owns key p others where
  own := by
    obtain ⟨a, ha, hcode⟩ := h.own
    obtain ⟨a', ha', hcode'⟩ := hw.found ha
    exact ⟨a', ha', hcode'.trans hcode⟩
  others k hk := by
    obtain ⟨a, ha, hcode⟩ := h.others k hk
    obtain ⟨a', ha', hcode'⟩ := hw.found ha
    exact ⟨a', ha', hcode' ▸ hcode⟩

namespace GState

/-- The state works on the account at a key: it is on a path of the constructor, or in a frame that such a state waits for.
A frame that makes another account is listed with the key of that account, which has a program of its own. -/
inductive Builds (key : Option Nat) (p : ProgramId) (callers : Array GState) : List (Option Nat) → GState → Prop
  | path {g : GState} {tx : Tx} {rest : List Frame} (hframes : g.frames = ⟨tx, none⟩ :: rest)
    (hkind : tx.kind = .creation) (hactive : g.env.active = key) (hw : g.world.Owns key p []) :
    Builds key p callers [] g
  | message {g c : GState} {tx : Tx} {n : Nat} {rest : List Frame} {others : List (Option Nat)}
    (hframes : g.frames = ⟨tx, some n⟩ :: rest) (hkind : tx.kind = .message) (hc : callers[n]? = some c)
    (h : Builds key p callers others c) (hw : g.world.Owns key p others) : Builds key p callers others g
  | creation {g c : GState} {tx : Tx} {n : Nat} {rest : List Frame} {others : List (Option Nat)}
    (hframes : g.frames = ⟨tx, some n⟩ :: rest) (hkind : tx.kind = .creation) (hc : callers[n]? = some c)
    (h : Builds key p callers others c) (hw : g.world.Owns key p (g.env.active :: others)) :
    Builds key p callers (g.env.active :: others) g

namespace Builds

section

variable (h : g.Builds key p callers others)
include h

lemma owns : g.world.Owns key p others := by
  cases h with
  | path _ _ _ hw | message _ _ _ _ hw | creation _ _ _ _ hw => exact hw

lemma replace (hframes : g'.frames = g.frames) (hactive : g'.env.active = g.env.active)
    (hw : g'.world.Owns key p others) : g'.Builds key p callers others := by
  cases h with
  | path hg hkind hkey _ => exact .path (hframes.trans hg) hkind (hactive.trans hkey) hw
  | message hg hkind hc h _ => exact .message (hframes.trans hg) hkind hc h hw
  | creation hg hkind hc h _ =>
    rw [← hactive] at hw ⊢
    exact .creation (hframes.trans hg) hkind hc h hw

lemma stays (hg : g.Stays g') : g'.Builds key p callers others :=
  h.replace hg.frames (by rw [hg.env]) (h.owns.of_keeps hg.world)

lemma relabels (hg : g.Relabels g') : g'.Builds key p callers others := by
  obtain ⟨_, _, _, rfl⟩ := hg
  exact h.replace rfl rfl h.owns

lemma waits (hg : g.Waits g') : g'.Builds key p callers others := by
  obtain ⟨_, _, _, rfl⟩ := hg
  exact h.replace rfl rfl (h.owns.of_keeps (.of_accounts rfl))

lemma later {callers' : Array GState}
    (hcallers : ∀ {n : Nat} {c}, callers[n]? = some c → ∃ c', callers'[n]? = some c' ∧ c.Waits c') :
    g.Builds key p callers' others := by
  induction h with
  | path hg hkind hkey hw => exact .path hg hkind hkey hw
  | message hg hkind hc _ hw ih =>
    obtain ⟨c', hc', hwaits⟩ := hcallers hc
    exact .message hg hkind hc' (ih.waits hwaits) hw
  | creation hg hkind hc _ hw ih =>
    obtain ⟨c', hc', hwaits⟩ := hcallers hc
    exact .creation hg hkind hc' (ih.waits hwaits) hw

lemma caller (tx : Tx) (n : Nat) (rest : List Frame) (hframes : g.frames = ⟨tx, some n⟩ :: rest) :
    ∃ c, callers[n]? = some c ∧ ∃ others', c.Builds key p callers others' ∧ g.world.Owns key p others' := by
  cases h with
  | path hg => cases hg.symm.trans hframes
  | message hg _ hc h hw =>
    cases hg.symm.trans hframes
    exact ⟨_, hc, _, h, hw⟩
  | creation hg _ hc h hw =>
    cases hg.symm.trans hframes
    exact ⟨_, hc, _, h, hw.own, fun k hk => hw.others k (List.mem_cons_of_mem _ hk)⟩

end

end Builds
end GState

/-! ## What the end of a frame leaves alone -/

/-- A program stays, and so do the open worlds and the states that wait. -/
structure Session.Holds (p : ProgramId) (s s' : Session) : Prop where
  program : ∀ {q : Program}, s.code.programs[p]? = some q → s'.code.programs[p]? = some q
  openWorlds : s'.openWorlds = s.openWorlds
  work : s'.work = s.work

namespace Session.Holds

variable {s'' : Session}

lemma of_grows (h : s.Grows s') : s.Holds p s' := ⟨h.programs, h.openWorlds, h.work⟩

lemma trans (h : s.Holds p s') (h' : s'.Holds p s'') : s.Holds p s'' :=
  ⟨fun hq => h'.program (h.program hq), h'.openWorlds.trans h.openWorlds, h'.work.trans h.work⟩

lemma of_assigns {i : ProgramId} {code : Bytecode} (h : s.Assigns i code s') (hp : p ≠ i) : s.Holds p s' :=
  ⟨h.others hp, h.openWorlds, h.work⟩

end Session.Holds

lemma Explore.Turns.holds (h : Turns g s [] s') : s.Holds p s' := by
  obtain ⟨s1, s2, hs1, hturned, hs2⟩ := h
  refine (Session.Holds.of_grows hs1).trans (.trans ?_ (.of_grows hs2))
  cases hturned with
  | same => exact .of_grows (.refl s1)
  | waits | recalls => exact ⟨id, rfl, rfl⟩

/-! ## The end of a path -/

/-- The end of a path: the data that become the code of the account, and the world that is left open. -/
structure PathEnd where
  code : Option (List Item)
  world : Option World

namespace GState

/-- The state is in no frame but that of the constructor. -/
def IsOutermost (g : GState) : Prop := ∃ tx rest, g.frames = ⟨tx, none⟩ :: rest

/-- The end of a path in a state, if it leaves anything: the constructor returns data, also when it takes everything else
back, or there is no instruction left. -/
def pathEnd? (g : GState) (s : Session) : Option PathEnd :=
  match g.due s with
  | none => some ⟨none, some g.world⟩
  | some i =>
    if g.machine.stack.length < i.opcode.needs then none else
      match g.perform i.opcode s with
      | .ok (.halt final (some _) reverted) _ =>
        match g.frames, g.output i.opcode s with
        | ⟨_, none⟩ :: _, .ok items _ =>
          some ⟨some items, if reverted then none else some { final.world with node := g.node }⟩
        | _, _ => none
      | _ => none

/-- Does the instruction that is due start a frame in a world in which the account at a key has another program? -/
def remakes (g : GState) (key : Option Nat) (s : Session) : Bool :=
  match g.due s with
  | none => false
  | some i => match g.perform i.opcode s with
    | .ok (.call _ waiting) _ => (waiting.world.find? key).map (·.code) != (g.world.find? key).map (·.code)
    | _ => false

lemma pathEnd?_error {i : Instr} (hi : g.due s = some i) (h : g.perform i.opcode s = .error f s') :
    g.pathEnd? s = none := by
  simp only [pathEnd?, hi, h]
  split <;> rfl

lemma pathEnd?_faults (h : g.Faults op s s') : g.pathEnd? s = none := by
  obtain ⟨⟨i, hi, rfl⟩, ⟨hshort, -⟩ | ⟨-, v, text, hrun⟩⟩ := h
  · simp [pathEnd?, hi, if_pos hshort]
  · exact pathEnd?_error hi hrun

/-- The frame goes on, waits for another one, or ends; on a path it ends without data. -/
def Proceeds (g : GState) (n : Nat) : Outcome → Prop
  | .states gs => ∀ g' ∈ gs, g.Stays g'
  | .call tx waiting => tx.kind = .message ∧ g.Stays waiting ∨
    waiting.frames = g.frames ∧ tx.Makes n g.world waiting.world
  | .halt final data _ => final.frames = g.frames ∧ (g.IsOutermost → data = none)

/-- The data that a path returns become the code of the account. -/
structure Deploys (g : GState) (op : Opcode) (p : ProgramId) (s : Session) (o : Outcome) (s' : Session) : Prop where
  outermost : g.IsOutermost
  run : ∃ final text items s₁, o = .halt final (some (.address text)) (op == .revert) ∧ g.Stays final ∧
    g.output op s = .ok items s₁ ∧ s.Assigns p (.cells items) s'

lemma pathEnd?_proceeds (h : g.Performs op s o s') (ho : g.Proceeds n o) : g.pathEnd? s = none := by
  obtain ⟨⟨i, hi, rfl⟩, hroom, hrun⟩ := h
  simp only [pathEnd?, hi, if_neg (Nat.not_lt.2 hroom), hrun]
  cases o with
  | states | call => rfl
  | halt final data reverted =>
    cases data with
    | none => rfl
    | some d =>
      dsimp only
      split
      · rename_i hframes _
        cases ho.2 ⟨_, _, hframes⟩
      · rfl

lemma isCreation_of_frames {waiting : Option Nat} (h : g.frames = ⟨tx, waiting⟩ :: rest) :
    g.IsCreation ↔ tx.kind = .creation := by
  unfold IsCreation tx?
  rw [h]
  simp

lemma not_isOutermost (h : g.frames = ⟨tx, some n⟩ :: rest) : ¬ g.IsOutermost := by
  rintro ⟨_, _, h'⟩
  cases h.symm.trans h'

lemma Builds.perform (hb : g.Builds key p s.shared.suspended others) (h : g.perform op s = .ok o s') :
    (s.Holds p s' ∧ g.Proceeds s.code.programs.size o) ∨ g.Deploys op p s o s' := by
  have hleft {P} (hyields : (g.perform op).Yields s P)
      (hproceeds : ∀ o, P o → g.Proceeds s.code.programs.size o) : s.Holds p s' ∧ g.Proceeds s.code.programs.size o := by
    obtain ⟨hs', ho⟩ := hyields.ok h
    exact ⟨.of_grows hs', hproceeds o ho⟩
  cases hhalts : op.halts with
  | false =>
    cases hcreates : op.creates with
    | true =>
      refine .inl (hleft (perform_creates hcreates g s) fun o ho => ?_)
      cases o with
      | states gs => exact fun g' hg' => (ho g' hg').stays
      | call tx waiting => exact .inr ⟨ho.1, ho.2.2⟩
      | halt => exact ho.elim
    | false =>
      refine .inl (hleft (perform_within true hhalts hcreates nofun) fun o ho => ?_)
      cases o with
      | states gs => exact fun g' hg' => (ho.2 g' hg').stays
      | call tx waiting => exact .inl ⟨ho.2.1, ho.2.2.2.stays⟩
      | halt => exact ho.elim
  | true =>
    cases hdata : op.returnsData with
    | false =>
      refine .inl (hleft (perform_closes hhalts (by simp [hdata]) s) ?_)
      rintro _ ⟨final, data, rfl, hnone, hframes⟩
      exact ⟨hframes, fun _ => Option.not_isSome_iff_eq_none.1 (by simp [hnone, hdata])⟩
    | true =>
      cases hb with
      | path hframes hkind hactive hw =>
        obtain ⟨a, ha, hcode⟩ := hw.own
        rw [← hactive] at ha
        obtain ⟨final, hfinal, ⟨rfl, hs'⟩ | ⟨text, items, s1, rfl, houtput, hassigns⟩⟩ :=
          perform_hands ((isCreation_of_frames hframes).2 hkind) hdata ha h
        · exact .inl ⟨.of_grows hs', hfinal.frames, fun _ => rfl⟩
        · rw [hcode] at hassigns
          exact .inr ⟨⟨_, _, hframes⟩, final, text, items, s1, rfl, hfinal, houtput, hassigns⟩
      | message hframes hkind hc _ hw =>
        have hg : ¬ g.IsCreation := by simp [isCreation_of_frames hframes, hkind]
        refine .inl (hleft (perform_closes hhalts (fun hc => hg hc.1) s) ?_)
        rintro _ ⟨final, data, rfl, -, hfinal⟩
        exact ⟨hfinal, fun h => absurd h (not_isOutermost hframes)⟩
      | creation hframes hkind hc _ hw =>
        obtain ⟨a, ha, hcode⟩ := hw.others _ List.mem_cons_self
        obtain ⟨final, hfinal, ⟨rfl, hs'⟩ | ⟨text, items, s1, rfl, -, hassigns⟩⟩ :=
          perform_hands ((isCreation_of_frames hframes).2 hkind) hdata ha h
        · exact .inl ⟨.of_grows hs', hfinal.frames, fun _ => rfl⟩
        · refine .inl ⟨.of_assigns hassigns hcode.symm, hfinal.frames, fun h => ?_⟩
          exact absurd h (not_isOutermost hframes)

end GState

/-! ## One state -/

namespace Explore

variable {c : GState}

lemma resume_builds {c' : GState} {node : Option Nat} {gs : List GState} (hb : c.Builds key p callers others)
    (hw : g.world.Owns key p others) (hrecalls : Recalls c g c') (hresume : resume c' node s = .ok gs s')
    (hg' : g' ∈ gs) : g'.Builds key p callers others := by
  have hworld : c'.world.Owns key p others := by
    cases hrecalls with
    | fails => exact hb.owns.of_keeps (.of_accounts rfl)
    | @hands data reverted _ hhanded =>
      cases reverted with
      | true =>
        obtain ⟨w, hcopy, hworld⟩ := hhanded.reverts rfl
        rw [hworld]
        exact (hb.owns.of_keeps (.of_copyFor hcopy)).of_keeps (.of_accounts rfl)
      | false => exact hw.of_keeps (.of_copyFor ((hhanded.commits rfl).1.copyFor none))
  have hc' : c'.Builds key p callers others := hb.replace hrecalls.frames (by rw [hrecalls.env]) hworld
  exact hc'.stays (resume_passes hresume hg').stays

/-- A new frame: that of a message, or that of another account, which does not take the place of the one at the key. -/
lemma startFrame_builds {waiting start : GState} {k : Nat} (hp : p < k)
    (hb : g.Builds key p s1.shared.suspended others) (ho : g.Proceeds k (.call tx waiting))
    (hkey : (waiting.world.find? key).map (·.code) = (g.world.find? key).map (·.code))
    (h : startFrame g tx waiting.world s1 = .ok start s') :
    ∃ others', start.Builds key p s'.shared.suspended others' := by
  obtain ⟨hframes, hsuspended, -, haccounts, -, -, hactive⟩ := startFrame_run h
  have hcaller : s'.shared.suspended[s1.shared.suspended.size]? = some g := by
    rw [hsuspended, Array.getElem?_push_size]
  have hb' : g.Builds key p s'.shared.suspended others := by
    refine hb.later fun {n c} hn => ⟨c, ?_, .refl c⟩
    grind
  rcases ho with ⟨hkind, hstays⟩ | ⟨-, hmakes⟩
  · have hw := (hb.owns.of_keeps hstays.world).of_keeps (.of_accounts haccounts)
    exact ⟨others, .message hframes hkind hcaller hb' hw⟩
  obtain ⟨x, hx, hplaced⟩ := hmakes.placed
  have hown : ∃ a, waiting.world.find? key = some a ∧ a.code = p := by
    obtain ⟨a, ha, hcode⟩ := hb.owns.own
    rw [ha] at hkey
    obtain ⟨a', ha', hcode'⟩ := Option.map_eq_some_iff.1 hkey
    exact ⟨a', ha', hcode'.trans hcode⟩
  have hothers : ∀ k ∈ start.env.active :: others, ∃ a, waiting.world.find? k = some a ∧ a.code ≠ p := by
    refine List.forall_mem_cons.2 ⟨⟨tx.callee, ?_, ?_⟩, fun k hk => ?_⟩
    · rw [hactive x hx, hplaced]
    · exact Nat.ne_of_gt (Nat.lt_of_lt_of_le hp hmakes.fresh)
    · obtain ⟨a, ha, hcode⟩ := hb.owns.others k hk
      obtain ⟨a', ha', hsame | hfresh⟩ := hmakes.renews.found ha
      · exact ⟨a', ha', hsame ▸ hcode⟩
      · exact ⟨a', ha', Nat.ne_of_gt (Nat.lt_of_lt_of_le hp hfresh)⟩
  have hw : start.world.Owns key p (start.env.active :: others) := .of_keeps ⟨hown, hothers⟩ (.of_accounts haccounts)
  exact ⟨_, .creation hframes hmakes.kind hcaller hb' hw⟩

/-- What a state leaves behind when it is executed, given how a path ends in it. -/
structure Recorded (key : Option Nat) (p : ProgramId) (e : Option PathEnd) (s s' : Session) : Prop where
  openWorlds : s'.openWorlds = s.openWorlds ++ e.toList.filterMap (·.world)
  owned : ∀ w, e.bind (·.world) = some w → ∃ a, w.find? key = some a ∧ a.code = p
  kept : e.bind (·.code) = none → ∀ {q : Program}, s.code.programs[p]? = some q → s'.code.programs[p]? = some q
  deployed : ∀ items, e.bind (·.code) = some items → ∃ q, s'.code.programs[p]? = some q ∧ q.IsOf (.cells items)
  work : s'.work = s.work

lemma Recorded.of_holds (h : s.Holds p s') : Recorded key p none s s' where
  openWorlds := by rw [h.openWorlds]; exact (List.append_nil _).symm
  owned := nofun
  kept _ := h.program
  deployed := nofun
  work := h.work

/-- The states that a state leads to go on to work on the account, and it leaves behind what its path ends with. -/
structure Advances (key : Option Nat) (p : ProgramId) (g : GState) (s : Session) (gs : List GState) (s' : Session) :
    Prop where
  states : ∀ g' ∈ gs, ∃ others, g'.Builds key p s'.shared.suspended others
  records : Recorded key p (g.pathEnd? s) s s'

variable {q : Program} {r : GState.Executed}

lemma execute_advances_none (hb : g.Builds key p s.shared.suspended others) (hdue : g.due s = none)
    (h : execute {} g s = .ok r s') : Advances key p g s r.successors s' := by
  rw [execute_beyond hdue] at h
  cases h
  refine ⟨List.forall_mem_nil _, ?_⟩
  have hend : g.pathEnd? s = some ⟨none, some g.world⟩ := by rw [pathEnd?, hdue]
  rw [hend]
  refine ⟨rfl, ?_, fun _ _ => id, nofun, rfl⟩
  rintro _ ⟨⟩
  exact hb.owns.own

lemma faults_holds (hfaults : g.Faults op s s1) : s.Holds p ((execute {} g).after s) := by
  have hturns := (fail_turns g s1 op).bind (f := fun r => pure (ended op r)) fun _ => inferInstance
  rw [after_congr (execute_faults hfaults)]
  exact .trans (.of_grows hfaults.grows) hturns.holds

section

variable (hb : g.Builds key p s.shared.suspended others)
include hb

lemma execute_advances_fault (hfaults : g.Faults op s s1) (h : execute {} g s = .ok r s') :
    Advances key p g s r.successors s' := by
  refine ⟨fun g' hg' => ?_, ?_⟩
  · obtain ⟨_, _, _, c, s2, -, -, ⟨others', hc, hw⟩, -, hresume⟩ := faults_returns hb.caller hfaults h hg'
    exact ⟨others', (resume_builds hc hw .fails hresume hg').later (execute_evolves_run h).suspended⟩
  · rw [pathEnd?_faults hfaults, ← after_ok h]
    exact .of_holds (faults_holds hfaults)

lemma finishFrame_closes {data : Option ReturnData} (hfinal : final.frames = g.frames)
    (hdata : g.IsOutermost → data = none) (op : Opcode) (reverted : Bool) :
    Turns g s [] ((finishFrame {} g final op data reverted).after s) := by
  rw [finishFrame_unobserved, hfinal]
  cases hb with
  | path hframes hkind =>
    rw [hframes, hdata ⟨_, _, hframes⟩]
    simp only [hkind]
    exact .of_grows (.refl s)
  | message hframes | creation hframes =>
    rw [hframes]
    exact (handBack_turns g s _ data reverted).bind fun _ => inferInstance

lemma proceeds_holds (hperforms : g.Performs op s o s1) (hholds : s.Holds p s1)
    (ho : g.Proceeds s.code.programs.size o) : s.Holds p ((execute {} g).after s) := by
  refine hholds.trans (Turns.holds (g := g) ?_)
  rw [after_congr (execute_performs hperforms)]
  cases o with
  | states gs => exact .of_grows (.refl s1)
  | call tx waiting => exact (startFrame_turns g s1 tx waiting.world).bind fun _ => inferInstance
  | halt final data reverted =>
    rw [← perform_suspended hperforms.run] at hb
    exact (finishFrame_closes hb ho.1 ho.2 op reverted).bind fun _ => inferInstance

variable (hq : s.code.programs[p]? = some q)
include hq

lemma execute_advances_proceeds (hg : g.remakes key s = false)
    (hperforms : g.Performs op s o s1) (hholds : s.Holds p s1) (ho : g.Proceeds s.code.programs.size o)
    (h : execute {} g s = .ok r s') : Advances key p g s r.successors s' := by
  have hevolves := execute_evolves_run h
  have hstays := proceeds_holds hb hperforms hholds ho
  rw [after_ok h] at hstays
  refine ⟨?_, pathEnd?_proceeds hperforms ho ▸ .of_holds hstays⟩
  cases o with
  | states gs =>
    rw [execute_performs hperforms] at h
    cases h
    exact fun g' hg' => ⟨others, (hb.stays (ho g' hg')).later hevolves.suspended⟩
  | call tx waiting =>
    rw [execute_performs hperforms] at h
    obtain ⟨start, s2, hstart, hpure⟩ := of_bind_ok h
    cases hpure
    have hkey : (waiting.world.find? key).map (·.code) = (g.world.find? key).map (·.code) := by
      obtain ⟨i, hi, rfl⟩ := hperforms.isAt
      simpa [remakes, hi, hperforms.run] using hg
    have hp := (getElem?_eq_some_iff.1 hq).1
    rw [← perform_suspended hperforms.run] at hb
    exact List.forall_mem_singleton.2 (startFrame_builds hp hb ho hkey hstart)
  | halt final data reverted =>
    intro g' hg'
    obtain ⟨_, _, _, c, c', s2, -, -, ⟨others', hc, hw⟩, hhanded, -, hresume⟩ := halts_returns hb.caller hperforms h hg'
    exact ⟨others', (resume_builds hc hw (.hands hhanded) hresume hg').later hevolves.suspended⟩

lemma execute_advances_deploys (hperforms : g.Performs op s o s1)
    (hdeploys : g.Deploys op p s o s1) (h : execute {} g s = .ok r s') : Advances key p g s r.successors s' := by
  obtain ⟨final, text, items, s2, rfl, hfinal, houtput, hassigns⟩ := hdeploys.run
  obtain ⟨tx, rest, hframes⟩ := hdeploys.outermost
  have hend : g.pathEnd? s =
      some ⟨some items, if op == .revert then none else some { final.world with node := g.node }⟩ := by
    obtain ⟨⟨i, hi, rfl⟩, hroom, hrun⟩ := hperforms
    simp [GState.pathEnd?, hi, if_neg (Nat.not_lt.2 hroom), hrun, hframes, houtput]
  have hprogram := hassigns.program (getElem?_eq_some_iff.1 hq).1
  rw [execute_performs hperforms] at h
  obtain ⟨r', s2, hfinish, hpure⟩ := of_bind_ok h
  cases hpure
  rw [finishFrame_unobserved, hfinal.frames, hframes] at hfinish
  simp only [Option.isSome_some, Bool.or_true] at hfinish
  cases hrevert : op == .revert
  all_goals
    simp only [hrevert] at hfinish hend
    cases hfinish
    refine ⟨List.forall_mem_nil _, hend ▸ ⟨by simp [hassigns.openWorlds], ?_, nofun, ?_, hassigns.work⟩⟩
    · rintro _ ⟨⟩ <;> exact ((hb.owns.of_keeps hfinal.world).of_keeps (.of_accounts rfl)).own
    · rintro _ ⟨⟩
      exact hprogram

/-- Whatever a state does on the way, the states that it leads to go on to work on the account. -/
lemma execute_advances (hg : g.remakes key s = false)
    (h : execute {} g s = .ok r s') : Advances key p g s r.successors s' := by
  obtain hdue | ⟨op, s1, hfaults | ⟨o, hperforms⟩ | ⟨f, hstops⟩⟩ := execute_split g s
  · exact execute_advances_none hb hdue h
  · exact execute_advances_fault hb hfaults h
  · rcases hb.perform hperforms.run with ⟨hholds, ho⟩ | hdeploys
    · exact execute_advances_proceeds hb hq hg hperforms hholds ho h
    · exact execute_advances_deploys hb hq hperforms hdeploys h
  · rw [execute_stops hstops] at h
    cases h

omit hq in
lemma execute_error_holds (hf : ¬ f.IsFinal) (h : execute {} g s = .error f s') :
    g.pathEnd? s = none ∧ s.Holds p s' := by
  obtain hdue | ⟨op, s1, hfaults | ⟨o, hperforms⟩ | ⟨f', hstops⟩⟩ := execute_split g s
  · rw [execute_beyond hdue] at h
    cases h
  · rw [← after_error h]
    exact ⟨pathEnd?_faults hfaults, faults_holds hfaults⟩
  · rcases hb.perform hperforms.run with ⟨hholds, ho⟩ | hdeploys
    · rw [← after_error h]
      exact ⟨pathEnd?_proceeds hperforms ho, proceeds_holds hb hperforms hholds ho⟩
    -- nothing fails at the end of a path with data
    obtain ⟨final, text, items, s2, rfl, hfinal, -, -⟩ := hdeploys.run
    obtain ⟨tx, rest, hframes⟩ := hdeploys.outermost
    rw [execute_performs hperforms] at h
    dsimp only at h
    rw [finishFrame_unobserved, hfinal.frames, hframes] at h
    dsimp only at h
    split at h <;> cases h
  · rw [execute_stops hstops] at h
    cases h
    obtain ⟨i, hi, rfl⟩ := hstops.isAt
    exact ⟨pathEnd?_error hi hstops.run, .of_grows ((perform_error hstops.run).resolve_left hf)⟩

end

end Explore
end EvmAudit
