import EvmAudit.Proofs.Constructors

/-!
# The code of a new account

The paths of a constructor end one after the other, and each that returns data assigns them to the program that all of
them share. So whoever returns last decides about the code in all worlds that are left open, also in those of the paths
that returned before.
-/

namespace EvmAudit

open List
open Engine (of_bind_ok Calm)

variable {w : World} {key : Option Nat} {code : Bytecode} {s : Session} {gs : List GState} {e : Option PathEnd}
  {plan : Plan} {name : String} {creator address : Expr}

def World.Shows (w : World) (key : Option Nat) (code : Bytecode) (s : Session) : Prop :=
  ∃ a p, w.find? key = some a ∧ s.code.programs[a.code]? = some p ∧ p.IsOf code

lemma World.Shows.unique {code' : Bytecode} (h : w.Shows key code s) (h' : w.Shows key code' s) : code = code' := by
  obtain ⟨a, p, ha, hp, hcode⟩ := h
  obtain ⟨a', p', ha', hp', hcode'⟩ := h'
  cases ha.symm.trans ha'
  cases hp.symm.trans hp'
  exact hcode.code.symm.trans hcode'.code

namespace Explore

variable {p : ProgramId} {others : List (Option Nat)} {g : GState} {q : Program} {s' : Session}

lemma Leads.evolves (h : Leads g s gs s') : s.Evolves (g.EndsCreation s) s' := by
  rcases h with ⟨r, hr, -⟩ | ⟨hr, -⟩
  · exact execute_evolves_run hr
  · exact Engine.after_error hr ▸ execute_evolves g s

/-! ## Ends of paths -/

/-- The code that is there after paths have ended in this order: that of the last path that returned data. -/
def runtimeCode (ends : List PathEnd) : Bytecode :=
  match (ends.filterMap (·.code)).getLast? with
  | some items => .cells items
  | none => .hex ""

/-- Paths of a constructor have ended in this order, and the states that wait work on the account. -/
structure Constructs (key : Option Nat) (p : ProgramId) (ends : List PathEnd) (s : Session) : Prop where
  program : ∃ q, s.code.programs[p]? = some q ∧ q.IsOf (runtimeCode ends)
  openWorlds : s.openWorlds = ends.filterMap (·.world)
  owned : ∀ w ∈ s.openWorlds, ∃ a, w.find? key = some a ∧ a.code = p
  states : ∀ g ∈ s.work.states, ∃ others, g.Builds key p s.shared.suspended others

lemma runtimeCode_kept (ends : List PathEnd) (he : e.bind (·.code) = none) :
    runtimeCode (ends ++ e.toList) = runtimeCode ends := by
  cases e with
  | none => rw [Option.toList_none, append_nil]
  | some e =>
    have hcode : e.code = none := he
    simp [runtimeCode, hcode]

lemma runtimeCode_deployed {items : List Item} (ends : List PathEnd) (he : e.bind (·.code) = some items) :
    runtimeCode (ends ++ e.toList) = .cells items := by
  obtain ⟨e, rfl, hcode⟩ := Option.bind_eq_some_iff.1 he
  simp [runtimeCode, hcode]

namespace Constructs

variable {ends : List PathEnd} {s₁ s2 : Session}

lemma idle (h : Constructs key p ends s) (hs : s.Sheds (· ∈ s.work.states) s₁) : Constructs key p ends s₁ where
  program := by
    obtain ⟨q, hq, hcode⟩ := h.program
    exact ⟨q, hs.programs hq, hcode⟩
  openWorlds := hs.openWorlds.trans h.openWorlds
  owned := by
    rw [hs.openWorlds]
    exact h.owned
  states g hg := by
    rw [hs.suspended]
    exact h.states g (hs.work g hg)

lemma turn (h : Constructs key p ends s) (hs : s.Sheds (· ∈ s.work.states) s₁) {g0 : GState}
    (hg0 : g0 ∈ s.work.states) (hrel : g0.Relabels g) (hg : g.remakes key s₁ = false) {final : Option GState}
    (hexpand : expand {} plan g s₁ = .ok final s2) : Constructs key p (ends ++ (g.pathEnd? s₁).toList) s2 := by
  have h1 := h.idle hs
  obtain ⟨others, hb0⟩ := h.states g0 hg0
  have hb : g.Builds key p s₁.shared.suspended others := by
    rw [hs.suspended]
    exact hb0.relabels hrel
  obtain ⟨q, hq, hcode⟩ := h1.program
  obtain ⟨gs, s2', gs', hleads, hgs', hpushes⟩ := expand_run hexpand
  obtain ⟨hstates, hrecords⟩ : Advances key p g s₁ gs s2' := by
    rcases hleads with ⟨r, hr, rfl⟩ | ⟨hr, rfl⟩
    · exact execute_advances hb hq hg hr
    · obtain ⟨hnone, hholds⟩ := execute_error_holds hb (not_isFinal_unsupported "") hr
      exact ⟨forall_mem_nil _, hnone ▸ .of_holds hholds⟩
  refine ⟨?_, ?_, ?_, ?_⟩
  · cases hdata : (g.pathEnd? s₁).bind (·.code) with
    | none =>
      rw [runtimeCode_kept ends hdata]
      exact ⟨q, hpushes.programs (hrecords.kept hdata hq), hcode⟩
    | some items =>
      rw [runtimeCode_deployed ends hdata]
      obtain ⟨q', hq', hcode'⟩ := hrecords.deployed items hdata
      exact ⟨q', hpushes.programs hq', hcode'⟩
  · rw [hpushes.openWorlds, hrecords.openWorlds, h1.openWorlds, filterMap_append]
  · rw [hpushes.openWorlds, hrecords.openWorlds]
    refine forall_mem_append.2 ⟨h1.owned, fun w hw => hrecords.owned w ?_⟩
    simpa [Option.bind_eq_some_iff] using hw
  · intro g' hg'
    rw [hpushes.suspended]
    rcases hpushes.states g' hg' with hold | hnew
    · rw [hrecords.work] at hold
      obtain ⟨others', hb'⟩ := h1.states g' hold
      exact ⟨others', hb'.later hleads.evolves.suspended⟩
    · obtain ⟨g1, hg1, hrel1⟩ := hgs'.states g' hnew
      obtain ⟨others', hb'⟩ := hstates g1 hg1
      exact ⟨others', hb'.relabels hrel1⟩

lemma shows (h : Constructs key p ends s) : ∀ w ∈ s.openWorlds, w.Shows key (runtimeCode ends) s := by
  intro w hw
  obtain ⟨a, ha, rfl⟩ := h.owned w hw
  obtain ⟨q, hq, hcode⟩ := h.program
  exact ⟨a, q, ha, hq, hcode⟩

end Constructs

/-! ## The whole creation -/

lemma begin_run {tx : Tx} {conditions : GState → Calc Constraints} {u : Unit}
    (h : begin plan tx w conditions s = .ok u s') : ∃ s₁ g, s.Grows s₁ ∧
      s' = { s₁ with work := s₁.work.push [g] } ∧ g.frames = [⟨tx, none⟩] ∧ g.world.accounts = w.accounts ∧
      ∀ x : BitVec 256, tx.callee.address.Equals x → g.env.active = some x.toNat := by
  obtain ⟨g, s₁, hg, h⟩ := of_bind_ok h
  obtain ⟨cs, s2, hcs, h⟩ := of_bind_ok h
  obtain ⟨n, s3, hn, h⟩ := of_bind_ok h
  obtain ⟨_, s4, hvisit, h⟩ := of_bind_ok h
  obtain ⟨hs1, hbegins⟩ := (tx.start_yields w s).ok hg
  have hs2 := hs1.trans (Calm.ok hcs)
  have hs3 := hs2.trans (Calm.ok hn)
  have hs4 := hs3.trans (Calm.ok hvisit)
  cases h
  exact ⟨s4, _, hs4, rfl, rfl, hbegins.accounts, hbegins.active⟩

instance (tx : Tx) : Calm (bySomeActor tx) := by
  unfold bySomeActor
  infer_instance

lemma newProgram_run {i : ProgramId} (h : Engine.newProgram code s = .ok i s') : ∃ t, s' = { s with code := t } := by
  obtain ⟨known, s₁, hknown, h⟩ := of_bind_ok h
  cases hknown
  obtain ⟨r, s2, hr, h⟩ := of_bind_ok h
  cases hmake : Program.make s.code.selectors code with
  | error f =>
    rw [hmake] at hr
    cases hr
  | ok made =>
    rw [hmake] at hr
    cases hr
    cases h
    exact ⟨_, rfl⟩

/-- At first the account has no code, and its constructor is the only state that waits. -/
lemma beginUnknown_constructs (hidle : s.work.states = [])
    (h : beginUnknown plan w code name creator s = .ok address s') :
    ∃ (x : BitVec 256) (p : ProgramId), address.Equals x ∧ Constructs (some x.toNat) p [] s' := by
  obtain ⟨_, s0, hreset, h⟩ := of_bind_ok h
  cases hreset
  obtain ⟨id, s₁, hid, h⟩ := of_bind_ok h
  obtain ⟨price, s2, hprice, h⟩ := of_bind_ok h
  obtain ⟨program, s3, hprogram, h⟩ := of_bind_ok h
  obtain ⟨value, s4, hvalue, h⟩ := of_bind_ok h
  obtain ⟨⟨tx, w'⟩, s5, htx, h⟩ := of_bind_ok h
  obtain ⟨someActor, s6, hactor, h⟩ := of_bind_ok h
  obtain ⟨_, s7, hbegin, hpure⟩ := of_bind_ok h
  cases hpure
  have hs1 := Calm.ok hid
  have hs2 := hs1.trans (Calm.ok hprice)
  obtain ⟨table, rfl⟩ := newProgram_run hprogram
  have hs4 := (Calm.ok hvalue)
  obtain ⟨hmakes, hadds⟩ := Tx.creation_run htx
  obtain ⟨s8, g, hs8, rfl, hframes, haccounts, hactive⟩ := begin_run hbegin
  have hs8 := (Calm.ok hactor).trans hs8
  have hgrows := (hs4.trans hadds.grows).trans hs8
  obtain ⟨x, hx, hplaced⟩ := hmakes.placed
  have hnone := hgrows.openWorlds.trans hs2.openWorlds
  refine ⟨x, tx.callee.code, hx, ⟨_, (hadds.grow hs8).program, rfl, Instr.ofCode_empty⟩, hnone, ?_, ?_⟩
  · intro w hw
    rw [hnone] at hw
    cases hw
  intro g' hg'
  obtain ⟨hqueue, hpending⟩ := append_eq_nil_iff.1 hidle
  have hg' : g' = g := by
    have hwork := hgrows.work.trans hs2.work
    simpa [Work.states, Work.push, hwork, hqueue, hpending] using hg'
  have hown : g.world.find? (some x.toNat) = some tx.callee := by
    rw [World.find?, haccounts]
    exact hplaced
  rw [hg']
  exact ⟨[], .path hframes hmakes.kind (hactive x hx) ⟨⟨_, hown, rfl⟩, forall_mem_nil _⟩⟩

def pathEnds (run : List (GState × Session)) : List PathEnd := run.filterMap fun t => t.1.pathEnd? t.2

lemma pathEnds_concat (run : List (GState × Session)) (g : GState) (s : Session) :
    pathEnds (run ++ [(g, s)]) = pathEnds run ++ (g.pathEnd? s).toList := by
  rw [pathEnds, filterMap_append, filterMap_cons]
  cases g.pathEnd? s <;> rfl

/-- All paths are worked on, and the account at the key is never replaced. -/
lemma run_constructs (hplan : plan.IsPlain) (hs : Constructs key p [] s) {finals : List GState}
    (h : run {} plan true s = .ok finals s') (hkept : ∀ t ∈ history plan true patience s, t.1.remakes key t.2 = false) :
    Constructs key p (pathEnds (history plan true patience s)) s' := by
  let I (run : List (GState × Session)) (s : Session) : Prop :=
    (∀ t ∈ run, t.1.remakes key t.2 = false) → Constructs key p (pathEnds run) s
  have hstart : I [] s := fun _ => hs
  have hidle {run s s₁} (hI : I run s) (hsheds : s.Sheds (· ∈ s.work.states) s₁) : I run s₁ :=
    fun hrun => (hI hrun).idle hsheds
  have hturn {run s s₁ g0 g final s2} (hI : I run s) (hsheds : s.Sheds (· ∈ s.work.states) s₁)
      (hg0 : g0 ∈ s.work.states) (hrel : g0.Relabels g) (hexpand : expand {} plan g s₁ = .ok final s2) :
      I (run ++ [(g, s₁)]) s2 := by
    intro hrun
    obtain ⟨hrun, hg⟩ := forall_mem_append.1 hrun
    rw [pathEnds_concat]
    exact (hI hrun).turn hsheds hg0 hrel (hg _ mem_cons_self) hexpand
  exact work_induction (I := I) hplan hidle hturn hstart h hkept

/-- A contract is created, from the first state of its constructor to the last. -/
lemma createUnknown_constructs (hplan : plan.IsPlain) (hidle : s.work.states = [])
    (h : createUnknown {} plan w code name creator s = .ok address s') :
    ∃ (s₁ : Session) (x : BitVec 256) (p : ProgramId), beginUnknown plan w code name creator s = .ok address s₁ ∧
      address.Equals x ∧ ((∀ t ∈ history plan true patience s₁, t.1.remakes (some x.toNat) t.2 = false) →
        Constructs (some x.toNat) p (pathEnds (history plan true patience s₁)) s') := by
  obtain ⟨address', s₁, hbegin, h⟩ := of_bind_ok h
  obtain ⟨finals, s2, hrun, hpure⟩ := of_bind_ok h
  cases hpure
  obtain ⟨x, p, hx, hstart⟩ := beginUnknown_constructs hidle hbegin
  exact ⟨s₁, x, p, hbegin, hx, run_constructs hplan hstart hrun⟩

/-- A contract is created. As long as its account is not replaced on the way, the worlds that are left open are those in
which a path has ended, in that order, and in all of them the account has the code that the last path with data has
returned. So a path finds its own code only if that path returned the same. -/
theorem last_return_decides {plan : Plan} {w : World} {code : Bytecode} {name : String} {creator address : Expr}
    {s s' : Session} (hplan : plan.IsPlain) (hidle : s.work.states = [])
    (hcreate : createUnknown {} plan w code name creator s = .ok address s') :
    ∃ (s₁ : Session) (x : BitVec 256), beginUnknown plan w code name creator s = .ok address s₁ ∧ address.Equals x ∧
      let key := some x.toNat
      let run := history plan true patience s₁
      (∀ t ∈ run, t.1.remakes key t.2 = false) →
        s'.openWorlds = (pathEnds run).filterMap (·.world) ∧
        (∀ w ∈ s'.openWorlds, w.Shows key (runtimeCode (pathEnds run)) s') ∧
        ∀ e ∈ pathEnds run, ∀ items w, e.code = some items → e.world = some w →
          (w.Shows key (.cells items) s' ↔ runtimeCode (pathEnds run) = .cells items) := by
  obtain ⟨s₁, x, p, hbegin, hx, hconstructs⟩ := createUnknown_constructs hplan hidle hcreate
  refine ⟨s₁, x, hbegin, hx, ?_⟩
  intro key run hkept
  have hend := hconstructs hkept
  refine ⟨hend.openWorlds, hend.shows, fun e he items w _ hw => ?_⟩
  have hopen : w ∈ s'.openWorlds := by
    rw [hend.openWorlds]
    exact mem_filterMap.2 ⟨e, he, hw⟩
  have hshows := hend.shows w hopen
  exact ⟨fun hown => hshows.unique hown, fun hlast => hlast ▸ hshows⟩

/-- A constructor that branches on the value that is sent, and returns one byte on either side. -/
def forked : Bytecode := .hex "34600e57605b60005360016000f35b600060005360016000f3"

def inBreadth : Plan := { search := .breadthFirst }

lemma inBreadth_isPlain : inBreadth.IsPlain := ⟨rfl, fun _ => .pure _⟩

def unpruned : Session := { options := { pruning := false } }

/-- The creation of the forked contract: the side without a jump ends first. -/
structure Forks (address : Expr) (s₁ s' : Session) (first last : List Item) (w w' : World) : Prop where
  created : createUnknown {} inBreadth {} forked "" (.literal 7) unpruned = .ok address s'
  begun : beginUnknown inBreadth {} forked "" (.literal 7) unpruned = .ok address s₁
  kept : ∀ t ∈ history inBreadth true patience s₁, t.1.remakes address.term.value? t.2 = false
  ends : pathEnds (history inBreadth true patience s₁) = [⟨some first, some w⟩, ⟨some last, some w'⟩]
  first : Bytecode.plain? first = some [0x5b]
  last : Bytecode.plain? last = some [0]

instance {ends : List PathEnd} : Decidable (∃ first last w w', ends = [⟨some first, some w⟩, ⟨some last, some w'⟩] ∧
    Bytecode.plain? first = some [0x5b] ∧ Bytecode.plain? last = some [0]) :=
  match ends with
  | [⟨some first, some w⟩, ⟨some last, some w'⟩] =>
    decidable_of_iff (Bytecode.plain? first = some [0x5b] ∧ Bytecode.plain? last = some [0]) (by simp)
  | [] | [_] | _ :: _ :: _ :: _ | [⟨none, _⟩, _] | [⟨_, none⟩, _] | [_, ⟨none, _⟩] | [_, ⟨_, none⟩] => isFalse (by simp)

lemma exists_forks : ∃ address s₁ s' first last w w', Forks address s₁ s' first last w w' := by
  obtain ⟨address, s', hcreate, -⟩ : ∃ address s', createUnknown {} inBreadth {} forked "" (.literal 7) unpruned =
      .ok address s' ∧ True := by decide +kernel
  obtain ⟨s₁, -, -, hbegin, -⟩ := createUnknown_constructs inBreadth_isPlain rfl hcreate
  obtain ⟨_, _, hbegin', hkept, first, last, w, w', hends, hfirst, hlast⟩ : ∃ address s₁,
      beginUnknown inBreadth {} forked "" (.literal 7) unpruned = .ok address s₁ ∧
      (∀ t ∈ history inBreadth true patience s₁, t.1.remakes address.term.value? t.2 = false) ∧
      ∃ first last w w', pathEnds (history inBreadth true patience s₁) = [⟨some first, some w⟩, ⟨some last, some w'⟩] ∧
        Bytecode.plain? first = some [0x5b] ∧ Bytecode.plain? last = some [0] := by decide +kernel
  cases hbegin.symm.trans hbegin'
  exact ⟨address, s₁, s', first, last, w, w', hcreate, hbegin, hkept, hends, hfirst, hlast⟩

/-- Both sides are left open, with the code of the side that ended last. -/
theorem last_return_decides_forked : ∃ address s₁ s' first last w w', Forks address s₁ s' first last w w' ∧
    s'.openWorlds = [w, w'] ∧ ∀ w ∈ s'.openWorlds, w.Shows address.term.value? (.cells last) s' := by
  obtain ⟨address, s₁, s', first, last, w, w', h⟩ := exists_forks
  obtain ⟨_, x, hbegin, hx, hdecides⟩ := last_return_decides inBreadth_isPlain rfl h.created
  cases h.begun.symm.trans hbegin
  obtain ⟨hopen, hshows, -⟩ := hdecides (hx.value? ▸ h.kept)
  rw [h.ends] at hopen hshows
  refine ⟨address, s₁, s', first, last, w, w', h, hopen, ?_⟩
  rw [hx.value?]
  exact hshows

/-- The side that ended first is left open, and has lost its code. -/
theorem first_return_lost : ∃ address s₁ s' first last w w', Forks address s₁ s' first last w w' ∧
    w ∈ s'.openWorlds ∧ ¬ w.Shows address.term.value? (.cells first) s' := by
  obtain ⟨address, s₁, s', first, last, w, w', h⟩ := exists_forks
  obtain ⟨_, x, p, hbegin, hx, hconstructs⟩ := createUnknown_constructs inBreadth_isPlain rfl h.created
  cases h.begun.symm.trans hbegin
  have hend := hconstructs (hx.value? ▸ h.kept)
  rw [h.ends] at hend
  have hopen : w ∈ s'.openWorlds := by
    rw [hend.openWorlds]
    exact mem_cons_self
  refine ⟨address, s₁, s', first, last, w, w', h, hopen, fun hshows => ?_⟩
  rw [hx.value?] at hshows
  have hsame : Bytecode.cells first = .cells last := hshows.unique (hend.shows w hopen)
  cases hsame
  cases h.first.symm.trans h.last

end Explore
end EvmAudit
