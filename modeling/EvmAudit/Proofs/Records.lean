import EvmAudit.Explore.Plugin
import EvmAudit.Proofs.Calls

/-!
# Records that states share

Notes name records, lists of suspicions and, through the records, sets of written keys by number. A copy of a state has a
record of its own, but goes on with the same sets and the same suspicions, and states that have no record yet go on with
the same one if their worlds have one.
-/

namespace EvmAudit

open List Option GState
open Engine (bind_ok of_bind_ok setDependency)

variable {g x y : GState} {s s' s'' : Session} {ps rs ws : List Nat} {r : Nat} {d : Dependency} {ns ns' : List Note}

/-! ## What notes name -/

def Session.record (s : Session) (r : Nat) : Dependency := s.shared.dependencies.getD r default

def Session.writeSet (s : Session) (n : Nat) : KeySet := s.shared.writes.getD n []

def Session.suspicionsOf (s : Session) (p : Nat) : List Suspicion := s.shared.suspicions.getD p []

namespace GState

def own? (g : GState) : Option Nat := g.notes.findSome? Note.record?

/-- The record that a state goes on with: its own, or else the latest one that its world has. -/
def record? (g : GState) : Option Nat := g.own?.or g.world.records.getLast?

def pool? (g : GState) : Option Nat := g.notes.findSome? Note.pool?

def target (g : GState) (s : Session) : Nat := g.record?.getD s.shared.dependencies.size

def opened (g : GState) (s : Session) : Session :=
  match g.record? with
  | some _ => s
  | none => { s with shared := { s.shared with dependencies := s.shared.dependencies.push {} } }

section

variable (g) (s)

lemma notes_annotate (n : Note) : (g.annotate n).notes = g.notes ++ [n] := by
  unfold annotate
  split <;> rfl

lemma dependency_run : ∃ g', g'.machine = g.machine ∧ g'.record? = some (g.target s) ∧
    g'.pool? = g.pool? ∧ g.dependency s = .ok (g.target s, g') (g.opened s) := by
  have hnote {w r} (h : g.own? = none) : ({ g with world := w }.annotate (.dependency r)).record? = some r ∧
      ({ g with world := w }.annotate (.dependency r)).pool? = g.pool? := by
    unfold own? at h
    simp [record?, own?, pool?, notes_annotate, h, Note.record?, Note.pool?]
  unfold dependency target opened
  cases h : g.own? with
  | some r =>
    have hrecord : g.record? = some r := by rw [record?, h, some_or]
    have hdep : g.notes.findSome? Note.record? = some r := h
    rw [hrecord, hdep]
    exact ⟨g, rfl, hrecord, rfl, rfl⟩
  | none =>
    have hrecord : g.record? = g.world.records.getLast? := by rw [record?, h, none_or]
    have hdep : g.notes.findSome? Note.record? = none := h
    rw [hrecord, hdep]
    dsimp only
    cases g.world.records.getLast? with
    | _ =>
      refine ⟨_, ?_, (hnote h).1, (hnote h).2, rfl⟩
      rfl

@[simp] lemma opened_pruner : (g.opened s).pruner = s.pruner := by
  unfold opened
  split <;> rfl

@[simp] lemma opened_writes : (g.opened s).shared.writes = s.shared.writes := by
  unfold opened
  split <;> rfl

lemma written_opened :
    ((g.opened s).record (g.target s)).written = (s.record (g.target s)).written := by
  unfold opened target
  cases g.record? with
  | some r => rfl
  | none =>
    dsimp [Session.record]
    rw [Array.getD_eq_getD_getElem?, Array.getElem?_push_size, Array.getD_eq_getD_getElem?,
      Array.getElem?_eq_none (Nat.le_refl _)]
    rfl

end

/-- The record that the state goes on with, if there is one, is there. -/
abbrev HasRecord (g : GState) (s : Session) : Prop := ∀ {r}, g.record? = some r → r < s.shared.dependencies.size

lemma target_lt (h : g.HasRecord s) : g.target s < (g.opened s).shared.dependencies.size := by
  unfold opened target
  cases hr : g.record? with
  | some r => exact h hr
  | none => simp

def block (g : GState) (s : Session) : Int := ((g.due s).getD ⟨g.machine.pc.toNat, .stop, none⟩).address

end GState

lemma Engine.dependency_eq (r : Nat) (s : Session) : dependency r s = .ok (s.record r) s := rfl

instance Engine.writes_calm (n : Nat) : (writes n).Calm := .next fun _ => .pure _

instance Engine.Calm.anyM {α : Type} {f : α → Engine Bool} {xs : List α} [hf : ∀ a, (f a).Calm] : (xs.anyM f).Calm := by
  induction xs with
  | nil => exact .pure _
  | cons a xs ih => exact .next fun b => by cases b <;> infer_instance

/-! ## What a recording changes -/

def KeepsAt {α : Type} (ps : List Nat) (xs xs' : Array α) : Prop := ∀ i ∈ ps, ∀ {x}, xs[i]? = some x → xs'[i]? = some x

namespace KeepsAt

variable {α : Type} {xs xs' xs'' : Array α} {i : Nat}

lemma refl (xs : Array α) : KeepsAt ps xs xs := fun _ _ _ => id

lemma trans (h : KeepsAt ps xs xs') (h' : KeepsAt ps xs' xs'') : KeepsAt ps xs xs'' := fun i hi _ hx => h' i hi (h i hi hx)

lemma push (xs : Array α) (x : α) : KeepsAt ps xs (xs.push x) := by
  intro i _ y hy
  grind

lemma set (hi : i ∉ ps) (xs : Array α) (x : α) : KeepsAt ps xs (xs.setIfInBounds i x) := by
  intro j hj y hy
  rwa [Array.getElem?_setIfInBounds_ne (ne_of_mem_of_not_mem hj hi).symm]

lemma lt (h : KeepsAt ps xs xs') (hi : i ∈ ps) (hlt : i < xs.size) : i < xs'.size :=
  (getElem?_eq_some_iff.1 (h i hi (Array.getElem?_eq_getElem hlt))).1

lemma getD {d : α} (h : KeepsAt ps xs xs') (hi : i ∈ ps) (hlt : i < xs.size) : xs'.getD i d = xs.getD i d := by
  rw [Array.getD_eq_getD_getElem?, Array.getD_eq_getD_getElem?, h i hi (Array.getElem?_eq_getElem hlt),
    Array.getElem?_eq_getElem hlt]

end KeepsAt

/-- These records, sets and lists of suspicions stay as they are. -/
structure Session.Spares (rs ws ps : List Nat) (s s' : Session) : Prop where
  records : KeepsAt rs s.shared.dependencies s'.shared.dependencies
  writes : KeepsAt ws s.shared.writes s'.shared.writes
  suspicions : KeepsAt ps s.shared.suspicions s'.shared.suspicions

namespace Session.Spares

variable {α : Type} {c : Engine α}

lemma trans (h : s.Spares rs ws ps s') (h' : s'.Spares rs ws ps s'') : s.Spares rs ws ps s'' :=
  ⟨h.records.trans h'.records, h.writes.trans h'.writes, h.suspicions.trans h'.suspicions⟩

lemma of_grows (h : s.Grows s') : s.Spares rs ws ps s' :=
  ⟨fun _ _ _ => h.dependencies, h.writes ▸ .refl _, h.suspicions ▸ .refl _⟩

instance : Session.Course (Spares rs ws ps) := ⟨fun h _ => .of_grows h, .trans⟩

lemma of_calm [hc : Engine.Calm c] : c.Ends (Spares rs ws ps) s fun _ s' => s.Grows s' :=
  ⟨.of_grows (hc.grows s).after, fun _ _ => Engine.Calm.ok⟩

lemma opened (g : GState) (s : Session) : s.Spares rs ws ps (g.opened s) := by
  unfold GState.opened
  split
  · exact .of_grows (.refl s)
  · exact ⟨.push _ _, .refl _, .refl _⟩

lemma setDependency (hr : r ∉ rs) (d : Dependency) : s.Spares rs ws ps ((setDependency r d).after s) :=
  ⟨.set hr _ _, .refl _, .refl _⟩

lemma record_set (hr : r < s.shared.dependencies.size) (d : Dependency) :
    ((Engine.setDependency r d).after s).record r = d := by
  show (s.shared.dependencies.setIfInBounds r d).getD r default = d
  rw [Array.getD_eq_getD_getElem?, Array.getElem?_setIfInBounds_self_of_lt hr]
  rfl

end Session.Spares

open Session (Spares)

namespace Pruner

instance (a b : Item) : (maySame a b).Calm := by
  have hsolve (q : Query) : (Detect.found? q.solve).Calm := by
    refine .next fun r => ?_
    split <;> infer_instance
  unfold maySame
  split <;> infer_instance

instance (p : Pruner) (address : Int) (d : Dependency) : (p.wants address d).Calm := by
  unfold wants Dependency.writtenIn
  split
  · infer_instance
  split
  · exact .pure _
  · split <;> infer_instance

/-- What the record of a state becomes when a block is entered. -/
def extended (g : GState) (s : Session) : Dependency :=
  let d := (g.opened s).record (g.target s)
  { d with path := d.path ++ [(g.block s)] }

lemma enter_run (g : GState) (s : Session) : ∃ g', g'.record? = some (g.target s) ∧ g'.pool? = g.pool? ∧
    enter g s = (if s.pruner.round < 2 then return g' else
      if (extended g s).blocks.contains (g.block s) then do
        if ← s.pruner.wants (g.block s) (extended g s) then return g'
        throw .skipState
      else do
        setDependency (g.target s) { extended g s with blocks := (extended g s).blocks ++ [(g.block s)] }
        return g' : Engine GState) ((setDependency (g.target s) (extended g s)).after (g.opened s)) := by
  obtain ⟨g', -, hrecord, hpool, hrun⟩ := g.dependency_run s
  refine ⟨g', hrecord, hpool, ?_⟩
  unfold enter
  rw [bind_ok (g.instr_eq s), bind_ok hrun, ← g.opened_pruner s]
  rfl

end Pruner

/-! ## One recording after another -/

/-- The notes of a state name things that are there. -/
structure GState.Known (g : GState) (s : Session) : Prop where
  record : ∀ {r : Nat}, g.record? = some r → r < s.shared.dependencies.size ∧
    ∀ p ∈ (s.record r).written, p.2 < s.shared.writes.size
  pool : ∀ {p : Nat}, g.pool? = some p → p < s.shared.suspicions.size

/-- What the notes of a state tell: its record, the keys that were written in each round, and its suspicions. -/
def GState.view (g : GState) (s : Session) : Option (Dependency × List KeySet) × Option (List Suspicion) :=
  (g.record?.map fun r => (s.record r, (s.record r).written.map fun p => s.writeSet p.2), g.pool?.map s.suspicionsOf)

def GState.writeSets (g : GState) (s : Session) : List Nat := g.record?.toList.flatMap fun r => (s.record r).written.map Prod.snd

inductive Recording
  | block
  | write
  | suspicions (xs : List Suspicion)

lemma Session.Grows.records_le (h : s.Grows s') : s.shared.dependencies.size ≤ s'.shared.dependencies.size := by
  refine Nat.le_of_not_lt fun hlt => ?_
  exact absurd (getElem?_eq_some_iff.1 (h.dependencies (Array.getElem?_eq_getElem hlt))).1 (Nat.lt_irrefl _)

lemma Session.Grows.record (h : s.Grows s') (hr : r < s.shared.dependencies.size) :
    s'.record r = s.record r := KeepsAt.getD (fun _ _ _ => h.dependencies) (mem_singleton_self r) hr

structure Session.Carries (r : Nat) (s s' : Session) : Prop where
  round : s'.pruner.round = s.pruner.round
  lt : r < s'.shared.dependencies.size
  written : (s'.record r).written = (s.record r).written

namespace Session.Carries

lemma trans (h : s.Carries r s') (h' : s'.Carries r s'') : s.Carries r s'' :=
  ⟨h'.round.trans h.round, h'.lt, h'.written.trans h.written⟩

lemma grows (h : s.Carries r s') (h' : s'.Grows s'') : s.Carries r s'' :=
  h.trans ⟨by rw [h'.pruner], Nat.lt_of_lt_of_le h.lt h'.records_le, by rw [h'.record h.lt]⟩

lemma set (h : s.Carries r s') (hd : d.written = (s.record r).written) :
    s.Carries r ((setDependency r d).after s') := by
  refine ⟨h.round, ?_, ?_⟩
  · show r < (Array.setIfInBounds _ _ _).size
    rw [Array.size_setIfInBounds]
    exact h.lt
  · rw [Spares.record_set h.lt, hd]

lemma opened (hg : g.HasRecord s) : s.Carries (g.target s) (g.opened s) :=
  ⟨by rw [g.opened_pruner], target_lt hg, g.written_opened s⟩

end Session.Carries

/-- What a recording does with the names that the notes of a state have. -/
structure GState.Recorded (g : GState) (s : Session) (g' : GState) (s' : Session) : Prop where
  round : s'.pruner.round = s.pruner.round
  target : g'.target s' = g.target s
  lt : ∀ {r : Nat}, g'.record? = some r → r < s'.shared.dependencies.size
  written : ∀ {n : Nat}, (s'.record (g.target s)).written.lookup s.pruner.round = some n →
    (s.record (g.target s)).written.lookup s.pruner.round = some n ∨ s.shared.writes.size ≤ n
  pool : ∀ {p : Nat}, g'.pool? = some p → p = g.pool?.getD s.shared.suspicions.size

lemma Dependency.write_ends {round : Int} (hd : ∀ n, d.written.lookup round = some n → n ∉ ws) (key : Item) :
    (d.write round key).Ends (Spares rs ws ps) s fun d' s' => s'.pruner = s.pruner ∧
      s.shared.dependencies.size ≤ s'.shared.dependencies.size ∧
      ∀ n, d'.written.lookup round = some n → d.written.lookup round = some n ∨ s.shared.writes.size ≤ n := by
  unfold write
  cases hn : d.written.lookup round with
  | some n =>
    refine Spares.of_calm.bind fun ks s1 _ hs1 => Spares.of_calm.bind fun ks' s2 _ hs2 => ?_
    have hs := hs1.trans hs2
    exact .of_ok rfl ⟨.refl _, .set (hd n hn) _ _, .refl _⟩ ⟨hs.pruner, hs.records_le, fun m hm => .inl (hn ▸ hm)⟩
  | none =>
    refine Spares.of_calm.bind fun ks s1 _ hs1 => .of_ok rfl ⟨.refl _, .push _ _, .refl _⟩ ?_
    refine ⟨hs1.pruner, hs1.records_le, fun m hm => .inr ?_⟩
    rw [lookup_append, hn] at hm
    cases show some s1.shared.writes.size = some m by simpa using hm
    exact Nat.le_of_eq (congrArg Array.size hs1.writes.symm)

lemma GState.Known.writeSets_lt (hg : g.Known s) {n : Nat} (hn : n ∈ g.writeSets s) : n < s.shared.writes.size := by
  obtain ⟨r, hr, hn⟩ := mem_flatMap.1 hn
  obtain ⟨p, hp, rfl⟩ := mem_map.1 hn
  exact (hg.record (mem_toList.1 hr)).2 p hp

/-- What leaves alone what the notes of a state name changes nothing that they tell. -/
lemma GState.Known.spared (hg : g.Known s) (h : s.Spares g.record?.toList (g.writeSets s) g.pool?.toList s') :
    g.Known s' ∧ g.writeSets s' = g.writeSets s ∧ g.view s' = g.view s := by
  have hrecord {r} (hr : g.record? = some r) : s'.record r = s.record r :=
    h.records.getD (mem_toList.2 hr) (hg.record hr).1
  have hset {r} (hr : g.record? = some r) {p} (hp : p ∈ (s.record r).written) : p.2 ∈ g.writeSets s := by
    rw [writeSets, hr]
    simpa using ⟨p.1, hp⟩
  refine ⟨⟨fun hr => ⟨h.records.lt (mem_toList.2 hr) (hg.record hr).1, fun p hp => ?_⟩,
    fun hp => h.suspicions.lt (mem_toList.2 hp) (hg.pool hp)⟩, ?_, ?_⟩
  · rw [hrecord hr] at hp
    exact h.writes.lt (hset hr hp) ((hg.record hr).2 p hp)
  · unfold writeSets
    cases hr : g.record? with
    | some r => rw [toList_some, flatMap_singleton, flatMap_singleton, hrecord hr]
    | none => rfl
  · refine Prod.ext (map_congr fun r hr => ?_) (map_congr fun p hp => ?_)
    · rw [hrecord hr]
      exact congrArg _ (map_congr_left fun p hp => h.writes.getD (hset hr hp) ((hg.record hr).2 p hp))
    · exact h.suspicions.getD (mem_toList.2 hp) (hg.pool hp)

lemma GState.Known.grows (hg : g.Known s) (h : s.Grows s') : g.Known s' := (hg.spared (.of_grows h)).1

namespace Recording

def run : Recording → GState → Engine GState
  | .block, g => Pruner.enter g
  | .write, g => Pruner.noteWrite g
  | .suspicions xs, g => g.suspect xs

def runAll (ops : List Recording) (g : GState) : Engine GState := ops.foldlM (fun g op => op.run g) g

section

variable (hg : g.HasRecord s)
include hg

lemma block_ends (hr : g.target s ∉ rs) : (Pruner.enter g).Ends (Spares rs ws ps) s (g.Recorded s) := by
  obtain ⟨g1, hrecord, hpool, hrun⟩ := Pruner.enter_run g s
  have hend {s1} (hs1 : s.Carries (g.target s) s1) : g.Recorded s g1 s1 := by
    refine ⟨hs1.round, by rw [target, hrecord]; rfl, fun hr => ?_, fun hn => .inl (hs1.written ▸ hn),
      fun hp => by rw [← hpool, hp]; rfl⟩
    cases hrecord.symm.trans hr
    exact hs1.lt
  have hs1 := (Session.Carries.opened hg).set (d := Pruner.extended g s) (g.written_opened s)
  refine .of_run hrun ((Spares.opened g s).trans (.setDependency hr (Pruner.extended g s))) ?_
  split
  · exact .pure (hend hs1)
  split
  · refine Spares.of_calm.bind fun b s2 _ hs2 => ?_
    cases b with
    | true => exact .pure (hend (hs1.grows hs2))
    | false => exact .throw _
  · exact .of_ok rfl (.setDependency hr _) (hend (hs1.set (g.written_opened s)))

lemma write_ends (hr : g.target s ∉ rs)
    (hn : ∀ n, (s.record (g.target s)).written.lookup s.pruner.round = some n → n ∉ ws) :
    (Pruner.noteWrite g).Ends (Spares rs ws ps) s (g.Recorded s) := by
  obtain ⟨g1, -, hrecord, hpool, hrun⟩ := g.dependency_run s
  refine .of_run (bind_ok hrun) (.opened g s) ?_
  refine .of_run (bind_ok (Engine.dependency_eq _ _)) (.of_grows (.refl _)) ?_
  refine Spares.of_calm.bind fun slot s1 _ hgrows => ?_
  have hs1 := (Session.Carries.opened hg).grows hgrows
  have hround : ((g.opened s).record (g.target s)).written.lookup s1.pruner.round =
      (s.record (g.target s)).written.lookup s.pruner.round := by rw [hs1.round, g.written_opened]
  refine (Engine.Ends.modify ⟨.refl _, .refl _, .refl _⟩).bind ?_
  rintro _ _ - rfl
  refine .get ((Dependency.write_ends (hround ▸ hn) slot).bind ?_)
  rintro d s2 - ⟨hpruner, hsize, hwritten⟩
  have hlt := Nat.lt_of_lt_of_le hs1.lt hsize
  refine .of_ok rfl (.setDependency hr d) ⟨?_, by rw [target, hrecord]; rfl, fun hr => ?_, fun {n} hn => ?_,
    fun hp => by rw [← hpool, hp]; rfl⟩
  · exact (congrArg Pruner.round hpruner).trans hs1.round
  · cases hrecord.symm.trans hr
    rwa [Array.size_setIfInBounds]
  · change (((setDependency (g.target s) d).after s2).record (g.target s)).written.lookup s.pruner.round = some n at hn
    rw [Spares.record_set hlt, ← hs1.round] at hn
    rw [← hround, ← g.opened_writes s, ← hgrows.writes]
    exact hwritten n hn

lemma suspicions_ends (hp : g.pool?.getD s.shared.suspicions.size ∉ ps) (xs : List Suspicion) :
    (g.suspect xs).Ends (Spares rs ws ps) s (g.Recorded s) := by
  have hend {g1 s1 p} (hrun : g.suspicionList s = .ok (p, g1) s1)
      (hs : s.Spares rs ws ps s1) (hrecord : g1.record? = g.record?) (hs1 : s1.pruner = s.pruner)
      (hrecords : s1.shared.dependencies = s.shared.dependencies) (hpool : g1.pool? = some p)
      (heq : g.pool?.getD s.shared.suspicions.size = p) :
      (g.suspect xs).Ends (Spares rs ws ps) s (g.Recorded s) := by
    rw [heq] at hp
    refine .of_run (bind_ok hrun) hs (.of_ok rfl ⟨.refl _, .refl _, .set hp _ _⟩ ?_)
    refine ⟨congrArg _ hs1, ?_, fun hr => ?_, fun hn => .inl ?_, fun hp => ?_⟩
    · show g1.record?.getD s1.shared.dependencies.size = _
      rw [hrecord, hrecords]
      rfl
    · show _ < s1.shared.dependencies.size
      rw [hrecords]
      exact hg (hrecord ▸ hr)
    · change lookup _ (Dependency.written (s1.shared.dependencies.getD _ _)) = _ at hn
      rwa [hrecords] at hn
    · rw [heq]
      exact (some.inj (hpool.symm.trans hp)).symm
  cases hpool : g.pool? with
  | some p =>
    have hlist : g.suspicionList s = .ok (p, g) s := by
      rw [suspicionList, show g.notes.findSome? Note.pool? = some p from hpool]
      rfl
    exact hend hlist (.of_grows (.refl s)) rfl rfl rfl hpool (by rw [hpool]; rfl)
  | none =>
    have hnone : g.notes.findSome? Note.pool? = none := hpool
    have hlist : g.suspicionList s = .ok (s.shared.suspicions.size, g.annotate (.potential s.shared.suspicions.size))
        ((Engine.newSuspicions []).after s) := by
      rw [suspicionList, hnone]
      rfl
    refine hend hlist ⟨.refl _, .refl _, .push _ _⟩ ?_ rfl rfl ?_ (by rw [hpool]; rfl)
    · rw [record?, own?, g.notes_annotate, findSome?_append, record?, own?]
      cases g.notes.findSome? Note.record? <;> rfl
    · rw [pool?, g.notes_annotate, findSome?_append, hnone]
      rfl

end

/-- What is recorded on one state is not among what the notes of the other name. -/
def Apart (x y : GState) (s : Session) : Recording → Prop
  | .block => y.record? ≠ some (x.target s)
  | .write => y.record? ≠ some (x.target s) ∧
      ∀ n, (s.record (x.target s)).written.lookup s.pruner.round = some n → n ∉ y.writeSets s
  | .suspicions _ => ∀ {p}, x.pool? = some p → y.pool? ≠ some p

variable {x' : GState} {op op' : Recording} {ops : List Recording}

lemma pool_ne (hy : y.Known s) (h : ∀ {p}, x.pool? = some p → y.pool? ≠ some p) :
    y.pool? ≠ some (x.pool?.getD s.shared.suspicions.size) := by
  cases hx : x.pool? with
  | some p => exact h hx
  | none => exact fun hp => absurd (hy.pool hp) (Nat.lt_irrefl _)

lemma run_ends (hx : x.HasRecord s) (hy : y.Known s) (h : op.Apart x y s) :
    (op.run x).Ends (Spares y.record?.toList (y.writeSets s) y.pool?.toList) s (x.Recorded s) := by
  cases op with
  | block => exact block_ends hx (mt mem_toList.1 h)
  | write => exact write_ends hx (mt mem_toList.1 h.1) h.2
  | suspicions xs => exact suspicions_ends hx (mt mem_toList.1 (pool_ne hy h)) xs

lemma Apart.next (hy : y.Known s) (hsets : y.writeSets s' = y.writeSets s) (h : op.Apart x y s)
    (hx : x.Recorded s x' s') : op.Apart x' y s' := by
  cases op with
  | block =>
    show _ ≠ _
    rw [hx.target]
    exact h
  | write =>
    refine ⟨by rw [hx.target]; exact h.1, fun n hn => ?_⟩
    rw [hx.target, hx.round] at hn
    rw [hsets]
    rcases hx.written hn with hold | hnew
    · exact h.2 n hold
    · exact fun hmem => absurd (hy.writeSets_lt hmem) (Nat.not_lt.2 hnew)
  | suspicions xs => exact fun hp => hx.pool hp ▸ pool_ne hy h

lemma runAll_view (hx : x.HasRecord s) (hy : y.Known s) (h : ∀ op ∈ ops, op.Apart x y s) :
    y.view ((runAll ops x).after s) = y.view s := by
  induction ops generalizing x s with
  | nil => rfl
  | cons op ops ih =>
    have hends := run_ends hx hy (h op mem_cons_self)
    refine Engine.after_bind (R := fun s s' => y.view s' = y.view s) (fun h h' => h'.trans h) (hy.spared hends.1).2.2 ?_
    intro x' s' hrun
    obtain ⟨hspares, hrec⟩ := hends.ok hrun
    obtain ⟨hy', hsets, -⟩ := hy.spared hspares
    exact ih hrec.lt hy' fun op' hop' => (h op' (mem_cons_of_mem _ hop')).next hy hsets hrec

end Recording

/-! ## What copies share -/

/-- What does not tell records apart is found in copies of notes as well. -/
lemma Note.findSome?_copyOf {β : Type} {f : Note → Option β} (hf : ∀ r r', f (.dependency r') = f (.dependency r))
    (h : Forall₂ CopyOf ns ns') : ns'.findSome? f = ns.findSome? f := by
  induction h with
  | nil => rfl
  | cons hn _ ih =>
    rw [findSome?_cons, findSome?_cons, ih]
    obtain rfl | ⟨r, r', rfl, rfl⟩ := hn
    · rfl
    · rw [hf r r']

/-- The first record that copied notes name is a new one, and says the same. -/
lemma Note.mapM_copy_record (h : ns.mapM copy s = .ok ns' s') (hr : ns.findSome? record? = some r) :
    ∃ r', ns'.findSome? record? = some r' ∧
      s.shared.dependencies.size ≤ r' ∧ s'.shared.dependencies[r']? = some (s.record r) := by
  induction ns generalizing ns' with
  | nil => cases hr
  | cons n ns ih =>
    rw [mapM_cons] at h
    obtain ⟨n', s₁, hn, h⟩ := of_bind_ok h
    obtain ⟨ms, s₂, hms, h⟩ := of_bind_ok h
    cases h
    cases n with
    | dependency r0 =>
      cases hn
      cases hr
      have hgrows := ((Engine.Does.mapM fun n _ s' _ => n.copy_does).yields.ok hms).1
      exact ⟨_, rfl, Nat.le_refl _, hgrows.dependencies Array.getElem?_push_size⟩
    | _ =>
      cases hn
      obtain ⟨r', hr', hheld⟩ := ih hms hr
      exact ⟨r', hr', hheld⟩

namespace GState

/-- A copy of a state names the same suspicions, and a record of its own if the state has one. -/
structure CopyIn (g : GState) (s : Session) (a : GState) (s' : Session) : Prop where
  grows : s.Grows s'
  pool : a.pool? = g.pool?
  shared : g.own? = none → a.record? = g.record?
  own : ∀ {r : Nat}, g.own? = some r → ∃ r', a.record? = some r' ∧ s.shared.dependencies.size ≤ r' ∧
    r' < s'.shared.dependencies.size ∧ s'.record r' = s.record r

variable {a b : GState} {deep deep' : Bool} {s₁ s₂ : Session}

lemma copy_own (hr : g.own? = some r) (hlt : r < s.shared.dependencies.size) (h : g.copy deep s = .ok a s') :
    ∃ r', a.own? = some r' ∧ s.shared.dependencies.size ≤ r' ∧ s'.shared.dependencies[r']? = some (s.record r) := by
  obtain ⟨hgoes, -, -, -, hnotes⟩ := copy_run h
  obtain ⟨r', hr', hle, hheld⟩ := Note.mapM_copy_record hnotes hr
  rw [(hgoes Session.Grows).record hlt] at hheld
  exact ⟨r', hr', Nat.le_trans (hgoes Session.Grows).records_le hle, hheld⟩

lemma copy_in (hg : g.Known s) (h : g.copy deep s = .ok a s') : g.CopyIn s a s' := by
  obtain ⟨hgrows, hcopy, -⟩ := (g.copy_yields deep s).ok h
  have hworld : a.world.records = g.world.records := by
    obtain ⟨w, hw, hput⟩ := hcopy.world
    have hnotes : a.world.notes = w.notes := by
      rcases hput with heq | ⟨-, key, b, -, heq⟩ <;> rw [heq]
      rfl
    unfold World.records
    rw [hnotes, Note.findSome?_copyOf (fun _ _ => rfl) hw.notes]
  refine ⟨hgrows, Note.findSome?_copyOf (fun _ _ => rfl) hcopy.notes, fun hnone => ?_, fun {r} hr => ?_⟩
  · have hown : a.own? = none := by
      have hfound := Note.findSome?_copyOf (f := .map (fun _ => ()) ∘ Note.record?) (fun _ _ => rfl) hcopy.notes
      rw [← map_findSome?, ← map_findSome?] at hfound
      exact map_eq_none_iff.1 (hfound.trans (map_eq_none_iff.2 hnone))
    unfold record?
    rw [hown, hnone, hworld]
  · have hrecord : g.record? = some r := by rw [record?, hr, some_or]
    obtain ⟨r', hr', hle, hheld⟩ := copy_own hr (hg.record hrecord).1 h
    refine ⟨r', by rw [record?, hr', some_or], hle, (getElem?_eq_some_iff.1 hheld).1, ?_⟩
    rw [Session.record, Array.getD_eq_getD_getElem?, hheld, getD_some]

lemma CopyIn.known (hg : g.Known s) (h : g.CopyIn s a s') : a.Known s' := by
  refine ⟨fun {r} hr => ?_, fun hp => (hg.grows h.grows).pool (h.pool ▸ hp)⟩
  cases hown : g.own? with
  | none => exact (hg.grows h.grows).record (h.shared hown ▸ hr)
  | some r0 =>
    obtain ⟨r', hr', -, hlt, hheld⟩ := h.own hown
    cases hr'.symm.trans hr
    refine ⟨hlt, fun p hp => ?_⟩
    rw [h.grows.writes]
    exact (hg.record (by rw [record?, hown, some_or])).2 p (hheld ▸ hp)

/-- Two states that were made from one: they name the same suspicions, and either one record, or two that are alike. -/
structure Siblings (g : GState) (s : Session) (x y : GState) (s' : Session) : Prop where
  known : x.Known s' ∧ y.Known s'
  round : s'.pruner.round = s.pruner.round
  pool : x.pool? = g.pool? ∧ y.pool? = g.pool?
  shared : g.own? = none → x.record? = g.record? ∧ y.record? = g.record?
  own : ∀ {r : Nat}, g.own? = some r → ∃ rx ry, rx ≠ ry ∧ x.record? = some rx ∧ y.record? = some ry ∧
    s'.record rx = s.record r ∧ s'.record ry = s.record r

lemma Siblings.symm (h : g.Siblings s x y s') : g.Siblings s y x s' := by
  refine ⟨h.known.symm, h.round, h.pool.symm, fun hown => (h.shared hown).symm, fun hown => ?_⟩
  obtain ⟨rx, ry, hne, hx, hy, hheld⟩ := h.own hown
  exact ⟨ry, rx, hne.symm, hy, hx, hheld.symm⟩

lemma copies_siblings (hg : g.Known s) (ha : g.copy deep s = .ok a s₁) (hb : g.copy deep' s₁ = .ok b s₂) :
    g.Siblings s a b s₂ := by
  have ha := copy_in hg ha
  have hg1 := hg.grows ha.grows
  have hb := copy_in hg1 hb
  refine ⟨⟨(ha.known hg).grows hb.grows, hb.known hg1⟩, by rw [hb.grows.pruner, ha.grows.pruner], ⟨ha.pool, hb.pool⟩,
    fun hown => ⟨ha.shared hown, hb.shared hown⟩, fun {r} hown => ?_⟩
  obtain ⟨ra, hra, -, hlt, hheld⟩ := ha.own hown
  obtain ⟨rb, hrb, hle, -, hheld'⟩ := hb.own hown
  have hr : r < s.shared.dependencies.size := (hg.record (by rw [record?, hown, some_or])).1
  exact ⟨ra, rb, Nat.ne_of_lt (Nat.lt_of_lt_of_le hlt hle), hra, hrb, by rw [hb.grows.record hlt, hheld],
    by rw [hheld', ha.grows.record hr]⟩

end GState

namespace Recording

/-- What is recorded is not among what copies of the state share. -/
def Private (g : GState) (s : Session) : Recording → Prop
  | .block => g.record? = g.own?
  | .write => g.record? = g.own? ∧ ∀ r, g.own? = some r → (s.record r).written.lookup s.pruner.round = none
  | .suspicions _ => g.pool? = none

lemma Private.apart {op : Recording} (hop : op.Private g s) (h : g.Siblings s x y s') : op.Apart x y s' := by
  have hblock (hg : g.record? = g.own?) : y.record? ≠ some (x.target s') := by
    cases hown : g.own? with
    | none =>
      rw [(h.shared hown).2, hg, hown]
      exact nofun
    | some r =>
      obtain ⟨rx, ry, hne, hx, hy, -⟩ := h.own hown
      rw [hy, target, hx]
      exact fun heq => hne (some.inj heq).symm
  cases op with
  | block => exact hblock hop
  | write =>
    refine ⟨hblock hop.1, fun n hn => ?_⟩
    cases hown : g.own? with
    | none =>
      rw [writeSets, (h.shared hown).2, hop.1, hown]
      exact not_mem_nil
    | some r =>
      obtain ⟨rx, ry, -, hx, -, hheld, -⟩ := h.own hown
      rw [target, hx, getD_some, hheld, h.round, hop.2 r hown] at hn
      cases hn
  | suspicions xs =>
    intro p hp
    rw [h.pool.1, hop] at hp
    cases hp

theorem siblings_isolated {g a b : GState} {deep deep' : Bool} {s s₁ s₂ : Session} (hg : g.Known s)
    (ha : g.copy deep s = .ok a s₁) (hb : g.copy deep' s₁ = .ok b s₂) :
    g.Siblings s a b s₂ ∧ ∀ ops : List Recording, (∀ op ∈ ops, op.Private g s) →
      a.view ((runAll ops b).after s₂) = a.view s₂ ∧ b.view ((runAll ops a).after s₂) = b.view s₂ := by
  have h := copies_siblings hg ha hb
  refine ⟨h, fun ops hops => ⟨?_, ?_⟩⟩
  · exact runAll_view (fun hr => (h.known.2.record hr).1) h.known.1 fun op hop => (hops op hop).apart h.symm
  · exact runAll_view (fun hr => (h.known.1.record hr).1) h.known.2 fun op hop => (hops op hop).apart h

/-- A state with a record in which nothing was written in this round. -/
def onRecord : GState := { ofOperands [3, 7] with notes := [.dependency 0] }

def recordings : Session := { Session.ofCodes ["5b"] with
  shared := { dependencies := #[{ written := [(1, 0)] }], writes := #[[]] }, pruner := { round := 2 } }

theorem isolated_after_copies : onRecord.Known recordings ∧ ∃ a b s₁ s₂, onRecord.copy false recordings = .ok a s₁ ∧
    onRecord.copy false s₁ = .ok b s₂ ∧ a.view ((runAll [.write, .block, .write, .suspicions []] b).after s₂) = a.view s₂ := by
  have hknown : onRecord.Known recordings := by
    refine ⟨fun hr => ?_, nofun⟩
    cases hr
    exact ⟨by decide, by decide⟩
  obtain ⟨a, s₁, ha, b, s₂, hb, -⟩ : ∃ a s₁, onRecord.copy false recordings = .ok a s₁ ∧
      ∃ b s₂, onRecord.copy false s₁ = .ok b s₂ ∧ True := by decide +kernel
  refine ⟨hknown, a, b, s₁, s₂, ha, hb, ((siblings_isolated hknown ha hb).2 _ ?_).1⟩
  have hround : ∀ r, onRecord.own? = some r → (recordings.record r).written.lookup recordings.pruner.round = none := by
    rintro r hr
    cases hr
    decide
  simp only [forall_mem_cons]
  exact ⟨⟨rfl, hround⟩, rfl, ⟨rfl, hround⟩, rfl, nofun⟩

theorem shared_set_changes : Engine.passes (do
      let a ← onRecord.copy
      let b ← onRecord.copy
      return (a.view (← get), a.view (← (do let _ ← Pruner.noteWrite b; get)))) { recordings with pruner := { round := 1 } }
    (fun v _ => v.1.1.map (·.2.map length) == some [0] && v.2.1.map (·.2.map length) == some [1]) = true := by
  decide +kernel

end Recording
end EvmAudit
