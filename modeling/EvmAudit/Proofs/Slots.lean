import EvmAudit.Proofs.Copy

/-!
# Slots over a chain

Under a storage that may ask a node lies what the chain has. Whatever is read and written at keys that have a value, the
array holds the last value that was written to a key, else what is on the chain if the key was read, else what it held at
first. The loader is asked for a key when it is first used, and only if it is read then; a copy goes on in the same way.
-/

namespace EvmAudit

open Function List
open Calc (Gives)
open Evm (Word)

inductive SlotOp (κ : Type) where
  | read (key : κ)
  | write (key value : κ)
  | copy

namespace SlotOp

def key? : SlotOp Word → Option Word
  | read k | write k _ => some k
  | copy => none

def written? : SlotOp Word → Option Word
  | write _ v => some v
  | _ => none

end SlotOp

/-- The slots of an account, as they are at first and as they are on the chain. -/
structure Slots where
  σ : Valuation
  owner : Word
  owner_ne : owner ≠ 0
  first : Word → Word
  chain : Word → Word

def Storage.perform (st : Storage) : SlotOp Expr → Engine Storage
  | .read key => do
    let (st, e) ← st.get (.expr key)
    discard (Engine.ofExcept e)
    return st
  | .write key value => do
    let (st, fault?) ← st.set (.expr key) (.expr value)
    match fault? with
    | some f => throw f
    | none => return st
  | .copy => st.copy

inductive SlotOp.Means (σ : Valuation) : SlotOp Expr → SlotOp Word → Prop
  | read {key : Expr} {k : Word} : key.Equals k → Means σ (.read key) (.read k)
  | write {key value : Expr} {k v : Word} : key.Equals k → (Item.expr value).Means σ v →
    Means σ (.write key value) (.write k v)
  | copy : Means σ .copy .copy

namespace Slots

variable {S : Slots} {op : SlotOp Word} {past : List (SlotOp Word)} {k v : Word}

def track (k : Word) (past : List (SlotOp Word)) : List (SlotOp Word) := past.filter (·.key? == some k)

/-- What is in a slot after this was done with it: the last value that was written there, else what the chain has if the
slot was read, else what was there at first. -/
def content (S : Slots) (k : Word) (track : List (SlotOp Word)) : Word :=
  (track.findSome? (·.written?)).getD (if track.isEmpty then S.first k else S.chain k)

def contents (S : Slots) (past : List (SlotOp Word)) (k : Word) : Word := S.content k (track k past)

/-- The slots that are asked for in the course of this: each that is read when it is first used. -/
def requested : List (SlotOp Word) → List Word
  | [] => []
  | .read k :: past => if track k past = [] then k :: requested past else requested past
  | _ :: past => requested past

/-- What depends on what was done with a slot changes for that slot only. -/
lemma track_cons {γ : Type} (h : Word → List (SlotOp Word) → γ) (op : SlotOp Word) (hop : op.key? = some k) :
    (fun z => h z (track z (op :: past))) = update (fun z => h z (track z past)) k (h k (op :: track k past)) := by
  funext z
  by_cases hz : z = k
  · simp [hz, track, hop]
  · simp [hz, Ne.symm hz, track, hop]

lemma contents_write : S.contents (.write k v :: past) = update (S.contents past) k v := track_cons S.content _ rfl

lemma contents_read_new (h : track k past = []) : S.contents (.read k :: past) = update (S.contents past) k (S.chain k) :=
  (track_cons S.content _ rfl).trans (by rw [h]; rfl)

lemma contents_read_used (h : track k past ≠ []) : S.contents (.read k :: past) = S.contents past := by
  refine (track_cons S.content _ rfl).trans (update_eq_self_iff.2 ?_)
  simp [content, SlotOp.written?, h]

lemma used_cons (op : SlotOp Word) (hop : op.key? = some k) (z : Word) :
    track z (op :: past) ≠ [] ↔ z = k ∨ track z past ≠ [] := by
  rw [congrFun (track_cons (fun _ t => t ≠ []) op hop) z, update_apply]
  split <;> simp [*]

/-! ## What is known of a storage -/

variable {st : Storage} {key value : Expr} {ks : KeySet}

/-- The key has a value, and that slot was used. -/
def Used (past : List (SlotOp Word)) (key : Key) : Prop :=
  ∃ e, key.item = .expr e ∧ ∃ k : Word, e.Equals k ∧ track k past ≠ []

/-- The storage has come to this by all that was done to it, the latest first. -/
structure Follows (S : Slots) (past : List (SlotOp Word)) (st : Storage) : Prop where
  address : ∃ a, st.address = some a ∧ a.Equals S.owner
  live : st.live = true
  array : st.array.Denotes S.σ (S.contents past)
  loaded : ∀ k : Word, k.toNat ∈ st.loaded ↔ track k past ≠ []
  written : ∀ key ∈ st.written, Used past key

lemma Used.cons {key : Key} (h : Used past key) : Used (op :: past) key := by
  obtain ⟨e, he, k, hk, hused⟩ := h
  refine ⟨e, he, k, hk, ?_⟩
  rw [track, filter_cons]
  split
  · exact cons_ne_nil _ _
  · exact hused

lemma noteLoaded_eq (st : Storage) (n : Nat) :
    ∃ ns, st.noteLoaded n = { st with loaded := ns } ∧ ∀ m, m ∈ ns ↔ m = n ∨ m ∈ st.loaded := by
  unfold Storage.noteLoaded
  split
  · exact ⟨_, rfl, fun m => ⟨.inr, Or.rec (fun h => by simp_all) id⟩⟩
  · exact ⟨_, rfl, fun m => by simp [or_comm]⟩

lemma Follows.use (h : S.Follows past st) (st' : Storage) (op : SlotOp Word) (hop : op.key? = some k)
    (hold : st'.address = st.address ∧ st'.live = st.live ∧ st'.loaded = st.loaded)
    (harray : st'.array.Denotes S.σ (S.contents (op :: past))) (hwritten : ∀ key ∈ st'.written, Used (op :: past) key) :
    S.Follows (op :: past) (st'.noteLoaded k.toNat) := by
  obtain ⟨ns, hst', hns⟩ := noteLoaded_eq st' k.toNat
  rw [hst']
  refine ⟨hold.1 ▸ h.address, hold.2.1.trans h.live, harray, fun z => ?_, hwritten⟩
  rw [hns, hold.2.2, h.loaded, BitVec.toNat_inj, used_cons op hop]

lemma putEntry_gives (st : Storage) (key value : Item) :
    (st.putEntry key value).Gives fun st' => ∃ es, st' = { st with entries := es } := by
  intro l
  obtain ⟨p, hp, -⟩ := KeyPrint.of_run key l
  exact ⟨_, l, by simp only [Storage.putEntry, bind, EStateM.bind, hp]; rfl, _, rfl⟩

lemma insert_gives (ks : KeySet) (i : Item) : (ks.insert i).Gives fun ks' => ∀ k ∈ ks', k ∈ ks ∨ k.item = i := by
  intro l
  obtain ⟨p, hp, -⟩ := KeyPrint.of_run i l
  refine ⟨_, l, by simp only [KeySet.insert, bind, EStateM.bind, hp]; rfl, ?_⟩
  grind

lemma Follows.missing (h : S.Follows past st) (hk : key.Equals k) : (st.missing true false key).Gives
    (· = if track k past = [] then some (some S.owner.toNat, k.toNat) else none) := by
  obtain ⟨a, haddress, ha⟩ := h.address
  have howner : (some S.owner.toNat == some 0) = false := by
    simpa [beq_eq_false_iff_ne] using fun h0 => S.owner_ne (BitVec.eq_of_toNat_eq h0)
  simp only [Storage.missing, haddress, Expr.isProp, hk.isProp, h.live]
  refine ha.value?_gives.bind ?_
  rintro _ rfl
  simp only [howner]
  refine hk.value?_gives.bind ?_
  rintro _ rfl
  have hloaded := h.loaded k
  by_cases hused : track k past = []
  · simp [hloaded, hused]
    exact .pure rfl
  · simp [hloaded, hused]
    exact .pure rfl

/-- Among keys that differ from one, that one is not found. -/
lemma guarded_gives {σ : Valuation} {f : Word → Word} {keys : List Key} {e : Expr} (harray : st.array.Denotes σ f)
    (hk : key.Equals k) (hkeys : ∀ k' ∈ keys, ∃ e, k'.item = .expr e ∧ ∃ z, e.Equals z ∧ z ≠ k) (he : e.Denotes σ v) :
    (st.guarded key e keys).Gives (·.Denotes σ v) := by
  induction keys generalizing e with
  | nil => exact .pure he
  | cons k' keys ih =>
    obtain ⟨⟨e', he', z, hz, hne⟩, hkeys⟩ := forall_mem_cons.1 hkeys
    rw [Storage.guarded, he']
    refine (Expr.equate_gives (σ := σ) .eq CmpOp.flip_eval_eq hz.denotes hk.denotes).bind fun same hsame => ?_
    refine (Expr.select_gives harray hk.denotes).bind fun old hold => ?_
    refine (Expr.ite_gives hsame hold he).bind fun chosen hchosen => ih hkeys ?_
    have hfalse : CmpOp.eq.eval z.toNat k.toNat = false := by
      simpa [CmpOp.eval] using fun h => hne (BitVec.eq_of_toNat_eq h)
    rwa [hfalse] at hchosen

lemma Follows.fetched (h : S.Follows past st) (hk : key.Equals k) (hnew : track k past = []) :
    (st.fetched key k.toNat (S.chain k).toNat).Gives (S.Follows (.read k :: past)) := by
  have hkeys : ∀ k' ∈ st.written, ∃ e, k'.item = .expr e ∧ ∃ z, e.Equals z ∧ z ≠ k := by
    intro k' hk'
    obtain ⟨e, he, z, hz, hused⟩ := h.written k' hk'
    refine ⟨e, he, z, hz, ?_⟩
    rintro rfl
    exact hused hnew
  refine (Expr.const_gives S.σ _ 256).bind fun word hword => ?_
  refine (guarded_gives h.array hk hkeys hword).bind fun value hvalue => ?_
  refine (Expr.store_gives h.array hk hvalue).bind fun array harray => ?_
  rw [BitVec.ofNat_toNat] at harray
  refine (Expr.select_gives harray hk.denotes).bind fun e _ => (putEntry_gives _ _ _).mono ?_
  rintro _ ⟨es, rfl⟩
  have h' := h.use { st with array } (.read k) rfl ⟨rfl, rfl, rfl⟩ (by rwa [contents_read_new hnew])
    fun k' hk' => (h.written k' hk').cons
  exact ⟨h'.address, h'.live, h'.array, h'.loaded, h'.written⟩

lemma Follows.set (h : S.Follows past st) (hk : key.Equals k) (hv : (Item.expr value).Means S.σ v) :
    (st.set (.expr key) (.expr value)).Gives fun r => S.Follows (.write k v :: past) r.1 ∧ r.2 = none := by
  unfold Storage.set
  extract_lets finish
  have hfinish {e : Expr} (he : e.Denotes S.σ v) : (finish (.expr e)).Gives fun r =>
      S.Follows (.write k v :: past) r.1 ∧ r.2 = none := by
    refine (putEntry_gives _ _ _).bind ?_
    rintro _ ⟨es, rfl⟩
    refine (Expr.store_gives h.array hk he).bind fun array harray => (insert_gives _ _).bind fun written hwritten => ?_
    simp only [Expr.isProp, hk.isProp]
    refine hk.value?_gives.bind ?_
    rintro _ rfl
    refine .pure ⟨h.use _ (.write k v) rfl ⟨rfl, rfl, rfl⟩ (by rwa [contents_write]) fun k' hk' => ?_, rfl⟩
    rcases hwritten k' hk' with hk' | hk'
    · exact (h.written k' hk').cons
    · exact ⟨key, hk', k, hk, (used_cons _ rfl k).2 (.inl rfl)⟩
  rcases hv with hv | ⟨b, hb, rfl⟩
  · simp only [Expr.isProp, hv.isProp]
    exact hfinish hv
  · simp only [Expr.isProp, hb.isProp, map_eq_pure_bind, bind_assoc]
    exact (Expr.bit_gives hb).bind fun e he => hfinish he

lemma copy_used (h : ∀ key ∈ ks, Used past key) : ks.copy.Gives fun ks' => ∀ key ∈ ks', Used past key := by
  have hfold {acc : KeySet} (hacc : ∀ key ∈ acc, Used past key) : (ks.foldlM KeySet.copyKey acc).Gives
      fun ks' => ∀ key ∈ ks', Used past key := by
    induction ks generalizing acc with
    | nil => exact .pure hacc
    | cons key ks ih =>
      obtain ⟨⟨e, he, k, hk, hused⟩, hks⟩ := forall_mem_cons.1 h
      have hinsert {e' : Expr} (he' : e'.Equals k) : (acc.insert (.expr e')).Gives fun ks' => ∀ key ∈ ks', Used past key :=
        (insert_gives _ _).mono fun ks' hks' key' hkey' =>
          (hks' key' hkey').elim (hacc key') fun hi => ⟨e', hi, k, he', hused⟩
      rw [foldlM_cons, KeySet.copyKey, he]
      refine .bind ?_ fun acc' hacc' => ih hks hacc'
      refine hk.raw.bind fun t ht => ?_
      split
      · exact hinsert hk
      · exact hinsert hk
      · refine .bind ?_ fun e' he' => hinsert he'
        exact hk.raw.bind fun t ht => e.marks_gives.bind fun ms _ => (Expr.make_gives t ms).mono fun e' he' => .of_term he' ht
  unfold KeySet.copy
  split
  · exact .pure h
  · exact hfold (forall_mem_nil _)

lemma Follows.read_used (h : S.Follows past st) (hused : track k past ≠ []) : S.Follows (.read k :: past) st := by
  refine ⟨h.address, h.live, ?_, fun z => ?_, fun key hkey => (h.written key hkey).cons⟩
  · rw [contents_read_used hused]
    exact h.array
  · rw [h.loaded, used_cons _ rfl]
    exact ⟨.inr, Or.rec (fun hz => hz ▸ hused) id⟩

/-! ## Runs -/

variable {α β : Type} {I J J' : Session → Prop} {s s' s₀ : Session}

/-- In these sessions the loader is active, and it answers every slot of the account by what the chain has there. -/
structure Source (S : Slots) (I : Session → Prop) : Prop where
  constrained : ∀ {s}, I s → s.options.unconstrainedStorage = false
  active : ∀ {s}, I s → s.loader.any (·.active) = true
  ledger : ∀ {s}, I s → ∀ l, I { s with ledger := l }
  reads : ∀ {s}, I s → ∀ k : Word, ∃ j m s', I s' ∧
    Engine.readStorage (.str (Engine.longAddress S.owner.toNat)) k.toNat s = .ok j s' ∧ Rpc.number j = .ok m ∧
      BitVec.ofInt 256 m = S.chain k

/-- What the loader was asked to read from storages, the latest first. -/
def requests (s : Session) : List NodeKey := (s.loader.map (·.storage.asked)).getD []

lemma cached_eq {β : Type} {part : Loader → Answers β} {change : (Answers β → Answers β) → Loader → Loader}
    {key : NodeKey} {find : Bool → Engine β} {l : Loader} (hl : s.loader = some l) :
    Engine.cached part change key find s = (match ((part l).known.get key).1 with
      | some v => return v
      | none => do
        let v ← find l.active
        Engine.setLoader (change (·.keep key v))
        return v : Engine β)
      { s with loader := some (change (fun a => ⟨((part l).known.get key).2, key :: a.asked⟩) l) } := by
  have hset (f : Loader → Loader) : Engine.setLoader f s = .ok () { s with loader := some (f l) } := by
    show EStateM.Result.ok () { s with loader := s.loader.map f } = _
    rw [hl, Option.map_some]
  rw [Engine.cached, Engine.bind_ok (Engine.get_run s), hl]
  refine (Engine.bind_ok (a := l) rfl).trans ?_
  dsimp only
  generalize (part l).known.get key = r
  obtain ⟨found, known⟩ := r
  exact Engine.bind_ok (hset _)

lemma talk_loader {t : Talk α} {missing : Fault} {a : α} (h : Engine.talk t missing s = .ok a s') :
    s'.loader = s.loader := by
  unfold Engine.talk at h
  split at h
  · cases h
  · split at h <;> cases h
    rfl

/-- Every call of the loader is noted, whether it knows the answer or not. -/
lemma requests_readStorage {address j : Json} {slot : Int} (h : Engine.readStorage address slot s = .ok j s') :
    requests s' = ⟨address, slot⟩ :: requests s := by
  cases hl : s.loader with
  | none =>
    rw [Engine.readStorage, Engine.cached, Engine.bind_ok (Engine.get_run s), hl] at h
    cases h
  | some l =>
    rw [Engine.readStorage, cached_eq hl] at h
    have hold : requests s = l.storage.asked := by rw [requests, hl, Option.map_some, Option.getD_some]
    rw [hold]
    cases hfound : (l.storage.known.get ⟨address, slot⟩).1 with
    | some v =>
      rw [hfound] at h
      cases h
      rfl
    | none =>
      rw [hfound] at h
      obtain ⟨v, s₂, hfind, h⟩ := Engine.of_bind_ok h
      have hs₂ : requests s₂ = ⟨address, slot⟩ :: l.storage.asked := by
        dsimp only at hfind
        split at hfind
        · obtain ⟨_, _, htalk, hend⟩ := Engine.of_bind_ok hfind
          cases hend
          rw [requests, talk_loader htalk]
          rfl
        · cases hfind
      rw [← hs₂]
      cases h
      unfold requests
      dsimp only
      cases s₂.loader with
      | none => rfl
      | some l₂ =>
        show (l₂.storage.keep _ _).asked = _
        unfold Answers.keep
        split <;> rfl

/-- The session is one of these, and since another one the loader was asked for what had to be asked for. -/
def Asked (S : Slots) (I : Session → Prop) (s₀ : Session) (past : List (SlotOp Word)) (s : Session) : Prop :=
  I s ∧ requests s =
    (requested past).map (fun k => ⟨.str (Engine.longAddress S.owner.toNat), k.toNat⟩) ++ requests s₀

/-- The computation succeeds, in such a session, with a result of this kind. -/
def Reaches (J : Session → Prop) (c : Engine α) (s : Session) (P : α → Prop) : Prop := ∃ a s', c s = .ok a s' ∧ J s' ∧ P a

section

variable {c : Engine α} {f : α → Engine β} {a : α} {P : α → Prop} {Q : β → Prop}

lemma Reaches.next (hc : c s = .ok a s') (hf : Reaches J (f a) s' Q) : Reaches J (c >>= f) s Q := by
  rwa [Reaches, Engine.bind_ok hc]

lemma Reaches.bind (hc : Reaches J c s P) (hf : ∀ a s', J s' → P a → Reaches J' (f a) s' Q) :
    Reaches J' (c >>= f) s Q := by
  obtain ⟨a, s', hc, hs', ha⟩ := hc
  exact .next hc (hf a s' hs' ha)

lemma Source.calc (hI : S.Source I) (hs : S.Asked I s₀ past s) {c : Calc α} (hc : c.Gives P) :
    Reaches (S.Asked I s₀ past) (liftM c) s P := by
  obtain ⟨a, l, hc, ha⟩ := hc s.ledger
  exact ⟨a, _, Engine.lift_ok hc, ⟨hI.ledger hs.1 l, hs.2⟩, ha⟩

end

lemma Source.get (hI : S.Source I) (hs : S.Asked I s₀ past s) (h : S.Follows past st) (hk : key.Equals k) :
    Reaches (S.Asked I s₀ (.read k :: past)) (st.get (.expr key)) s fun r => S.Follows (.read k :: past) r.1 ∧
      ∃ e, r.2 = .ok e ∧ e.Denotes S.σ (S.contents (.read k :: past) k) := by
  have hnote : (st.noteRead (.expr key)).Gives (S.Follows past) :=
    (insert_gives _ _).bind fun _ _ => .pure ⟨h.address, h.live, h.array, h.loaded, h.written⟩
  refine (hI.calc hs hnote).bind fun st s hs h => .next rfl ?_
  extract_lets active body
  have hbody : Reaches (S.Asked I s₀ (.read k :: past)) body s fun r => S.Follows (.read k :: past) r.1 ∧
      r.2.Denotes S.σ (S.contents (.read k :: past) k) := by
    have hselect {st : Storage} {s : Session} (hs : S.Asked I s₀ (.read k :: past) s) (h : S.Follows (.read k :: past) st) :
        Reaches (S.Asked I s₀ (.read k :: past)) (do return (st, ← st.select key)) s fun r =>
          S.Follows (.read k :: past) r.1 ∧ r.2.Denotes S.σ (S.contents (.read k :: past) k) :=
      (hI.calc hs (Expr.select_gives h.array hk.denotes)).bind fun e s hs he => ⟨_, s, rfl, hs, h, he⟩
    refine .next rfl ?_
    simp only [active, hI.active hs.1, hI.constrained hs.1]
    refine (hI.calc hs (h.missing hk)).bind ?_
    rintro _ s hs rfl
    by_cases hnew : track k past = []
    · obtain ⟨j, m, s', hs', hread, hm, hchain⟩ := hI.reads hs.1 k
      have hword : (m % ((2 ^ 256 : Nat) : Int)).toNat = (S.chain k).toNat := by rw [← hchain, BitVec.toNat_ofInt]
      have hasked : S.Asked I s₀ (.read k :: past) s' := by
        refine ⟨hs', ?_⟩
        rw [requests_readStorage hread, hs.2, requested, if_pos hnew]
        rfl
      obtain ⟨st', s', hfetch, hs', h'⟩ := hI.calc hasked (h.fetched hk hnew)
      rw [← hword] at hfetch
      simp only [hnew]
      refine .next ?_ (hselect hs' h')
      simp only [Engine.rescue, Engine.bind_ok hread, hm, Engine.ofExcept, pure_bind, hfetch]
    · simp only [hnew]
      refine .next rfl (hselect ⟨hs.1, ?_⟩ (h.read_used hnew))
      rw [hs.2, requested, if_neg hnew]
  obtain ⟨⟨st', e⟩, s', hbody, hs', h', he⟩ := hbody
  exact .next (Engine.attempt_ok hbody) ⟨_, s', rfl, hs', h', e, rfl, he⟩

lemma Source.perform {op : SlotOp Expr} {op' : SlotOp Word} (hI : S.Source I) (hs : S.Asked I s₀ past s)
    (h : S.Follows past st) (hop : op.Means S.σ op') :
    Reaches (S.Asked I s₀ (op' :: past)) (st.perform op) s (S.Follows (op' :: past)) := by
  cases hop with
  | read hk =>
    refine (hI.get hs h hk).bind ?_
    rintro ⟨st', _⟩ s' hs' ⟨h', e, rfl, -⟩
    exact ⟨st', s', rfl, hs', h'⟩
  | write hk hv =>
    refine (hI.calc hs (h.set hk hv)).bind ?_
    rintro ⟨st', _⟩ s' hs' ⟨h', rfl⟩
    exact ⟨st', s', rfl, hs', h'⟩
  | copy =>
    have hs : S.Asked I s₀ (.copy :: past) s := hs
    refine hI.calc hs ((copy_used h.written).bind fun _ hwritten => (KeySet.copy_mirrors _).bind fun _ _ => ?_)
    exact .pure ⟨h.address, h.live, h.array, h.loaded, hwritten⟩

variable {ops : List (SlotOp Expr)} {ops' : List (SlotOp Word)}

lemma Source.run (hI : S.Source I) (hops : Forall₂ (SlotOp.Means S.σ) ops ops') (h : S.Follows past st)
    (hs : S.Asked I s₀ past s) : Reaches (S.Asked I s₀ (ops'.reverse ++ past)) (ops.foldlM Storage.perform st) s
      (S.Follows (ops'.reverse ++ past)) := by
  induction hops generalizing st s past with
  | nil => exact ⟨st, s, rfl, hs, h⟩
  | cons hop _ ih =>
    rw [ reverse_cons, append_assoc]
    exact (hI.perform hs h hop).bind fun st s hs h => ih h hs

/-- A loader that finds seven in every slot. -/
structure FindsSeven (s : Session) : Prop where
  constrained : s.options.unconstrainedStorage = false
  loader : ∃ l, s.loader = some l ∧ l.active = true ∧ ∀ entry ∈ l.storage.known.entries, entry.2 = .str "0x7"
  line : ∃ log, s.line = some ⟨.table [("eth_getStorageAt", .str "0x7")], log⟩

lemma send_seven (params log : List Json) : ∃ log',
    Rpc.send "eth_getStorageAt" params ⟨.table [("eth_getStorageAt", .str "0x7")], log⟩ =
      .ok (.str "0x7") ⟨.table [("eth_getStorageAt", .str "0x7")], log'⟩ := by
  have hanswer (text) : Rpc.answer [("eth_getStorageAt", .str "0x7")] "eth_getStorageAt" text = .ok (.str "0x7") := by
    cases hfound : text == "eth_getStorageAt" <;> simp only [Rpc.answer, List.lookup_cons, hfound] <;> rfl
  exact ⟨_, congrArg (fun r => (MonadExcept.ofExcept r : Talk Json) _) (hanswer _)⟩

lemma get_all {c : Recency NodeKey β} {P : β → Prop} (h : ∀ entry ∈ c.entries, P entry.2) (key : NodeKey) :
    (∀ v, (c.get key).1 = some v → P v) ∧ ∀ entry ∈ (c.get key).2.entries, P entry.2 := by
  unfold Recency.get
  cases hfound : c.find? key with
  | none => exact ⟨nofun, h⟩
  | some v =>
    have hv : P v := by
      obtain ⟨entry, hentry, rfl⟩ := Option.map_eq_some_iff.1 hfound
      exact h entry (mem_of_find?_eq_some hentry)
    refine ⟨fun _ heq => Option.some.inj heq ▸ hv, fun entry hentry => ?_⟩
    rcases mem_append.1 hentry with hold | hnew
    · exact h entry (mem_filter.1 hold).1
    · exact mem_singleton.1 hnew ▸ hv

lemma keep_all {a : Answers β} {P : β → Prop} {v : β} (h : ∀ entry ∈ a.known.entries, P entry.2) (key : NodeKey)
    (hv : P v) : ∀ entry ∈ (a.keep key v).known.entries, P entry.2 := by
  unfold Answers.keep Recency.put Recency.without
  grind

lemma FindsSeven.read (h : FindsSeven s) (j : Json) (slot : Int) :
    Reaches FindsSeven (Engine.readStorage j slot) s (· = .str "0x7") := by
  obtain ⟨l, hl, hactive, hstored⟩ := h.loader
  obtain ⟨log, hline⟩ := h.line
  obtain ⟨hfound, hkept⟩ := get_all (P := (· = Json.str "0x7")) hstored ⟨j, slot⟩
  unfold Reaches
  rw [Engine.readStorage, cached_eq hl]
  dsimp only
  cases hv : (l.storage.known.get ⟨j, slot⟩).1 with
  | some v => exact ⟨v, _, rfl, ⟨h.constrained, ⟨_, rfl, hactive, hkept⟩, log, hline⟩, hfound v hv⟩
  | none =>
    rw [if_pos hactive]
    obtain ⟨log', hsend⟩ := send_seven [j, .str (Hex.ofInt slot), Rpc.latest] log
    have htalk (missing : Fault) {s : Session}
        (hline : s.line = some ⟨.table [("eth_getStorageAt", .str "0x7")], log⟩) :
        Engine.talk (Rpc.storageAt j (.int slot)) missing s =
          .ok (.str "0x7") { s with line := some ⟨.table [("eth_getStorageAt", .str "0x7")], log'⟩ } := by
      have hat : Rpc.storageAt j (.int slot) = Rpc.send "eth_getStorageAt" [j, .str (Hex.ofInt slot), Rpc.latest] := rfl
      simp only [Engine.talk, hline, hat, hsend]
    refine Reaches.next (a := .str "0x7") (Engine.bind_ok (htalk _ (s := { s with loader := some _ }) hline)) ?_
    refine ⟨_, _, rfl, ⟨h.constrained, ⟨_, rfl, hactive, ?_⟩, log', rfl⟩, rfl⟩
    exact keep_all (P := (· = Json.str "0x7")) hkept _ rfl

end Slots
end EvmAudit
