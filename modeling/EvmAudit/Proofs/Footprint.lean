import EvmAudit.Proofs.Owners
import EvmAudit.Proofs.Widths

/-!
# Footprints

A footprint says what may happen beside work on the operands and the memory of a frame, which is paid for: whether
accounts may be fetched from a node, storage may be written, ether may be paid, the place in the program may be left, and
gas may be booked at will. Whatever it does not name stays as it is, so a smaller footprint says more.
-/

namespace EvmAudit

variable {size length : Int} {st : Stack} {m : Machine} {a : Account} {w : World} {active : Option Nat}

/-- What a step may do beyond working on the operands and the memory of its frame. -/
structure Footprint where
  /-- Accounts and slots of storage may be fetched from a node. -/
  loads : Bool := false
  /-- The storage of the active account may be written. -/
  writes : Bool := false
  /-- Ether may be paid, and another frame may be started. -/
  calls : Bool := false
  /-- The place in the program may be left. -/
  jumps : Bool := false
  /-- Gas may be booked at will, also less than none. -/
  books : Bool := false

/-- Anything that an instruction may do short of making or giving up an account. -/
abbrev Footprint.all : Footprint := ⟨true, true, true, true, true⟩

/-! ## Fees -/

namespace Precompile

lemma words_nonneg (h : 0 ≤ size) : 0 ≤ words size := by
  unfold words
  rw [Machine.fdiv_word]
  omega

lemma hashGas_nonneg (h : 0 ≤ length) : 0 ≤ hashGas length := by
  have := words_nonneg h
  unfold hashGas
  omega

lemma gas_nonneg (h : 0 ≤ size) (contract : String) : 0 ≤ gas size contract := by
  have := words_nonneg h
  unfold gas
  split <;> omega

end Precompile

namespace Machine

variable {size : Nat} {start : Int}

lemma words_le (h : ¬ (size : Int) > start + length) :
    0 ≤ Int.fdiv size 32 ∧ Int.fdiv size 32 ≤ Int.fdiv (ceil32 (start + length)) 32 := by
  unfold ceil32
  rw [fdiv_word, fdiv_word, fdiv_word]
  omega

lemma extension_nonneg : 0 ≤ extension size start length := by
  unfold extension
  split
  · omega
  · rename_i h
    have := words_le h
    omega

lemma memoryFee_le {a b : Int} (ha : 0 ≤ a) (h : a ≤ b) : memoryFee a ≤ memoryFee b := by
  have hsq : a * a ≤ b * b := Int.mul_le_mul h h ha (by omega)
  unfold memoryFee
  rw [Int.fdiv_eq_ediv_of_nonneg _ (by decide), Int.fdiv_eq_ediv_of_nonneg _ (by decide)]
  omega

lemma extensionFee_nonneg (h : extension size start length ≠ 0) : 0 ≤ extensionFee size start length := by
  unfold extension at h
  split at h
  · exact absurd rfl h
  rename_i hle
  have hwords := words_le hle
  have := memoryFee_le hwords.1 hwords.2
  unfold extensionFee
  omega

end Machine

/-! ## Machines -/

def Item.Nonneg : Item → Prop
  | .int n => 0 ≤ n
  | _ => True

lemma Item.number?_nonneg (i : Item) : i.number?.Yields fun r => i.Nonneg → ∀ n, r = some n → 0 ≤ n := by
  cases i with
  | expr e =>
    simp only [number?]
    split
    · refine .next fun r => .pure fun _ n hn => ?_
      obtain ⟨b, -, rfl⟩ := Option.map_eq_some_iff.1 hn
      cases b <;> decide
    · refine .next fun r => .pure fun _ n hn => ?_
      obtain ⟨v, -, rfl⟩ := Option.map_eq_some_iff.1 hn
      exact Int.natCast_nonneg v
  | absent => exact .throw _
  | int n =>
    refine .pure ?_
    rintro hn _ ⟨⟩
    exact hn
  | bool b =>
    refine .pure ?_
    rintro - _ ⟨⟩
    cases b <;> decide

lemma Stack.toWord_nonneg (i : Item) : (toWord i).Yields Item.Nonneg := by
  cases i with
  | expr e =>
    simp only [toWord]
    split
    · exact .next fun _ => .pure trivial
    · exact .pure trivial
  | int n | bool b => exact .next fun _ => .pure trivial
  | absent => exact .pure trivial

lemma Stack.push_yields (st : Stack) (i : Item) : (push st i).Yields fun st' => ∃ w, st' = w :: st ∧ w.Nonneg := by
  refine (toWord_nonneg i).bind fun w hw => ?_
  split
  · exact .throw _
  · exact .pure ⟨w, rfl, hw⟩

/-- A copy has as many items as its original, none of them negative. -/
lemma Stack.copy_items (st : Stack) : st.copy.Yields fun st' => st'.length = st.length ∧ ∀ i ∈ st', i.Nonneg := by
  have hall items (st : Stack) (h : ∀ i ∈ st, i.Nonneg) : (pushAll st items).Yields fun st' =>
      st'.length = items.length + st.length ∧ ∀ i ∈ st', i.Nonneg := by
    induction items generalizing st with
    | nil => exact .pure ⟨(Nat.zero_add _).symm, h⟩
    | cons i items ih =>
      refine (push_yields st i).bind ?_
      rintro _ ⟨w, rfl, hw⟩
      refine (ih (w :: st) (List.forall_mem_cons.2 ⟨hw, h⟩)).mono fun _ hst' => ⟨hst'.1.trans ?_, hst'.2⟩
      exact (Nat.succ_add_eq_add_succ _ _).symm
  have := hall st.reverse [] (List.forall_mem_nil _)
  rwa [List.length_reverse] at this

namespace Machine

def Nonneg (m : Machine) : Prop := ∀ i ∈ m.stack, i.Nonneg

/-- What becomes of a machine within a footprint. What it used counts in both bounds. -/
structure Within (p : Footprint) (m m' : Machine) : Prop where
  gasLimit : m'.gasLimit = m.gasLimit
  place : p.jumps = false → m'.pc = m.pc ∧ m'.depth = m.depth
  gas : p.books = false → ∃ fee : Nat, m'.minGas = m.minGas + fee ∧ m'.maxGas = m.maxGas + fee

variable {p : Footprint} {m' m'' : Machine}

namespace Within

lemma of_operands {rs : Stack} {memory : Memory} : m.Within p { m with stack := st, returns := rs, memory := memory } :=
  ⟨rfl, fun _ => ⟨rfl, rfl⟩, fun _ => ⟨0, (Int.add_zero _).symm, (Int.add_zero _).symm⟩⟩

lemma refl (m : Machine) : m.Within p m := of_operands

lemma trans (h : m.Within p m') (h' : m'.Within p m'') : m.Within p m'' where
  gasLimit := h'.gasLimit.trans h.gasLimit
  place hj := ⟨(h'.place hj).1.trans (h.place hj).1, (h'.place hj).2.trans (h.place hj).2⟩
  gas hb := by
    obtain ⟨fee, hleast, hmost⟩ := h.gas hb
    obtain ⟨fee', hleast', hmost'⟩ := h'.gas hb
    exact ⟨fee + fee', by omega, by omega⟩

lemma useGas {fee : Int} (h : p.books = false → 0 ≤ fee) : m.Within p (m.useGas fee fee) := by
  refine ⟨rfl, fun _ => ⟨rfl, rfl⟩, fun hb => ⟨fee.toNat, ?_, ?_⟩⟩
  · show m.minGas + fee = _
    have := h hb
    omega
  · show m.maxGas + fee = _
    have := h hb
    omega

lemma jump (hj : p.jumps = true) (pc : Int) (depth : Nat) : m.Within p { m with pc := pc, depth := depth } := by
  refine ⟨rfl, fun h => ?_, fun _ => ⟨0, (Int.add_zero _).symm, (Int.add_zero _).symm⟩⟩
  rw [hj] at h
  cases h

lemma of_copyOf (h : m.CopyOf m') : m.Within p m' := by
  obtain ⟨st, rs, rfl, -⟩ := h
  exact of_operands

end Within

/-- What making room in memory comes to: nothing, a fee that cannot be paid, or a fee and more memory. -/
inductive Grown (m : Machine) : Machine × Option Fault → Prop
  | same : Grown m (m, none)
  | refused {fee : Int} (hfee : 0 ≤ fee) (f : Fault) : Grown m (m.useGas fee fee, some f)
  | paid {fee : Int} (hfee : 0 ≤ fee) (n : Nat) (hlimit : ∀ limit, m.gasLimit = .int limit → m.minGas + fee ≤ limit) :
      Grown m ({ m.useGas fee fee with memory := m.memory.extend n }, none)

lemma exceeds_yields (used : Int) (limit : Item) :
    (exceeds used limit).Yields fun isOver => isOver = false → ∀ n, limit = .int n → used ≤ n := by
  cases limit with
  | int n =>
    refine .pure fun h _ heq => ?_
    cases heq
    exact Int.not_lt.1 (of_decide_eq_false h)
  | _ => exact .mono .any fun _ _ _ _ h => by cases h

lemma Grown.within {r : Machine × Option Fault} (h : m.Grown r) : m.Within p r.1 := by
  cases h with
  | same => exact .refl m
  | refused hfee => exact .useGas fun _ => hfee
  | paid hfee => exact (Within.useGas fun _ => hfee).trans .of_operands

variable (m) (start length : Item)

lemma pop_within : m.pop.Yields fun r => m.Within p r.2 ∧ (m.Nonneg → r.1.Nonneg ∧ r.2.Nonneg) := by
  unfold pop
  cases hst : m.stack with
  | nil => exact .throw _
  | cons i st =>
    refine .pure ⟨.of_operands, fun hm => ?_⟩
    unfold Nonneg at hm
    rw [hst] at hm
    exact List.forall_mem_cons.1 hm

lemma popWord_within : m.popWord.Yields fun r => m.Within p r.2 :=
  m.pop_within.bind fun _ hr => .next fun _ => .pure hr.1

lemma take_within (n : Int) : (m.take n).Yields fun r => m.Within p r.2 := by
  unfold take
  extract_lets height kept
  split
  · exact .throw _
  · exact .pure .of_operands

lemma push_within (i : Item) : (m.push i).Yields (m.Within p) := .next fun _ => .pure .of_operands

lemma grow_yields : (m.grow start length).Yields m.Grown := by
  simp only [grow]
  refine .next fun a => ?_
  split
  · exact .pure .same
  refine .next fun n => ?_
  split
  · exact .pure .same
  split
  · exact .pure .same
  rename_i hmore
  refine (exceeds_yields _ _).bind fun isOver hover => ?_
  cases isOver with
  | true => exact .pure (.refused (extensionFee_nonneg hmore) _)
  | false => exact .pure (.paid (extensionFee_nonneg hmore) _ (hover rfl))

lemma extend_yields : (m.extend start length).Yields fun m' => m.Grown (m', none) := by
  refine (m.grow_yields start length).bind ?_
  rintro ⟨m', _ | f⟩ h
  · exact .pure h
  · exact .throw _

lemma extend_within : (m.extend start length).Yields (m.Within p) :=
  (m.extend_yields start length).mono fun _ h => h.within

lemma copy_items : m.copy.Yields fun m' => m'.stack.length = m.stack.length ∧ m'.Nonneg :=
  (m.stack.copy_items).bind fun _ hst => .next fun _ => .pure hst

end Machine

/-! ## Worlds -/

/-- The account holds the same: every slot of its storage reads the same, and it has the same nonce and program. -/
structure Account.Intact (a a' : Account) : Prop where
  storage : a'.storage.array = a.storage.array
  nonce : a'.nonce = a.nonce
  code : a'.code = a.code

lemma Account.Intact.refl (a : Account) : a.Intact a := ⟨rfl, rfl, rfl⟩

namespace World

/-- Every account of the world is there and holds the same. -/
structure Unwritten (w w' : World) : Prop where
  found : ∀ {key : Option Nat} {a : Account}, w.find? key = some a → ∃ a', w'.find? key = some a' ∧ a.Intact a'

variable {w' w'' : World}

namespace Unwritten

lemma of_tracks (h : w.Tracks Account.Intact w') : w.Unwritten w' := ⟨h.found⟩

lemma tracks (h : w.Unwritten w') : w.Tracks Account.Intact w' := ⟨h.found⟩

lemma of_accounts (h : w'.accounts = w.accounts) : w.Unwritten w' := of_tracks (.of_accounts .refl h)

lemma refl (w : World) : w.Unwritten w := of_accounts rfl

lemma trans (h : w.Unwritten w') (h' : w'.Unwritten w'') : w.Unwritten w'' :=
  of_tracks (.trans (fun h h' => ⟨h'.storage.trans h.storage, h'.nonce.trans h.nonce, h'.code.trans h.code⟩)
    h.tracks h'.tracks)

lemma of_copyFor (h : w.CopyFor active w') : w.Unwritten w' :=
  of_tracks (.of_copyFor (fun ⟨_, _, h⟩ => h ▸ ⟨rfl, rfl, rfl⟩) h)

end Unwritten

lemma CopyFor.balances (h : w.CopyFor active w') : w'.balances = w.balances := by
  obtain ⟨w1, hcopy, rfl | ⟨-, key, a, -, rfl⟩⟩ := h
  · rw [hcopy.rest]
  · show w1.balances = _
    rw [hcopy.rest]

structure Within (p : Footprint) (w w' : World) : Prop where
  keeps : w.Keeps w'
  unwritten : p.loads = false → p.writes = false → w.Unwritten w'
  settled : p.calls = false → w.Settled w'
  /-- Conditions are only added; a jump may also simplify them. -/
  constraints : p.jumps = false → w.constraints <+: w'.constraints
  entails : w'.constraints.Entails w.constraints

variable {p : Footprint}

namespace Within

lemma constrained {cs : Constraints} (h : w.constraints <+: cs) : w.Within p { w with constraints := cs } :=
  ⟨.of_accounts rfl, fun _ _ => .of_accounts rfl, fun _ => .of_balances rfl, fun _ => h, .of_added h⟩

lemma refl (w : World) : w.Within p w := constrained (List.prefix_refl _)

lemma trans (h : w.Within p w') (h' : w'.Within p w'') : w.Within p w'' where
  keeps := h.keeps.trans h'.keeps
  unwritten hl hw := (h.unwritten hl hw).trans (h'.unwritten hl hw)
  settled hp := (h.settled hp).trans h.keeps (h'.settled hp)
  constraints hj := (h.constraints hj).trans (h'.constraints hj)
  entails := h'.entails.trans h.entails

lemma of_copyFor (h : w.CopyFor active w') (hcs : p.jumps = false → w'.constraints = w.constraints) : w.Within p w' :=
  ⟨.of_copyFor h, fun _ _ => .of_copyFor h, fun _ => .of_balances h.balances,
    fun hj => hcs hj ▸ List.prefix_refl _, h.entails⟩

end Within
end World

/-! ## Storage -/

namespace Storage

variable (st : Storage)

lemma putEntry_range (key value : Item) : (st.putEntry key value).Yields (·.array.range = st.array.range) :=
  .next fun _ => .pure rfl

lemma noteLoaded_array (slot : Nat) : (st.noteLoaded slot).array = st.array := by
  unfold noteLoaded
  split <;> rfl

lemma fetched_range (key : Expr) (slot content : Nat) :
    (st.fetched key slot content).Yields (·.array.range = st.array.range) := by
  refine .next fun word => .next fun value => (Expr.store_range _ key value).bind fun array harray => .next fun e => ?_
  refine (putEntry_range _ _ _).mono fun st' hst' => ?_
  rw [hst', noteLoaded_array]
  exact harray

/-- What is left of a storage that was read: the array, unless a slot was fetched, and the width of the slots. -/
structure Keeps (st : Storage) (isOffline : Bool) (st' : Storage) : Prop where
  array : isOffline = true → st'.array = st.array
  range : st'.array.range = st.array.range

lemma get_yields (key : Item) (s : Session) : (st.get key).Yields s fun r =>
    st.Keeps s.loader.isNone r.1 ∧ ∀ e, r.2 = .ok e → e.IsBits st.array.range := by
  have hread : (st.noteRead key).Yields (·.array = st.array) := .next fun _ => .pure rfl
  refine .given hread fun st1 s1 hs1 hst1 => .get ?_
  have hmissing k : (st1.missing (s1.loader.any (·.active)) s1.options.unconstrainedStorage k).Yields
      fun r => s.loader.isNone → r = none := by
    unfold missing
    split
    · exact .pure fun _ => rfl
    refine .next fun owner => ?_
    split
    · exact .pure fun _ => rfl
    split
    · exact .throw _
    refine .next fun slot => ?_
    cases slot with
    | none => exact .pure fun _ => rfl
    | some slot =>
      refine fun l r l' hr hoff => ?_
      simp only [Option.isNone_iff_eq_none.1 (hs1.loader.trans hoff), Option.any_none, Bool.not_false, Bool.or_true] at hr
      cases hr
      rfl
  have hkept : st.Keeps s.loader.isNone st1 := ⟨fun _ => hst1, by rw [hst1]⟩
  refine (Engine.Yields.attempt (P := fun r => st.Keeps s.loader.isNone r.1 ∧ r.2.IsBits st.array.range) ?_).bind
    fun r s3 _ hr => ?_
  · refine .next fun k s3 => .given (hmissing k) fun slot s4 _ hslot => ?_
    have hselect st2 (hst2 : st.Keeps s.loader.isNone st2) s' :
        Engine.Yields (do return (st2, ← st2.select k) : Engine (Storage × Expr)) s'
          fun r => st.Keeps s.loader.isNone r.1 ∧ r.2.IsBits st.array.range :=
      .given (Expr.select_isBits st2.array k) fun e _ _ he => .pure ⟨hst2, hst2.range ▸ he⟩
    split
    · exact hselect st1 hkept s4
    · exact .throw _
    · refine .bind (Engine.yields_iff.2 ((Engine.yields_iff.1 ?_).rescue fun _ => hkept)) fun st2 s5 _ hst2 => hselect st2 hst2 s5
      refine .next fun v s5 => .next fun n s6 => (Engine.Yields.calc (fetched_range _ _ _ _)).mono fun _ h => ?_
      exact ⟨fun hoff => absurd (hslot hoff) (by simp), h.trans hkept.range⟩
  · cases r with
    | ok r =>
      refine .pure ⟨(hr r rfl).1, ?_⟩
      rintro _ ⟨⟩
      exact (hr r rfl).2
    | error f => exact .pure ⟨hkept, fun _ h => by cases h⟩

end Storage

/-! ## States -/

namespace GState

structure Within (p : Footprint) (g g' : GState) : Prop where
  frames : g'.frames = g.frames
  env : g'.env = g.env
  world : g.world.Within p g'.world
  machine : g.machine.Within p g'.machine

variable {p : Footprint} {g g' g'' : GState}

namespace Within

lemma of_world (h : g.world.Within p w) : g.Within p { g with world := w } := ⟨rfl, rfl, h, .refl _⟩

lemma of_machine (h : g.machine.Within p m) : g.Within p { g with machine := m } := ⟨rfl, rfl, .refl _, h⟩

lemma refl (g : GState) : g.Within p g := of_machine (.refl _)

lemma trans (h : g.Within p g') (h' : g'.Within p g'') : g.Within p g'' :=
  ⟨h'.frames.trans h.frames, h'.env.trans h.env, h.world.trans h'.world, h.machine.trans h'.machine⟩

lemma stays (h : g.Within p g') : g.Stays g' := ⟨h.frames, h.env, h.world.keeps⟩

lemma of_empty (h : g.Within {} g') : g.Within p g' where
  frames := h.frames
  env := h.env
  world := ⟨h.world.keeps, fun _ _ => h.world.unwritten rfl rfl, fun _ => h.world.settled rfl,
    fun _ => h.world.constraints rfl, h.world.entails⟩
  machine := ⟨h.machine.gasLimit, fun _ => h.machine.place rfl, fun _ => h.machine.gas rfl⟩

lemma of_copyOf (h : g.CopyOf g') (hcs : p.jumps = false → g'.world.constraints = g.world.constraints) :
    g.Within p g' := by
  refine ⟨?_, ?_, .of_copyFor h.world hcs, .of_copyOf h.machine⟩
  · rw [h.rest]
  · rw [h.rest]

end Within

lemma copy_items (g : GState) (deep : Bool) (s : Session) : (g.copy deep).Yields s fun g' =>
    g'.machine.stack.length = g.machine.stack.length ∧ g'.machine.Nonneg := by
  refine .of_run fun g' s' h => ?_
  obtain ⟨-, -, hm, -⟩ := copy_run h
  exact ((Engine.Yields.calc g.machine.copy_items).ok hm).2

end GState
end EvmAudit
