import EvmAudit.Proofs.Deployments

/-!
# Typed states

A state is typed when everything in it has the width it is used at. The stacks hold words, at most 1024 of them. A cell
of memory holds a byte; it is found by a number below the size of memory, or by an index without a value. Input and
returned data consist of bytes, and storage and balances of words. What is made in a typed state, from typed parts, is
typed.
-/

namespace EvmAudit

open List EvmAudit.Expr

variable {i : Item} {odd : List OddCell} {items : List Item} {st : Stack} {m : Machine} {a : Account} {address : Expr}
  {w w' : World} {is : List Instr} {code : Bytecode} {r : TxRequest}

variable {α β : Type}

/-! ## Memory -/

lemma Item.Writable.isCell (h : i.Writable) (hbyte : Memory.isByte i = true) : i.IsCell := by
  cases i with
  | expr e => exact h
  | int n =>
    show 0 ≤ n ∧ n ≤ 255
    simpa [Memory.isByte, int?] using hbyte
  | _ => exact h.elim

lemma Item.isCell_zero : (int 0).IsCell := ⟨by decide, by decide⟩

namespace Memory

variable {m : Memory} {content : Item} {e index start : Expr}

/-- Cells hold bytes. The number of a cell is below the size, and an index that is not a number has no value. -/
structure Typed (m : Memory) : Prop where
  cells : ∀ {v : Nat} {i : Item}, m.cells.get? v = some i → v < m.size ∧ i.IsCell
  odd : ∀ c ∈ m.odd, c.index.term.value? = none ∧ c.content.IsCell

lemma Typed.empty : Typed {} := by
  refine ⟨fun {v i} h => ?_, forall_mem_nil _⟩
  change (∅ : Std.TreeMap Nat Item).get? v = some i at h
  simp at h

lemma Typed.copy (h : m.Typed) : m.copy.Typed := by
  unfold Memory.copy
  split
  · exact .empty
  · exact h

lemma Typed.extend (h : m.Typed) (n : Nat) : (m.extend n).Typed :=
  ⟨fun hv => ⟨Nat.lt_add_right n (h.cells hv).1, (h.cells hv).2⟩, h.odd⟩

lemma Typed.insert (h : m.Typed) {v : Nat} (hv : v < m.size) (hc : content.IsCell) :
    Typed { m with cells := m.cells.insert v content } := by
  refine ⟨fun {v' i} hi => ?_, h.odd⟩
  by_cases hv' : v = v'
  · subst hv'
    obtain rfl : content = i := by simpa using hi
    exact ⟨hv, hc⟩
  · exact h.cells (by simpa [Std.TreeMap.getElem?_insert, hv'] using hi)

lemma toIndex_yields {k : Expr → Term → Calc α} {P : α → Prop} (hi : i.Fits 256)
    (hnumber : ∀ e v, (k e (.const v 256)).Yields P) (hother : ∀ e, e.term.value? = none → (k e e.term).Yields P) :
    (toIndex i >>= fun index => index.raw >>= k index).Yields P := by
  unfold toIndex
  rw [bind_assoc]
  refine (Item.toWidth_isBits hi).bind fun e he => ?_
  rw [simplified, bind_assoc]
  refine .of_settle fun hroom => ?_
  intro l a l' hr
  obtain ⟨l1, hsettle, hterm⟩ := settle_run hroom l
  have hrun : k e (l1.termOf e) l1 = .ok a l' := by
    rw [← hr]
    show _ = EStateM.bind e.settle _ l
    simp only [EStateM.bind, hsettle]
    rfl
  cases hv : e.term.value? with
  | none =>
    have hsame : l1.termOf e = e.term := by
      rcases hterm with h | ⟨h, -⟩
      · rw [h, Term.simplify_of_none hv]
      · exact h
    rw [hsame] at hrun
    exact hother e hv l1 a l' hrun
  | some v =>
    obtain ⟨n, hconst⟩ : ∃ n, l1.termOf e = .const n 256 := by
      rcases hterm with h | ⟨h, hliteral⟩
      · rw [h, Term.simplify_of_value? he.isProp hv, he.width]
        exact ⟨_, rfl⟩
      · obtain ⟨n, w, hc⟩ := hliteral.const he.isProp
        have hw : w = 256 := by simpa [hc, Term.width] using he.width
        exact ⟨n, by rw [h, hc, hw]⟩
    rw [hconst] at hrun
    exact hnumber e n l1 a l' hrun

lemma findOdd_isCell (h : ∀ c ∈ odd, c.content.IsCell) (index : Expr) (t : Term) :
    (findOdd index t odd).Yields fun r => (r.getD (.int 0)).IsCell := by
  induction odd with
  | nil => exact .pure Item.isCell_zero
  | cons c odd ih =>
    obtain ⟨hc, hodd⟩ := forall_mem_cons.1 h
    refine .next fun u => ?_
    split
    · exact .pure hc
    · exact ih hodd

lemma Typed.get (h : m.Typed) (i : Item) : (m.get i).Yields Item.IsCell := by
  refine .next fun index => .next fun t => ?_
  split
  · rename_i v
    cases hv : m.cells.get? v with
    | none => exact .pure Item.isCell_zero
    | some content => exact .pure (h.cells hv).2
  · exact (findOdd_isCell (fun c hc => (h.odd c hc).2) index _).bind fun _ hr => .pure hr

lemma putOdd_yields (h : ∀ c ∈ odd, c.index.term.value? = none ∧ c.content.IsCell) (hindex : index.term.value? = none)
    (hc : content.IsCell) (t : Term) :
    (putOdd index t content odd).Yields fun odd' => ∀ c ∈ odd', c.index.term.value? = none ∧ c.content.IsCell := by
  induction odd with
  | nil => exact .pure (forall_mem_singleton.2 ⟨hindex, hc⟩)
  | cons c odd ih =>
    obtain ⟨hfirst, hodd⟩ := forall_mem_cons.1 h
    refine .next fun u => ?_
    split
    · exact .pure (forall_mem_cons.2 ⟨⟨hfirst.1, hc⟩, hodd⟩)
    · exact (ih hodd).bind fun odd' hodd' => .pure (forall_mem_cons.2 ⟨hfirst, hodd'⟩)

lemma Typed.set (h : m.Typed) (hi : i.Fits 256) (hc : content.Writable) : (m.set i content).Yields Typed := by
  unfold Memory.set
  by_cases hsize : m.size ≥ 2 ^ 63
  · refine .next fun index => ?_
    rw [if_pos hsize]
    exact .throw _
  simp only [hsize]
  refine toIndex_yields hi (fun e v => ?_) fun e he => ?_
  · dsimp only
    split
    · exact .pure h
    rename_i hv
    have hv := Nat.lt_of_lt_of_le (Nat.lt_of_not_le hv) (Nat.mod_le _ _)
    split
    · rename_i hbyte
      exact .pure (h.insert hv (hc.isCell hbyte))
    · exact .throw _
  · cases hterm : e.term with
    | const v w =>
      rw [hterm] at he
      cases he
    | _ =>
      rw [← hterm]
      split
      · rename_i v w heq
        rw [hterm] at heq
        cases heq
      · split
        · rename_i hbyte
          exact (putOdd_yields h.odd he (hc.isCell hbyte) e.term).bind fun odd hodd => .pure ⟨h.cells, hodd⟩
        · exact .throw _

/-! ### Ranges -/

lemma offset_isBits (h : start.IsBits 256) (distance : Nat) : (offset start distance).Yields (Item.IsBits 256) :=
  h.raw.bind fun t ht => (const_isBits _ t.width).bind fun e he => .pure (by rwa [ht.width] at he)

lemma ends_isBits (stop step : Item) (h : i.Fits 256) : (ends i stop step).Yields (·.1.IsBits 256) := by
  unfold ends
  extract_lets finish
  have hfinish start (hstart : start.IsBits 256) : (finish start).Yields (·.1.IsBits 256) := by
    simp only [finish]
    split
    all_goals
      refine .next fun stop => ?_
      split <;> exact .next fun _ => .pure hstart
  cases i with
  | absent => exact (word_isBits 0).bind hfinish
  | _ => exact (Item.toWidth_isBits h).bind hfinish

lemma Typed.writeAll (h : m.Typed) (hstart : start.IsBits 256) (hitems : ∀ i ∈ items, i.Writable) (n k : Nat) :
    (writeAll m start n k items).Yields (·.memory.Typed) := by
  induction n generalizing m k items with
  | zero => exact .pure h
  | succ n ih =>
    cases items with
    | nil => exact .pure h
    | cons b items =>
      obtain ⟨hb, hitems⟩ := forall_mem_cons.1 hitems
      rw [writeAll_cons]
      refine (offset_isBits hstart k).bind fun index hindex => ?_
      intro l r l' hr
      dsimp only at hr
      cases hset : m.set index b l with
      | ok m' l1 =>
        rw [hset] at hr
        exact ih (h.set hindex.fits hb l m' l1 hset) hitems (k + 1) l1 r l' hr
      | error f l1 =>
        rw [hset] at hr
        cases hr
        exact h

/-! ### Words -/

lemma shifted_fits (h : i.Fits 256) (n : Int) : (shifted i n).Yields (Item.Fits 256) := by
  cases i with
  | expr e =>
    refine .bind ?_ fun _ he => .pure (.inr he)
    unfold arithInt
    split
    · exact .throw _
    · rename_i hp
      have he := h.resolve_left hp
      exact he.raw.bind fun t ht => derive_isBits ⟨rfl, ht.width⟩
  | int n | bool b => exact .pure trivial
  | absent => exact .throw _

lemma word_isBits (m : Memory) (i : Item) : (m.word i).Yields (IsBits 256) := by
  refine .next fun stop => .next fun bytes => .next fun numbers => ?_
  split
  · exact Expr.word_isBits _
  refine .next fun parts => (concat_isBits parts).bind fun e he => (simplified_isBits he).bind fun e he => ?_
  split
  · rename_i hw
    exact .pure ⟨he.isProp, eq_of_beq hw⟩
  · exact .throw _

lemma bytes32_writable (n : Nat) : ∀ i ∈ bytes32 n, i.Writable := by
  intro i hi
  obtain ⟨k, -, rfl⟩ := mem_map.1 hi
  trivial

lemma Typed.writeParts (h : m.Typed) (hi : i.Fits 256) (value : Expr) (n k : Nat) :
    (writeParts m i value n k).Yields Typed := by
  -- on the bytes that are left, from the last one of the word on
  induction n generalizing m k with
  | zero => exact .pure h
  | succ n ih =>
    have hpart : (extract (8 * k + 7) (8 * k) value).Yields (IsBits 8) := by
      have hbits := extract_isBits (8 * k + 7) (8 * k) value
      rwa [show 8 * k + 7 + 1 - 8 * k = 8 by omega] at hbits
    refine hpart.bind fun part hpart => ?_
    have hbyte : (Item.expr part).Writable := hpart
    extract_lets finish
    have hfinish index (hindex : index.Fits 256) : (finish index).Yields Typed :=
      (h.set hindex hbyte).bind fun m' hm' => ih hm' (k + 1)
    cases i with
    | expr e =>
      rcases hi with hp | he
      · simp only [arithInt, hp]
        exact .throw _
      · exact (arithInt_isBits .add 31 he).bind fun e1 he1 =>
          (arithInt_isBits .sub k he1).bind fun e2 he2 => hfinish _ (.inr he2)
    | _ => exact (shifted_fits hi _).bind hfinish

lemma Typed.writeWord (h : m.Typed) (hi : i.Fits 256) (value : Item) :
    (m.writeWord i value).Yields (·.memory.Typed) := by
  unfold Memory.writeWord
  extract_lets parts finish
  have hparts e : (parts e).Yields (·.memory.Typed) := by
    simp only [parts]
    split
    · exact .pure h
    · exact (h.writeParts hi e 32 0).bind fun _ hm => .pure hm
  have hfinish number : (finish number).Yields (·.memory.Typed) := by
    simp only [finish]
    split
    · split
      · exact .pure h
      · exact .next fun stop => (ends_isBits stop _ hi).bind fun _ hr => .next fun n =>
          h.writeAll hr (bytes32_writable _) n 0
    · split
      · split <;> exact .next hparts
      · exact .pure h
  cases value with
  | expr e => exact .next fun _ => .next fun _ => .next hfinish
  | _ => exact .next hfinish

end Memory

/-! ## Machines -/

lemma Stack.push_isBits (h : ∀ j ∈ st, j.IsBits 256) (hi : i.Pushable) :
    (st.push i).Yields fun st' => (∀ j ∈ st', j.IsBits 256) ∧ st'.length ≤ 1024 := by
  refine (toWord_isBits hi).bind fun w hw => ?_
  split
  · exact .throw _
  · rename_i hroom
    exact .pure ⟨forall_mem_cons.2 ⟨hw, h⟩, Nat.lt_of_not_le hroom⟩

namespace Machine

structure Typed (m : Machine) : Prop where
  stack : ∀ i ∈ m.stack, i.IsBits 256
  room : m.stack.length ≤ 1024
  returns : ∀ i ∈ m.returns, i.IsBits 256
  returnRoom : m.returns.length ≤ 1024
  memory : m.memory.Typed
  gasLimit : m.gasLimit.Pushable

section

variable (h : m.Typed)
include h

lemma Typed.sound : m.Sound := by
  have hwords {st : Stack} (hst : ∀ i ∈ st, i.IsBits 256) : ∀ i ∈ st, i.IsPushed := by
    intro i hi
    obtain ⟨e, rfl, he⟩ := (hst i hi).exists
    exact he.not_isProp
  exact ⟨hwords h.stack, h.room, hwords h.returns, h.returnRoom⟩

lemma Typed.of_stack (hst : ∀ i ∈ st, i.IsBits 256) (hroom : st.length ≤ 1024) :
    Typed { m with stack := st } := { h with stack := hst, room := hroom }

lemma Typed.of_memory {memory : Memory} (hmemory : memory.Typed) : Typed { m with memory := memory } :=
  { h with memory := hmemory }

lemma Typed.of_place (pc : Int) (depth : Nat) (least most : Int) :
    Typed { m with pc := pc, depth := depth, minGas := least, maxGas := most } := { h with }

lemma Typed.useGas (least most : Int) : (m.useGas least most).Typed := h.of_place m.pc m.depth _ _

lemma Typed.of_copyOf {m' : Machine} (hcopy : m.CopyOf m') : m'.Typed := by
  rw [hcopy.of_sound h.sound]
  exact h.of_memory h.memory.copy

lemma Typed.pop : m.pop.Yields fun r => r.1.IsBits 256 ∧ r.2.Typed := by
  have hstack := h.stack
  have hroom := h.room
  unfold Machine.pop
  cases hst : m.stack with
  | nil => exact .throw _
  | cons i st =>
    rw [hst] at hstack hroom
    obtain ⟨hi, hst⟩ := forall_mem_cons.1 hstack
    exact .pure ⟨hi, h.of_stack hst (Nat.le_of_succ_le hroom)⟩

lemma Typed.popWord : m.popWord.Yields fun r => r.1.IsBits 256 ∧ r.2.Typed :=
  h.pop.bind fun _ hr => (Item.settledWord_isBits hr.1).bind fun _ he => .pure ⟨he, hr.2⟩

lemma Typed.take (n : Nat) : (m.take n).Yields fun r =>
    ((0 < n → r.1.length = n) ∧ ∀ i ∈ r.1, i.IsBits 256) ∧ r.2.Typed := by
  unfold Machine.take
  extract_lets height kept
  split
  · exact .throw _
  refine .pure ⟨⟨fun hn => ?_, fun i hi => h.stack i (mem_of_mem_take hi)⟩, h.of_stack (fun i hi => ?_) ?_⟩
  · have hkept : kept = height - n := by
      exact if_pos (Int.natCast_pos.2 hn)
    rw [length_take]
    omega
  · exact h.stack i (mem_of_mem_drop hi)
  · exact Nat.le_trans (drop_sublist _ _).length_le h.room

lemma Typed.push (hi : i.Pushable) : (m.push i).Yields Typed :=
  (Stack.push_isBits h.stack hi).bind fun _ hst => .pure (h.of_stack hst.1 hst.2)

lemma Typed.grown {r : Machine × Option Fault} (hr : m.Grown r) : r.1.Typed := by
  cases hr with
  | same => exact h
  | refused => exact h.useGas _ _
  | paid hfee n => exact (h.useGas _ _).of_memory (h.memory.extend n)

end

end Machine

/-! ## Input and returned data -/

lemma Sequence.mem_of_at? {xs : List α} {n : Int} {a : α} (h : at? xs n = some a) : a ∈ xs := by
  unfold at? at h
  split at h
  · exact mem_of_getElem? h
  · split at h
    · exact mem_of_getElem? h
    · cases h

namespace Calldata

variable {c : Calldata}

def Typed : Calldata → Prop
  | .concrete _ items array => (∀ i ∈ items, i.Writable) ∧ array.range = 8
  | .listed _ items => ∀ i ∈ items, i.Writable
  | .symbolic _ size | .sampled _ size => size.IsBits 256

lemma fill_range (array : ArrayTerm) (n : Nat) (items : List Item) :
    (fill array n items).Yields (·.range = array.range) := by
  induction items generalizing array n with
  | nil => exact .pure rfl
  | cons i items ih =>
    have hstore e : Calc.Yields (do
        fill (← store array (← word n) e) (n + 1) items : Calc ArrayTerm) (·.range = array.range) :=
      .next fun key => (store_range array key e).bind fun array' harray =>
        (ih array' (n + 1)).mono fun _ h => h.trans harray
    cases i with
    | expr e => exact hstore e
    | int k | bool b => exact .next hstore
    | absent => exact .throw _

lemma ofBytes_typed (tx : String) (h : ∀ i ∈ items, i.Writable) : (ofBytes tx items).Yields Typed :=
  (fill_range _ 0 items).bind fun _ harray => .pure ⟨h, harray⟩

lemma unknown_typed (tx : String) : (unknown tx).Yields Typed := (symbol_isBits _ 256).bind fun _ hsize => .pure hsize

lemma Typed.size_pushable (h : c.Typed) : c.size.Pushable := by
  cases c with
  | symbolic tx size | sampled tx size => exact .inr h
  | _ => trivial

lemma Typed.sizeWord (h : c.Typed) : c.sizeWord.Yields (IsBits 256) := Item.toWidth_isBits h.size_pushable.fits

lemma chain_isBits {acc : Expr} (hacc : acc.IsBits 8) (index : Expr) (n : Nat) (h : ∀ i ∈ items, i.Writable) :
    (chain index acc n items).Yields (IsBits 8) := by
  induction items generalizing acc n with
  | nil => exact .pure hacc
  | cons i items ih =>
    obtain ⟨hi, hitems⟩ := forall_mem_cons.1 h
    refine .next fun here => ?_
    have hacc : (Item.expr acc).IsBits 8 := hacc
    exact (Item.choose_isBits_right (.expr here) hi.fits hacc).bind fun _ he => ih he (n + 1) hitems

lemma Typed.load (h : c.Typed) (i : Item) : (c.load i).Yields Item.Writable := by
  have hmatch i (hi : i ≠ .absent) : (c.load i).Yields Item.Writable := by
    cases c with
    | concrete tx items array =>
      have hselect index : Calc.Yields (do
          return .expr (← select array index) : Calc Item) Item.Writable :=
        (select_isBits array index).bind fun e he => .pure (show e.IsBits 8 by rwa [h.2] at he)
      cases i with
      | expr e => exact hselect e
      | absent => exact absurd rfl hi
      | _ => exact .next hselect
    | listed tx items =>
      have hfound n : ((Sequence.at? items n).getD (.int 0)).Writable := by
        cases hb : Sequence.at? items n with
        | none => trivial
        | some b => exact h b (Sequence.mem_of_at? hb)
      cases i with
      | expr e => exact (const_isBits 0 8).bind fun _ hzero => (chain_isBits hzero e 0 h).bind fun _ he => .pure he
      | absent => exact absurd rfl hi
      | _ => exact .pure (hfound _)
    | symbolic tx size =>
      cases i with
      | absent => exact absurd rfl hi
      | _ =>
        refine .next fun index => .next fun inside => (select_isBits _ index).bind fun byte hbyte => .next fun zero => ?_
        exact (ite_isBits inside zero hbyte).bind fun e he => (simplified_isBits he).bind fun _ he => .pure he
    | sampled tx size =>
      cases i with
      | absent => exact absurd rfl hi
      | _ => exact .throw _
  cases i with
  | absent => exact .throw _
  | _ => exact hmatch _ nofun

end Calldata

namespace ReturnData

variable {r : ReturnData}

def Typed : ReturnData → Prop
  | .bytes data size => (∀ i ∈ data, i.Writable) ∧ size.Pushable
  | .address _ => True

lemma Typed.size_pushable (h : r.Typed) : r.size.Pushable := by
  cases r with
  | bytes data size => exact h.2
  | address text => trivial

lemma Typed.get (h : r.Typed) (i : Item) : (r.get i).Yields Item.Writable := by
  refine .next fun inside => ?_
  split
  · split
    · split
      · rename_i hx
        exact .pure (h.1 _ (Sequence.mem_of_at? hx))
      · exact .throw _
    · exact .throw _
  · exact .pure trivial

end ReturnData

/-! ## Worlds -/

structure Account.Typed (a : Account) : Prop where
  address : a.address.IsBits 256
  storage : a.storage.array.range = 256

lemma Account.Typed.default : (default : Account).Typed := ⟨⟨rfl, rfl⟩, rfl⟩

namespace Storage

variable {st : Storage}

lemma make_range (unconstrained concrete : Bool) (address : Option Expr) (live : Bool) :
    (make unconstrained concrete address live).Yields (·.array.range = 256) := by
  unfold make
  split
  · exact .pure rfl
  · split
    all_goals exact .next fun _ => .pure rfl

lemma set_range (st : Storage) (key value : Item) : (st.set key value).Yields (·.1.array.range = st.array.range) := by
  unfold set
  extract_lets finish
  have hfinish value : (finish value).Yields (·.1.array.range = st.array.range) := by
    refine (putEntry_range st key value).bind fun st1 hst1 => ?_
    split
    · refine (store_range _ _ _).bind fun array harray => .next fun written => ?_
      have hrange := harray.trans hst1
      split
      · exact .pure hrange
      · refine .next fun slot => ?_
        split
        · exact .pure (by rw [noteLoaded_array]; exact hrange)
        · exact .pure hrange
    · exact .pure hst1
  split
  · split
    all_goals exact .next hfinish
  · exact .next hfinish

end Storage

lemma Account.make_typed (h : address.IsBits 256) (name : Option String) (concrete live : Bool) (nonce : Int)
    (code : Option ProgramId) (s : Session) : (make address name concrete live nonce code).Yields s Typed := by
  cases code <;> cases name <;>
    exact .next fun _ _ => .next fun _ _ => (Engine.Yields.calc (Storage.make_range _ _ _ _)).bind
      fun _ _ _ hstorage => .next fun _ _ => .pure ⟨h, hstorage⟩

namespace World

structure Typed (w : World) : Prop where
  accounts : ∀ {key : Option Nat} {a : Account}, w.find? key = some a → a.Typed
  balances : w.balances.range = 256

section

variable (h : w.Typed)
include h

lemma Typed.put (ha : a.Typed) (key : Option Nat) : (w.put key a).Typed := by
  refine ⟨fun {key' b} hb => ?_, h.balances⟩
  by_cases hkey : key' = key
  · subst hkey
    rw [find?_put_self] at hb
    cases hb
    exact ha
  · rw [find?_put_ne hkey] at hb
    exact h.accounts hb

lemma Typed.of_accounts (haccounts : w'.accounts = w.accounts) (hbalances : w'.balances.range = 256) : w'.Typed :=
  ⟨fun {key a} ha => h.accounts (by rwa [find?, haccounts] at ha), hbalances⟩

lemma Typed.of_copyOf (hcopy : w.CopyOf w') : w'.Typed := by
  refine ⟨fun {key a'} ha' => ?_, by rw [hcopy.rest]; exact h.balances⟩
  obtain ⟨a, ha, written, read, rfl⟩ := exists_of_rel_right (ha' ▸ hcopy.find? key)
  exact ⟨(h.accounts ha).address, (h.accounts ha).storage⟩

lemma Typed.copy (deep : Bool) (s : Session) : (w.copy deep).Yields s Typed :=
  (w.copy_does deep).yields.mono fun _ hw => h.of_copyOf hw.1

lemma Typed.balance (address : Expr) : (w.balance address).Yields (IsBits 256) :=
  h.balances ▸ select_isBits w.balances address

variable (owner value : Expr)

lemma Typed.setBalance : (w.setBalance owner value).Yields Typed :=
  (store_range _ _ _).bind fun _ hrange => .pure (h.of_accounts rfl (hrange.trans h.balances))

lemma Typed.addBalance : (w.addBalance owner value).Yields Typed :=
  .next fun _ => .next fun sum => h.setBalance owner sum

lemma Typed.subBalance : (w.subBalance owner value).Yields Typed :=
  .next fun _ => .next fun rest => h.setBalance owner rest

lemma Typed.transfer (sender receiver amount : Expr) : (w.transfer sender receiver amount).Yields Typed := by
  refine .next fun _ => .next fun enough => .next fun cs => ?_
  have hw : Typed { w with constraints := cs } := h.of_accounts rfl h.balances
  exact (hw.addBalance receiver amount).bind fun w' hw' => hw'.subBalance sender amount

lemma Typed.lookupAt (haddress : address.IsBits 256) (key : Option Nat) (s : Session) :
    (w.lookupAt key address).Yields s fun r => r.1.Typed ∧ r.2.Typed := by
  unfold World.lookupAt
  split
  · rename_i a ha
    exact .pure ⟨h.accounts ha, h⟩
  · exact (Account.make_typed haddress _ false false 0 none s).bind fun a s1 _ ha => .pure ⟨ha, h.put ha key⟩

lemma Typed.create (n : NewAccount) (address : Nat) (nonce : Int) (s : Session) :
    (w.create n address nonce).Yields s fun r => r.1.Typed ∧ r.2.Typed := by
  refine .given (word_isBits address) fun word s1 _ hword => ?_
  refine (Account.make_typed hword none n.concrete n.live nonce none s1).bind fun a s2 _ ha => .next fun balance s3 => ?_
  cases n.code
  case' some c => replace ha : Account.Typed { a with code := c } := ⟨ha.address, ha.storage⟩
  all_goals
    refine .given (h.setBalance _ _) fun w' s1 _ hw' => ?_
    exact .next fun key _ => .pure ⟨ha, hw'.put ha key⟩

lemma Typed.count (creator : Option Nat) : (w.count creator).Typed := by
  unfold World.count
  split
  · rename_i c hc
    obtain ⟨k, -, hc⟩ := Option.bind_eq_some_iff.1 hc
    have hcounted : Account.Typed { c with nonce := c.nonce + 1 } := ⟨(h.accounts hc).address, (h.accounts hc).storage⟩
    exact h.put hcounted creator
  · exact h

end

def Offers (r : World × Except Fault Account) : Prop := r.1.Typed ∧ ∀ a, r.2 = .ok a → a.Typed

lemma Typed.createAccount (h : w.Typed) (n : NewAccount) (s : Session) : (w.createAccount n).Yields s Offers := by
  unfold World.createAccount
  extract_lets known nonce creator finish
  have hfinish w (hw : w.Typed) s : (finish w).Yields s Offers := by
    simp only [finish]
    split
    · exact .pure ⟨hw, fun _ h => by cases h⟩
    · refine ((hw.count creator).create n _ nonce s).bind fun r s1 _ hr => .pure ⟨hr.2, ?_⟩
      rintro _ ⟨⟩
      exact hr.1
  clear_value finish creator known
  split
  · exact (h.create {} _ 0 s).bind fun r s1 _ hr => hfinish r.2 hr.2 s1
  · exact hfinish w h s

lemma Offers.orFail {r : World × Except Fault Account} (h : Offers r) (s : Session) :
    (orFail r).Yields s fun p => p.1.Typed ∧ p.2.Typed := by
  obtain ⟨w, found⟩ := r
  cases found with
  | error f => exact .throw f
  | ok a => exact .pure ⟨h.2 a rfl, h.1⟩

lemma Typed.findOrLoad (h : w.Typed) (n : Int) (s : Session) : (w.findOrLoad (.int n)).Yields s Offers := by
  simp only [World.findOrLoad]
  refine .next fun word s1 => .next fun key s2 => ?_
  split
  · rename_i a ha
    refine .pure ⟨h, ?_⟩
    rintro _ ⟨⟩
    exact h.accounts ha
  · refine .next fun session s3 => ?_
    split
    · exact .pure ⟨h, fun _ h => by cases h⟩
    refine (Engine.Yields.attempt (P := Offers) ?_).bind fun r s4 _ hr => ?_
    · refine .bind (Engine.Calm.grows _) fun found s4 _ _ => ?_
      split
      · exact h.createAccount _ s4
      · refine .bind (Engine.Calm.grows _) fun code s5 _ _ => ?_
        exact h.createAccount _ s5
    · cases r with
      | ok r => exact .pure (hr r rfl)
      | error f => exact .pure ⟨h, fun _ h => by cases h⟩

end World

/-! ## Programs -/

def Bytecode.Typed : Bytecode → Prop
  | .cells items => ∀ i ∈ items, i.Writable
  | _ => True

/-- What the instruction pushes are bytes, as many as it takes or fewer, and together they fit into a word. -/
def Instr.Typed (i : Instr) : Prop :=
  ∀ items, i.argument = some (.cells items) →
    (∀ c ∈ items, c.Writable) ∧ items.length ≤ immediates i.opcode ∧ immediates i.opcode ≤ 32

structure Program.Typed (p : Program) : Prop where
  code : p.code.Typed
  instrs : ∀ i ∈ p.instrs.toList, i.Typed

namespace Instr

lemma immediates_ofByte? {b : Nat} {op : Opcode} (h : Opcode.ofByte? b = some op) : immediates op ≤ 32 := by
  have hspan := span_ofByte? b
  rw [span, h] at hspan
  change immediates op = Evm.immediateLength b at hspan
  rw [hspan]
  unfold Evm.immediateLength
  split <;> omega

lemma ofBytes_typed (bytes : List Nat) : ∀ i ∈ ofBytes bytes, i.Typed := by
  intro i hi items hitems
  obtain ⟨n, hn⟩ := mem_iff_getElem?.1 hi
  have hroom : keptLength bytes ≤ bytes.length := by
    unfold keptLength
    split <;> omega
  obtain ⟨k, c, -, -, rfl, -⟩ := decode_getElem? _ _ hroom hn
  simp only [ofCell] at hitems
  split at hitems
  · cases hitems
  · cases hitems

/-- Where no opcode is read there is nothing to push, and a push takes at most a word. -/
lemma span_opcodeOfCell (c : Item) :
    span opcodeOfCell c = immediates ((opcodeOfCell c).getD .invalid) ∧ span opcodeOfCell c ≤ 32 := by
  cases hop : opcodeOfCell c with
  | none => simp [span, hop, immediates]
  | some op =>
    refine ⟨by simp [span, hop], ?_⟩
    simp only [span, hop]
    unfold opcodeOfCell at hop
    split at hop
    · split at hop
      · exact immediates_ofByte? hop
      · cases hop
    · cases hop

lemma decode_cells_typed (h : ∀ i ∈ items, i.Writable) {room : Nat} (hroom : room ≤ items.length) (address : Nat) :
    ∀ i ∈ decode opcodeOfCell (fun arg => if arg.isEmpty then none else some (.cells arg)) room address items,
      i.Typed := by
  intro i hi cells hcells
  obtain ⟨n, hn⟩ := mem_iff_getElem?.1 hi
  obtain ⟨k, c, -, -, rfl, -⟩ := decode_getElem? _ _ hroom hn
  obtain ⟨hspan, hword⟩ := span_opcodeOfCell c
  have htaken : cells = (items.drop (k + 1)).take (span opcodeOfCell c) := by
    simp only [ofCell] at hcells
    split at hcells
    · cases hcells
    · split at hcells
      · cases hcells
      · cases hcells
        rfl
  subst htaken
  refine ⟨fun c hc => h c (mem_of_mem_drop (mem_of_mem_take hc)), ?_, ?_⟩
  · calc
      _ ≤ span opcodeOfCell c := length_take_le _ _
      _ = _ := hspan
  · exact hspan ▸ hword

lemma ofCode_typed (h : code.Typed) (his : ofCode code = .ok is) : ∀ i ∈ is, i.Typed := by
  cases code with
  | hex text =>
    simp only [ofCode] at his
    split at his
    · cases his
      exact ofBytes_typed _
    · cases his
  | raw bytes =>
    cases his
    exact ofBytes_typed bytes
  | cells items =>
    obtain ⟨room, hroom, rfl⟩ := ofCells_decodes his
    exact decode_cells_typed h hroom 0

end Instr

namespace Program

variable {p : Program}

lemma IsOf.typed (h : p.IsOf code) (hcode : code.Typed) : p.Typed := ⟨h.code ▸ hcode, Instr.ofCode_typed hcode h.instrs⟩

lemma IsRead.typed (h : p.IsRead) : p.Typed := by
  rcases h with rfl | ⟨known, text, known', hmake⟩
  · exact ⟨trivial, nofun⟩
  simp only [make] at hmake
  split at hmake
  · cases hmake
  · rename_i hfault
    cases hmake
    exact (assign_isOf hfault).typed trivial

end Program

/-! ## Transactions and states -/

/-- What a frame knows of its surroundings becomes a word where it is pushed. -/
structure Environment.Typed (e : Environment) : Prop where
  address : e.address.IsBits 256
  blockNumber : e.blockNumber.IsBits 256
  chainId : e.chainId.IsBits 256
  sender : e.sender.Pushable
  calldata : e.calldata.Typed
  gasPrice : e.gasPrice.Pushable
  callValue : e.callValue.Pushable
  origin : e.origin.Pushable
  baseFee : e.baseFee.Pushable

structure Tx.Typed (tx : Tx) : Prop where
  callee : tx.callee.Typed
  caller : tx.caller.Pushable
  calldata : tx.calldata.Typed
  gasPrice : tx.gasPrice.Pushable
  baseFee : tx.baseFee.Pushable
  origin : tx.origin.Pushable
  value : tx.value.Pushable

structure TxRequest.Typed (r : TxRequest) : Prop where
  caller : r.caller.Pushable
  data : ∀ d, r.data = some d → d.Typed
  gasPrice : r.gasPrice.Fits 256
  baseFee : r.baseFee.Fits 256
  origin : r.origin.Fits 256
  value : r.value.Fits 256

structure GState.Typed (g : GState) : Prop where
  world : g.world.Typed
  env : g.env.Typed
  machine : g.machine.Typed
  lastReturn : ∀ r, g.lastReturn = some r → r.Typed

lemma Tx.orVariable_pushable (h : i.Fits 256) (name : String) : (orVariable i name).Yields Item.Pushable := by
  cases i with
  | absent => exact (symbol_isBits name 256).bind fun _ he => .pure (.inr he)
  | expr e => exact .pure h
  | _ => exact .pure trivial

lemma Tx.make_typed {callee : Account} (hr : r.Typed) (hcallee : callee.Typed) (kind : TxKind) (before : Accounts)
    (s : Session) : (make r kind callee before).Yields s Typed := by
  unfold make
  extract_lets suffix finish
  have hfinish id s : (finish id).Yields s Typed := by
    simp only [finish]
    split
    on_goal 1 => have hdata := hr.data _ ‹_›
    on_goal 2 => refine .given (Calldata.unknown_typed id) fun data s1 _ hdata => ?_
    all_goals
      refine .given (orVariable_pushable hr.gasPrice _) fun gasPrice s1 _ hgasPrice => ?_
      refine .given (orVariable_pushable hr.baseFee _) fun baseFee s2 _ hbaseFee => ?_
      refine .given (orVariable_pushable hr.origin _) fun origin s3 _ horigin => ?_
      refine .given (orVariable_pushable hr.value _) fun value s4 _ hvalue => ?_
      exact .pure ⟨hcallee, hr.caller, hdata, hgasPrice, hbaseFee, horigin, hvalue⟩
  split
  · exact hfinish _ s
  · exact .next hfinish

lemma Tx.creation_typed (hw : w.Typed) (hr : r.Typed) (name : String) (address : Option Nat) (s : Session) :
    (creation w r name address).Yields s fun p => p.1.Typed ∧ p.2.Typed := by
  refine .next fun sender s1 => .next fun creator s2 => ?_
  refine (hw.createAccount _ s2).bind fun made s3 _ hmade => (hmade.orFail s3).bind fun p s4 _ hp => ?_
  have hnamed : Account.Typed (if name.isEmpty then p.1 else { p.1 with name := name }) := by
    split
    · exact hp.1
    · exact ⟨hp.1.address, hp.1.storage⟩
  have hr' : TxRequest.Typed { r with isStatic := false } := { hr with }
  exact .next fun key s5 => (make_typed hr' hnamed _ _ s5).bind fun tx s6 _ htx => .pure ⟨htx, hp.2.put hnamed key⟩

lemma Tx.start_typed {tx : Tx} (htx : tx.Typed) (hw : w.Typed) (s : Session) : (tx.start w).Yields s GState.Typed := by
  refine .next fun key s1 => ?_
  refine .given (symbol_isBits "block_number" 256) fun number s2 _ hnumber => ?_
  refine .given (symbol_isBits "chain_id" 256) fun chain s3 _ hchain => ?_
  refine .next fun amount s4 => .next fun sender s5 => ?_
  refine .given (hw.transfer _ _ _) fun w' s6 _ hw' => .next fun id s7 => .pure ?_
  have hmachine : Machine.Typed { gasLimit := .int 1000000000 } :=
    ⟨forall_mem_nil _, Nat.zero_le _, forall_mem_nil _, Nat.zero_le _, .empty, trivial⟩
  exact ⟨hw', ⟨htx.callee.address, hnumber, hchain, htx.caller, htx.calldata, htx.gasPrice, htx.value, htx.origin,
    htx.baseFee⟩, hmachine, nofun⟩

namespace GState

variable {g : GState} (h : g.Typed)
include h

lemma Typed.active : g.active.Typed := by
  unfold GState.active
  cases ha : g.world.find? g.env.active with
  | none => exact .default
  | some a => exact h.world.accounts ha

lemma Typed.of_machine (hm : m.Typed) : Typed { g with machine := m } := { h with machine := hm }

lemma Typed.of_world (hw : w.Typed) : Typed { g with world := w } := { h with world := hw }

lemma Typed.setActive (ha : a.Typed) : (g.setActive a).Typed := h.of_world (h.world.put ha _)

lemma Typed.constrain (e : Expr) : (g.constrain e).Yields Typed :=
  (g.constrain_yields e).mono fun _ hg => hg ▸ h.of_world (h.world.of_accounts rfl h.world.balances)

lemma Typed.copy (deep : Bool) (s : Session) : (g.copy deep).Yields s Typed := by
  refine .of_run fun g' s' hrun => ?_
  obtain ⟨-, hw, hm, ⟨a, ha⟩, -⟩ := copy_run hrun
  have hw := ((h.world.copy deep s).ok hw).2
  have hm := ((Engine.Yields.calc g.machine.copy_yields).ok hm).2
  exact ⟨((hw.lookupAt h.env.address _ _).ok ha).2.2, h.env, h.machine.of_copyOf hm, h.lastReturn⟩

end GState

/-! ## Sessions -/

structure Session.Typed (s : Session) : Prop where
  programs : ∀ p ∈ s.code.programs, p.Typed
  suspended : ∀ c ∈ s.shared.suspended, c.Typed

namespace Session.Typed

variable {s s' : Session}

lemma grows (h : s.Typed) (hs : s.Grows s') : s'.Typed :=
  ⟨fun p hp => (hs.added hp).elim (h.programs p) Program.IsRead.typed, hs.suspended ▸ h.suspended⟩

end Session.Typed
end EvmAudit
