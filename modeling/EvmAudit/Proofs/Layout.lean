import EvmAudit.Code.Program
import EvmAudit.Proofs.Evm

/-!
# Where instructions are

The machine counts bytes, a program counts instructions. Disassembly walks over the code as the machine does: the
instruction after the one at an address is the one behind its immediate, and every address of an instruction in the
kept part of the code has exactly one index. What an instruction pushes is the number that its immediate spells.
-/

namespace EvmAudit

open List Option
open Opcode (ofByte?)

variable {b room address i : Nat} {instr : Instr} {instrs : List Instr} {bytes : List Nat}

lemma Opcode.ofByte?_eq_some_iff {op : Opcode} : ofByte? b = some op ↔ op ∈ all ∧ op.encoding = b := by
  constructor
  · intro h
    by_cases hb : b < 256
    · have hbytes : ∀ b < 256, ∀ op ∈ ofByte? b, op ∈ all ∧ op.encoding = b := by decide +kernel
      exact hbytes b hb op h
    have hsingles : ∀ op ∈ singles, op.encoding < 256 := by decide +kernel
    unfold ofByte? at h
    rw [if_neg (by omega), if_neg (by omega), if_neg (by omega), if_neg (by omega)] at h
    have hop := hsingles op (mem_of_find?_eq_some h)
    have heq : op.encoding = b := by simpa using find?_some h
    omega
  · rintro ⟨h, rfl⟩
    have hall : ∀ op ∈ all, ofByte? op.encoding = some op := by decide +kernel
    exact hall op h

lemma Opcode.ne_zero_of_push {n : Nat} (h : ofByte? b = some (.push n)) : n ≠ 0 := by
  have hall : ∀ op ∈ all, op ≠ .push 0 := by decide +kernel
  rintro rfl
  exact hall _ (ofByte?_eq_some_iff.1 h).1 rfl

namespace Instr

def stop (i : Instr) : Nat := i.address + 1 + immediates i.opcode

lemma address_lt_stop (i : Instr) : i.address < i.stop := by
  unfold stop
  omega

section Decode

variable {α : Type} (opcodeOf : α → Option Opcode) (argumentOf : List α → Option Argument) {cells : List α}

def span (c : α) : Nat := ((opcodeOf c).map immediates).getD 0

def ofCell (address : Nat) (c : α) (rest : List α) : Instr where
  address := address
  opcode := (opcodeOf c).getD .invalid
  argument := if span opcodeOf c = 0 then none else argumentOf (rest.take (span opcodeOf c))

lemma decode_cons (room address : Nat) (c : α) (rest : List α) :
    decode opcodeOf argumentOf (room + 1) address (c :: rest) =
      ofCell opcodeOf argumentOf address c rest ::
        decode opcodeOf argumentOf (room - span opcodeOf c) (address + 1 + span opcodeOf c)
          (rest.drop (span opcodeOf c)) := by
  cases h : opcodeOf c <;> simp [decode, ofCell, span, h]

lemma decode_head? (address : Nat) (hroom : room ≤ cells.length) :
    (decode opcodeOf argumentOf room address cells)[0]?.map (·.address) = if 0 < room then some address else none := by
  cases room with
  | zero => simp [decode]
  | succ room =>
    cases cells with
    | nil => exact absurd hroom (Nat.not_succ_le_zero room)
    | cons c rest => simp [decode_cons, ofCell]

lemma le_length_drop {c : α} {rest : List α} (hroom : room + 1 ≤ (c :: rest).length) :
    room - span opcodeOf c ≤ (rest.drop (span opcodeOf c)).length := by
  simp only [length_drop]
  simp only [length_cons] at hroom
  omega

/-- An instruction comes from the cell at its address, and the next one from the cell behind its immediate, unless the
room ends there. -/
lemma decode_getElem? (hroom : room ≤ cells.length)
    (h : (decode opcodeOf argumentOf room address cells)[i]? = some instr) : ∃ k c, k < room ∧ cells[k]? = some c ∧
      instr = ofCell opcodeOf argumentOf (address + k) c (cells.drop (k + 1)) ∧
      ((decode opcodeOf argumentOf room address cells)[i + 1]?.map (·.address) =
        if k + 1 + span opcodeOf c < room then some (address + k + 1 + span opcodeOf c) else none) := by
  induction i generalizing room address cells
  all_goals
    rcases room with _ | room
    · simp [decode] at h
    rcases cells with _ | ⟨c, rest⟩
    · exact absurd hroom (Nat.not_succ_le_zero room)
    rw [decode_cons] at h ⊢
  case zero =>
    simp only [getElem?_cons_zero, some.injEq] at h
    refine ⟨0, c, by omega, rfl, by simp [← h], ?_⟩
    rw [getElem?_cons_succ, decode_head? _ _ _ (le_length_drop opcodeOf hroom)]
    have hiff : 0 < room - span opcodeOf c ↔ 0 + 1 + span opcodeOf c < room + 1 := by omega
    simp [hiff]
  case succ i ih =>
    simp only [getElem?_cons_succ] at h ⊢
    obtain ⟨k, d, hk, hd, hi, hnext⟩ := ih (le_length_drop opcodeOf hroom) h
    have hshift : address + 1 + span opcodeOf c + k = address + (span opcodeOf c + k + 1) := by omega
    refine ⟨span opcodeOf c + k + 1, d, by omega, ?_, ?_, ?_⟩
    · rwa [getElem?_drop] at hd
    · rw [hi, drop_drop, drop_succ_cons]
      congr 2
    · have hiff : k + 1 + span opcodeOf d < room - span opcodeOf c ↔
          span opcodeOf c + k + 1 + 1 + span opcodeOf d < room + 1 := by omega
      rw [hnext, hshift]
      simp [hiff]

lemma le_address_of_mem_decode (h : instr ∈ decode opcodeOf argumentOf room address cells) :
    address ≤ instr.address := by
  fun_induction decode opcodeOf argumentOf room address cells with
  | case1 | case2 => cases h
  | case3 _ _ _ _ _ ih | case4 _ _ _ _ _ _ _ _ ih =>
    rcases mem_cons.1 h with rfl | h
    · exact Nat.le_refl _
    · have := ih h
      omega

lemma pairwise_decode (room address : Nat) (cells : List α) :
    (decode opcodeOf argumentOf room address cells).Pairwise (·.stop ≤ ·.address) := by
  fun_induction decode opcodeOf argumentOf room address cells with
  | case1 | case2 => exact .nil
  | case3 _ _ _ _ _ ih | case4 _ _ _ _ _ _ _ _ ih => exact .cons (fun instr h => le_address_of_mem_decode _ _ h) ih

lemma address_of_decode (h : (decode opcodeOf argumentOf room address cells)[0]? = some instr) :
    instr.address = address := by
  cases room with
  | zero => simp [decode] at h
  | succ room =>
    cases cells with
    | nil => simp [decode] at h
    | cons c rest =>
      rw [decode_cons] at h
      cases h
      rfl

lemma stop_ofCell (address : Nat) (c : α) (rest : List α) :
    (ofCell opcodeOf argumentOf address c rest).stop = address + 1 + span opcodeOf c := by
  unfold stop ofCell span
  cases opcodeOf c <;> rfl

lemma exists_mem_decode {k : Nat} (hroom : room ≤ cells.length) (hk : address ≤ k) (hlt : k < address + room) :
    ∃ i ∈ decode opcodeOf argumentOf room address cells, i.address ≤ k ∧ k < i.stop := by
  induction room using Nat.strongRecOn generalizing address cells with
  | ind room ih =>
    rcases room with _ | room
    · omega
    rcases cells with _ | ⟨c, rest⟩
    · exact absurd hroom (Nat.not_succ_le_zero room)
    rw [decode_cons]
    by_cases hin : k < address + 1 + span opcodeOf c
    · refine ⟨_, mem_cons_self, hk, ?_⟩
      rwa [stop_ofCell]
    · obtain ⟨i, hi, hik⟩ := ih (room - span opcodeOf c) (by omega) (le_length_drop opcodeOf hroom)
        (Nat.not_lt.1 hin) (by omega)
      exact ⟨i, mem_cons_of_mem _ hi, hik⟩

end Decode

lemma indexOf?_address (hinc : instrs.Pairwise (·.stop ≤ ·.address)) (h : instrs[i]? = some instr) :
    indexOf? instr.address instrs = some i := by
  obtain ⟨hi, rfl⟩ := List.getElem?_eq_some_iff.1 h
  unfold indexOf?
  rw [findIdx?_eq_some_iff_getElem]
  refine ⟨hi, by simp, fun j hj => ?_⟩
  have := Nat.lt_of_lt_of_le (address_lt_stop _) (pairwise_iff_getElem.1 hinc j i (by omega) hi hj)
  simp
  omega

lemma ofCells_decodes {items : List Item} (h : ofCells items = .ok instrs) : ∃ room ≤ items.length,
    instrs = decode opcodeOfCell (fun arg => if arg.isEmpty then none else some (.cells arg)) room 0 items := by
  unfold ofCells at h
  extract_lets tail finish at h
  have hfinish trailer (hdone : finish trailer = .ok instrs) : ∃ room ≤ items.length, instrs = decode
      opcodeOfCell (fun arg => if arg.isEmpty then none else some (.cells arg)) room 0 items := by
    cases hdone
    refine ⟨_, ?_, rfl⟩
    split <;> omega
  split at h
  · exact hfinish _ h
  cases htrailer : (Bytecode.bytesOf tail).map Bytecode.hasTrailer with
  | error f =>
    rw [htrailer] at h
    cases h
  | ok trailer =>
    rw [htrailer] at h
    exact hfinish trailer h

/-- The instructions of a code begin at its start, each of them behind the ones before it. -/
lemma laid_ofCode {code : Bytecode} (h : ofCode code = .ok instrs) :
    instrs.Pairwise (·.stop ≤ ·.address) ∧ ∀ d, instrs[0]? = some d → d.address = 0 := by
  have hdecode {α} {opcodeOf : α → Option Opcode} {argumentOf} {room}
      {cells} (h : instrs = decode opcodeOf argumentOf room 0 cells) :
      instrs.Pairwise (·.stop ≤ ·.address) ∧ ∀ d, instrs[0]? = some d → d.address = 0 := by
    rw [h]
    exact ⟨pairwise_decode opcodeOf argumentOf room 0 cells, fun _ => address_of_decode opcodeOf argumentOf⟩
  cases code with
  | hex text =>
    simp only [ofCode] at h
    split at h
    · cases h
      exact hdecode rfl
    · cases h
  | raw bytes =>
    cases h
    exact hdecode rfl
  | cells items =>
    obtain ⟨room, -, hinstrs⟩ := ofCells_decodes h
    exact hdecode hinstrs

/-! ## Code of plain bytes -/

/-- The part of a code that is disassembled: all of it but for a metadata trailer. -/
def keptLength (bytes : List Nat) : Nat :=
  if Bytecode.hasTrailer (Bytecode.lastOf 43 bytes) then bytes.length - 43 else bytes.length

lemma keptLength_le (bytes : List Nat) : keptLength bytes ≤ bytes.length := by
  unfold keptLength
  split <;> omega

def hexArgument (arg : List Nat) : Option Argument := some (.hex ("0x" ++ Hex.ofBytes arg))

lemma ofBytes_eq (bytes : List Nat) : ofBytes bytes = decode ofByte? hexArgument (keptLength bytes) 0 bytes := rfl

lemma span_ofByte? (b : Nat) : span ofByte? b = Evm.immediateLength b := by
  have hsingles : ∀ op ∈ Opcode.singles, immediates op = 0 := by decide
  unfold span ofByte? Evm.immediateLength
  split
  · rfl
  split
  · rfl
  split
  · rfl
  split
  · rfl
  · cases h : Opcode.singles.find? (·.encoding == b) with
    | none => rfl
    | some op => exact hsingles op (mem_of_find?_eq_some h)

def ofByte (bytes : List Nat) (a b : Nat) : Instr := ofCell Opcode.ofByte? hexArgument a b (bytes.drop (a + 1))

lemma ofByte_push (bytes : List Nat) (a : Nat) (h1 : 0x60 ≤ b) (h2 : b ≤ 0x7f) :
    ofByte bytes a b = ⟨a, .push (b - 0x5f),
      some (.hex ("0x" ++ Hex.ofBytes ((bytes.drop (a + 1)).take (b - 0x5f))))⟩ := by
  have hop : ofByte? b = some (.push (b - 0x5f)) := by simp [ofByte?, h1, h2]
  have hspan : span ofByte? b = b - 0x5f := by simp [span, hop, immediates]
  simp [ofByte, ofCell, hop, hspan, hexArgument, show ¬ b - 0x5f = 0 by omega]

lemma ofByte?_dup (h1 : 0x80 ≤ b) (h2 : b ≤ 0x8f) : ofByte? b = some (.dup (b - 0x7f)) := by
  simp [ofByte?, h1, h2, show ¬ b ≤ 0x7f by omega]

lemma ofByte?_swap (h1 : 0x90 ≤ b) (h2 : b ≤ 0x9f) : ofByte? b = some (.swap (b - 0x8f)) := by
  simp [ofByte?, h1, h2, show ¬ b ≤ 0x7f by omega, show ¬ b ≤ 0x8f by omega]

/-- The machine at an address is the program at an index: either there is an instruction with this address, or both are
at the end. -/
def Located (bytes : List Nat) (i a : Nat) : Prop :=
  (∃ instr, (ofBytes bytes)[i]? = some instr ∧ instr.address = a) ∨ i = (ofBytes bytes).length ∧ bytes.length ≤ a

section Located

variable {a : Nat}

lemma ofBytes_getElem? (h : (ofBytes bytes)[i]? = some instr) :
    ∃ b, bytes[instr.address]? = some b ∧ instr = ofByte bytes instr.address b ∧
      ((ofBytes bytes)[i + 1]?.map (·.address) =
        if instr.address + 1 + Evm.immediateLength b < keptLength bytes then
          some (instr.address + 1 + Evm.immediateLength b) else none) := by
  obtain ⟨k, b, -, hb, rfl, hnext⟩ := decode_getElem? _ _ (keptLength_le bytes) h
  simp only [Nat.zero_add, span_ofByte?] at hb hnext ⊢
  exact ⟨b, hb, rfl, hnext⟩

lemma Located.getElem? (h : Located bytes i a) (hb : bytes[a]? = some b) :
    (ofBytes bytes)[i]? = some (ofByte bytes a b) := by
  rcases h with ⟨instr, hi, rfl⟩ | ⟨-, ha⟩
  · obtain ⟨c, hc, he, -⟩ := ofBytes_getElem? hi
    obtain rfl : c = b := some.inj (hc.symm.trans hb)
    rw [hi, ← he]
  · rw [getElem?_eq_none ha] at hb
    cases hb

/-- Behind an instruction comes the index after it, unless the machine runs into the part that was left out. -/
lemma Located.next (h : Located bytes i a) (hb : bytes[a]? = some b)
    (hkept : a + 1 + Evm.immediateLength b < bytes.length → a + 1 + Evm.immediateLength b < keptLength bytes) :
    Located bytes (i + 1) (a + 1 + Evm.immediateLength b) := by
  have hi := h.getElem? hb
  obtain ⟨c, hc, -, hnext⟩ := ofBytes_getElem? hi
  obtain rfl : c = b := some.inj (hc.symm.trans hb)
  split at hnext
  · exact .inl (map_eq_some_iff.1 hnext)
  rename_i hend
  refine .inr ⟨?_, Nat.not_lt.1 fun hlt => hend (hkept hlt)⟩
  have hlen := (List.getElem?_eq_some_iff.1 hi).1
  have hnone := getElem?_eq_none_iff.1 (map_eq_none_iff.1 hnext)
  omega

lemma located_zero (hkept : 0 < bytes.length → 0 < keptLength bytes) : Located bytes 0 0 := by
  have hhead := decode_head? ofByte? hexArgument 0 (keptLength_le bytes)
  split at hhead
  · exact .inl (map_eq_some_iff.1 hhead)
  · rename_i hend
    have hnone : (ofBytes bytes).length ≤ 0 := getElem?_eq_none_iff.1 (map_eq_none_iff.1 hhead)
    exact .inr ⟨by omega, Nat.not_lt.1 fun hlt => hend (hkept hlt)⟩

lemma located_of_boundary (h : Evm.Boundary bytes a) (ha : a < keptLength bytes) : ∃ i, Located bytes i a := by
  induction h with
  | zero => exact ⟨0, located_zero fun _ => ha⟩
  | next _ hb ih =>
    obtain ⟨i, hi⟩ := ih (by omega)
    exact ⟨i + 1, hi.next hb fun _ => ha⟩

lemma Located.indexOf? (h : Located bytes i a) (ha : a < bytes.length) : indexOf? a (ofBytes bytes) = some i := by
  rcases h with ⟨instr, hi, rfl⟩ | ⟨-, hle⟩
  · exact indexOf?_address (pairwise_decode _ _ _ _ _) hi
  · omega

end Located

/-! ## Tiles -/

/-- The instruction is the one that the table has at the byte; a byte that is not in the table is no instruction. -/
def IsNamed (b : Nat) (op : Opcode) : Prop :=
  op ∈ Opcode.all ∧ op.encoding = b ∨ (∀ op' ∈ Opcode.all, op'.encoding ≠ b) ∧ op = .invalid

/-- The immediate of an instruction: for a push the bytes that follow, of which there may be fewer at the end. -/
def argumentAt (bytes : List Nat) (address : Nat) : Opcode → Option Argument
  | .push n => some (.hex ("0x" ++ Hex.ofBytes ((bytes.drop (address + 1)).take n)))
  | _ => none

/-- The instructions lie side by side in the code from its start to its end, each at a byte of its own. -/
structure Tile (bytes : List Nat) (instrs : List Instr) : Prop where
  first : instrs.head?.map (·.address) = if bytes = [] then none else some 0
  increasing : instrs.Pairwise (·.address < ·.address)
  next : ∀ {k : Nat} {i j : Instr}, instrs[k]? = some i → instrs[k + 1]? = some j → j.address = i.stop
  covers : ∀ k < bytes.length, ∃ i ∈ instrs, (i.address ≤ k ∧ k < i.stop) ∧
    ∀ j ∈ instrs, j.address ≤ k ∧ k < j.stop → j = i
  opcode : ∀ i ∈ instrs, ∃ b, bytes[i.address]? = some b ∧ IsNamed b i.opcode
  argument : ∀ i ∈ instrs, i.argument = argumentAt bytes i.address i.opcode

lemma isNamed_ofByte (bytes : List Nat) (a b : Nat) : IsNamed b (ofByte bytes a b).opcode := by
  cases h : ofByte? b with
  | some op => exact .inl (Opcode.ofByte?_eq_some_iff.1 (by simp [ofByte, ofCell, h]))
  | none =>
    refine .inr ⟨fun op hop heq => ?_, by simp [ofByte, ofCell, h]⟩
    rw [Opcode.ofByte?_eq_some_iff.2 ⟨hop, heq⟩] at h
    cases h

lemma argument_ofByte (bytes : List Nat) (a b : Nat) :
    (ofByte bytes a b).argument = argumentAt bytes a (ofByte bytes a b).opcode := by
  unfold ofByte ofCell span
  cases h : ofByte? b with
  | none => rfl
  | some op =>
    cases op with
    | push n => exact if_neg (Opcode.ne_zero_of_push h)
    | _ => rfl

/-- A code without a metadata trailer is tiled by its instructions. -/
theorem disassembly_tiles_code {bytes : List Nat} (h : Bytecode.hasTrailer (Bytecode.lastOf 43 bytes) = false) :
    ∃ instrs, ofCode (.raw bytes) = .ok instrs ∧
      (∀ text, Hex.decode? text = some bytes → ofCode (.hex text) = .ok instrs) ∧ Tile bytes instrs := by
  have hkept : keptLength bytes = bytes.length := by simp [keptLength, h]
  have hpairwise : (ofBytes bytes).Pairwise (·.stop ≤ ·.address) := pairwise_decode _ _ _ _ _
  have hmem i (hi : i ∈ ofBytes bytes) : ∃ b, bytes[i.address]? = some b ∧ i = ofByte bytes i.address b := by
    obtain ⟨k, hk⟩ := getElem?_of_mem hi
    obtain ⟨b, hb, hi, -⟩ := ofBytes_getElem? hk
    exact ⟨b, hb, hi⟩
  refine ⟨ofBytes bytes, rfl, fun text htext => by simp [ofCode, htext], ?_, ?_, ?_, ?_, ?_, ?_⟩
  · have hhead := decode_head? ofByte? hexArgument 0 (keptLength_le bytes)
    rw [head?_eq_getElem?, ofBytes_eq, hhead, hkept]
    cases bytes <;> rfl
  · exact hpairwise.imp fun {i _} hij => Nat.lt_of_lt_of_le i.address_lt_stop hij
  · intro k i j hi hj
    obtain ⟨b, -, heq, hnext⟩ := ofBytes_getElem? hi
    rw [hj] at hnext
    split at hnext
    · rw [heq, ofByte, stop_ofCell, span_ofByte?]
      exact some.inj hnext
    · cases hnext
  · intro k hk
    have hlt : k < 0 + keptLength bytes := by omega
    obtain ⟨i, hi, hik⟩ : ∃ i ∈ ofBytes bytes, i.address ≤ k ∧ k < i.stop :=
      exists_mem_decode _ _ (keptLength_le bytes) (Nat.zero_le k) hlt
    refine ⟨i, hi, hik, fun j hj hjk => ?_⟩
    obtain ⟨m, hm, rfl⟩ := getElem_of_mem hi
    obtain ⟨n, hn, rfl⟩ := getElem_of_mem hj
    rcases Nat.lt_trichotomy m n with hmn | rfl | hmn
    · have := pairwise_iff_getElem.1 hpairwise m n hm hn hmn
      omega
    · rfl
    · have := pairwise_iff_getElem.1 hpairwise n m hn hm hmn
      omega
  · intro i hi
    obtain ⟨b, hb, heq⟩ := hmem i hi
    refine ⟨b, hb, ?_⟩
    rw [heq]
    exact isNamed_ofByte bytes _ b
  · intro i hi
    obtain ⟨b, -, heq⟩ := hmem i hi
    rw [heq]
    exact argument_ofByte bytes _ b

/-- The last instruction is cut by the end of the code, and the third byte is no instruction. -/
theorem tile_short_code : Bytecode.hasTrailer (Bytecode.lastOf 43 [0x60, 0x5b, 0x0c, 0x5b, 0x61, 0x01]) = false ∧
    Tile [0x60, 0x5b, 0x0c, 0x5b, 0x61, 0x01]
      [⟨0, .push 1, some (.hex "0x5b")⟩, ⟨2, .invalid, none⟩, ⟨3, .jumpdest, none⟩, ⟨4, .push 2, some (.hex "0x01")⟩] := by
  have htrailer : Bytecode.hasTrailer (Bytecode.lastOf 43 [0x60, 0x5b, 0x0c, 0x5b, 0x61, 0x01]) = false := by decide
  obtain ⟨instrs, hraw, -, htile⟩ := disassembly_tiles_code htrailer
  obtain rfl : _ = instrs := Except.ok.inj hraw
  have hlist : ofBytes [0x60, 0x5b, 0x0c, 0x5b, 0x61, 0x01] =
      [⟨0, .push 1, some (.hex "0x5b")⟩, ⟨2, .invalid, none⟩, ⟨3, .jumpdest, none⟩, ⟨4, .push 2, some (.hex "0x01")⟩] := by
    with_unfolding_all rfl
  rw [hlist] at htile
  exact ⟨htrailer, htile⟩

end Instr

lemma Program.addEntries_keeps (arguments : List (Option Argument)) (indices : List Nat) (r : Assigned) :
    (addEntries arguments indices r).program.code = r.program.code ∧
      (addEntries arguments indices r).program.instrs = r.program.instrs := by
  induction indices generalizing r with
  | nil => exact ⟨rfl, rfl⟩
  | cons i rest ih =>
    unfold addEntries
    split
    · rename_i info known _
      rw [(ih _).1, (ih _).2]
      dsimp only [addEntry]
      split <;> exact ⟨rfl, rfl⟩
    · exact ⟨rfl, rfl⟩

lemma Program.make_instrs {known known' : Selectors} {text : String} {p : Program}
    (h : make known (.hex text) = .ok (p, known')) (hbytes : Hex.decode? text = some bytes) :
    p.instrs = (Instr.ofBytes bytes).toArray := by
  simp only [make] at h
  split at h
  · cases h
  · cases h
    simp only [assign, Instr.ofCode, hbytes]
    rw [(addEntries_keeps _ _ _).2]
end EvmAudit
