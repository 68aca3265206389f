import EvmAudit.Proofs.Immediate
import EvmAudit.Proofs.Layout

/-!
# Jump tables

A push of up to four bytes with a comparison behind it names a function by its selector, and a push behind both says
where the function starts. A program of plain bytes has one selector of four bytes for each such place, whether its code
is given in digits or in cells. There is one exception: in digits the immediate of a push that ends the code is a marker
without digits, and a start of a function that is written so cannot be read.
-/

namespace EvmAudit

open List Instr Opcode Hex Bytecode

variable {instrs : List Instr} {i : Nat} {bytes : List Nat} {argumentOf : List Nat → Option Argument} {code : Bytecode}

/-! ## Patterns -/

namespace Pattern

variable {α : Type}

lemma findFrom_eq [BEq α] (pattern : List (List α)) (i : Nat) (xs : List α) :
    findFrom pattern i xs = ((range (xs.length + 1)).filter fun k => fits pattern (xs.drop k)).map (i + ·) := by
  induction xs generalizing i with
  | nil => cases h : fits pattern [] <;> simp [findFrom, h]
  | cons x xs ih =>
    have hshift : (fun k => i + (k + 1)) = fun k => i + 1 + k := by
      funext k
      omega
    rw [range_succ_eq_map, filter_cons, filter_map]
    cases h : fits pattern (x :: xs) <;>
      simp [findFrom, h, ih (i + 1), Function.comp_def, hshift]

variable [DecidableEq α] (pattern : List (List α)) (xs : List α)

lemma find_eq : find pattern xs = (range (xs.length + 1)).filter fun k => fits pattern (xs.drop k) := by
  simp [find, findFrom_eq]

lemma fits_drop_cons (slot : List α) : fits (slot :: pattern) (xs.drop i) = true ↔
    (∃ x ∈ slot, xs[i]? = some x) ∧ fits pattern (xs.drop (i + 1)) = true := by
  rw [← tail_drop, ← head?_drop]
  cases xs.drop i <;> simp [fits]

lemma fits_drop : fits pattern (xs.drop i) = true ↔
    ∀ j slot, pattern[j]? = some slot → ∃ x ∈ slot, xs[i + j]? = some x := by
  induction pattern generalizing i with
  | nil => simp [fits]
  | cons slot pattern ih =>
    rw [fits_drop_cons, ih]
    refine Iff.trans ?_ Nat.and_forall_add_one
    simp [Nat.add_assoc, Nat.add_comm 1]

/-- A pattern is found, from front to back and once each, at the positions where all of it has room and every slot holds
what stands there. -/
theorem found_where_slots_hold {α : Type} [DecidableEq α] (pattern : List (List α)) (xs : List α) :
    (find pattern xs).Pairwise (· < ·) ∧ ∀ i, i ∈ find pattern xs ↔ i + pattern.length ≤ xs.length ∧
      ∀ j slot, pattern[j]? = some slot → ∃ x ∈ slot, xs[i + j]? = some x := by
  rw [find_eq]
  refine ⟨pairwise_lt_range.filter _, fun i => ?_⟩
  rw [mem_filter, mem_range, fits_drop]
  refine and_congr_left fun hslots => ⟨fun hi => ?_, fun hi => by omega⟩
  by_cases hpos : 0 < pattern.length
  -- the last slot, if there is one, holds an element of the list
  · obtain ⟨x, -, hx⟩ := hslots (pattern.length - 1) _ (getElem?_eq_getElem (by omega))
    have := (List.getElem?_eq_some_iff.1 hx).1
    omega
  · omega

end Pattern

namespace Instr

/-- A push of at most four bytes, and a comparison right behind it. -/
def OpensEntry (instrs : List Instr) (i : Nat) : Prop :=
  (∃ n ∈ [1, 2, 3, 4], instrs[i]?.map (·.opcode) = some (.push n)) ∧ instrs[i + 1]?.map (·.opcode) = some .eq

instance (instrs : List Instr) : DecidablePred (OpensEntry instrs) := fun _ => inferInstanceAs (Decidable (_ ∧ _))

def entries (instrs : List Instr) : List Nat := (range instrs.length).filter fun i => OpensEntry instrs i

lemma mem_entries : i ∈ entries instrs ↔ OpensEntry instrs i := by
  simp only [entries, mem_filter, mem_range, decide_eq_true_eq, and_iff_right_iff_imp]
  rintro ⟨⟨n, -, hn⟩, -⟩
  obtain ⟨instr, hi, -⟩ := Option.map_eq_some_iff.1 hn
  exact (List.getElem?_eq_some_iff.1 hi).1

lemma find_entryPattern (instrs : List Instr) :
    Pattern.find Program.entryPattern (instrs.map (·.opcode)) = entries instrs := by
  have hend : ¬ OpensEntry instrs instrs.length := by simp [OpensEntry]
  have hfits k : Pattern.fits Program.entryPattern ((instrs.map (·.opcode)).drop k) = decide (OpensEntry instrs k) := by
    rw [Bool.eq_iff_iff, decide_eq_true_eq, OpensEntry]
    simp only [Program.entryPattern, Pattern.fits_drop_cons, Pattern.fits, getElem?_map, mem_cons, not_mem_nil, or_false,
      or_and_right, exists_or, exists_eq_left, and_true]
  rw [Pattern.find_eq, range_succ]
  simp [hfits, hend, entries]

def immediate (bytes : List Nat) (i : Instr) : List Nat := (bytes.drop (i.address + 1)).take (immediates i.opcode)

/-- An instruction with an immediate, of which the code has no byte. -/
def CutOff (bytes : List Nat) (i : Instr) : Prop := 0 < immediates i.opcode ∧ i.address + 1 = bytes.length

/-- What decoding says about an instruction: it starts in the code, its argument is made of its immediate, and the next
one starts behind that. -/
lemma decode_spec {j : Nat} {d : Instr} (h : (decode ofByte? argumentOf (keptLength bytes) 0 bytes)[j]? = some d) :
    d.address < bytes.length ∧ d.argument = (if immediates d.opcode = 0 then none else argumentOf (immediate bytes d)) ∧
    ∀ e, (decode ofByte? argumentOf (keptLength bytes) 0 bytes)[j + 1]? = some e → d.stop < bytes.length := by
  have hkept := keptLength_le bytes
  obtain ⟨k, c, hk, -, rfl, hnext⟩ := decode_getElem? _ _ hkept h
  have hspan : span ofByte? c = immediates (ofCell ofByte? argumentOf (0 + k) c (bytes.drop (k + 1))).opcode := by
    unfold span ofCell
    cases ofByte? c <;> rfl
  refine ⟨?_, ?_, ?_⟩
  · show 0 + k < bytes.length
    omega
  · unfold immediate
    rw [← hspan]
    simp [ofCell]
  intro e he
  rw [he] at hnext
  rw [stop_ofCell]
  split at hnext
  · omega
  · cases hnext

lemma immediate_eq_nil_iff {i : Instr} (h : i.address < bytes.length) (hpos : 0 < immediates i.opcode) :
    immediate bytes i = [] ↔ CutOff bytes i := by
  simp only [immediate, CutOff, take_eq_nil_iff, drop_eq_nil_iff]
  omega

end Instr

/-! ## Bytes in digits and in cells -/

namespace Bytecode

inductive Spells (bytes : List Nat) : Bytecode → Prop
  | hex {text : String} (h : Hex.decode? text = some bytes) : Spells bytes (.hex text)
  | cells : Spells bytes (.cells (bytes.map fun (b : Nat) => .int b))

lemma lastOf_map {α β : Type} (f : α → β) (n : Nat) (xs : List α) : lastOf n (xs.map f) = (lastOf n xs).map f := by
  rw [lastOf, lastOf, length_map, map_drop]

lemma plain?_map_int (bytes : List Nat) : plain? (bytes.map fun (b : Nat) => .int b) = some (bytes.map Int.ofNat) := by
  rw [plain?, mapM_map]
  exact mapM_pure

lemma bytesOf_map_int (h : ∀ b ∈ bytes, b < 256) : bytesOf (bytes.map fun (b : Nat) => .int b) = .ok bytes := by
  have hall : (bytes.map Int.ofNat).all (fun n => 0 ≤ n && n < 256) = true := by
    simp only [all_map, all_eq_true]
    intro b hb
    have := h b hb
    simp
    omega
  unfold bytesOf
  rw [plain?_map_int]
  simp [hall, Function.comp_def]

end Bytecode

namespace FunctionInfo

/-- A selector has four bytes: those of an immediate, behind zeros. -/
def fourBytes (bytes : List Nat) : String := "0x" ++ Hex.ofBytes (replicate (4 - bytes.length) 0 ++ bytes)

variable {a : Argument}

lemma padLeft_ofBytes (bytes : List Nat) : "0x" ++ Text.padLeft (ofBytes bytes) 8 '0' = fourBytes bytes := by
  unfold fourBytes Text.padLeft
  rw [length_ofBytes]
  congr 1
  apply String.toList_injective
  rw [String.toList_append, String.toList_ofList, toList_ofBytes, toList_ofBytes, flatMap_append,
    flatMap_halves_replicate, map_append, map_replicate, Nat.mul_sub]
  rfl

lemma length_fourBytes (hlength : bytes.length ≤ 4) : (fourBytes bytes).length = 10 := by
  rw [fourBytes, String.length_append, length_ofBytes, length_append, length_replicate]
  have : "0x".length = 2 := rfl
  omega

inductive Spells (bytes : List Nat) : Argument → Prop
  | hex : Spells bytes (.hex ("0x" ++ Hex.ofBytes bytes))
  | cells : Spells bytes (.cells (bytes.map fun (b : Nat) => .int b))

lemma Spells.selectorOf (ha : Spells bytes a) (h : ∀ b ∈ bytes, b < 256) : selectorOf a = .ok (fourBytes bytes) := by
  rw [← padLeft_ofBytes]
  cases ha with
  | hex =>
    have hdrop : Text.drop ("0x" ++ Hex.ofBytes bytes) 2 = Hex.ofBytes bytes := by simp [Text.drop]
    rw [selectorOf, hdrop]
  | cells =>
    rw [selectorOf, bytesOf_map_int h]
    rfl

lemma Spells.digitsOf (ha : Spells bytes a) (h : ∀ b ∈ bytes, b < 256) (hne : bytes ≠ []) :
    ∃ text n, digitsOf a = .ok text ∧ Numeral.parse? 16 text = some n := by
  have hhalves : bytes.flatMap halves ≠ [] := by
    intro hnil
    have hlength := length_flatMap_halves bytes
    rw [hnil, length_nil] at hlength
    exact hne (length_eq_zero_iff.1 (by omega))
  cases ha with
  | hex =>
    refine ⟨_, _, rfl, Numeral.parse?_marked halves_lt hhalves ?_⟩
    rw [String.toList_append, toList_ofBytes]
    rfl
  | cells =>
    refine ⟨ofBytes bytes, _, ?_, Numeral.parse?_map_digit (by decide) halves_lt hhalves (toList_ofBytes bytes)⟩
    rw [digitsOf, bytesOf_map_int h]
    rfl

end FunctionInfo

lemma Selectors.find_ok (t : Selectors) {s : String} (h : s.length = 10) (hmark : Text.startsWith s "0x" = true) :
    ∃ names t', t.find s = .ok (names, t') := by
  have hnormal : normalise s = .ok s := by simp [normalise, hmark, h]
  unfold find
  rw [hnormal]
  simp only [bind, Except.bind]
  split
  · exact ⟨_, _, rfl⟩
  · split <;> exact ⟨_, _, rfl⟩

lemma FunctionInfo.read_spec (arguments : List (Option Argument)) (i : Nat) {first : Argument} {arg : List Nat} (known : Selectors)
    (hfirst : arguments[i]? = some (some first)) (hspells : Spells arg first) (harg : ∀ b ∈ arg, b < 256)
    (hlength : arg.length ≤ 4) :
    ((∀ a, arguments[i + 2]? = some (some a) → ∃ text n, digitsOf a = .ok text ∧ Numeral.parse? 16 text = some n) →
      ∃ entry known', read known arguments i = .ok (⟨fourBytes arg, entry⟩, known')) ∧
    (arguments[i + 2]? = some (some (.hex "0x")) → read known arguments i = .error .malformed) := by
  have hstart : Text.startsWith (fourBytes arg) "0x" = true := by simp [Text.startsWith, fourBytes, Chars.startsWith]
  obtain ⟨names, known', hfind⟩ := known.find_ok (length_fourBytes hlength) hstart
  have hat (k : Nat) : Sequence.at? arguments (k : Int) = arguments[k]? := by simp [Sequence.at?]
  unfold read
  rw [hat, hfirst, show (i : Int) + 2 = ((i + 2 : Nat) : Int) from rfl, hat]
  simp only [bind, Except.bind, hspells.selectorOf harg, hfind, pure, Except.pure]
  constructor
  · intro hstart
    rcases hsecond : arguments[i + 2]? with _ | _ | a
    iterate 2 exact ⟨_, _, rfl⟩
    · obtain ⟨text, n, hdigits, hparse⟩ := hstart a hsecond
      simp only [hdigits, hparse]
      exact ⟨_, _, rfl⟩
  · intro hsecond
    rw [hsecond]
    rfl

/-! ## Programs -/

variable {InDigits : Prop} (hbytes : ∀ b ∈ bytes, b < 256)
  (hspells : ∀ arg, arg ≠ [] → ∃ a, argumentOf arg = some a ∧ FunctionInfo.Spells arg a)
  (hempty : InDigits ∧ argumentOf [] = some (.hex "0x") ∨ ¬ InDigits ∧ argumentOf [] = none)
  (hinstrs : instrs = decode ofByte? argumentOf (keptLength bytes) 0 bytes)

namespace Instr

/-- Bytes in cells; without bytes there is no immediate. -/
def cellArgument (arg : List Nat) : Option Argument :=
  if arg.isEmpty then none else some (.cells (arg.map fun (b : Nat) => .int b))

lemma decode_map {α β : Type} (f : α → β) (opcodeOf : β → Option Opcode) (argumentOf : List β → Option Argument)
    (room address : Nat) (xs : List α) : decode opcodeOf argumentOf room address (xs.map f) =
      decode (fun x => opcodeOf (f x)) (fun arg => argumentOf (arg.map f)) room address xs := by
  induction room using Nat.strongRecOn generalizing address xs with
  | ind room ih =>
    rcases room with _ | room
    · simp [decode]
    rcases xs with _ | ⟨x, xs⟩
    · simp [decode]
    rw [map_cons, decode_cons, decode_cons, ← map_drop, ih _ (by omega), ofCell, ← map_take]
    rfl

lemma ofCode_cells (hbytes : ∀ b ∈ bytes, b < 256) : ofCode (.cells (bytes.map fun (b : Nat) => .int b)) =
      .ok (decode ofByte? cellArgument (keptLength bytes) 0 bytes) := by
  have htail : ∀ b ∈ lastOf 43 bytes, b < 256 := fun b hb => hbytes b (mem_of_mem_drop hb)
  have hargument : (fun arg : List Nat => if (arg.map fun (b : Nat) => Item.int b).isEmpty then none else
      some (.cells (arg.map fun (b : Nat) => .int b))) = cellArgument := by
    funext arg
    simp [cellArgument]
  unfold ofCode ofCells
  simp only [lastOf_map, plain?_map_int, bytesOf_map_int htail, decode_map, hargument, length_map]
  rfl

lemma ofCode_spells (hcode : code.Spells bytes) (hbytes : ∀ b ∈ bytes, b < 256) :
    ∃ argumentOf, ofCode code = .ok (decode ofByte? argumentOf (keptLength bytes) 0 bytes) ∧
      (∀ arg, arg ≠ [] → ∃ a, argumentOf arg = some a ∧ FunctionInfo.Spells arg a) ∧
      ((∃ text, code = .hex text) ∧ argumentOf [] = some (.hex "0x") ∨
        (¬ ∃ text, code = .hex text) ∧ argumentOf [] = none) := by
  cases hcode with
  | @hex text htext =>
    refine ⟨hexArgument, ?_, fun arg _ => ⟨_, rfl, .hex⟩, .inl ⟨⟨text, rfl⟩, rfl⟩⟩
    simp [ofCode, htext, ofBytes_eq]
  | cells => exact ⟨_, ofCode_cells hbytes, fun arg harg => ⟨_, if_neg (by simpa using harg), .cells⟩, .inr ⟨by simp, rfl⟩⟩

section Table

/-- The start of a function that the entry names is cut off. -/
def StartCutOff (bytes : List Nat) (instrs : List Instr) (i : Nat) : Prop :=
  ∃ d, instrs[i + 2]? = some d ∧ CutOff bytes d

def selectorAt (bytes : List Nat) (instrs : List Instr) (i : Nat) : String :=
  FunctionInfo.fourBytes (immediate bytes (instrs.getD i default))

include hbytes hspells hempty hinstrs in
lemma read_entry (hi : OpensEntry instrs i) (known : Selectors) :
    (InDigits ∧ StartCutOff bytes instrs i →
      FunctionInfo.read known (instrs.map (·.argument)) i = .error .malformed) ∧
    (¬ (InDigits ∧ StartCutOff bytes instrs i) → ∃ entry known',
      FunctionInfo.read known (instrs.map (·.argument)) i = .ok (⟨selectorAt bytes instrs i, entry⟩, known')) := by
  obtain ⟨⟨n, hn, hpush⟩, heq⟩ := hi
  obtain ⟨a, ha, hopcode⟩ := Option.map_eq_some_iff.1 hpush
  obtain ⟨b, hb, -⟩ := Option.map_eq_some_iff.1 heq
  have hlt : ∀ d, ∀ b ∈ immediate bytes d, b < 256 := fun d b hb => hbytes b (mem_of_mem_drop (mem_of_mem_take hb))
  have hn : 1 ≤ n ∧ n ≤ 4 := by
    simp only [mem_cons, not_mem_nil, or_false] at hn
    omega
  have himm : immediates a.opcode = n := by rw [hopcode]; rfl
  obtain ⟨haddress, hargument, hnext⟩ := decode_spec (hinstrs ▸ ha)
  have hstop := hnext b (hinstrs ▸ hb)
  have hlength : (immediate bytes a).length = n := by
    unfold stop at hstop
    simp only [immediate, length_take, length_drop]
    omega
  obtain ⟨first, hfirst, hfirsts⟩ := hspells (immediate bytes a) (by rw [← length_pos_iff]; omega)
  rw [if_neg (by omega), hfirst] at hargument
  have hselector : selectorAt bytes instrs i = FunctionInfo.fourBytes (immediate bytes a) := by
    rw [selectorAt, getD_eq_getElem?_getD, ha]
    rfl
  have hat (k : Nat) : (instrs.map (·.argument))[k]? = (instrs[k]?).map (·.argument) := getElem?_map
  obtain ⟨hok, herror⟩ := FunctionInfo.read_spec (instrs.map (·.argument)) i known
    (by rw [hat, ha, ← hargument]; rfl) hfirsts (hlt a) (by omega)
  rw [hselector]
  constructor
  · rintro ⟨hdigits, d, hd, hdcut⟩
    obtain ⟨-, hmarker⟩ := hempty.resolve_right fun h => h.1 hdigits
    obtain ⟨haddress, hargument, -⟩ := decode_spec (hinstrs ▸ hd)
    apply herror
    rw [if_neg (by have := hdcut.1; omega), (immediate_eq_nil_iff haddress hdcut.1).2 hdcut, hmarker] at hargument
    rw [hat, hd, ← hargument]
    rfl
  · intro hfree
    refine hok fun c hc => ?_
    rw [hat, Option.map_eq_some_iff] at hc
    obtain ⟨d, hd, hdc⟩ := hc
    obtain ⟨haddress, hargument, -⟩ := decode_spec (hinstrs ▸ hd)
    rw [hdc] at hargument
    split at hargument
    · cases hargument
    by_cases hnil : immediate bytes d = []
    · obtain ⟨hdigits, -⟩ := hempty.resolve_right (by rw [← hnil, ← hargument]; nofun)
      exact absurd ⟨hdigits, d, hd, (immediate_eq_nil_iff haddress (by omega)).1 hnil⟩ hfree
    · obtain ⟨c', hc', hspelled⟩ := hspells _ hnil
      obtain rfl : c = c' := Option.some.inj (hargument.trans hc')
      exact hspelled.digitsOf (hlt d) hnil

end Table
end Instr

namespace Program

open FunctionInfo (read)

variable {arguments : List (Option Argument)} {indices : List Nat}

lemma selectors_addEntry (p : Program) (info : FunctionInfo) :
    (p.addEntry info).selectors = p.selectors ++ [info.selector] := by
  unfold addEntry
  cases info.entry <;> rfl

/-- Some entries cannot be read, whatever is known; the first of them ends it. -/
lemma addEntries_spec {f : Fault} {selectorAt : Nat → String} {Fails : Nat → Prop} (h : ∀ i ∈ indices, ∀ known,
      (Fails i → read known arguments i = .error f) ∧
      (¬ Fails i → ∃ entry known', read known arguments i = .ok (⟨selectorAt i, entry⟩, known'))) (r : Assigned) :
    ((∃ i ∈ indices, Fails i) → (addEntries arguments indices r).fault = some f) ∧
    ((¬ ∃ i ∈ indices, Fails i) → (addEntries arguments indices r).fault = r.fault ∧
      (addEntries arguments indices r).program.selectors = r.program.selectors ++ indices.map selectorAt) := by
  induction indices generalizing r with
  | nil => simp [addEntries]
  | cons i rest ih =>
    obtain ⟨herror, hok⟩ := h i mem_cons_self r.known
    by_cases hi : Fails i
    · exact ⟨fun _ => by simp [addEntries, herror hi], fun hfree => absurd ⟨i, mem_cons_self, hi⟩ hfree⟩
    · obtain ⟨entry, known', hread⟩ := hok hi
      simp only [addEntries, hread, mem_cons, or_and_right, exists_or, exists_eq_left, hi, false_or, map_cons]
      rw [append_cons, ← selectors_addEntry r.program ⟨selectorAt i, entry⟩]
      exact ih (fun j hj => h j (mem_cons_of_mem _ hj)) _

/-- Code in digits is blocked if it ends right behind a push that stands where a function's start is expected. -/
def Blocked (code : Bytecode) (bytes : List Nat) (instrs : List Instr) : Prop :=
  (∃ text, code = .hex text) ∧ ∃ i, Instr.OpensEntry instrs i ∧ Instr.StartCutOff bytes instrs i

lemma assign_spells (hbytes : ∀ b ∈ bytes, b < 256) (hcode : code.Spells bytes) :
    ∃ instrs, ofCode code = .ok instrs ∧ ∀ (p : Program) known,
      (Blocked code bytes instrs → (p.assign known code).fault = some Fault.malformed) ∧
      (¬ Blocked code bytes instrs → (p.assign known code).fault = none ∧ (p.assign known code).program.selectors =
        p.selectors ++ (entries instrs).map (selectorAt bytes instrs)) := by
  obtain ⟨argumentOf, hof, hspells, hempty⟩ := ofCode_spells hcode hbytes
  refine ⟨_, hof, fun p known => ?_⟩
  have hread i (hi : i ∈ entries _) := read_entry hbytes hspells hempty rfl (mem_entries.1 hi)
  have hspec := addEntries_spec hread
  simp only [mem_entries, @and_left_comm (OpensEntry _ _), exists_and_left] at hspec
  simp only [assign, hof, find_entryPattern]
  exact hspec _

/-- A code that is not blocked becomes a program, and each entry of its jump table gives a selector of four bytes, also
when it is assigned to a program that there is. A blocked code is refused. -/
theorem made_unless_blocked {bytes : List Nat} {code : Bytecode} (hbytes : ∀ b ∈ bytes, b < 256)
    (hcode : code.Spells bytes) (known : Selectors) :
    ∃ instrs, Instr.ofCode code = .ok instrs ∧
      (Blocked code bytes instrs → make known code = .error .malformed ∧
        ∀ p : Program, (p.assign known code).fault = some Fault.malformed) ∧
      (¬ Blocked code bytes instrs →
        (∃ q known', make known code = .ok (q, known') ∧
          q.selectors = (Instr.entries instrs).map (Instr.selectorAt bytes instrs)) ∧
        ∀ p : Program, (p.assign known code).fault = none ∧ (p.assign known code).program.selectors =
          p.selectors ++ (Instr.entries instrs).map (Instr.selectorAt bytes instrs)) := by
  obtain ⟨instrs, hof, hassign⟩ := assign_spells hbytes hcode
  refine ⟨instrs, hof, fun hblocked => ⟨?_, fun p => (hassign p known).1 hblocked⟩,
    fun hfree => ⟨?_, fun p => (hassign p known).2 hfree⟩⟩
  · simp [make, (hassign { code := code } known).1 hblocked]
  · obtain ⟨hfault, hselectors⟩ := (hassign { code := code } known).2 hfree
    simp only [make, hfault]
    exact ⟨_, _, rfl, hselectors⟩

/-- In cells a code may end behind a push that stands where a function's start is expected. -/
theorem cells_end_behind_push : (∀ b ∈ [0x60, 0x01, 0x14, 0x60], b < 256) ∧
    ∃ q known', make {} (.cells ([0x60, 0x01, 0x14, 0x60].map fun (b : Nat) => .int b)) = .ok (q, known') ∧
      q.selectors = ["0x00000001"] := by
  have hbytes : ∀ b ∈ [0x60, 0x01, 0x14, 0x60], b < 256 := by decide
  obtain ⟨instrs, hof, -, hmade⟩ := made_unless_blocked hbytes .cells {}
  have hfree : ¬ Blocked (.cells ([0x60, 0x01, 0x14, 0x60].map fun b => .int b)) [0x60, 0x01, 0x14, 0x60] instrs := by
    rintro ⟨⟨text, htext⟩, -⟩
    cases htext
  obtain ⟨⟨q, known', hmake, hselectors⟩, -⟩ := hmade hfree
  refine ⟨hbytes, q, known', hmake, hselectors.trans ?_⟩
  have hinstrs : decode ofByte? cellArgument (keptLength [0x60, 0x01, 0x14, 0x60]) 0
      [0x60, 0x01, 0x14, 0x60] = [⟨0, .push 1, some (.cells [.int 1])⟩, ⟨2, .eq, none⟩, ⟨3, .push 1, none⟩] := by
    with_unfolding_all rfl
  rw [Except.ok.inj (hof.symm.trans (ofCode_cells hbytes)), hinstrs]
  decide

/-- The same code in digits is refused. -/
theorem digits_end_behind_push : make {} (.hex "60011460") = .error .malformed := by
  with_unfolding_all rfl

/-! ## New code for a program -/

/-- The entries that are read do not depend on the program that they are added to. -/
lemma addEntries_eq (arguments : List (Option Argument)) (indices : List Nat) (known : Selectors) :
    ∃ entries known' fault, ∀ p : Program,
      addEntries arguments indices ⟨p, known, none⟩ = ⟨foldl addEntry p entries, known', fault⟩ := by
  induction indices generalizing known with
  | nil => exact ⟨[], known, none, fun _ => rfl⟩
  | cons i rest ih =>
    simp only [addEntries]
    cases read known arguments i with
    | error f => exact ⟨[], known, some f, fun _ => rfl⟩
    | ok r =>
      obtain ⟨entries, known', fault, h⟩ := ih r.2
      exact ⟨r.1 :: entries, known', fault, fun p => h _⟩

lemma selectors_addEntries (p : Program) (entries : List FunctionInfo) :
    (foldl addEntry p entries).selectors = p.selectors ++ entries.map (·.selector) := by
  induction entries generalizing p with
  | nil => exact (append_nil _).symm
  | cons info entries ih => rw [foldl_cons, ih, selectors_addEntry, append_assoc, singleton_append, map_cons]

/-- New code takes the place of the code and the instructions of a program. What is known about functions stays, and the
entries that a new program of this code has are added to it. -/
theorem assign_adds_to_known {q : Program} {known known' : Selectors} (h : make known code = .ok (q, known')) :
    ∃ instrs entries, ofCode code = .ok instrs ∧
      q = foldl addEntry { code := code, instrs := instrs.toArray } entries ∧ ∀ p : Program, ∃ r,
        p.assign known code = ⟨r, known', none⟩ ∧ r.selectors = p.selectors ++ q.selectors ∧
        r = foldl addEntry { p with code := code, instrs := instrs.toArray } entries := by
  cases hinstrs : ofCode code with
  | error f => simp [make, assign, hinstrs] at h
  | ok instrs =>
    obtain ⟨entries, known', fault, hentries⟩ := addEntries_eq (instrs.map (·.argument))
      (Pattern.find entryPattern (instrs.map (·.opcode))) known
    simp only [make, assign, hinstrs, hentries] at h ⊢
    cases fault <;> cases h
    exact ⟨instrs, entries, rfl, rfl, fun p => ⟨_, rfl, by simp [selectors_addEntries], rfl⟩⟩

/-- The selector of its old code stays with a program that is given code without functions. -/
theorem selector_outlives_code :
    let p := (assign { code := .raw [] } {} (.raw [0x63, 0xaa, 0xbb, 0xcc, 0xdd, 0x14, 0x60, 0x09, 0x57])).program
    ∃ q r, make {} (.raw [0]) = .ok (q, {}) ∧ p.assign {} (.raw [0]) = ⟨r, {}, none⟩ ∧ q.selectors = [] ∧
      r.selectors = ["0xaabbccdd"] := by
  intro p
  have hmake : make {} (.raw [0]) = .ok ({ code := .raw [0], instrs := #[⟨0, .stop, none⟩] }, {}) := by
    with_unfolding_all rfl
  obtain ⟨_, _, -, -, hassign⟩ := assign_adds_to_known hmake
  obtain ⟨r, hr, hselectors, -⟩ := hassign p
  have hp : p.selectors = ["0xaabbccdd"] := by decide +kernel
  exact ⟨_, r, hmake, hr, rfl, by rw [hselectors, hp]; rfl⟩

end Program
end EvmAudit
