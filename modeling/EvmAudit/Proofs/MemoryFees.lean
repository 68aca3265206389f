import EvmAudit.Proofs.Memory
import EvmAudit.Proofs.Session

/-!
# What memory costs

Memory grows by words of 32 bytes. Whatever ranges it is grown for, in whatever order, it ends up as large as the range
that reaches farthest, and has cost what a memory of that size costs.
-/

namespace EvmAudit

open Evm

/-- The item stands for this number: an expression of 256 bits by its value, a plain number for itself. -/
def Item.Counts (i : Item) (n : Nat) : Prop :=
  match i with
  | .expr e => ∃ x : Word, e.Equals x ∧ x.toNat = n
  | i => i.int? = some (n : Int)

namespace Machine

variable {m : Machine} {i j : Item} {a n k k' : Nat}

lemma extent_counts (h : i.Counts n) : (extent i).Gives (· = some (n : Int)) := by
  cases i with
  | expr e =>
    obtain ⟨x, he, rfl⟩ := h
    exact extent_gives he
  | int n' | bool b | absent =>
    have hn : _ = some (n : Int) := h
    simp only [extent, hn]
    exact .pure rfl

def sized (m : Machine) (k : Nat) : Machine :=
  { m.useGas (Evm.memoryFee (k / 32) - Evm.memoryFee (m.memory.size / 32) : Nat)
      (Evm.memoryFee (k / 32) - Evm.memoryFee (m.memory.size / 32) : Nat) with
    memory := { m.memory with size := k } }

lemma sized_self (m : Machine) : m.sized m.memory.size = m := by
  simp [sized, useGas]

lemma sized_sized (h : m.memory.size ≤ k) (h' : k ≤ k') : (m.sized k).sized k' = m.sized k' := by
  have hold := memoryFee_mono (Nat.div_le_div_right (c := 32) h)
  have hnew := memoryFee_mono (Nat.div_le_div_right (c := 32) h')
  have hsum (gas : Int) : gas + (Evm.memoryFee (k / 32) - Evm.memoryFee (m.memory.size / 32) : Nat) +
      (Evm.memoryFee (k' / 32) - Evm.memoryFee (k / 32) : Nat) =
      gas + (Evm.memoryFee (k' / 32) - Evm.memoryFee (m.memory.size / 32) : Nat) := by omega
  simp [sized, useGas, hsum]

/-- The computation leaves this machine, or fails because it has used more gas than a limit allows. -/
def Pays (c : Calc Machine) (m : Machine) : Prop :=
  ∀ l, ∃ l', c l = .ok m l' ∨ ∃ f, c l = .error f l' ∧
    ∀ limit : Int, m.gasLimit = .int limit → f = .vm .outOfGas "" ∧ limit < m.minGas

lemma Pays.given {α : Type} {c : Calc α} {f : α → Calc Machine} {x : α} (hc : c.Gives (· = x)) (hf : Pays (f x) m) :
    Pays (c >>= f) m := by
  intro l
  obtain ⟨y, l1, hl, rfl⟩ := hc l
  rw [Engine.bind_ok hl]
  exact hf l1

lemma Pays.bind {m' : Machine} {c : Calc Machine} {f : Machine → Calc Machine} (hc : Pays c m) (hf : Pays (f m) m')
    (hlimit : m'.gasLimit = m.gasLimit) (hgas : m.minGas ≤ m'.minGas) : Pays (c >>= f) m' := by
  intro l
  obtain ⟨l1, hl | ⟨e, hl, hover⟩⟩ := hc l
  · rw [Engine.bind_ok hl]
    exact hf l1
  · refine ⟨l1, .inr ⟨e, Engine.bind_error hl, fun limit h => ?_⟩⟩
    obtain ⟨rfl, hless⟩ := hover limit (hlimit ▸ h)
    exact ⟨rfl, Int.lt_of_lt_of_le hless hgas⟩

/-- The test against the limit, which stands after the fee is booked. -/
lemma exceeds_pays {f : Bool → Calc Machine} (hwithin : f false = pure m) (hover : f true = throw (.vm .outOfGas "")) :
    Pays (exceeds m.minGas m.gasLimit >>= f) m := by
  intro l
  cases h : exceeds m.minGas m.gasLimit l with
  | ok isOver l1 =>
    rw [Engine.bind_ok h]
    cases isOver with
    | false => exact ⟨l1, .inl (by rw [hwithin]; rfl)⟩
    | true =>
      refine ⟨l1, .inr ⟨_, by rw [hover]; rfl, fun limit hlimit => ⟨rfl, ?_⟩⟩⟩
      rw [hlimit] at h
      cases hdec : decide (m.minGas > limit) with
      | true => exact of_decide_eq_true hdec
      | false =>
        simp only [exceeds, Item.int?, hdec] at h
        cases h
  | error e l1 =>
    refine ⟨l1, .inr ⟨e, Engine.bind_error h, fun limit hlimit => ?_⟩⟩
    rw [hlimit] at h
    cases h

lemma extend_pays (ha : i.Counts a) (hn : j.Counts n) (halign : m.memory.size % 32 = 0) :
    Pays (m.extend i j) (m.sized (grownSize m.memory.size a n)) := by
  have hle : m.memory.size ≤ grownSize m.memory.size a n := Nat.le_max_left _ _
  unfold extend grow
  rw [bind_assoc]
  refine .given (extent_counts ha) ?_
  show Pays ((extent j >>= _) >>= _) _
  rw [bind_assoc]
  refine .given (extent_counts hn) ?_
  show Pays ((if extension m.memory.size a n = 0 then _ else _) >>= _) _
  rw [extension_natCast halign]
  split
  · have hsame : grownSize m.memory.size a n = m.memory.size := by omega
    rw [hsame, sized_self]
    exact fun l => ⟨l, .inl rfl⟩
  rw [extensionFee_natCast (by omega)]
  have hsize : m.memory.size + (grownSize m.memory.size a n - m.memory.size) = grownSize m.memory.size a n := by
    omega
  show Pays ((exceeds _ _ >>= _) >>= _) _
  rw [bind_assoc]
  refine exceeds_pays (m := m.sized (grownSize m.memory.size a n)) ?_ rfl
  show (pure _ : Calc Machine) = _
  simp only [Memory.extend, useGas, Int.toNat_natCast, hsize]
  rfl

lemma le_foldl_grownSize (k : Nat) (ns : List (Nat × Nat)) : k ≤ ns.foldl (fun k n => grownSize k n.1 n.2) k := by
  induction ns generalizing k with
  | nil => exact Nat.le_refl k
  | cons n ns ih => exact Nat.le_trans (Nat.le_max_left _ _) (ih _)

lemma grownSize_mod (h : k % 32 = 0) : grownSize k a n % 32 = 0 := by
  unfold grownSize
  omega

/-- Growing memory for one range after another, from a size already paid for. -/
lemma foldlM_extend_pays {rs : List (Item × Item)} {ns : List (Nat × Nat)} (hsize : m.memory.size ≤ k) (halign : k % 32 = 0)
    (h : List.Forall₂ (fun r n => r.1.Counts n.1 ∧ r.2.Counts n.2) rs ns) :
    ns.foldl (fun k n => grownSize k n.1 n.2) k % 32 = 0 ∧
    Pays (rs.foldlM (fun m r => m.extend r.1 r.2) (m.sized k)) (m.sized (ns.foldl (fun k n => grownSize k n.1 n.2) k)) := by
  induction h generalizing k with
  | nil => exact ⟨halign, fun l => ⟨l, .inl rfl⟩⟩
  | @cons r n rs ns hr _ ih =>
    have hle : k ≤ grownSize k n.1 n.2 := Nat.le_max_left _ _
    obtain ⟨hmod, hrest⟩ := ih (Nat.le_trans hsize hle) (grownSize_mod halign)
    have hfirst : Pays ((m.sized k).extend r.1 r.2) ((m.sized k).sized (grownSize k n.1 n.2)) :=
      extend_pays hr.1 hr.2 halign
    rw [sized_sized hsize hle] at hfirst
    have hfar := le_foldl_grownSize (grownSize k n.1 n.2) ns
    refine ⟨hmod, ?_⟩
    refine hfirst.bind hrest rfl ?_
    have hfee := memoryFee_mono (Nat.div_le_div_right (c := 32) hfar)
    simp only [sized, useGas, List.foldl_cons]
    omega

/-- **Memory is paid for once.**  From empty memory, ranges in any order leave a memory that reaches to the farthest end
in whole words, and both counters have grown by its fee; the run fails only for a limit below that. -/
theorem farthest_end_is_paid {rs : List (Item × Item)} {ns : List (Nat × Nat)}
    (h : List.Forall₂ (fun r n => r.1.Counts n.1 ∧ r.2.Counts n.2) rs ns) (hempty : m.memory.size = 0) (l : Ledger) :
    let size := (ns.map fun n => 32 * ((n.1 + n.2 + 31) / 32)).foldl max 0
    let fee : Int := Evm.memoryFee (size / 32)
    let run := rs.foldlM (fun m r => m.extend r.1 r.2) m l
    size % 32 = 0 ∧ ∃ l', run = .ok { m with
        memory := { m.memory with size := size }, minGas := m.minGas + fee, maxGas := m.maxGas + fee } l' ∨
      ∃ f, run = .error f l' ∧ ∀ limit, m.gasLimit = .int limit → f = .vm .outOfGas "" ∧ limit < m.minGas + fee := by
  intro size fee run
  have hstart : m.sized 0 = m := hempty ▸ m.sized_self
  obtain ⟨hmod, hpays⟩ := foldlM_extend_pays (Nat.le_of_eq hempty) rfl h
  have hsize : ns.foldl (fun k n => grownSize k n.1 n.2) 0 = size := (List.foldl_map ..).symm
  have hend : m.sized size = { m with
      memory := { m.memory with size := size }, minGas := m.minGas + fee, maxGas := m.maxGas + fee } := by
    simp only [sized, hempty]
    rfl
  rw [hsize] at hmod hpays
  rw [hstart, hend] at hpays
  exact ⟨hmod, hpays l⟩

theorem three_ranges_take_five_words :
    let rs : List (Item × Item) := [(.int 0, .int 1), (.expr ⟨0, 0, .ofInt 100 256⟩, .int 32), (.int 32, .int 8)]
    let run : Calc Machine := rs.foldlM (fun m r => m.extend r.1 r.2) { gasLimit := .int 15 }
    ∃ l', run default = .ok { gasLimit := .int 15, memory := { size := 160 }, minGas := 15, maxGas := 15 } l' := by
  intro rs run
  have hranges : List.Forall₂ (fun r n => r.1.Counts n.1 ∧ r.2.Counts n.2) rs [(0, 1), (100, 32), (32, 8)] :=
    .cons ⟨rfl, rfl⟩ (.cons ⟨⟨100, Term.equals_ofInt 100 256, rfl⟩, rfl⟩ (.cons ⟨rfl, rfl⟩ .nil))
  obtain ⟨-, l', hrun | ⟨f, -, hover⟩⟩ := farthest_end_is_paid (m := { gasLimit := .int 15 }) hranges rfl default
  · exact ⟨l', hrun⟩
  · exact absurd (hover 15 rfl).2 (by decide)

end Machine
end EvmAudit
