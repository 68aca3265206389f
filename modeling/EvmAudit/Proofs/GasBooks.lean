import EvmAudit.Proofs.Runs

/-!
# Bookkeeping of gas

Gas is booked and never given back. Whatever an instruction does, the least amount that may have been used grows, and the
greatest amount grows by no less; unless the instruction is a jump, it is found out when the least amount goes beyond what
the machine or the transaction may use. A caller that is called back pays for the account that the frame has made.
-/

namespace EvmAudit

variable {p : Footprint} {g g' : GState} {op : Opcode} {s s' s₀ : Session} {limit : Int} {gs : List GState}

/-! ## Machines -/

namespace Machine

structure Accounted (m : Machine) : Prop where
  limit : ∃ limit, m.gasLimit = .int limit
  nonneg : 0 ≤ m.minGas
  ordered : m.minGas ≤ m.maxGas

/-- Gas has been booked under the same limit, as the greatest amount no less than as the least. -/
structure Books (m m' : Machine) : Prop where
  limit : m'.gasLimit = m.gasLimit
  least : m.minGas ≤ m'.minGas
  spread : m'.minGas - m.minGas ≤ m'.maxGas - m.maxGas

variable {m m' m'' : Machine}

namespace Books

lemma of_eq (hlimit : m'.gasLimit = m.gasLimit) (hleast : m'.minGas = m.minGas) (hmost : m'.maxGas = m.maxGas) :
    m.Books m' := ⟨hlimit, by omega, by omega⟩

lemma refl (m : Machine) : m.Books m := of_eq rfl rfl rfl

lemma trans (h : m.Books m') (h' : m'.Books m'') : m.Books m'' := by
  obtain ⟨hlimit, hleast, hspread⟩ := h
  obtain ⟨hlimit', hleast', hspread'⟩ := h'
  exact ⟨hlimit'.trans hlimit, by omega, by omega⟩

lemma most (h : m.Books m') : m.maxGas ≤ m'.maxGas := by
  obtain ⟨-, hleast, hspread⟩ := h
  omega

lemma accounted (h : m.Books m') (hm : m.Accounted) : m'.Accounted := by
  obtain ⟨hsame, hleast, hspread⟩ := h
  obtain ⟨⟨limit, hlimit⟩, hnonneg, hordered⟩ := hm
  exact ⟨⟨limit, hsame.trans hlimit⟩, by omega, by omega⟩

lemma useGas {least most : Int} (hleast : 0 ≤ least) (hmost : least ≤ most) : m.Books (m.useGas least most) := by
  refine ⟨rfl, ?_, ?_⟩
  · show m.minGas ≤ m.minGas + least
    omega
  · show m.minGas + least - m.minGas ≤ m.maxGas + most - m.maxGas
    omega

lemma of_copyOf (h : m.CopyOf m') : m.Books m' := by
  obtain ⟨st, rs, rfl, -⟩ := h
  exact of_eq rfl rfl rfl

lemma of_within (h : m.Within p m') (hbooks : p.books = false) : m.Books m' := by
  obtain ⟨fee, hleast, hmost⟩ := h.gas hbooks
  exact ⟨h.gasLimit, by omega, by omega⟩

end Books
end Machine

lemma Opcode.cost_le (op : Opcode) : op.cost.1 ≤ op.cost.2 := by
  cases op with
  | log n => exact Nat.le_add_right _ _
  | push | dup | swap => exact Nat.le_refl _
  | _ => decide

/-! ## Going on -/

namespace GState

variable {isMetered advances : Bool}

lemma Metered.books (h : g.Metered op g') : g.machine.Books g'.machine := by
  rw [h.booked]
  exact .useGas (Int.natCast_nonneg _) (Int.ofNat_le.2 op.cost_le)

lemma Affords.congr (h : g.Affords) (hlimit : g'.machine.gasLimit = g.machine.gasLimit)
    (hgas : g'.machine.minGas = g.machine.minGas) (hframes : g'.frames = g.frames) : g'.Affords where
  machine limit h' := by
    rw [hgas]
    exact h.machine limit (hlimit ▸ h')
  tx tx limit h' hallows := by
    rw [hgas]
    refine h.tx tx limit ?_ hallows
    rw [← h', tx?, tx?, hframes]

lemma Settles.books (h : g.Settles isMetered advances g') : g.machine.Books g'.machine := by
  obtain ⟨g1, hg1, rfl⟩ := h
  have hbooks : g.machine.Books g1.machine := by
    split at hg1
    · obtain ⟨op, hop⟩ := hg1
      exact hop.books
    · rw [hg1]
      exact .refl _
  split
  · exact hbooks.trans (.of_eq rfl rfl rfl)
  · exact hbooks

lemma Settles.affords (h : g.Settles true advances g') : g'.Affords := by
  obtain ⟨g1, ⟨op, hop⟩, rfl⟩ := h
  split
  · exact hop.affords.congr rfl rfl rfl
  · exact hop.affords

lemma Passes.books (h : g.Passes p isMetered advances g') (hbooks : p.books = false) : g.machine.Books g'.machine := by
  obtain ⟨g1, g2, node, hg1, hg2, rfl⟩ := h
  exact (Machine.Books.of_within hg1.machine hbooks).trans hg2.books

lemma Passes.affords (h : g.Passes p true advances g') : g'.Affords := by
  obtain ⟨g1, g2, node, -, hg2, rfl⟩ := h
  exact hg2.affords.congr rfl rfl rfl

end GState

/-! ## Hashing -/

namespace Step

variable {α : Type}

def InLimit (limit : Int) (g : GState) : Prop := g.machine.gasLimit = .int limit ∧ g.machine.minGas ≤ limit

lemma leave_inLimit (e : Expr) (hg : InLimit limit g) : (leave e).Yields g s fun eff g' => eff = .next ∧ InLimit limit g' := by
  have hpush : (g.machine.push (.expr e)).Yields fun m => m.gasLimit = g.machine.gasLimit ∧ m.minGas = g.machine.minGas :=
    .next fun _ => .pure ⟨rfl, rfl⟩
  unfold leave pushExpr push
  refine .bind ?_ fun _ _ _ _ hg' => .pure ⟨rfl, hg'⟩
  refine (onMachine_yields (P := fun r => r.2.gasLimit = g.machine.gasLimit ∧ r.2.minGas = g.machine.minGas)
    (hpush.bind fun _ h => .pure h)).mono ?_
  rintro _ _ ⟨m, ⟨hlimit, hgas⟩, rfl⟩
  refine ⟨hlimit.trans hg.1, ?_⟩
  rw [hgas]
  exact hg.2

lemma Yields.still_inLimit {x : Step α} [hx : Still x] {f : α → Step Effect} (hg : InLimit limit g)
    (hf : ∀ a s, (f a).Yields g s fun eff g' => eff = .next ∧ InLimit limit g') :
    (x >>= f).Yields g s fun eff g' => eff = .next ∧ InLimit limit g' := by
  refine (hx.keeps g s).bind ?_
  rintro a _ s1 _ rfl
  exact hf a s1

lemma chargeHash_yields (length : Int) : (chargeHash length).Yields g s fun _ g' =>
    g'.machine.gasLimit = g.machine.gasLimit ∧ g'.Affords := by
  refine .modify (.get ((Yields.calc (GState.checkGas_yields _)).mono ?_))
  rintro _ _ ⟨rfl, haffords⟩
  exact ⟨rfl, haffords⟩

lemma hashOf_inLimit (index : Item) (length : Int) (hlimit : g.machine.gasLimit = .int limit) :
    (hashOf index length).Yields g s fun eff g' => eff = .next ∧ InLimit limit g' := by
  refine (chargeHash_yields length).bind fun _ g1 s1 _ hg1 => ?_
  have hlimit1 := hg1.1.trans hlimit
  refine (onMachine_yields (P := fun r => r.2.gasLimit = .int limit ∧ r.2.minGas ≤ limit)
    ((g1.machine.extend_yields index (.int length)).bind fun m' h => .pure ?_)).bind ?_
  · cases h with
    | same => exact ⟨hlimit1, hg1.2.machine limit hlimit1⟩
    | paid _ _ hpaid => exact ⟨hlimit1, hpaid limit hlimit1⟩
  rintro _ _ s2 _ ⟨m, hm, rfl⟩
  have hg2 : InLimit limit { g1 with machine := m } := hm
  refine .still_inLimit hg2 fun stop s => .still_inLimit hg2 fun bytes s => .still_inLimit hg2 fun bs s => ?_
  split
  iterate 2 exact .still_inLimit hg2 fun e s => leave_inLimit e hg2
  · exact .still_inLimit hg2 fun e s => .still_inLimit hg2 fun e s => .still_inLimit hg2 fun e s => leave_inLimit e hg2

lemma hash_inLimit (hlimit : g.machine.gasLimit = .int limit) :
    hash.Yields g s fun eff g' => eff = .next ∧ InLimit limit g' := by
  have hpop {g s} (hlimit : g.machine.gasLimit = .int limit) :
      pop.Yields g s fun _ g' => g'.machine.gasLimit = .int limit :=
    Ends.yields ((pop_ends (p := {})).mono fun _ _ _ _ h => h.1.within.machine.gasLimit.trans hlimit)
  refine (hpop hlimit).bind fun index g1 s1 _ hg1 => (hpop hg1).bind fun amount g2 s2 _ hg2 => ?_
  refine .given .any fun r s3 _ _ => ?_
  cases r with
  | some n => exact hashOf_inLimit index n hg2
  | none =>
    refine .given .any fun condition s4 _ _ => (constrain_yields condition).bind ?_
    rintro _ _ s5 _ rfl
    exact hashOf_inLimit index 64 hg2

end Step

namespace GState

lemma performs_sha3 (h : g.Performs .sha3 s (.states gs) s') (hg' : g' ∈ gs)
    (hlimit : g.machine.gasLimit = .int limit) : g'.machine.minGas ≤ limit := by
  have hrun := h.run
  change (g.run .hash false true) s = _ at hrun
  obtain ⟨-, e, g2, ⟨rfl, hg2⟩, gs', heq, -, hgs'⟩ := (run_leads (fun g1 s1 _ hcopy _ _ => Step.hash_inLimit (by
      obtain ⟨st, rs, hm, -⟩ := hcopy.machine
      rw [hm]
      exact hlimit)) false true).ok hrun
  cases heq
  obtain ⟨g3, hg3, g4, rfl, rfl⟩ := hgs' g' hg'
  obtain rfl := List.mem_singleton.1 hg3
  exact hg2.2

/-- What an instruction has booked when a state goes on after it. Jumps are not found out, and a hash is held only to the
limit of the machine. -/
structure Spends (op : Opcode) (g g' : GState) : Prop where
  least : g.machine.minGas ≤ g'.machine.minGas
  most : g.machine.maxGas ≤ g'.machine.maxGas
  machine : op ≠ .jump → op ≠ .jumpi → ∀ limit, g'.machine.gasLimit = .int limit → g'.machine.minGas ≤ limit
  tx : op ≠ .jump → op ≠ .jumpi → op ≠ .sha3 → ∀ tx limit, g'.tx? = some tx → tx.Allows limit → g'.machine.minGas < limit

lemma performs_books (h : g.Performs op s (.states gs) s') (hg' : g' ∈ gs) : g.machine.Books g'.machine :=
  (Explore.performs_passes h hg').books (by cases op <;> rfl)

lemma performs_spends (h : g.Performs op s (.states gs) s') (hg' : g' ∈ gs) : g.Spends op g' := by
  have hpasses := Explore.performs_passes h hg'
  have hbooks := performs_books h hg'
  cases hmetered : op.isMetered with
  | true =>
    rw [hmetered] at hpasses
    have haffords := hpasses.affords
    exact ⟨hbooks.least, hbooks.most, fun _ _ => haffords.machine, fun _ _ _ => haffords.tx⟩
  | false =>
    refine ⟨hbooks.least, hbooks.most, fun hjump hjumpi limit hlimit => ?_, fun hjump hjumpi hsha3 => ?_⟩
    · cases op with
      | jump => exact absurd rfl hjump
      | jumpi => exact absurd rfl hjumpi
      | sha3 =>
        obtain ⟨g1, g2, node, hg1, hg2, rfl⟩ := hpasses
        refine performs_sha3 h hg' ?_
        rw [← hg1.machine.gasLimit, ← hlimit]
        obtain ⟨g3, rfl, rfl⟩ := hg2
        rfl
      | _ => cases hmetered
    · cases op with
      | jump => exact absurd rfl hjump
      | jumpi => exact absurd rfl hjumpi
      | sha3 => exact absurd rfl hsha3
      | _ => cases hmetered

end GState

/-! ## Callers -/

namespace Explore

variable {c c' last : GState}

/-- A caller that is called back has been given back nothing, and has paid for the account that was made. -/
lemma Recalls.books (h : Recalls c last c') (hlast : last.machine.Accounted) : c.machine.Books c'.machine := by
  cases h with
  | fails => exact .refl _
  | hands h =>
    obtain ⟨m, hm, heq | heq⟩ := h.paid
    · rw [heq]
      exact .of_copyOf hm
    · rw [heq]
      exact (Machine.Books.of_copyOf hm).trans (.useGas hlast.nonneg hlast.ordered)

lemma begins_accounted {tx : Tx} {w : World} (h : tx.Begins w g) : g.machine.Accounted := by
  rw [h.machine]
  exact ⟨⟨_, rfl⟩, Int.le_refl 0, Int.le_refl 0⟩

/-- How the gas of a state compares with what was used before: by the state that it follows in the same frame, or by the
caller that waited for the frame that has ended. A frame that starts has used none. -/
inductive Accounts (g : GState) (s : Session) (g' : GState) (s' : Session) : Prop
  | goesOn (op : Opcode) (hat : g.IsAt op s) (hframes : g'.frames = g.frames) (hspends : g.Spends op g')
  | starts (tx : Tx) (n : Nat) (hframes : g'.frames = ⟨tx, some n⟩ :: g.frames)
      (hsaved : s'.shared.suspended[n]? = some g) (hleast : g'.machine.minGas = 0) (hmost : g'.machine.maxGas = 0)
  | returns (tx : Tx) (n : Nat) (c : GState) (hframes : g.frames = ⟨tx, some n⟩ :: c.frames)
      (hsaved : s.shared.suspended[n]? = some c) (hback : g'.frames = c.frames)
      (hleast : c.machine.minGas ≤ g'.machine.minGas) (hmost : c.machine.maxGas ≤ g'.machine.maxGas)
      (haffords : g'.Affords)

lemma Succeeds.accounts (h : Succeeds g s g' s') (hg : g.machine.Accounted) : Accounts g s g' s' := by
  cases h with
  | goesOn hperforms hg' =>
    exact .goesOn _ hperforms.isAt (performs_passes hperforms hg').stays.frames (GState.performs_spends hperforms hg')
  | starts hperforms hstart =>
    obtain ⟨hframes, hsuspended, -, hbegins⟩ := startFrame_run hstart
    refine .starts _ _ hframes ?_ ?_ ?_
    · rw [hsuspended, Array.getElem?_push_size]
    iterate 2 rw [hbegins.machine]
  | returns hframes hcaller hrecalls hs1 hresume hg' =>
    have hpasses := resume_passes hresume hg'
    have hbooks := (hrecalls.books hg).trans (hpasses.books rfl)
    exact .returns _ _ _ hframes hcaller (hpasses.stays.frames.trans hrecalls.frames) hbooks.least hbooks.most
      hpasses.affords

lemma Succeeds.accounted (h : Succeeds g s g' s') (hg : g.machine.Accounted)
    (hcallers : ∀ (n : Nat) c, s.shared.suspended[n]? = some c → c.machine.Accounted) : g'.machine.Accounted := by
  cases h with
  | goesOn hperforms hg' => exact (GState.performs_books hperforms hg').accounted hg
  | starts hperforms hstart => exact begins_accounted (startFrame_run hstart).2.2.2
  | returns hframes hcaller hrecalls hs1 hresume hg' =>
    have hpasses := resume_passes hresume hg'
    exact ((hrecalls.books hg).trans (hpasses.books rfl)).accounted (hcallers _ _ hcaller)

lemma kept_accounted (B : Tx → World → Prop) (K : GState → Session → Prop) :
    Kept B K (fun _ => True) (·.machine.Accounted) where
  tends _ _ := trivial
  opens := by
    rintro s s' g - ⟨tx, w, g0, cs, txs, node, -, hstart, rfl⟩
    have hfirst := begins_accounted ((tx.start_yields w s).ok hstart).2
    exact ⟨trivial, hfirst⟩
  labels := by
    rintro g g' hg ⟨node, notes, function, rfl⟩
    exact hg
  saves hc _ := ⟨hc, hc⟩
  after _ _ _ _ := trivial
  step _ hg _ hcallers h := h.accounted hg hcallers

/-- In every state of every run the amounts of gas are in order, and a state that follows another has used no less than what
it goes on from, within the limits. -/
theorem gas_is_accounted (h₀ : s₀.shared.suspended = #[])
    (h : Run (fun _ _ => True) (fun _ _ => True) s₀ gs s) (hg : g ∈ gs) :
    0 ≤ g.machine.minGas ∧ g.machine.minGas ≤ g.machine.maxGas ∧ (∃ limit, g.machine.gasLimit = .int limit) ∧
    ∀ r s', execute {} g s = .ok r s' → ∀ g' ∈ r.successors, Accounts g s g' s' := by
  have hgas := (h.holds h₀ (kept_accounted _ _) trivial).states g hg
  refine ⟨hgas.nonneg, hgas.ordered, hgas.limit, fun r s' hr g' hg' => ?_⟩
  exact (execute_succeeds ((h.backed h₀).states g hg) hr g' hg').accounts hgas

/-- An account calls another one, which stops at once: the caller goes on with what it had used, and more. -/
theorem called_account_is_accounted : ∃ gs g s r s' g',
    Run (fun _ _ => True) (fun _ _ => True) (.ofCodes ["6000600060006000600061020061fffff1", "00"]) gs s ∧ g ∈ gs ∧
    g.frames.length = 2 ∧ 0 ≤ g.machine.minGas ∧ g.machine.minGas ≤ g.machine.maxGas ∧
    execute {} g s = .ok r s' ∧ r.successors = [g'] ∧ g'.frames.length = 1 ∧ Accounts g s g' s' := by
  obtain ⟨gs, g, s, hrun, hg, hlength, r, s', hr, g', hsuccessors, hlength'⟩ :=
    exists_run ["6000600060006000600061020061fffff1", "00"] 8 (B := fun _ _ => True)
      (T := fun g s => g.frames.length = 2 ∧ LeadsTo g s fun g' _ => g'.frames.length = 1) trivial (by decide +kernel)
  obtain ⟨hnonneg, hordered, -, hnext⟩ := gas_is_accounted rfl hrun hg
  have hg' : g' ∈ r.successors := by
    rw [hsuccessors]
    exact List.mem_singleton_self g'
  exact ⟨gs, g, s, r, s', g', hrun, hg, hlength, hnonneg, hordered, hr, hsuccessors, hlength',
    hnext r s' hr g' hg'⟩

end Explore
end EvmAudit
