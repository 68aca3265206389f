import EvmAudit.Proofs.Interpretation
import Mathlib.Data.List.Pairwise

/-!
# Independent groups

Conditions are sorted into groups by the variables and arrays in them. If each group can be met for itself, all of them
can be met together, because interpretations of different groups can be put side by side: as far as the groups show what
they are about. They do not show the functions that they apply nor what stands inside an array, and where groups share
such a symbol each of them may be met and all of them together not.
-/

namespace EvmAudit

open List Term

variable {ι : Interpretation} {bs bs' : List Bucket} {c : Term} {cs : List Term} {name : String}

/-! ## Symbols -/

inductive Symbol where
  | number (name : String)
  | content (name : String)
  | function (name : String)
  deriving DecidableEq

/-- How a symbol shows in the list of variables of a group. -/
def Symbol.text : Symbol → String
  | .number name => name
  | .content name => "Array(" ++ name ++ ")"
  | .function name => name

/-- Symbols inside an array, which does not show them. -/
def Symbol.hide (ps : List (Symbol × Bool)) : List (Symbol × Bool) := ps.map fun p => (p.1, true)

mutual

/-- The symbols of a term, each with whether it is hidden: functions are, and what stands inside an array. -/
def Term.symbols : Term → List (Symbol × Bool)
  | .const _ _ | .truth _ => []
  | .symbol name _ | .prop name => [(.number name, false)]
  | .arith _ a b | .cmp _ a b | .xor a b => a.symbols ++ b.symbols
  | .ite c a b => c.symbols ++ a.symbols ++ b.symbols
  | .extract _ _ e | .not e => e.symbols
  | .concat parts | .sum parts | .conj parts | .disj parts => Term.symbolsAll parts
  | .apply name args _ => (.function name, true) :: Term.symbolsAll args
  | .select a i => a.symbols ++ i.symbols

def Term.symbolsAll : List Term → List (Symbol × Bool)
  | [] => []
  | t :: ts => t.symbols ++ Term.symbolsAll ts

def ArrayTerm.symbols : ArrayTerm → List (Symbol × Bool)
  | .named name _ _ => [(.content name, false)]
  | .filled _ _ _ => []
  | .store base _ v => base.symbols ++ Symbol.hide v.symbols
  | .choice c a b => Symbol.hide (c.symbols ++ a.symbols ++ b.symbols)

end

lemma Symbol.not_mem_hide {σ : Symbol} {ps : List (Symbol × Bool)} : (σ, false) ∉ hide ps := by simp [hide]

/-- Two interpretations give a symbol the same meaning. -/
def Interpretation.Agree (ι ι' : Interpretation) : Symbol → Prop
  | .number name => ι.number name = ι'.number name
  | .content name => ι.content name = ι'.content name
  | .function name => ι.function name = ι'.function name

section Congruence

variable {ι' : Interpretation}

mutual

lemma Term.means_congr : ∀ {t : Term}, (∀ p ∈ t.symbols, ι.Agree ι' p.1) → t.means ι = t.means ι'
  | .const _ _, _ | .truth _, _ => rfl
  | .symbol name _, h | .prop name, h => by
    have hname : ι.number name = ι'.number name := h (.number name, false) (by simp [symbols])
    simp [Term.means, hname]
  | .arith _ a b, h | .cmp _ a b, h | .xor a b, h => by
    rw [Term.symbols, forall_mem_append] at h
    simp [Term.means, Term.means_congr h.1, Term.means_congr h.2]
  | .ite c a b, h => by
    rw [Term.symbols, forall_mem_append, forall_mem_append] at h
    simp [Term.means, Term.means_congr h.1.1, Term.means_congr h.1.2, Term.means_congr h.2]
  | .extract _ _ e, h | .not e, h => by
    rw [Term.symbols] at h
    simp [Term.means, Term.means_congr h]
  | .concat parts, h | .sum parts, h | .conj parts, h | .disj parts, h => by
    rw [Term.symbols] at h
    simp [Term.means, Term.meansAll_congr h]
  | .apply name args w, h => by
    rw [Term.symbols, forall_mem_cons] at h
    have hname : ι.function name = ι'.function name := h.1
    simp [Term.means, hname, Term.meansAll_congr h.2]
  | .select a i, h => by
    rw [Term.symbols, forall_mem_append] at h
    simp [Term.means, ArrayTerm.means_congr h.1, Term.means_congr h.2]

lemma Term.meansAll_congr : ∀ {ts : List Term}, (∀ p ∈ symbolsAll ts, ι.Agree ι' p.1) →
    meansAll ι ts = meansAll ι' ts
  | [], _ => rfl
  | t :: ts, h => by
    rw [Term.symbolsAll, forall_mem_append] at h
    simp [Term.meansAll, Term.means_congr h.1, Term.meansAll_congr h.2]

lemma ArrayTerm.means_congr : ∀ {a : ArrayTerm}, (∀ p ∈ a.symbols, ι.Agree ι' p.1) → a.means ι = a.means ι'
  | .named name _ _, h => h (.content name, false) (by simp [ArrayTerm.symbols])
  | .filled _ _ _, _ => rfl
  | .store base _ v, h => by
    rw [ArrayTerm.symbols, forall_mem_append, Symbol.hide, forall_mem_map] at h
    simp [ArrayTerm.means, ArrayTerm.means_congr h.1, Term.means_congr h.2]
  | .choice c a b, h => by
    rw [ArrayTerm.symbols, Symbol.hide, forall_mem_map, forall_mem_append, forall_mem_append] at h
    simp [ArrayTerm.means, Term.means_congr h.1.1, ArrayTerm.means_congr h.1.2, ArrayTerm.means_congr h.2]

end

end Congruence

/-! ## What a group shows -/

namespace Bucket

lemma of_append_ok {x y : Except Fault (List String)} {ns : List String} (h : (do return (← x) ++ (← y)) = .ok ns) :
    ∃ as bs, x = .ok as ∧ y = .ok bs ∧ ns = as ++ bs := by
  cases x with
  | error e => cases h
  | ok as =>
    cases y with
    | error e => cases h
    | ok bs => exact ⟨as, bs, rfl, rfl, (Except.ok.inj h).symm⟩

lemma text_of_mem_symbols {σ : Symbol} : ∀ {a : ArrayTerm}, (σ, false) ∈ a.symbols → σ.text = a.text
  | .named name _ _, h => by
    obtain rfl : σ = .content name := by simpa [ArrayTerm.symbols] using h
    rfl
  | .filled _ _ _, h => by simp [ArrayTerm.symbols] at h
  | .store base _ _, h => by
    rw [ArrayTerm.symbols, mem_append, or_iff_left Symbol.not_mem_hide] at h
    have hbase := text_of_mem_symbols h
    exact hbase
  | .choice _ _ _, h => by
    exact absurd h Symbol.not_mem_hide

section Leaves

variable {σ : Symbol}

mutual

lemma text_mem_leaves : ∀ {t : Term} {ns : List String}, leaves t = .ok ns → (σ, false) ∈ t.symbols → σ.text ∈ ns
  | .const _ _, _, _, hσ => by simp [symbols] at hσ
  | .truth _, _, h, _ | .extract _ _ _, _, h, _ => by simp [leaves] at h
  | .symbol name _, ns, h, hσ | .prop name, ns, h, hσ => by
    obtain rfl : [name] = ns := by simpa [leaves] using h
    obtain rfl : σ = .number name := by simpa [symbols] using hσ
    exact mem_singleton.2 rfl
  | .arith _ a b, ns, h, hσ | .cmp _ a b, ns, h, hσ | .xor a b, ns, h, hσ => by
    rw [leaves] at h
    obtain ⟨as, bs, ha, hb, rfl⟩ := of_append_ok h
    rw [symbols, mem_append] at hσ
    exact mem_append.2 (hσ.imp (text_mem_leaves ha) (text_mem_leaves hb))
  | .ite c a b, ns, h, hσ => by
    rw [leaves] at h
    rw [symbols, mem_append, mem_append] at hσ
    obtain ⟨cs, rest, hc, hrest, rfl⟩ : ∃ cs rest, leaves c = .ok cs ∧
        (do return (← leaves a) ++ (← leaves b)) = Except.ok rest ∧ ns = cs ++ rest := by
      cases hc : leaves c <;> cases ha : leaves a <;> cases hb : leaves b <;>
        simp_all [pure, Except.pure, bind, Except.bind]
    obtain ⟨as, bs, ha, hb, rfl⟩ := of_append_ok hrest
    simp only [mem_append]
    rcases hσ with (hσ | hσ) | hσ
    · exact .inl (text_mem_leaves hc hσ)
    · exact .inr (.inl (text_mem_leaves ha hσ))
    · exact .inr (.inr (text_mem_leaves hb hσ))
  | .not e, ns, h, hσ => by
    rw [leaves] at h
    rw [symbols] at hσ
    exact text_mem_leaves h hσ
  | .concat parts, ns, h, hσ | .sum parts, ns, h, hσ | .conj parts, ns, h, hσ | .disj parts, ns, h, hσ => by
    rw [leaves] at h
    rw [symbols] at hσ
    exact text_mem_leavesAll h hσ
  | .apply name args w, ns, h, hσ => by
    rw [leaves] at h
    rw [symbols, mem_cons] at hσ
    exact text_mem_leavesAll h (hσ.resolve_left (by simp))
  | .select a i, ns, h, hσ => by
    rw [leaves] at h
    obtain ⟨as, bs, ha, hb, rfl⟩ := of_append_ok (x := .ok [a.text]) h
    obtain rfl := Except.ok.inj ha
    rw [symbols, mem_append] at hσ
    refine mem_append.2 (hσ.imp (fun hσ => ?_) (text_mem_leaves hb))
    exact mem_singleton.2 (text_of_mem_symbols hσ)

lemma text_mem_leavesAll : ∀ {name : String} {ts : List Term} {ns : List String}, leavesAll name ts = .ok ns →
    (σ, false) ∈ symbolsAll ts → σ.text ∈ ns
  | _, [], _, _, hσ => by simp [symbolsAll] at hσ
  | _, t :: ts, ns, h, hσ => by
    rw [leavesAll.eq_def] at h
    exact text_mem_leavesList h hσ

lemma text_mem_leavesList : ∀ {ts : List Term} {ns : List String}, leavesList ts = .ok ns →
    (σ, false) ∈ symbolsAll ts → σ.text ∈ ns
  | [], _, _, hσ => by simp [symbolsAll] at hσ
  | t :: ts, ns, h, hσ => by
    rw [leavesList] at h
    obtain ⟨as, bs, ha, hb, rfl⟩ := of_append_ok h
    rw [symbolsAll, mem_append] at hσ
    exact mem_append.2 (hσ.imp (text_mem_leaves ha) (text_mem_leavesList hb))

end

end Leaves

/-! ## Groups are apart -/

def symbols (b : Bucket) : List (Symbol × Bool) := b.conditions.flatMap (·.symbols)

/-- The symbols that show in a group are among its variables. -/
def Shows (b : Bucket) : Prop := ∀ σ, (σ, false) ∈ b.symbols → σ.text ∈ b.names

/-- Groups that share no variable and together have all the conditions. -/
structure Grouped (cs : List Term) (bs : List Bucket) : Prop where
  covered : ∀ c ∈ cs, ∃ b ∈ bs, c ∈ b.conditions
  shows : ∀ b ∈ bs, b.Shows
  apart : bs.Pairwise fun a b => List.Disjoint a.names b.names

/-- The group that a condition joins shows the symbols of the groups it came from, and of the condition. -/
lemma shows_merged {vars : List String} (hbs : ∀ b ∈ bs, b.Shows) (hc : ∀ σ, (σ, false) ∈ c.symbols → σ.text ∈ vars) :
    (mk (bs.flatMap (·.names) ++ vars).eraseDups (bs.flatMap (·.conditions) ++ [c])).Shows := by
  intro σ hσ
  show σ.text ∈ (bs.flatMap (·.names) ++ vars).eraseDups
  rw [mem_eraseDups, mem_append, mem_flatMap]
  obtain ⟨d, hd, hσd⟩ := mem_flatMap.1 hσ
  rcases mem_append.1 hd with hd | hd
  · obtain ⟨b, hb, hd⟩ := mem_flatMap.1 hd
    exact .inl ⟨b, hb, hbs b hb σ (mem_flatMap.2 ⟨d, hd, hσd⟩)⟩
  · obtain rfl := mem_singleton.1 hd
    exact .inr (hc σ hσd)

lemma Grouped.add (h : Grouped cs bs) (hadd : add bs c = .ok bs') : Grouped (cs ++ [c]) bs' := by
  cases hns : leaves c with
  | error e => simp [Bucket.add, hns] at hadd
  | ok ns =>
    simp only [Bucket.add, hns, bind, Except.bind, pure, Except.pure, partition_eq_filter_filter,
      Except.ok.injEq] at hadd
    subst hadd
    set joins : Bucket → Bool := fun b => meets b.names ns.eraseDups with hjoins
    refine ⟨?_, ?_, ?_⟩
    · intro d hd
      rcases mem_append.1 hd with hd | hd
      · obtain ⟨b, hb, hdb⟩ := h.covered d hd
        cases hj : joins b with
        | true =>
          refine ⟨_, mem_append.2 (.inr (mem_singleton.2 rfl)), mem_append.2 (.inl ?_)⟩
          exact mem_flatMap.2 ⟨b, mem_filter.2 ⟨hb, hj⟩, hdb⟩
        | false => exact ⟨b, mem_append.2 (.inl (mem_filter.2 ⟨hb, by simp [hj]⟩)), hdb⟩
      · exact ⟨_, mem_append.2 (.inr (mem_singleton.2 rfl)), mem_append.2 (.inr hd)⟩
    · intro b hb
      rcases mem_append.1 hb with hb | hb
      · exact h.shows b (mem_of_mem_filter hb)
      · obtain rfl := mem_singleton.1 hb
        refine shows_merged (fun b hb => h.shows b (mem_of_mem_filter hb)) (fun σ hσ => ?_)
        exact mem_eraseDups.2 (text_mem_leaves hns hσ)
    · refine pairwise_append.2 ⟨h.apart.filter _, pairwise_singleton _ _, ?_⟩
      intro a ha b hb name hna hnb
      obtain rfl := mem_singleton.1 hb
      obtain ⟨ha, hja⟩ : a ∈ bs ∧ joins a = false := by simpa using mem_filter.1 ha
      rcases mem_append.1 (mem_eraseDups.1 hnb) with hnb | hnb
      · obtain ⟨b, hb, hnb⟩ := mem_flatMap.1 hnb
        obtain ⟨hb, hjb⟩ := mem_filter.1 hb
        have hne : a ≠ b := fun heq => by simp [heq, hjb] at hja
        have hsymm : Std.Symm fun a b : Bucket => Disjoint a.names b.names := ⟨fun _ _ hab _ hb ha => hab ha hb⟩
        exact h.apart.forall ha hb hne hna hnb
      · have hjoin : joins a = true := any_eq_true.2 ⟨name, hna, by simpa using hnb⟩
        simp [hjoin] at hja

lemma Grouped.run {ds : List Term} (h : Grouped cs bs) (hrun : ds.foldlM Bucket.add bs = .ok bs') :
    Grouped (cs ++ ds) bs' := by
  induction ds generalizing cs bs with
  | nil =>
    obtain rfl := Except.ok.inj hrun
    simpa using h
  | cons d ds ih =>
    rw [foldlM_cons] at hrun
    cases hadd : Bucket.add bs d with
    | error e => simp [hadd, bind, Except.bind] at hrun
    | ok mid =>
      rw [hadd] at hrun
      simpa using ih (h.add hadd) hrun

lemma grouped_ofConditions (hrun : ofConditions cs = .ok bs) : Grouped cs bs := by
  have hnone : Grouped [] [] := ⟨by simp, by simp, .nil⟩
  simpa using hnone.run hrun

/-! ## Interpretations side by side -/

/-- Neither group hides a symbol of the other. -/
def Open (a b : Bucket) : Prop := ∀ p ∈ a.symbols, ∀ q ∈ b.symbols, p.1 = q.1 → p.2 = false ∧ q.2 = false

end Bucket

/-- The interpretation that reads some symbols by `ι` and the others by `ι'`. -/
def Interpretation.beside (own : Symbol → Bool) (ι ι' : Interpretation) : Interpretation where
  number name := if own (.number name) then ι.number name else ι'.number name
  content name := if own (.content name) then ι.content name else ι'.content name
  function name := if own (.function name) then ι.function name else ι'.function name

lemma Interpretation.beside_agree (own : Symbol → Bool) (ι ι' : Interpretation) (σ : Symbol) :
    (beside own ι ι').Agree (if own σ then ι else ι') σ := by
  cases σ <;> simp only [Agree, beside] <;> split <;> rfl

namespace Bucket

/-- Groups without common symbols are met together when each of them can be met. -/
lemma met_together (hbs : bs.Pairwise fun a b => ∀ p ∈ a.symbols, ∀ q ∈ b.symbols, p.1 ≠ q.1)
    (hmet : ∀ b ∈ bs, ∃ ι, ∀ c ∈ b.conditions, c.IsMet ι) : ∃ ι, ∀ b ∈ bs, ∀ c ∈ b.conditions, c.IsMet ι := by
  induction bs with
  | nil => exact ⟨default, by simp⟩
  | cons b bs ih =>
    rw [pairwise_cons] at hbs
    obtain ⟨ι, hι⟩ := hmet b mem_cons_self
    obtain ⟨ι', hι'⟩ := ih hbs.2 fun d hd => hmet d (mem_cons_of_mem b hd)
    set own : Symbol → Bool := fun σ => b.symbols.any (·.1 == σ) with hown
    have hmeets {c : Term} {κ} (hκ : ∀ p ∈ c.symbols, (if own p.1 then ι else ι') = κ) (hc : c.IsMet κ) :
        c.IsMet (.beside own ι ι') := by
      rwa [IsMet, means_congr fun p hp => hκ p hp ▸ Interpretation.beside_agree own ι ι' p.1]
    refine ⟨.beside own ι ι', fun d hd c hc => ?_⟩
    rcases mem_cons.1 hd with rfl | hd
    · refine hmeets (fun p hp => if_pos ?_) (hι c hc)
      exact any_eq_true.2 ⟨p, mem_flatMap.2 ⟨c, hc, hp⟩, by simp⟩
    · refine hmeets (fun p hp => if_neg fun hown => ?_) (hι' d hd c hc)
      obtain ⟨q, hq, heq⟩ := any_eq_true.1 hown
      exact hbs.1 d hd q hq p (mem_flatMap.2 ⟨c, hc, hp⟩) (by simpa using heq)

/-- Where no group hides a symbol of another, interpretations that meet each group can be put together into one that
meets all the conditions. -/
theorem open_groups_met_together {cs : List Term} {bs : List Bucket} (hrun : ofConditions cs = .ok bs)
    (hopen : bs.Pairwise Open) (hmet : ∀ b ∈ bs, ∃ ι, ∀ c ∈ b.conditions, c.IsMet ι) :
    ∃ ι, ∀ c ∈ cs, c.IsMet ι := by
  have hgroups := grouped_ofConditions hrun
  have happart : bs.Pairwise fun a b => ∀ p ∈ a.symbols, ∀ q ∈ b.symbols, p.1 ≠ q.1 := by
    refine ((hgroups.apart.and hopen).imp_of_mem ?_)
    rintro a b ha hb ⟨hnames, hab⟩ ⟨σ, hp⟩ hpa ⟨τ, hq⟩ hqb rfl
    -- A common symbol is hidden in neither of them, so it would be a common variable.
    obtain ⟨rfl, rfl⟩ := hab _ hpa _ hqb rfl
    exact hnames (hgroups.shows a ha σ hpa) (hgroups.shows b hb σ hqb)
  obtain ⟨ι, hι⟩ := met_together happart hmet
  refine ⟨ι, fun c hc => ?_⟩
  obtain ⟨b, hb, hcb⟩ := hgroups.covered c hc
  exact hι b hb c hcb

/-- The condition that a function has a value at a variable. -/
def applied (value : Nat) (name : String) : Term := .cmp .eq (.const value 256) (.apply "f" [.symbol name 256] 256)

def isZero (name : String) : Term := .cmp .eq (.const 0 256) (.symbol name 256)

lemma isMet_applied {value : Nat} : (applied value name).IsMet ι ↔
    value = ι.function "f" [(256, (symbol name 256).means ι)] 256 % 2 ^ 256 := by
  simp [applied, isMet_cmp, means, meansAll, CmpOp.eval, width]

lemma isMet_isZero : (isZero name).IsMet ι ↔ 0 = (symbol name 256).means ι := by
  simp [isZero, isMet_cmp, means, CmpOp.eval]

/-- A function in one group and a variable in the other. -/
theorem function_beside_variable :
    ofConditions [applied 1 "x", isZero "y"] = .ok [⟨["x"], [applied 1 "x"]⟩, ⟨["y"], [isZero "y"]⟩] ∧
      ∃ ι, ∀ c ∈ [applied 1 "x", isZero "y"], c.IsMet ι := by
  have hrun : ofConditions [applied 1 "x", isZero "y"] = .ok [⟨["x"], [applied 1 "x"]⟩, ⟨["y"], [isZero "y"]⟩] := by
    cbv
  refine ⟨hrun, open_groups_met_together hrun ?_ ?_⟩
  · simp [Open, symbols, applied, isZero, Term.symbols, symbolsAll]
  · simp only [forall_mem_cons, not_mem_nil, false_imp_iff, implies_true, and_true, isMet_applied,
      isMet_isZero]
    exact ⟨⟨⟨default, fun _ _ _ => 1⟩, rfl⟩, ⟨default, rfl⟩⟩

/-- A function that two groups apply shows in neither: here each of them can be met, and all together cannot. -/
theorem groups_hide_function :
    ∃ bs, ofConditions [applied 1 "x", isZero "x", applied 2 "y", isZero "y"] = .ok bs ∧
      (∀ b ∈ bs, ∃ ι, ∀ c ∈ b.conditions, c.IsMet ι) ∧
      ¬ ∃ ι, ∀ c ∈ [applied 1 "x", isZero "x", applied 2 "y", isZero "y"], c.IsMet ι := by
  refine ⟨[⟨["x"], [applied 1 "x", isZero "x"]⟩, ⟨["y"], [applied 2 "y", isZero "y"]⟩], by cbv, ?_, ?_⟩
  · simp only [forall_mem_cons, not_mem_nil, false_imp_iff, implies_true, and_true, isMet_applied,
      isMet_isZero]
    exact ⟨⟨⟨default, fun _ _ _ => 1⟩, rfl, rfl⟩, ⟨⟨default, fun _ _ _ => 2⟩, rfl, rfl⟩⟩
  rintro ⟨ι, hι⟩
  simp only [forall_mem_cons, not_mem_nil, false_imp_iff, implies_true, and_true, isMet_applied, isMet_isZero] at hι
  obtain ⟨hone, hx, htwo, hy⟩ := hι
  rw [← hx] at hone
  rw [← hy] at htwo
  omega

end Bucket
end EvmAudit
