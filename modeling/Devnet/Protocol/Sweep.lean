import Devnet.Protocol.Ledger

/-!
Batches of votes on the ledger. The votes that reach two thirds move the justified bits and with
them the filters for the votes behind them; where neither the finalized slot nor the source of
any vote is moved, the boxes and bits a batch leaves are a function of the set of its votes. And
where a root names one slot, an accepted vote stays in its box until its slot is justified.
-/

set_option autoImplicit false

namespace Devnet.Protocol
open Machine Devnet.Types

namespace Ledger

open Classical in
noncomputable def filled (L : Ledger) (atts : List Attestation) (root : Bytes32) : Finset Nat :=
  L.ballots root ∪ ((atts.filter fun att => L.Acceptable att.data ∧ att.data.target.root = root).map
    (·.validatorId.get)).toFinset

theorem mem_filled {L : Ledger} {atts : List Attestation} {root : Bytes32} {v : Nat} :
    v ∈ L.filled atts root ↔ v ∈ L.ballots root ∨ ∃ att ∈ atts, L.Acceptable att.data ∧
      att.data.target.root = root ∧ att.validatorId.get = v := by
  simp [filled,and_assoc]

section
variable {n : Nat} {L : Ledger} {atts : List Attestation} {att : Attestation} {root : Bytes32}

theorem filled_subset (L : Ledger) (atts : List Attestation) (att : Attestation) (root : Bytes32) :
    L.filled atts root ⊆ L.filled (atts ++ [att]) root := by
  intro v hv
  rcases mem_filled.mp hv with hv | ⟨a,ha,hrest⟩
  · exact mem_filled.mpr (.inl hv)
  · exact mem_filled.mpr (.inr ⟨a,List.mem_append_left _ ha,hrest⟩)

theorem filled_other (h : L.Acceptable att.data → att.data.target.root ≠ root) :
    L.filled (atts ++ [att]) root = L.filled atts root := by
  refine Finset.Subset.antisymm (fun v hv => ?_) (filled_subset L atts att root)
  rcases mem_filled.mp hv with hv | ⟨a,ha,hacc,hroot,hvoter⟩
  · exact mem_filled.mpr (.inl hv)
  · rcases List.mem_append.mp ha with ha | ha
    · exact mem_filled.mpr (.inr ⟨a,ha,hacc,hroot,hvoter⟩)
    · obtain rfl := List.mem_singleton.mp ha
      exact absurd hroot (h hacc)

theorem filled_vote (h : L.Acceptable att.data) :
    L.filled (atts ++ [att]) att.data.target.root =
      insert att.validatorId.get (L.filled atts att.data.target.root) := by
  ext v
  simp only [mem_filled,Finset.mem_insert,List.mem_append,List.mem_singleton]
  constructor
  · rintro (hv | ⟨a,ha | rfl,hrest⟩)
    · exact .inr (.inl hv)
    · exact .inr (.inr ⟨a,ha,hrest⟩)
    · exact .inl hrest.2.2.symm
  · rintro (rfl | hv | ⟨a,ha,hrest⟩)
    · exact .inr ⟨att,.inr rfl,h,rfl,rfl⟩
    · exact .inl hv
    · exact .inr ⟨a,.inl ha,hrest⟩

theorem filled_perm {atts' : List Attestation} (h : atts.Perm atts') :
    L.filled atts root = L.filled atts' root := by
  ext v
  simp only [mem_filled,h.mem_iff]

structure Carried (n : Nat) (L : Ledger) (atts : List Attestation) (root : Bytes32) : Prop where
  named : ∃ att ∈ atts, L.Acceptable att.data ∧ att.data.target.root = root
  quorum : 2*n ≤ 3*(L.filled atts root).card

theorem Carried.append (h : L.Carried n atts root) : L.Carried n (atts ++ [att]) root := by
  obtain ⟨a,ha,hrest⟩ := h.named
  refine ⟨⟨a,List.mem_append_left _ ha,hrest⟩,?_⟩
  have hquorum := h.quorum
  have hcard := Finset.card_le_card (filled_subset L atts att root)
  omega

theorem carried_other (h : L.Acceptable att.data → att.data.target.root ≠ root) :
    L.Carried n (atts ++ [att]) root ↔ L.Carried n atts root := by
  refine ⟨fun hcarried => ?_,Carried.append⟩
  obtain ⟨a,ha,hacc,hroot⟩ := hcarried.named
  refine ⟨?_,filled_other h ▸ hcarried.quorum⟩
  rcases List.mem_append.mp ha with ha | ha
  · exact ⟨a,ha,hacc,hroot⟩
  · obtain rfl := List.mem_singleton.mp ha
    exact absurd hroot (h hacc)

end

/-- The ledger after the votes `atts`, in terms of the ledger before and of which votes there
were. -/
structure Swept (n : Nat) (L : Ledger) (atts : List Attestation) (M : Ledger) : Prop where
  history : M.history = L.history
  finalized : M.latestFinalized.slot = L.latestFinalized.slot
  length : M.justified.length = L.justified.length
  bits : ∀ t : Nat, M.justified[t]? = some true ↔ L.justified[t]? = some true ∨
    ∃ att ∈ atts, L.Acceptable att.data ∧ att.data.target.slot.get = t ∧
      L.Carried n atts att.data.target.root
  pending : ∀ root, ¬L.Carried n atts root → M.ballots root = L.filled atts root
  emptied : ∀ root, L.Carried n atts root → M.ballots root = ∅

def NamesSlots (L : Ledger) (atts : List Attestation) : Prop :=
  ∀ a ∈ atts, ∀ b ∈ atts, L.Acceptable a.data → L.Acceptable b.data →
    a.data.target.root = b.data.target.root → a.data.target.slot = b.data.target.slot

namespace Swept
variable {n : Nat} {L M N : Ledger} {atts : List Attestation} {att : Attestation}

theorem unset (h : Swept n L atts M) {t : Nat} (hopen : L.justified[t]? = some false)
    (hnot : M.justified[t]? ≠ some true) : M.justified[t]? = some false := by
  have hlt : t < M.justified.length := h.length ▸ (List.getElem?_eq_some_iff.mp hopen).1
  rw [List.getElem?_eq_getElem hlt] at hnot ⊢
  simpa using hnot

theorem acceptable_iff (h : Swept n L atts M)
    (hsource : M.justified[att.data.source.slot.get]? = some true ↔
      L.justified[att.data.source.slot.get]? = some true) :
    M.Acceptable att.data ↔
      L.Acceptable att.data ∧ M.justified[att.data.target.slot.get]? ≠ some true := by
  constructor
  · intro hacc
    have hopen : L.justified[att.data.target.slot.get]? = some false := by
      have hlt : att.data.target.slot.get < L.justified.length :=
        h.length ▸ (List.getElem?_eq_some_iff.mp hacc.targetBit).1
      have hnot : L.justified[att.data.target.slot.get]? ≠ some true := by
        intro hset
        have hkept := (h.bits _).mpr (.inl hset)
        simp [hacc.targetBit] at hkept
      rw [List.getElem?_eq_getElem hlt] at hnot ⊢
      simpa using hnot
    refine ⟨⟨hsource.mp hacc.sourceBit,hopen,h.history ▸ hacc.sourceRoot,
      h.history ▸ hacc.targetRoot,hacc.order,h.finalized ▸ hacc.justifiable⟩,?_⟩
    simp [hacc.targetBit]
  · rintro ⟨hacc,hnot⟩
    exact ⟨hsource.mpr hacc.sourceBit,h.unset hacc.targetBit hnot,h.history ▸ hacc.sourceRoot,
      h.history ▸ hacc.targetRoot,hacc.order,h.finalized ▸ hacc.justifiable⟩

theorem carried_iff (h : Swept n L atts M) (hnames : L.NamesSlots (atts ++ [att]))
    (hacc : L.Acceptable att.data) :
    L.Carried n atts att.data.target.root ↔
      M.justified[att.data.target.slot.get]? = some true := by
  rw [h.bits]
  constructor
  · intro hcarried
    obtain ⟨a,ha,hacca,hroot⟩ := hcarried.named
    have hslot := hnames a (by simp [ha]) att (by simp) hacca hacc hroot
    exact .inr ⟨a,ha,hacca,congrArg Slot.get hslot,hroot ▸ hcarried⟩
  · rintro (hset | ⟨a,-,hacca,hslot,hcarried⟩)
    · simp [hacc.targetBit] at hset
    · -- both targets are the history entry of one slot
      have hroot := hacca.targetRoot
      rw [hslot,hacc.targetRoot] at hroot
      rwa [Option.some.inj hroot]

theorem idle (h : Swept n L atts M) (hnames : L.NamesSlots (atts ++ [att]))
    (hvain : L.Acceptable att.data → L.Carried n atts att.data.target.root) :
    Swept n L (atts ++ [att]) M := by
  refine ⟨h.history,h.finalized,h.length,fun t => ?_,fun root hnot => ?_,fun root hdone => ?_⟩
  · rw [h.bits]
    constructor
    · rintro (hset | ⟨a,ha,hacc,hslot,hdone⟩)
      · exact .inl hset
      · exact .inr ⟨a,List.mem_append_left _ ha,hacc,hslot,hdone.append⟩
    · rintro (hset | ⟨a,ha,hacc,hslot,hdone⟩)
      · exact .inl hset
      · by_cases hthis : L.Acceptable att.data ∧ att.data.target.root = a.data.target.root
        · obtain ⟨hatt,hroot⟩ := hthis
          have hcarried := hvain hatt
          obtain ⟨b,hb,haccb,hrootb⟩ := hcarried.named
          have hsame := hnames a ha b (List.mem_append_left _ hb) hacc haccb
            (hroot.symm.trans hrootb.symm)
          exact .inr ⟨b,hb,haccb,hsame ▸ hslot,hrootb ▸ hcarried⟩
        · have hold := (carried_other fun hatt hroot => hthis ⟨hatt,hroot⟩).mp hdone
          rcases List.mem_append.mp ha with ha | ha
          · exact .inr ⟨a,ha,hacc,hslot,hold⟩
          · obtain rfl := List.mem_singleton.mp ha
            exact absurd ⟨hacc,rfl⟩ hthis
  · have hother : L.Acceptable att.data → att.data.target.root ≠ root :=
      fun hatt heq => hnot (heq ▸ (hvain hatt).append)
    rw [filled_other hother]
    exact h.pending root fun hold => hnot hold.append
  · by_cases hthis : L.Acceptable att.data ∧ att.data.target.root = root
    · exact h.emptied root (hthis.2 ▸ hvain hthis.1)
    · exact h.emptied root ((carried_other fun hatt heq => hthis ⟨hatt,heq⟩).mp hdone)

theorem carried_at_iff {t : Nat}
    (hne : ∀ a ∈ atts ++ [att], L.Acceptable a.data → a.data.target.slot.get = t →
      L.Carried n (atts ++ [att]) a.data.target.root →
        a.data.target.root ≠ att.data.target.root) :
    (∃ a ∈ atts, L.Acceptable a.data ∧ a.data.target.slot.get = t ∧
      L.Carried n atts a.data.target.root) ↔
    ∃ a ∈ atts ++ [att], L.Acceptable a.data ∧ a.data.target.slot.get = t ∧
      L.Carried n (atts ++ [att]) a.data.target.root := by
  constructor
  · rintro ⟨a,ha,hacc,hslot,hdone⟩
    exact ⟨a,List.mem_append_left _ ha,hacc,hslot,hdone.append⟩
  · rintro ⟨a,ha,hacc,hslot,hdone⟩
    have hother := hne a ha hacc hslot hdone
    rcases List.mem_append.mp ha with ha | ha
    · exact ⟨a,ha,hacc,hslot,(carried_other fun _ => Ne.symm hother).mp hdone⟩
    · exact absurd (by rw [List.mem_singleton.mp ha]) hother

theorem ballot_eq (h : Swept n L atts M) (hacc : L.Acceptable att.data)
    (hold : ¬L.Carried n atts att.data.target.root) :
    M.ballot att = L.filled (atts ++ [att]) att.data.target.root := by
  rw [ballot,h.pending _ hold,filled_vote hacc]

theorem counted (h : Swept n L atts M) (hacc : L.Acceptable att.data)
    (hold : ¬L.Carried n atts att.data.target.root) (hshort : 3*(M.ballot att).card < 2*n) :
    Swept n L (atts ++ [att]) (M.record att) := by
  have hbox := h.ballot_eq hacc hold
  have hnew : ¬L.Carried n (atts ++ [att]) att.data.target.root := by
    intro hcarried
    have hquorum := hcarried.quorum
    rw [← hbox] at hquorum
    omega
  have hother : ∀ {root}, root ≠ att.data.target.root →
      (L.Carried n (atts ++ [att]) root ↔ L.Carried n atts root) :=
    fun hne => carried_other fun _ => Ne.symm hne
  refine ⟨h.history,h.finalized,h.length,fun t => ?_,fun root hnot => ?_,fun root hdone => ?_⟩
  · change M.justified[t]? = some true ↔ _
    rw [h.bits]
    exact or_congr_right (carried_at_iff fun a _ _ _ hdone heq => hnew (heq ▸ hdone))
  · by_cases heq : root = att.data.target.root
    · subst heq
      simp only [record,Function.update_self,hbox]
    · simp only [record,Function.update_of_ne heq,filled_other fun _ => Ne.symm heq]
      exact h.pending root fun hdone => hnot ((hother heq).mpr hdone)
  · have heq : root ≠ att.data.target.root := fun heq => hnew (heq ▸ hdone)
    simp only [record,Function.update_of_ne heq]
    exact h.emptied root ((hother heq).mp hdone)

theorem justified (h : Swept n L atts M) (hnames : L.NamesSlots (atts ++ [att]))
    (hacc : L.Acceptable att.data) (hold : ¬L.Carried n atts att.data.target.root)
    (hquorum : 2*n ≤ 3*(M.ballot att).card) {finalized : Checkpoint}
    (hfinalized : finalized.slot = L.latestFinalized.slot) :
    Swept n L (atts ++ [att]) (M.justify att finalized) := by
  have hbox := h.ballot_eq hacc hold
  have hnew : L.Carried n (atts ++ [att]) att.data.target.root :=
    ⟨⟨att,by simp,hacc,rfl⟩,hbox ▸ hquorum⟩
  have hother : ∀ {root}, root ≠ att.data.target.root →
      (L.Carried n (atts ++ [att]) root ↔ L.Carried n atts root) :=
    fun hne => carried_other fun _ => Ne.symm hne
  have hlt : att.data.target.slot.get < M.justified.length :=
    h.length ▸ (List.getElem?_eq_some_iff.mp hacc.targetBit).1
  refine ⟨h.history,hfinalized,by simpa [justify] using h.length,fun t => ?_,fun root hnot => ?_,
    fun root hdone => ?_⟩
  · by_cases ht : att.data.target.slot.get = t
    · subst ht
      simp only [justify,List.getElem?_set_self hlt,true_iff]
      exact .inr ⟨att,by simp,hacc,rfl,hnew⟩
    · simp only [justify,List.getElem?_set_ne ht]
      rw [h.bits]
      refine or_congr_right (carried_at_iff fun a ha hacca hslot _ heq => ht ?_)
      -- one root has one slot
      rw [← hslot,hnames a ha att (by simp) hacca hacc heq]
  · have heq : root ≠ att.data.target.root := fun heq => hnot (heq ▸ hnew)
    simp only [justify,Function.update_of_ne heq,filled_other fun _ => Ne.symm heq]
    exact h.pending root fun hdone => hnot ((hother heq).mpr hdone)
  · by_cases heq : root = att.data.target.root
    · simp only [justify,heq,Function.update_self]
    · simp only [justify,Function.update_of_ne heq]
      exact h.emptied root ((hother heq).mp hdone)

/-- What one vote of the batch does, given that it moves neither the finalized slot nor, so far,
its own source. -/
theorem vote (h : Swept n L atts M) {out : List Cast} (hstep : Step n M (.vote att) out N)
    (hnames : L.NamesSlots (atts ++ [att]))
    (hfinalized : N.latestFinalized.slot = L.latestFinalized.slot)
    (hsource : M.justified[att.data.source.slot.get]? = some true ↔
      L.justified[att.data.source.slot.get]? = some true) :
    Swept n L (atts ++ [att]) N := by
  have hfilter := h.acceptable_iff hsource
  cases hstep with
  | skip refused =>
    refine h.idle hnames fun hacc => (h.carried_iff hnames hacc).mpr ?_
    by_contra hnot
    exact refused (hfilter.mpr ⟨hacc,hnot⟩)
  | count voter accepted short =>
    obtain ⟨hacc,hnot⟩ := hfilter.mp accepted
    exact h.counted hacc (fun hold => hnot ((h.carried_iff hnames hacc).mp hold)) short
  | justify voter accepted quorum finality =>
    obtain ⟨hacc,hnot⟩ := hfilter.mp accepted
    exact h.justified hnames hacc (fun hold => hnot ((h.carried_iff hnames hacc).mp hold)) quorum
      hfinalized

end Swept

theorem Swept.unique {n : Nat} {L M N : Ledger} {atts atts' : List Attestation}
    (hperm : atts.Perm atts') (hM : Swept n L atts M) (hN : Swept n L atts' N) :
    M.justified = N.justified ∧ M.ballots = N.ballots := by
  have hcarried : ∀ root, L.Carried n atts root ↔ L.Carried n atts' root := by
    intro root
    constructor
    · rintro ⟨⟨a,ha,hrest⟩,hquorum⟩
      exact ⟨⟨a,hperm.mem_iff.mp ha,hrest⟩,filled_perm hperm ▸ hquorum⟩
    · rintro ⟨⟨a,ha,hrest⟩,hquorum⟩
      exact ⟨⟨a,hperm.mem_iff.mpr ha,hrest⟩,filled_perm hperm.symm ▸ hquorum⟩
  constructor
  · have hbits : ∀ t : Nat, M.justified[t]? = some true ↔ N.justified[t]? = some true := by
      intro t
      simp only [hM.bits,hN.bits,hperm.mem_iff,hcarried]
    have hlength := hM.length.trans hN.length.symm
    refine List.ext_getElem hlength fun t h1 h2 => ?_
    have ht := hbits t
    rw [List.getElem?_eq_getElem h1,List.getElem?_eq_getElem h2] at ht
    simpa [← Bool.eq_iff_iff] using ht
  · funext root
    by_cases hdone : L.Carried n atts root
    · rw [hM.emptied root hdone,hN.emptied root ((hcarried root).mp hdone)]
    · rw [hM.pending root hdone,hN.pending root fun h => hdone ((hcarried root).mpr h),
        filled_perm hperm]

/-- Votes leave the history alone and set bits; the justified checkpoint is the old one, or names
a slot that they set. -/
structure Voted (L M : Ledger) : Prop where
  history : M.history = L.history
  length : M.justified.length = L.justified.length
  kept : ∀ t : Nat, L.justified[t]? = some true → M.justified[t]? = some true
  latest : M.latestJustified = L.latestJustified ∧ M.justified = L.justified ∨
    L.justified[M.latestJustified.slot.get]? = some false ∧ M.Marked M.latestJustified

theorem Voted.vote {n : Nat} {L M N : Ledger} {att : Attestation} {out : List Cast}
    (h : Voted L M) (hstep : Step n M (.vote att) out N) : Voted L N := by
  have hbits : ∀ t : Nat, M.justified[t]? = some true → N.justified[t]? = some true :=
    fun t => hstep.bit_mono
  cases hstep with
  | skip => exact h
  | count =>
    refine ⟨h.history,h.length,h.kept,h.latest.imp_right ?_⟩
    exact fun hnew => ⟨hnew.1,hnew.2.bit,hnew.2.root⟩
  | justify voter accepted quorum finality =>
    have hlt := (List.getElem?_eq_some_iff.mp accepted.targetBit).1
    refine ⟨h.history,by simpa [justify] using h.length,fun t ht => hbits t (h.kept t ht),
      .inr ⟨?_,by simp [justify,hlt],accepted.targetRoot⟩⟩
    have hnot : L.justified[att.data.target.slot.get]? ≠ some true := by
      intro hset
      have hset := h.kept _ hset
      rw [accepted.targetBit] at hset
      cases hset
    rw [h.length] at hlt
    change L.justified[att.data.target.slot.get]? = some false
    rw [List.getElem?_eq_getElem hlt] at hnot ⊢
    simpa using hnot

theorem voted {n : Nat} {L M : Ledger} {atts : List Attestation} {outs : List (List Cast)}
    (hrun : Run (Step n) L (atts.map .vote) outs M) : Voted L M := by
  induction atts using List.reverseRecOn generalizing M outs with
  | nil =>
    obtain ⟨rfl,-⟩ := hrun.nil_inv
    exact ⟨rfl,rfl,fun _ h => h,.inl ⟨rfl,rfl⟩⟩
  | append_singleton atts att ih =>
    rw [List.map_append,List.map_singleton] at hrun
    obtain ⟨K,ps,out,hfirst,hlast,-⟩ := hrun.snoc_inv
    exact (ih hfirst).vote hlast

def Short (n : Nat) (L : Ledger) : Prop :=
  ∀ root, (L.ballots root).Nonempty → 3*(L.ballots root).card < 2*n

theorem Step.short {n : Nat} {L L' : Ledger} {act : Action} {out : List Cast}
    (h : Step n L act out L') (hL : L.Short n) : L'.Short n := by
  intro root hbox
  cases h with
  | extend _ _ => exact hL root hbox
  | skip => exact hL root hbox
  | @count att voter accepted short =>
    by_cases heq : root = att.data.target.root
    · simpa only [record,heq,Function.update_self] using short
    · simp only [record,Function.update_of_ne heq] at hbox ⊢
      exact hL root hbox
  | @justify att finalized voter accepted quorum finality =>
    by_cases heq : root = att.data.target.root
    · simp [Ledger.justify,heq] at hbox
    · simp only [Ledger.justify,Function.update_of_ne heq] at hbox ⊢
      exact hL root hbox

theorem Reaches.short {n : Nat} {acts : List Action} {outs : List (List Cast)} {L : Ledger}
    (h : Reaches n acts outs L) : L.Short n :=
  Run.preserves (Short n) h (by simp [Short,genesis]) fun hL hs => hs.short hL

/-- The vote is for a slot that is justified now, or it is in its box. -/
def Standing (L : Ledger) (att : Attestation) : Prop :=
  L.justified[att.data.target.slot.get]? = some true ∨
    att.validatorId.get ∈ L.ballots att.data.target.root

theorem standing_cast {n : Nat} {L L' : Ledger} {att : Attestation} {c : Cast}
    (hstep : Step n L (.vote att) [c] L') (hcast : c.verdict ≠ .skipped) : Standing L' c.att := by
  cases hstep with
  | skip refused => cases hcast rfl
  | count voter accepted short =>
    right
    simp [record,ballot]
  | @justify _ finalized voter accepted quorum finality =>
    have hlt := (List.getElem?_eq_some_iff.mp accepted.targetBit).1
    left
    simp [justify,hlt]

theorem Standing.vote {n : Nat} {L L' : Ledger} {att other : Attestation} {c : Cast}
    (h : Standing L att) (hstep : Step n L (.vote other) [c] L') (hkept : ¬ c.Clears att) :
    Standing L' att := by
  have hbits := fun t => @Step.bit_mono n L L' _ _ hstep t
  cases hstep with
  | skip refused => exact h
  | count voter accepted short =>
    refine h.imp_right fun hin => ?_
    by_cases heq : att.data.target.root = other.data.target.root
    · simp [record,heq,ballot,heq ▸ hin]
    · simpa [record,heq] using hin
  | @justify _ finalized voter accepted quorum finality =>
    have hlt := (List.getElem?_eq_some_iff.mp accepted.targetBit).1
    by_cases heq : att.data.target.root = other.data.target.root
    · -- the box is emptied, but for the slot that is now justified
      have hslot : other.data.target.slot = att.data.target.slot := by
        by_contra hne
        exact hkept ⟨rfl,heq.symm,hne⟩
      left
      simp [justify,← hslot,hlt]
    · refine h.imp (hbits _) fun hin => ?_
      simpa [justify,heq] using hin

theorem Step.single {n : Nat} {L L' : Ledger} {att : Attestation} {out : List Cast}
    (hstep : Step n L (.vote att) out L') : ∃ c, out = [c] := by
  cases hstep <;> exact ⟨_,rfl⟩

/-- Once accepted, a vote stands until its box is emptied for another slot. -/
theorem standing {n : Nat} {L M : Ledger} {atts : List Attestation} {outs : List (List Cast)}
    (hrun : Run (Step n) L (atts.map .vote) outs M) {before between : List Cast} {c : Cast}
    (hlog : outs.flatten = before ++ c :: between) (hcast : c.verdict ≠ .skipped)
    (hkept : ∀ d ∈ between, ¬ d.Clears c.att) : Standing M c.att := by
  induction atts using List.reverseRecOn generalizing M outs between with
  | nil =>
    obtain ⟨rfl,rfl⟩ := hrun.nil_inv
    simp at hlog
  | append_singleton atts att ih =>
    rw [List.map_append,List.map_singleton] at hrun
    obtain ⟨K,ps,out,hfirst,hlast,rfl⟩ := hrun.snoc_inv
    obtain ⟨d,rfl⟩ := hlast.single
    rw [List.flatten_append,List.flatten_singleton] at hlog
    rcases List.eq_nil_or_concat between with rfl | ⟨between,e,rfl⟩
    · obtain ⟨-,hd⟩ := List.append_inj' hlog rfl
      cases hd
      exact standing_cast hlast hcast
    · rw [List.concat_eq_append,← List.cons_append,← List.append_assoc] at hlog
      obtain ⟨hprev,hd⟩ := List.append_inj' hlog rfl
      cases hd
      rw [List.concat_eq_append] at hkept
      exact (ih hfirst hprev fun d hd => hkept d (List.mem_append_left _ hd)).vote hlast
        (hkept d (by simp))

end Ledger

end Devnet.Protocol
