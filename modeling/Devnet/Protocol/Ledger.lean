import Devnet.Lib.Ballots
import Devnet.Protocol.Transition

/-!
What the finality gadget is for, without its encoding: a history of roots, one
justified mark per slot, the two checkpoints, and a ballot box per root. Its steps
are the three things that can happen on a chain (a header, a vote, a vote that
reaches two thirds); what holds of every run of these steps is proved here, and the
code is shown to follow them in the next module.
-/

set_option autoImplicit false

namespace Devnet.Protocol
open Machine Devnet.Types

structure Ledger where
  history : List Bytes32
  justified : List Bool
  latestJustified : Checkpoint
  latestFinalized : Checkpoint
  ballots : Bytes32 → Finset Nat

namespace Ledger

def genesis : Ledger := ⟨[],[],default,default,fun _ => ∅⟩

/-- A header: the parent's root, then `gap` slots without a block. The first header
justifies the genesis slot and names its root. -/
def extend (L : Ledger) (root : Bytes32) (gap : Nat) : Ledger :=
  { L with
    history := L.history ++ root :: List.replicate gap ByteVector.zero
    justified := L.justified ++ L.history.isEmpty :: List.replicate gap false
    latestJustified :=
      if L.history.isEmpty then { L.latestJustified with root := root } else L.latestJustified
    latestFinalized :=
      if L.history.isEmpty then { L.latestFinalized with root := root } else L.latestFinalized }

/-- Between a justified source and an unjustified, later, justifiable target. -/
structure Acceptable (L : Ledger) (vote : AttestationData) : Prop where
  sourceBit : L.justified[vote.source.slot.get]? = some true
  targetBit : L.justified[vote.target.slot.get]? = some false
  sourceRoot : L.history[vote.source.slot.get]? = some vote.source.root
  targetRoot : L.history[vote.target.slot.get]? = some vote.target.root
  order : vote.source.slot.get < vote.target.slot.get
  justifiable : vote.target.slot.isJustifiableAfter L.latestFinalized.slot = true

def ballot (L : Ledger) (att : Attestation) : Finset Nat :=
  insert att.validatorId.get (L.ballots att.data.target.root)

def record (L : Ledger) (att : Attestation) : Ledger :=
  { L with ballots := Function.update L.ballots att.data.target.root (L.ballot att) }

/-- Source and target are consecutive among the slots justifiable after `finalized`. -/
def Consecutive (finalized : Slot) (vote : AttestationData) : Prop :=
  ∀ mid, vote.source.slot.get < mid → mid < vote.target.slot.get →
    (Slot.ofNat mid).isJustifiableAfter finalized = false

def justify (L : Ledger) (att : Attestation) (finalized : Checkpoint) : Ledger :=
  { L with
    justified := L.justified.set att.data.target.slot.get true
    latestJustified := att.data.target
    latestFinalized := finalized
    ballots := Function.update L.ballots att.data.target.root ∅ }

inductive Action where
  | extend (root : Bytes32) (gap : Nat)
  | vote (att : Attestation)

inductive Step (n : Nat) : Ledger → Action → List Cast → Ledger → Prop where
  | extend (L : Ledger) (root : Bytes32) (gap : Nat) :
      Step n L (.extend root gap) [] (L.extend root gap)
  | skip {L : Ledger} {att : Attestation} (refused : ¬ L.Acceptable att.data) :
      Step n L (.vote att) [⟨att,.skipped⟩] L
  | count {L : Ledger} {att : Attestation} (voter : att.validatorId.get < n)
      (accepted : L.Acceptable att.data) (short : 3*(L.ballot att).card < 2*n) :
      Step n L (.vote att) [⟨att,.counted⟩] (L.record att)
  | justify {L : Ledger} {att : Attestation} {finalized : Checkpoint}
      (voter : att.validatorId.get < n) (accepted : L.Acceptable att.data)
      (quorum : 2*n ≤ 3*(L.ballot att).card)
      (finality : Consecutive L.latestFinalized.slot att.data ∧ finalized = att.data.source ∨
        ¬ Consecutive L.latestFinalized.slot att.data ∧ finalized = L.latestFinalized) :
      Step n L (.vote att) [⟨att,.justified⟩] (L.justify att finalized)

abbrev Reaches (n : Nat) := Run (Step n) genesis

/-- A checkpoint whose slot is justified and whose root the history records. -/
structure Marked (L : Ledger) (c : Checkpoint) : Prop where
  bit : L.justified[c.slot.get]? = some true
  root : L.history[c.slot.get]? = some c.root

theorem Marked.mono {L L' : Ledger} {c : Checkpoint} (h : L.Marked c)
    (hbits : ∀ t : Nat, L.justified[t]? = some true → L'.justified[t]? = some true)
    (hhist : L.history <+: L'.history) : L'.Marked c := by
  refine ⟨hbits _ h.bit,?_⟩
  obtain ⟨rest,hrest⟩ := hhist
  have hlt := (List.getElem?_eq_some_iff.mp h.root).1
  rw [← hrest,List.getElem?_append_left hlt]
  exact h.root

theorem Step.bit_mono {n : Nat} {L L' : Ledger} {act : Action} {out : List Cast}
    (h : Step n L act out L') {t : Nat} (ht : L.justified[t]? = some true) :
    L'.justified[t]? = some true := by
  cases h with
  | extend root gap =>
    have hlt := (List.getElem?_eq_some_iff.mp ht).1
    simp only [Ledger.extend]
    rw [List.getElem?_append_left hlt]
    exact ht
  | skip => exact ht
  | count => exact ht
  | justify voter accepted quorum finality =>
    have hlt := (List.getElem?_eq_some_iff.mp ht).1
    simp only [Ledger.justify,List.getElem?_set]
    split
    · next heq => simp [heq,hlt]
    · exact ht

theorem Step.history_mono {n : Nat} {L L' : Ledger} {act : Action} {out : List Cast}
    (h : Step n L act out L') : L.history <+: L'.history := by
  cases h with
  | extend root gap => exact List.prefix_append _ _
  | skip => exact List.prefix_rfl
  | count => exact List.prefix_rfl
  | justify => exact List.prefix_rfl

/-- The two checkpoints are marked and in order, once there is a history. -/
structure Consistent (L : Ledger) : Prop where
  aligned : L.justified.length = L.history.length
  order : L.latestFinalized.slot.get ≤ L.latestJustified.slot.get
  checkpoints : L.history = [] ∧ L.latestJustified.slot.get = 0 ∨
    L.Marked L.latestFinalized ∧ L.Marked L.latestJustified

theorem consistent_genesis : genesis.Consistent :=
  ⟨rfl,Nat.le_refl _,.inl ⟨rfl,rfl⟩⟩

theorem Consistent.marked {L : Ledger} (h : L.Consistent) {vote : AttestationData}
    (hacc : L.Acceptable vote) : L.Marked L.latestFinalized ∧ L.Marked L.latestJustified := by
  rcases h.checkpoints with ⟨hnil,-⟩ | hm
  · have := hacc.sourceRoot
    simp [hnil] at this
  · exact hm

/-- An accepted target lies strictly above the finalized slot: it is not below it, and
the finalized slot's own bit is set while the target's is not. -/
theorem Acceptable.finalized_lt_target {L : Ledger} {vote : AttestationData}
    (hacc : L.Acceptable vote) (h : L.Consistent) :
    L.latestFinalized.slot.get < vote.target.slot.get := by
  have hle := Slot.le_of_isJustifiableAfter hacc.justifiable
  have hne : L.latestFinalized.slot.get ≠ vote.target.slot.get := by
    intro heq
    have hbit := (h.marked hacc).1.bit
    rw [heq,hacc.targetBit] at hbit
    simp at hbit
  omega

/-- A source below the finalized slot cannot be consecutive with a target above it: the
finalized slot itself is justifiable and lies in between. -/
theorem Consecutive.finalized_le_source {finalized : Slot} {vote : AttestationData}
    (h : Consecutive finalized vote) (hlt : finalized.get < vote.target.slot.get) :
    finalized.get ≤ vote.source.slot.get := by
  by_contra hgt
  have hmid := h finalized.get (Nat.lt_of_not_le hgt) hlt
  have hself : Slot.ofNat finalized.get = finalized := Slot.ext_get (Slot.get_ofNat finalized.isLt)
  rw [hself,Slot.isJustifiableAfter_self] at hmid
  simp at hmid

theorem Acceptable.marked_source {L : Ledger} {vote : AttestationData} (hacc : L.Acceptable vote) :
    L.Marked vote.source := ⟨hacc.sourceBit,hacc.sourceRoot⟩

theorem Step.consistent {n : Nat} {L L' : Ledger} {act : Action} {out : List Cast}
    (h : Step n L act out L') (hL : L.Consistent) : L'.Consistent := by
  have hbits : ∀ t : Nat, L.justified[t]? = some true → L'.justified[t]? = some true :=
    fun t => h.bit_mono
  have hhist := h.history_mono
  cases h with
  | extend root gap =>
    refine ⟨by simp [Ledger.extend,hL.aligned],?_,.inr ?_⟩
    · have := hL.order
      simp only [Ledger.extend]
      split <;> exact this
    · rcases hL.checkpoints with ⟨hnil,hzero⟩ | ⟨hf,hj⟩
      · have hjnil : L.justified = [] := by
          have := hL.aligned
          simpa [hnil] using this
        have hfzero : L.latestFinalized.slot.get = 0 := by have := hL.order; omega
        constructor <;> constructor <;>
          simp [Ledger.extend,hnil,hjnil,hzero,hfzero]
      · have hne : L.history.isEmpty = false := by
          cases hh : L.history with
          | nil => have := hf.root; simp [hh] at this
          | cons => rfl
        simp only [Ledger.extend,hne,Bool.false_eq_true,if_false] at hbits hhist ⊢
        exact ⟨hf.mono hbits hhist,hj.mono hbits hhist⟩
  | skip => exact hL
  | count =>
    refine ⟨hL.aligned,hL.order,hL.checkpoints.imp id ?_⟩
    rintro ⟨hf,hj⟩
    exact ⟨hf.mono hbits hhist,hj.mono hbits hhist⟩
  | @justify att finalized voter accepted quorum finality =>
    have hlt := accepted.finalized_lt_target hL
    have hmarks := hL.marked accepted
    have htlt := (List.getElem?_eq_some_iff.mp accepted.targetBit).1
    have htarget : (L.justify att finalized).Marked att.data.target :=
      ⟨by simp [Ledger.justify,htlt],accepted.targetRoot⟩
    refine ⟨by simp [Ledger.justify,hL.aligned],?_,.inr ⟨?_,htarget⟩⟩
    · rcases finality with ⟨-,rfl⟩ | ⟨-,rfl⟩
      · exact Nat.le_of_lt accepted.order
      · exact Nat.le_of_lt hlt
    · rcases finality with ⟨-,rfl⟩ | ⟨-,rfl⟩
      · exact accepted.marked_source.mono hbits hhist
      · exact hmarks.1.mono hbits hhist

theorem Reaches.consistent {n : Nat} {acts : List Action} {outs : List (List Cast)} {L : Ledger}
    (h : Reaches n acts outs L) : L.Consistent :=
  Run.preserves Consistent h consistent_genesis (fun hL hs => hs.consistent hL)

theorem Step.finalized_mono {n : Nat} {L L' : Ledger} {act : Action} {out : List Cast}
    (h : Step n L act out L') (hL : L.Consistent) :
    L.latestFinalized.slot.get ≤ L'.latestFinalized.slot.get := by
  cases h with
  | extend root gap =>
    simp only [Ledger.extend]
    split <;> exact Nat.le_refl _
  | skip => exact Nat.le_refl _
  | count => exact Nat.le_refl _
  | justify voter accepted quorum finality =>
    rcases finality with ⟨hcons,rfl⟩ | ⟨-,rfl⟩
    · exact hcons.finalized_le_source (accepted.finalized_lt_target hL)
    · exact Nat.le_refl _

theorem finalized_mono {n : Nat} {acts : List Action} {outs : List (List Cast)} {L L' : Ledger}
    (h : Run (Step n) L acts outs L') (hL : L.Consistent) :
    L.latestFinalized.slot.get ≤ L'.latestFinalized.slot.get :=
  Run.mono Consistent (fun L => L.latestFinalized.slot.get) h hL
    (fun hm hs => hs.consistent hm) (fun hm hs => hs.finalized_mono hm)

/-- Votes are keyed by target root; a justification empties the box of its root. -/
def rule : Ballots.Rule Cast Bytes32 Nat where
  key c := c.att.data.target.root
  voter c := c.att.validatorId.get
  counts c := c.verdict ≠ .skipped
  clears c := c.verdict = .justified
  counts_of_clears := by
    intro c h
    simp [h]

theorem Step.tallies {n : Nat} {L L' : Ledger} {act : Action} {out log : List Cast}
    (h : Step n L act out L') (hL : rule.Tallies log L.ballots) :
    rule.Tallies (log ++ out) L'.ballots := by
  cases h with
  | extend root gap =>
    rw [List.append_nil]
    exact hL
  | skip => exact hL.skip (by simp [rule])
  | count => exact hL.count (by simp [rule]) (by simp [rule])
  | justify => exact hL.clear (by simp [rule])

/-- Every root with a vote in its box is the history entry of an unjustified slot, and
every voter is in the registry. -/
structure Grounded (n : Nat) (L : Ledger) : Prop where
  voters : ∀ root, ∀ v ∈ L.ballots root, v < n
  unjustified : ∀ root, (L.ballots root).Nonempty →
    ∃ t : Nat, L.history[t]? = some root ∧ L.justified[t]? = some false

theorem Step.grounded {n : Nat} {L L' : Ledger} {act : Action} {out : List Cast}
    (h : Step n L act out L') (hL : L.Grounded n) : L'.Grounded n := by
  cases h with
  | extend root gap =>
    refine ⟨hL.voters,fun r hr => ?_⟩
    obtain ⟨t,hroot,hbit⟩ := hL.unjustified r hr
    have hrlt := (List.getElem?_eq_some_iff.mp hroot).1
    have hblt := (List.getElem?_eq_some_iff.mp hbit).1
    refine ⟨t,?_,?_⟩
    · simp only [Ledger.extend]
      rwa [List.getElem?_append_left hrlt]
    · simp only [Ledger.extend]
      rwa [List.getElem?_append_left hblt]
  | skip => exact hL
  | @count att voter accepted short =>
    constructor
    · intro root v hv
      by_cases hr : root = att.data.target.root
      · subst hr
        simp only [record,Function.update_self,ballot,Finset.mem_insert] at hv
        rcases hv with rfl | hv
        · exact voter
        · exact hL.voters _ v hv
      · simp only [record,Function.update_of_ne hr] at hv
        exact hL.voters root v hv
    · intro root hne
      by_cases hr : root = att.data.target.root
      · subst hr
        exact ⟨att.data.target.slot.get,accepted.targetRoot,accepted.targetBit⟩
      · simp only [record,Function.update_of_ne hr] at hne
        exact hL.unjustified root hne
  | @justify att finalized voter accepted quorum finality =>
    constructor
    · intro root v hv
      by_cases hr : root = att.data.target.root
      · simp [Ledger.justify,hr] at hv
      · simp only [Ledger.justify,Function.update_of_ne hr] at hv
        exact hL.voters root v hv
    · intro root hne
      by_cases hr : root = att.data.target.root
      · simp [Ledger.justify,hr] at hne
      · simp only [Ledger.justify,Function.update_of_ne hr] at hne
        obtain ⟨t,hroot,hbit⟩ := hL.unjustified root hne
        -- The justified slot holds another root, so the bit of `t` is not the one set.
        have htarget : att.data.target.slot.get ≠ t := by
          intro heq
          rw [← heq,accepted.targetRoot] at hroot
          exact hr (by simpa using hroot.symm)
        exact ⟨t,hroot,by simpa [Ledger.justify,htarget] using hbit⟩

theorem Reaches.tallies {n : Nat} {acts : List Action} {outs : List (List Cast)} {L : Ledger}
    (h : Reaches n acts outs L) : rule.Tallies outs.flatten L.ballots :=
  Run.invariant (fun _ (outs : List (List Cast)) (L : Ledger) => rule.Tallies outs.flatten L.ballots)
    h rule.tallies_empty (fun _ hL hs => by simpa using hs.tallies hL)

theorem Reaches.grounded {n : Nat} {acts : List Action} {outs : List (List Cast)} {L : Ledger}
    (h : Reaches n acts outs L) : L.Grounded n :=
  Run.preserves (Grounded n) h ⟨by simp [genesis],by simp [genesis]⟩ (fun hL hs => hs.grounded hL)

/-- The vote that reaches two thirds is backed by the log: the box holds only voters
whose vote for the same root was accepted. -/
theorem supported_of_quorum {n : Nat} {L : Ledger} {log : List Cast} {att : Attestation}
    (hL : rule.Tallies log L.ballots) (hquorum : 2*n ≤ 3*(L.ballot att).card) :
    Supported n (log ++ [⟨att,.justified⟩]) (fun c => c.root = att.data.target.root) := by
  refine ⟨L.ballot att,hquorum,fun v hv => ?_⟩
  rcases Finset.mem_insert.mp hv with rfl | hv
  · exact ⟨⟨att,.justified⟩,by simp,by simp,rfl,rfl⟩
  · obtain ⟨pre,c,post,rfl,hcounts,hkey,hvoter,-⟩ := (hL _ _).mp hv
    exact ⟨c,by simp,hcounts,hkey,hvoter⟩

/-- Every justified slot but the first was justified by a logged vote that two thirds
of the registry back, at least as far as the target root goes. -/
def Earned (n : Nat) (log : List Cast) (L : Ledger) : Prop :=
  ∀ t : Nat, 0 < t → L.justified[t]? = some true → ∃ c ∈ log, c.verdict = .justified ∧
    c.att.data.target.slot.get = t ∧ L.history[t]? = some c.att.data.target.root ∧
    Supported n log (fun target => target.root = c.att.data.target.root)

theorem Step.earned {n : Nat} {L L' : Ledger} {act : Action} {out log : List Cast}
    (h : Step n L act out L') (hc : L.Consistent) (ht : rule.Tallies log L.ballots)
    (hL : Earned n log L) : Earned n (log ++ out) L' := by
  -- An old bit keeps its backing while the log and the history grow.
  have hkeep : ∀ t : Nat, 0 < t → L.justified[t]? = some true → ∃ c ∈ log ++ out,
      c.verdict = .justified ∧ c.att.data.target.slot.get = t ∧
      L'.history[t]? = some c.att.data.target.root ∧
      Supported n (log ++ out) (fun target => target.root = c.att.data.target.root) := by
    intro t hpos hbit
    obtain ⟨c,hmem,hverdict,hslot,hroot,hsup⟩ := hL t hpos hbit
    obtain ⟨rest,hrest⟩ := h.history_mono
    have hlt := (List.getElem?_eq_some_iff.mp hroot).1
    refine ⟨c,List.mem_append_left _ hmem,hverdict,hslot,?_,
      hsup.mono (List.subset_append_left _ _) (fun _ _ _ h => h)⟩
    rw [← hrest,List.getElem?_append_left hlt]
    exact hroot
  intro t hpos hbit
  cases h with
  | extend root gap =>
    apply hkeep t hpos
    simp only [Ledger.extend] at hbit
    rcases Nat.lt_trichotomy t L.justified.length with hlt | heq | hgt
    · rwa [List.getElem?_append_left hlt] at hbit
    · -- The parent's bit is set only when it is slot zero.
      rw [heq,List.getElem?_append_right (Nat.le_refl _),Nat.sub_self] at hbit
      have hnil : L.history = [] := by simpa using hbit
      have hlen := hc.aligned
      rw [hnil,List.length_nil] at hlen
      omega
    · rw [List.getElem?_append_right (Nat.le_of_lt hgt)] at hbit
      obtain ⟨k,hk⟩ : ∃ k, t - L.justified.length = k+1 := ⟨t - L.justified.length - 1,by omega⟩
      rw [hk,List.getElem?_cons_succ,List.getElem?_replicate] at hbit
      split at hbit <;> simp at hbit
  | skip => exact hkeep t hpos hbit
  | count => exact hkeep t hpos hbit
  | @justify att finalized voter accepted quorum finality =>
    by_cases heq : att.data.target.slot.get = t
    · exact ⟨⟨att,.justified⟩,by simp,rfl,heq,heq ▸ accepted.targetRoot,
        supported_of_quorum ht quorum⟩
    · exact hkeep t hpos (by simpa [Ledger.justify,heq] using hbit)

theorem Reaches.earned {n : Nat} {acts : List Action} {outs : List (List Cast)} {L : Ledger}
    (h : Reaches n acts outs L) : Earned n outs.flatten L :=
  Run.invariant (fun _ outs L => Earned n outs.flatten L) h
    (by intro t _ hbit; simp [genesis] at hbit)
    (fun hr hL hs => by
      simpa using hs.earned (Reaches.consistent hr) (Reaches.tallies hr) hL)

def NamesLast (log : List Cast) (L : Ledger) : Prop :=
  justifying log = [] ∧ L.latestJustified.slot.get = 0 ∨
    L.history ≠ [] ∧ ∃ earlier c, justifying log = earlier ++ [c] ∧
      L.latestJustified = c.att.data.target

theorem Step.namesLast {n : Nat} {L L' : Ledger} {act : Action} {out log : List Cast}
    (h : Step n L act out L') (hL : NamesLast log L) : NamesLast (log ++ out) L' := by
  cases h with
  | extend root gap =>
    rw [List.append_nil]
    rcases hL with ⟨hnone,hzero⟩ | ⟨hne,earlier,c,hlast,hnames⟩
    · refine .inl ⟨hnone,?_⟩
      simp only [Ledger.extend]
      split <;> exact hzero
    · refine .inr ⟨by simp [Ledger.extend],earlier,c,hlast,?_⟩
      simpa [Ledger.extend,hne] using hnames
  | skip => simpa [NamesLast,justifying] using hL
  | count => simpa [NamesLast,justifying,record] using hL
  | @justify att finalized voter accepted quorum finality =>
    refine .inr ⟨?_,justifying log,⟨att,.justified⟩,by simp [justifying],rfl⟩
    intro hnil
    have hroot := accepted.sourceRoot
    simp only [Ledger.justify] at hnil
    simp [hnil] at hroot

theorem Reaches.namesLast {n : Nat} {acts : List Action} {outs : List (List Cast)} {L : Ledger}
    (h : Reaches n acts outs L) : NamesLast outs.flatten L :=
  Run.invariant (fun _ (outs : List (List Cast)) (L : Ledger) => NamesLast outs.flatten L)
    h (.inl ⟨rfl,rfl⟩) (fun _ hL hs => by simpa using hs.namesLast hL)

theorem NamesLast.ge_of_ascending {log : List Cast} {L : Ledger} (h : NamesLast log L)
    (hasc : Ascending log) {c : Cast} (hc : c ∈ justifying log) :
    c.att.data.target.slot.get ≤ L.latestJustified.slot.get := by
  rcases h with ⟨hnone,-⟩ | ⟨-,earlier,last,hlast,hnames⟩
  · simp [hnone] at hc
  · rw [Ascending,hlast,List.pairwise_append] at hasc
    rw [hnames]
    rw [hlast,List.mem_append,List.mem_singleton] at hc
    rcases hc with hc | rfl
    · exact Nat.le_of_lt (hasc.2.2 c hc last (by simp))
    · exact Nat.le_refl _

theorem Reaches.highest_of_ascending {n : Nat} {acts : List Action} {outs : List (List Cast)}
    {L : Ledger} (h : Reaches n acts outs L) (hasc : Ascending outs.flatten) {t : Nat}
    (hbit : L.justified[t]? = some true) : t ≤ L.latestJustified.slot.get := by
  rcases Nat.eq_zero_or_pos t with rfl | hpos
  · exact Nat.zero_le _
  · obtain ⟨c,hmem,hverdict,rfl,-⟩ := h.earned t hpos hbit
    exact h.namesLast.ge_of_ascending hasc (mem_justifying.mpr ⟨hmem,hverdict⟩)

end Ledger

end Devnet.Protocol
