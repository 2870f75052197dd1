import Devnet.Engine.WellFormed

/-!
How the finalized block, the justified block and the head of a store stand to each other.
Both checkpoints are taken from whichever tracked post-state carries the later one, each on
its own, so they may come to lie on different branches; the head is always found below the
justified block.
-/

set_option autoImplicit false

namespace Devnet.Engine
open Machine Trees Devnet.Types Devnet.Ssz Devnet.Protocol Devnet.ForkChoice

section
variable [HashPair]

/-- No tracked post-state has finalized anything above the justified slot, as long as none
has justified an empty slot. -/
theorem Grounded.state_finalized_le {held : List Block} {anchor : Bytes32} {st : Store}
    (h : Grounded held anchor st)
    (hnamed : ∀ (r : Bytes32) (s : State), st.states[r]? = some s →
      0 < s.latestJustified.slot.get → s.latestJustified.root ≠ ByteVector.zero)
    {r : Bytes32} {s : State} (hs : st.states[r]? = some s) :
    s.latestFinalized.slot.get ≤ st.latestJustified.slot.get := by
  obtain ⟨b,hb⟩ := get_of_mem (h.linked.stated.mp (mem_of_get hs))
  have horder := (h.linked.paired hb hs).chain.order
  rcases Nat.eq_zero_or_pos s.latestJustified.slot.get with hzero | hpos
  · omega
  · exact horder.trans (h.pointed.newest hs (hnamed r s hs hpos))

theorem Grounded.finalized_le {held : List Block} {anchor : Bytes32} {st : Store}
    (h : Grounded held anchor st)
    (hnamed : ∀ (r : Bytes32) (s : State), st.states[r]? = some s →
      0 < s.latestJustified.slot.get → s.latestJustified.root ≠ ByteVector.zero) :
    st.latestFinalized.slot.get ≤ st.latestJustified.slot.get := by
  obtain ⟨fb,hfb,hfslot⟩ := h.pointed.finalized.tracked
  obtain ⟨jb,hjb,hjslot⟩ := h.pointed.justified.tracked
  rcases h.pointed.finalized.source with hanchor | ⟨r,s,hs,hcarried,-⟩
  · rw [← hfslot,← hjslot]
    exact h.linked.lowest (hanchor ▸ hfb) hjb
  · rw [← hcarried]
    exact h.state_finalized_le hnamed hs

/-- The head descends from the justified block. The finalized block is not above the
justified slot unless an empty slot was justified, and is an ancestor of the justified block
when some block descends from both. -/
theorem checkpoint_ladder {held : List Block} {st : Store} (hlife : Lives held st)
    (hsound : Sound held) :
    AncestorOrSelf (parentLink st.blocks) st.latestJustified.root st.head ∧
    (∃ hb, st.blocks[st.head]? = some hb ∧ st.latestJustified.slot.get ≤ hb.slot.get) ∧
    (∃ anchor, st.blockOrder.head? = some anchor ∧
      Placed State.latestJustified anchor st st.latestJustified ∧
      Placed State.latestFinalized anchor st st.latestFinalized) ∧
    ((∀ (r : Bytes32) (s : State), st.states[r]? = some s → 0 < s.latestJustified.slot.get →
        s.latestJustified.root ≠ ByteVector.zero) →
      st.latestFinalized.slot.get ≤ st.latestJustified.slot.get ∧
      ∀ tip, AncestorOrSelf (parentLink st.blocks) st.latestFinalized.root tip →
        AncestorOrSelf (parentLink st.blocks) st.latestJustified.root tip →
        AncestorOrSelf (parentLink st.blocks) st.latestFinalized.root
          st.latestJustified.root) := by
  obtain ⟨anchor,h⟩ := hlife.steady hsound
  have hplanted := h.linked.planted hsound
  obtain ⟨hb,hhb⟩ := get_of_mem h.pointed.head
  obtain ⟨jb,hjb,hjslot⟩ := h.pointed.justified.tracked
  obtain ⟨fb,hfb,hfslot⟩ := h.pointed.finalized.tracked
  refine ⟨h.settled,⟨hb,hhb,?_⟩,⟨anchor,h.linked.first,h.pointed.justified,h.pointed.finalized⟩,?_⟩
  · rw [← hjslot]
    exact hplanted.slot_le_of_ancestor h.settled hjb hhb
  · intro hnamed
    have hle := h.toGrounded.finalized_le hnamed
    refine ⟨hle,fun tip hfin hjust => hplanted.ancestor_of_slot_le hfin hjust hfb hjb ?_⟩
    rwa [hfslot,hjslot]

end

section
attribute [local instance] mixPair

def soloVote (source target : Checkpoint) : SignedAttestation :=
  ⟨⟨default,⟨target.slot,target,target,source⟩⟩,default⟩

def mint (st : Store) (parent : Bytes32) (slot : Nat) (votes : List SignedAttestation) : Block :=
  match st.states[parent]?.map fun state =>
    buildCandidateBlock parent (Slot.ofNat slot) default state votes with
  | some (.ok (candidate,post)) => { candidate with stateRoot := hashTreeRoot post }
  | _ => default

def extend (st : Store) (parent : Checkpoint) (slot : Nat) (votes : List SignedAttestation) :
    Store :=
  handle (.importBlock none ⟨⟨mint st parent.root slot votes,default⟩,[]⟩ .enforce) st

theorem Lives.extend {held : List Block} {st : Store} (h : Lives held st) (parent : Checkpoint)
    (slot : Nat) (votes : List SignedAttestation) :
    Lives (held ++ Tables.values (extend st parent slot votes).blocks)
      (extend st parent slot votes) := h.event _

def tip (st : Store) : Checkpoint :=
  let root := st.blockOrder.getLast?.getD ByteVector.zero
  ⟨root,Slot.ofNat (slotOf st.blocks root)⟩

def genesisPoint : Checkpoint := tip soloStore

-- Three blocks in a row, the later two with a vote for the block before.
def line1 : Store := extend soloStore genesisPoint 1 []
def line2 : Store := extend line1 (tip line1) 2 [soloVote genesisPoint (tip line1)]
def line3 : Store := extend line2 (tip line2) 3 [soloVote (tip line1) (tip line2)]

theorem checkpoint_ladder_line :
    line3.latestFinalized = tip line1 ∧ line3.latestJustified = tip line2 ∧
    AncestorOrSelf (parentLink line3.blocks) line3.latestJustified.root line3.head ∧
    AncestorOrSelf (parentLink line3.blocks) line3.latestFinalized.root
      line3.latestJustified.root := by
  obtain ⟨hfin,hjust,h1,h2,hnamed⟩ : line3.latestFinalized = tip line1 ∧
      line3.latestJustified = tip line2 ∧
      parentLink line3.blocks (tip line1).root = some genesisPoint.root ∧
      parentLink line3.blocks (tip line2).root = some (tip line1).root ∧
      ∀ s ∈ Tables.values line3.states, 0 < s.latestJustified.slot.get →
        s.latestJustified.root ≠ ByteVector.zero := by decide +kernel
  have hlife : Lives _ line3 := (((lives_genesis 0 [default]).extend genesisPoint 1 []).extend
    (tip line1) 2 [soloVote genesisPoint (tip line1)]).extend (tip line2) 3
      [soloVote (tip line1) (tip line2)]
  obtain ⟨hhead,-,-,hrest⟩ := checkpoint_ladder hlife (by decide +kernel)
  refine ⟨hfin,hjust,hhead,(hrest ?_).2 (tip line2).root ?_ ?_⟩
  · exact fun r s hs => hnamed s (Tables.mem_values.mpr ⟨r,hs⟩)
  · rw [hfin]
    exact .up h2 (.self h1)
  · rw [hjust]
    exact .self h2

-- A west branch justifies its block 3; an east branch then finalizes its block 1.
def west3 : Store := extend soloStore genesisPoint 3 []
def west4 : Store := extend west3 (tip west3) 4 [soloVote genesisPoint (tip west3)]
def east1 : Store := extend west4 genesisPoint 1 []
def east2 : Store := extend east1 (tip east1) 2 [soloVote genesisPoint (tip east1)]
def east5 : Store := extend east2 (tip east2) 5 [soloVote (tip east1) (tip east2)]

theorem lives_east5 : ∃ held, Lives held east5 ∧ Sound held := by
  have hwest := ((lives_genesis 0 [default]).extend genesisPoint 3 []).extend (tip west3) 4
    [soloVote genesisPoint (tip west3)]
  have heast := ((hwest.extend genesisPoint 1 []).extend (tip east1) 2
    [soloVote genesisPoint (tip east1)]).extend (tip east2) 5 [soloVote (tip east1) (tip east2)]
  exact ⟨_,heast,by decide +kernel⟩

-- One block justifies block 1, then the empty slot 2, which finalizes block 1.
def gap4 : Store :=
  extend line1 (tip line1) 4
    [soloVote genesisPoint (tip line1),soloVote (tip line1) ⟨ByteVector.zero,Slot.ofNat 2⟩]

/-- The finalized block beside the justified one, with every justified slot occupied; and the
finalized slot above the justified one, after an empty slot was justified. -/
theorem finalized_beside_justified :
    (∃ held st, Lives held st ∧ Sound held ∧
      (∀ s ∈ Tables.values st.states, 0 < s.latestJustified.slot.get →
        s.latestJustified.root ≠ ByteVector.zero) ∧
      ¬ AncestorOrSelf (parentLink st.blocks) st.latestFinalized.root st.latestJustified.root) ∧
    (∃ held st, Lives held st ∧ Sound held ∧
      st.latestJustified.slot.get < st.latestFinalized.slot.get) := by
  refine ⟨?_,?_⟩
  · obtain ⟨held,hlife,hsound⟩ := lives_east5
    -- The justified block hangs on genesis, and genesis on nothing.
    obtain ⟨hnamed,h3,h0,hnone,hne,hne0⟩ : (∀ s ∈ Tables.values east5.states,
          0 < s.latestJustified.slot.get → s.latestJustified.root ≠ ByteVector.zero) ∧
        parentLink east5.blocks east5.latestJustified.root = some genesisPoint.root ∧
        parentLink east5.blocks genesisPoint.root = some ByteVector.zero ∧
        parentLink east5.blocks ByteVector.zero = none ∧
        east5.latestFinalized.root ≠ east5.latestJustified.root ∧
        east5.latestFinalized.root ≠ genesisPoint.root := by decide +kernel
    refine ⟨held,east5,hlife,hsound,hnamed,?_⟩
    simp [ancestorOrSelf_iff (b := east5.latestJustified.root),
      ancestorOrSelf_iff (b := genesisPoint.root),ancestorOrSelf_iff (b := ByteVector.zero),
      h3,h0,hnone,hne,hne0]
  · have hlife := ((lives_genesis 0 [default]).extend genesisPoint 1 []).extend (tip line1) 4
      [soloVote genesisPoint (tip line1),soloVote (tip line1) ⟨ByteVector.zero,Slot.ofNat 2⟩]
    exact ⟨_,gap4,hlife,by decide +kernel,by decide +kernel⟩

end

end Devnet.Engine
