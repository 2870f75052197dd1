import Devnet.Protocol.Tally

/-!
The history a state carries is the history of its own chain. The header a block leaves
behind has a zero state root; the next slot advance fills in the root of the post-state,
which validation made the block's own, so that the root recorded for the block is the
root of the block.
-/

set_option autoImplicit false

namespace Devnet.Protocol
open Machine Devnet.Types Devnet.Ssz

section
variable [HashPair]

/-- `s` is the post-state of `last`, and its history lists the blocks before it. -/
structure PostState (earlier : List Block) (last : Block) (s : State) : Prop where
  header : s.latestBlockHeader = { last.header with stateRoot := ByteVector.zero }
  root : hashTreeRoot s = last.stateRoot
  slot : s.slot = last.slot
  length : s.historicalBlockHashes.length = last.slot.get
  before : ∀ b ∈ earlier, b.slot.get < last.slot.get
  entries : ∀ b ∈ earlier, s.historicalBlockHashes[b.slot.get]? = some (hashTreeRoot b)
  empty : ∀ i < last.slot.get, (∀ b ∈ earlier, b.slot.get ≠ i) →
    s.historicalBlockHashes[i]? = some ByteVector.zero

theorem postState_genesis (genesisTime : UInt64) (validators : Validators) :
    PostState [] (genesisAnchorBlock (genesisState genesisTime validators))
      (genesisState genesisTime validators) where
  header := rfl
  root := rfl
  slot := rfl
  length := rfl
  before := by simp
  entries := by simp
  empty := by
    intro i hi
    exact absurd hi (Nat.not_lt_zero i)

theorem PostState.cachedRoot {earlier : List Block} {last : Block} {s : State}
    (h : PostState earlier last s) : s.cachedRoot = last.stateRoot := by
  rw [State.cachedRoot,h.header,if_pos rfl,h.root]

theorem PostState.sealed {earlier : List Block} {last : Block} {s : State}
    (h : PostState earlier last s) :
    hashTreeRoot { s.latestBlockHeader with stateRoot := last.stateRoot } = hashTreeRoot last := by
  rw [h.header]
  exact last.hashTreeRoot_header

theorem PostState.applies {earlier : List Block} {last : Block} {s t : State}
    {signed : SignedBlockWithAttestation} (h : PostState earlier last s)
    (hne : last.stateRoot ≠ ByteVector.zero)
    (htrans : s.stateTransition signed true = .ok t) :
    PostState (earlier ++ [last]) signed.message.block t := by
  obtain ⟨⟨root,hext⟩,hvalid⟩ := stateTransition_extends htrans
  obtain rfl : root = last.stateRoot := by
    rw [← h.cachedRoot] at hne ⊢
    exact hext.cached hne
  have hlater : last.slot.get < signed.message.block.slot.get := h.slot ▸ hext.later
  have hgap : s.gap signed.message.block = signed.message.block.slot.get - last.slot.get - 1 := by
    rw [State.gap,h.header]
    rfl
  have hhist : t.historicalBlockHashes = s.historicalBlockHashes ++ hashTreeRoot last ::
      List.replicate (signed.message.block.slot.get - last.slot.get - 1) ByteVector.zero := by
    rw [hext.history,h.sealed,hgap]
  refine ⟨hext.header,hvalid rfl,hext.slot,?_,?_,?_,?_⟩
  · simp only [hhist,List.length_append,List.length_cons,List.length_replicate,h.length]
    omega
  · intro b hb
    rcases List.mem_append.mp hb with hb | hb
    · exact (h.before b hb).trans hlater
    · obtain rfl : b = last := by simpa using hb
      exact hlater
  · intro b hb
    rw [hhist]
    rcases List.mem_append.mp hb with hb | hb
    · rw [List.getElem?_append_left (h.length ▸ h.before b hb)]
      exact h.entries b hb
    · obtain rfl : b = last := by simpa using hb
      rw [List.getElem?_append_right (Nat.le_of_eq h.length),h.length,Nat.sub_self]
      rfl
  · intro i hi hnone
    rw [hhist]
    rcases Nat.lt_trichotomy i last.slot.get with hlt | heq | hgt
    · rw [List.getElem?_append_left (h.length ▸ hlt)]
      exact h.empty i hlt (fun b hb => hnone b (by simp [hb]))
    · exact absurd heq.symm (hnone last (by simp))
    · rw [List.getElem?_append_right (h.length ▸ Nat.le_of_lt hgt),h.length]
      obtain ⟨k,hk⟩ : ∃ k, i - last.slot.get = k+1 := ⟨i - last.slot.get - 1,by omega⟩
      rw [hk,List.getElem?_cons_succ,List.getElem?_replicate,if_pos (by omega)]

def chainBlocks (g : State) (blocks : List SignedBlockWithAttestation) : List Block :=
  genesisAnchorBlock g :: blocks.map (·.message.block)

theorem Chain.postState {genesisTime : UInt64} {validators : Validators}
    {blocks : List SignedBlockWithAttestation} {logs : List (List Cast)} {s : State}
    (h : Chain true (genesisState genesisTime validators) blocks logs s)
    (hne : ∀ b ∈ chainBlocks (genesisState genesisTime validators) blocks,
      b.stateRoot ≠ ByteVector.zero) :
    ∃ earlier last, chainBlocks (genesisState genesisTime validators) blocks = earlier ++ [last] ∧
      PostState earlier last s := by
  induction h with
  | nil => exact ⟨[],_,rfl,postState_genesis genesisTime validators⟩
  | @snoc m t is os signed log hrun happ ih =>
    have hsnoc : chainBlocks (genesisState genesisTime validators) (is ++ [signed]) =
        chainBlocks (genesisState genesisTime validators) is ++ [signed.message.block] := by
      simp [chainBlocks]
    rw [hsnoc] at hne ⊢
    obtain ⟨earlier,last,heq,hpost⟩ := ih (fun b hb => hne b (by simp [hb]))
    rw [heq] at hne ⊢
    exact ⟨earlier ++ [last],signed.message.block,rfl,
      hpost.applies (hne last (by simp)) happ.1⟩

/-- The post-state of a block lists one history entry and one justified bit for each
earlier slot. The entry is the root of the chain's block at that slot, the zero root
exactly where there is none, as long as no root of the chain is itself zero: neither a
block's nor a post-state's, which a validated block carries as its state root. -/
theorem history_aligned {genesisTime : UInt64} {validators : Validators}
    {blocks : List SignedBlockWithAttestation} {signed : SignedBlockWithAttestation}
    {logs : List (List Cast)} {s : State}
    (h : Chain true (genesisState genesisTime validators) (blocks ++ [signed]) logs s)
    (hroots : ∀ b ∈ chainBlocks (genesisState genesisTime validators) (blocks ++ [signed]),
      b.stateRoot ≠ ByteVector.zero ∧ hashTreeRoot b ≠ ByteVector.zero) :
    s.historicalBlockHashes.length = signed.message.block.slot.get ∧
    s.justifiedSlots.len = signed.message.block.slot.get ∧
    s.latestBlockHeader.slot = signed.message.block.slot ∧
    s.slot = signed.message.block.slot ∧
    ∀ i < signed.message.block.slot.get,
      (∀ b ∈ chainBlocks (genesisState genesisTime validators) (blocks ++ [signed]),
        b.slot.get = i → s.historicalBlockHashes[i]? = some (hashTreeRoot b)) ∧
      (s.historicalBlockHashes[i]? = some ByteVector.zero ↔
        ∀ b ∈ chainBlocks (genesisState genesisTime validators) (blocks ++ [signed]),
          b.slot.get ≠ i) := by
  obtain ⟨earlier,last,heq,hpost⟩ := h.postState (fun b hb => (hroots b hb).1)
  obtain rfl : last = signed.message.block := by
    have hsplit : chainBlocks (genesisState genesisTime validators) blocks ++
        [signed.message.block] = earlier ++ [last] := by
      rw [← heq]
      simp [chainBlocks]
    simpa using (List.append_inj' hsplit rfl).2.symm
  have hbits : s.justifiedSlots.len = s.historicalBlockHashes.length := by
    obtain ⟨_,_,L,hreach,-,hL⟩ := h.represented
    have haligned := hreach.consistent.aligned
    rwa [hL.justified,hL.history,Bitlist.length_toList] at haligned
  rw [heq] at hroots ⊢
  -- Below its own slot the last block plays no part.
  have hearlier : ∀ i < signed.message.block.slot.get,
      ∀ b ∈ earlier ++ [signed.message.block], b.slot.get = i → b ∈ earlier := by
    intro i hi b hb hslot
    rcases List.mem_append.mp hb with hb | hb
    · exact hb
    · obtain rfl : b = signed.message.block := by simpa using hb
      omega
  refine ⟨hpost.length,hbits.trans hpost.length,by rw [hpost.header]; rfl,hpost.slot,?_⟩
  intro i hi
  constructor
  · intro b hb hslot
    rw [← hslot]
    exact hpost.entries b (hearlier i hi b hb hslot)
  · constructor
    · intro hzero b hb hslot
      have hentry := hpost.entries b (hearlier i hi b hb hslot)
      rw [hslot,hzero] at hentry
      exact (hroots b hb).2 (Option.some.inj hentry).symm
    · intro hnone
      exact hpost.empty i hi (fun b hb => hnone b (by simp [hb]))

end

section
attribute [local instance] mixPair

def gapParent : State := (genesisState 0 [default]).grown [(1,[])]

def gapChain : State := gapParent.grown [(4,[])]

theorem history_aligned_gap :
    gapChain.historicalBlockHashes.length = 4 ∧
    gapChain.historicalBlockHashes[0]? =
      some (hashTreeRoot (genesisAnchorBlock (genesisState 0 [default]))) ∧
    gapChain.historicalBlockHashes[2]? = some ByteVector.zero := by
  have hs : Chain true (genesisState 0 [default]) _ _ gapParent :=
    chain_grown [(1,[])] (by decide +kernel)
  have happ : Applies true gapParent _ _ gapChain :=
    applies_grown 4 [] (by decide +kernel)
  obtain ⟨hlen,-,-,-,hentries⟩ := history_aligned (hs.snoc happ) (by decide +kernel)
  exact ⟨hlen.trans (by decide +kernel),
    (hentries 0 (by decide +kernel)).1 _ (List.mem_cons_self ..) rfl,
    (hentries 2 (by decide +kernel)).2.mpr (by decide +kernel)⟩

end

end Devnet.Protocol
