import Devnet.Protocol.BlockCodec
import Devnet.Protocol.StateCodec
import Devnet.Ssz.Binding

/-!
Every container with the calls behind its root. A container puts its fields under one small
tree, so the calls of a value contain those of its fields, and two values with agreeing calls
are equal field by field.
-/

set_option autoImplicit false

namespace Devnet.Protocol
open Devnet.Types Devnet.Ssz HashTree

instance : Unrolled Slot := ⟨fun self => .leaf (u64Chunk self.get)⟩

instance : Unrolled ValidatorIndex := ⟨fun self => .leaf (u64Chunk self.get)⟩

instance : Unrolled ProtocolConfig := ⟨fun self => fieldTree [.leaf (u64Chunk self.genesisTime.toNat)]⟩

instance : Unrolled Checkpoint := ⟨fun self => .node (.leaf self.root) (.leaf (u64Chunk self.slot.get))⟩

instance : Unrolled AttestationData := ⟨fun self => fieldTree
  [.leaf (u64Chunk self.slot.get),callTree self.head,callTree self.target,callTree self.source]⟩

instance : Unrolled Attestation := ⟨fun self => fieldTree
  [.leaf (u64Chunk self.validatorId.get),callTree self.data]⟩

instance : Unrolled BlockHeader := ⟨fun self => fieldTree
  [callTree self.slot,callTree self.proposerIndex,.leaf self.parentRoot,.leaf self.stateRoot,
    .leaf self.bodyRoot]⟩

instance : Unrolled BlockBody := ⟨fun self => listTree self.attestations maxAttestations⟩

instance : Unrolled Block := ⟨fun self => fieldTree
  [callTree self.slot,callTree self.proposerIndex,.leaf self.parentRoot,.leaf self.stateRoot,
    callTree self.body]⟩

instance : Unrolled BlockSignatures := ⟨fun self => listTree self maxAttestations⟩

instance : Unrolled BlockWithAttestation := ⟨fun self => fieldTree
  [callTree self.block,callTree self.proposerAttestation]⟩

instance : Unrolled SignedBlockWithAttestation := ⟨fun self => fieldTree
  [callTree self.message,callTree self.signature]⟩

instance : Unrolled Validator := ⟨fun self => fieldTree
  [callTree self.pubkey,callTree self.index]⟩

instance : Unrolled State := ⟨fun self => fieldTree
  [callTree self.config,
    callTree self.slot,
    callTree self.latestBlockHeader,
    callTree self.latestJustified,
    callTree self.latestFinalized,
    listTree self.historicalBlockHashes historicalRootsLimit,
    bitlistTree self.justifiedSlots,
    listTree self.validators validatorRegistryLimit,
    listTree self.justificationsRoots historicalRootsLimit,
    bitlistTree self.justificationsValidators]⟩

section Binding
variable [HashPair]

theorem binds_slot : Binds Slot fun _ => True := by
  constructor
  · intro x _
    rfl
  · intro x y _ _ h
    exact Slot.ext_get (u64Chunk_inj x.isLt y.isLt h)

theorem binds_validatorIndex : Binds ValidatorIndex fun _ => True := by
  constructor
  · intro x _
    rfl
  · intro x y _ _ h
    exact ValidatorIndex.ext_get (u64Chunk_inj x.isLt y.isLt h)

theorem binds_checkpoint : Binds Checkpoint fun _ => True := by
  constructor
  · intro x _
    rfl
  · intro x y _ _ h
    obtain ⟨hroot,hslot⟩ := h
    have hslot := Slot.ext_get (u64Chunk_inj x.slot.isLt y.slot.isLt hslot)
    cases x
    cases y
    cases hroot
    cases hslot
    rfl

theorem binds_container {α : Type} [HashTreeRoot α] [Unrolled α] {Within : α → Prop}
    (trees : α → List CallTree) (count : Nat) (hcount : ∀ x, (trees x).length = count)
    (hsmall : depthOf count < 64) (htree : ∀ x, callTree x = fieldTree (trees x))
    (hroot : ∀ x, Within x → hashTreeRoot x = merkleize ((trees x).map (root hashPair)))
    (hagree : ∀ x y, Within x → Within y → List.Forall₂ Agree (trees x) (trees y) → x = y) :
    Binds α Within := by
  constructor
  · intro x hx
    rw [hroot x hx,htree,merkleize_eq (by rwa [hcount])]
  · intro x y hx hy h
    rw [htree,htree] at h
    exact hagree x y hx hy (Agree.of_fieldTree (by rw [hcount,hcount]) h)

theorem binds_attestationData : Binds AttestationData fun _ => True := by
  refine binds_container (fun x => [.leaf (u64Chunk x.slot.get),callTree x.head,callTree x.target,
    callTree x.source]) 4 (fun _ => rfl) (by decide) (fun _ => rfl) (fun _ _ => rfl) ?_
  intro x y _ _ h
  simp only [List.forall₂_cons,List.forall₂_nil_left_iff] at h
  obtain ⟨hslot,hhead,htarget,hsource,-⟩ := h
  have hslot := Slot.ext_get (u64Chunk_inj x.slot.isLt y.slot.isLt hslot)
  have hhead := binds_checkpoint.agree _ _ trivial trivial hhead
  have htarget := binds_checkpoint.agree _ _ trivial trivial htarget
  have hsource := binds_checkpoint.agree _ _ trivial trivial hsource
  cases x
  cases y
  simp_all

theorem binds_attestation : Binds Attestation fun _ => True := by
  refine binds_container (fun x => [.leaf (u64Chunk x.validatorId.get),callTree x.data]) 2
    (fun _ => rfl) (by decide) (fun _ => rfl) ?_ ?_
  · intro x _
    have hdata := binds_attestationData.root_eq x.data trivial
    change merkleize [_,hashTreeRoot x.data] = merkleize [_,(callTree x.data).root hashPair]
    rw [hdata]
    rfl
  · intro x y _ _ h
    simp only [List.forall₂_cons,List.forall₂_nil_left_iff] at h
    obtain ⟨hvalidator,hdata,-⟩ := h
    have hvalidator := ValidatorIndex.ext_get
      (u64Chunk_inj x.validatorId.isLt y.validatorId.isLt hvalidator)
    have hdata := binds_attestationData.agree _ _ trivial trivial hdata
    cases x
    cases y
    simp_all

theorem binds_blockHeader : Binds BlockHeader fun _ => True := by
  refine binds_container (fun x => [callTree x.slot,callTree x.proposerIndex,.leaf x.parentRoot,
    .leaf x.stateRoot,.leaf x.bodyRoot]) 5 (fun _ => rfl) (by decide) (fun _ => rfl)
    (fun _ _ => rfl) ?_
  intro x y _ _ h
  simp only [List.forall₂_cons,List.forall₂_nil_left_iff,agree_leaf] at h
  obtain ⟨hslot,hproposer,hparent,hstate,hbody,-⟩ := h
  have hslot := binds_slot.agree _ _ trivial trivial hslot
  have hproposer := binds_validatorIndex.agree _ _ trivial trivial hproposer
  cases x
  cases y
  simp_all

theorem binds_blockBody : Binds BlockBody BlockBody.WithinLimits := by
  constructor
  · intro x hx
    exact root_listTree binds_attestation (by decide) hx fun _ _ => trivial
  · intro x y hx hy h
    have hatts := agree_listTree binds_attestation (by decide) hx hy (fun _ _ => trivial)
      (fun _ _ => trivial) h
    cases x
    cases y
    cases hatts
    rfl

theorem binds_block : Binds Block Block.WithinLimits := by
  refine binds_container (fun x => [callTree x.slot,callTree x.proposerIndex,.leaf x.parentRoot,
    .leaf x.stateRoot,callTree x.body]) 5 (fun _ => rfl) (by decide) (fun _ => rfl) ?_ ?_
  · intro x hx
    have hbody := binds_blockBody.root_eq x.body hx
    change merkleize [_,_,_,_,hashTreeRoot x.body] =
      merkleize [_,_,_,_,(callTree x.body).root hashPair]
    rw [hbody]
    rfl
  · intro x y hx hy h
    simp only [List.forall₂_cons,List.forall₂_nil_left_iff,agree_leaf] at h
    obtain ⟨hslot,hproposer,hparent,hstate,hbody,-⟩ := h
    have hslot := binds_slot.agree _ _ trivial trivial hslot
    have hproposer := binds_validatorIndex.agree _ _ trivial trivial hproposer
    have hbody := binds_blockBody.agree _ _ hx hy hbody
    cases x
    cases y
    simp_all

theorem binds_blockSignatures : Binds BlockSignatures BlockSignatures.WithinLimits := by
  have hsignature : Binds Signature fun _ => True := binds_byteVector (by decide)
  constructor
  · intro x hx
    exact root_listTree hsignature (by decide) hx fun _ _ => trivial
  · intro x y hx hy h
    exact agree_listTree hsignature (by decide) hx hy (fun _ _ => trivial) (fun _ _ => trivial) h

theorem binds_blockWithAttestation :
    Binds BlockWithAttestation BlockWithAttestation.WithinLimits := by
  refine binds_container (fun x => [callTree x.block,callTree x.proposerAttestation]) 2
    (fun _ => rfl) (by decide) (fun _ => rfl) ?_ ?_
  · intro x hx
    have hblock := binds_block.root_eq x.block hx
    have hvote := binds_attestation.root_eq x.proposerAttestation trivial
    change merkleize [hashTreeRoot x.block,hashTreeRoot x.proposerAttestation] = _
    rw [← hblock,← hvote]
    rfl
  · intro x y hx hy h
    simp only [List.forall₂_cons,List.forall₂_nil_left_iff] at h
    obtain ⟨hblock,hvote,-⟩ := h
    have hblock := binds_block.agree _ _ hx hy hblock
    have hvote := binds_attestation.agree _ _ trivial trivial hvote
    cases x
    cases y
    simp_all

theorem binds_signedBlock :
    Binds SignedBlockWithAttestation SignedBlockWithAttestation.WithinLimits := by
  refine binds_container (fun x => [callTree x.message,callTree x.signature]) 2
    (fun _ => rfl) (by decide) (fun _ => rfl) ?_ ?_
  · intro x hx
    have hmessage := binds_blockWithAttestation.root_eq x.message hx.1
    have hsignature := binds_blockSignatures.root_eq x.signature hx.2
    change merkleize [hashTreeRoot x.message,hashTreeRoot x.signature] = _
    rw [← hmessage,← hsignature]
    rfl
  · intro x y hx hy h
    simp only [List.forall₂_cons,List.forall₂_nil_left_iff] at h
    obtain ⟨hmessage,hsignature,-⟩ := h
    have hmessage := binds_blockWithAttestation.agree _ _ hx.1 hy.1 hmessage
    have hsignature := binds_blockSignatures.agree _ _ hx.2 hy.2 hsignature
    cases x
    cases y
    simp_all

theorem binds_validator : Binds Validator fun _ => True := by
  have hpubkey : Binds PublicKey fun _ => True := binds_byteVector (by decide)
  refine binds_container (fun x => [callTree x.pubkey,callTree x.index]) 2
    (fun _ => rfl) (by decide) (fun _ => rfl) ?_ ?_
  · intro x _
    have hroot := hpubkey.root_eq x.pubkey trivial
    change merkleize [hashTreeRoot x.pubkey,hashTreeRoot x.index] = _
    rw [← hroot]
    rfl
  · intro x y _ _ h
    simp only [List.forall₂_cons,List.forall₂_nil_left_iff] at h
    obtain ⟨hkey,hindex,-⟩ := h
    have hkey := hpubkey.agree _ _ trivial trivial hkey
    have hindex := binds_validatorIndex.agree _ _ trivial trivial hindex
    cases x
    cases y
    simp_all

theorem binds_protocolConfig : Binds ProtocolConfig fun _ => True := by
  refine binds_container (fun x => [.leaf (u64Chunk x.genesisTime.toNat)]) 1
    (fun _ => rfl) (by decide) (fun _ => rfl) (fun _ _ => rfl) ?_
  intro x y _ _ h
  simp only [List.forall₂_cons,List.forall₂_nil_left_iff,agree_leaf] at h
  have htime := UInt64.toNat.inj
    (u64Chunk_inj x.genesisTime.toNat_lt y.genesisTime.toNat_lt h.1)
  cases x
  cases y
  cases htime
  rfl

theorem binds_state : Binds State State.WithinLimits := by
  have hroots : Binds Bytes32 fun _ => True := binds_byteVector (by decide)
  refine binds_container (fun x => [callTree x.config,callTree x.slot,
    callTree x.latestBlockHeader,callTree x.latestJustified,callTree x.latestFinalized,
    listTree x.historicalBlockHashes historicalRootsLimit,bitlistTree x.justifiedSlots,
    listTree x.validators validatorRegistryLimit,
    listTree x.justificationsRoots historicalRootsLimit,
    bitlistTree x.justificationsValidators]) 10 (fun _ => rfl) (by decide) (fun _ => rfl) ?_ ?_
  · intro x hx
    have hhistory := root_listTree hroots (by decide) hx.historicalBlockHashes fun _ _ => trivial
    have hslots := root_bitlistTree (by decide) x.justifiedSlots
    have hvalidators := root_listTree binds_validator (by decide) hx.validators fun _ _ => trivial
    have hjustified := root_listTree hroots (by decide) hx.justificationsRoots fun _ _ => trivial
    have hvotes := root_bitlistTree (by decide) x.justificationsValidators
    simp only [List.map_cons,List.map_nil,binds_protocolConfig.root_eq _ trivial,
      binds_slot.root_eq _ trivial,binds_blockHeader.root_eq _ trivial,
      binds_checkpoint.root_eq _ trivial,hhistory,hslots,hvalidators,hjustified,hvotes]
    rfl
  · intro x y hx hy h
    simp only [List.forall₂_cons,List.forall₂_nil_left_iff] at h
    obtain ⟨hconfig,hslot,hheader,hlatest,hfinal,hhistory,hslots,hvalidators,hjustified,hvotes,-⟩ := h
    have hconfig := binds_protocolConfig.agree _ _ trivial trivial hconfig
    have hslot := binds_slot.agree _ _ trivial trivial hslot
    have hheader := binds_blockHeader.agree _ _ trivial trivial hheader
    have hlatest := binds_checkpoint.agree _ _ trivial trivial hlatest
    have hfinal := binds_checkpoint.agree _ _ trivial trivial hfinal
    have hhistory := agree_listTree hroots (by decide) hx.historicalBlockHashes
      hy.historicalBlockHashes (fun _ _ => trivial) (fun _ _ => trivial) hhistory
    have hslots := agree_bitlistTree (by decide) hslots
    have hvalidators := agree_listTree binds_validator (by decide) hx.validators hy.validators
      (fun _ _ => trivial) (fun _ _ => trivial) hvalidators
    have hjustified := agree_listTree hroots (by decide) hx.justificationsRoots
      hy.justificationsRoots (fun _ _ => trivial) (fun _ _ => trivial) hjustified
    have hvotes := agree_bitlistTree (by decide) hvotes
    cases x
    cases y
    simp_all

/-- A root pins its value down, unless two inputs of the hash collide: two that differ, each
among the calls whose evaluation is the root of one of the values. -/
theorem hash_tree_roots_bind :
    (∀ s s' : State, s.WithinLimits → s'.WithinLimits →
      hashTreeRoot s = (callTree s).root hashPair ∧
      (hashTreeRoot s = hashTreeRoot s' → s = s' ∨ Clash hashPair (callTree s) (callTree s'))) ∧
    (∀ b b' : Block, b.WithinLimits → b'.WithinLimits →
      hashTreeRoot b = (callTree b).root hashPair ∧
      (hashTreeRoot b = hashTreeRoot b' → b = b' ∨ Clash hashPair (callTree b) (callTree b'))) ∧
    (∀ b b' : SignedBlockWithAttestation, b.WithinLimits → b'.WithinLimits →
      hashTreeRoot b = (callTree b).root hashPair ∧
      (hashTreeRoot b = hashTreeRoot b' → b = b' ∨ Clash hashPair (callTree b) (callTree b'))) ∧
    ∀ a a' : Attestation, hashTreeRoot a = (callTree a).root hashPair ∧
      (hashTreeRoot a = hashTreeRoot a' → a = a' ∨ Clash hashPair (callTree a) (callTree a')) := by
  refine ⟨?_,?_,?_,?_⟩
  · intro s s' hs hs'
    exact ⟨(binds_state.root_eq s hs).symm,binds_state.equal_or_clash hs hs'⟩
  · intro b b' hb hb'
    exact ⟨(binds_block.root_eq b hb).symm,binds_block.equal_or_clash hb hb'⟩
  · intro b b' hb hb'
    exact ⟨(binds_signedBlock.root_eq b hb).symm,binds_signedBlock.equal_or_clash hb hb'⟩
  · intro a a'
    exact ⟨(binds_attestation.root_eq a trivial).symm,
      binds_attestation.equal_or_clash trivial trivial⟩

end Binding

section Example

@[reducible] def flatPair : HashPair := ⟨fun _ _ => ByteVector.zero⟩

attribute [local instance] flatPair

def slotOne : Block := { (default : Block) with slot := Slot.ofNat 1 }

theorem hash_tree_roots_bind_flat : ∃ b b' : Block, b ≠ b' ∧ hashTreeRoot b = hashTreeRoot b' ∧
    Clash hashPair (callTree b) (callTree b') := by
  have hne : (default : Block) ≠ slotOne := by decide
  have hroot : hashTreeRoot (default : Block) = hashTreeRoot slotOne := by decide +kernel
  have hbind := (hash_tree_roots_bind.2.1 default slotOne (Nat.zero_le _) (Nat.zero_le _)).2 hroot
  exact ⟨default,slotOne,hne,hroot,hbind.resolve_left hne⟩

end Example

end Devnet.Protocol
