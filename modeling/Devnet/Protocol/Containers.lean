import Devnet.Protocol.Slot

/-!
The consensus containers with their hash-tree-roots, the state, and the genesis
pair. `Inhabited` instances stand for the derived `Default`.
-/

set_option autoImplicit false

namespace Devnet.Protocol
open Devnet.Types Devnet.Ssz

def historicalRootsLimit : Nat := 262144
def validatorRegistryLimit : Nat := 4096
def maxAttestations : Nat := validatorRegistryLimit
def justificationsValidatorsLimit : Nat := historicalRootsLimit*validatorRegistryLimit

structure Checkpoint where
  root : Bytes32
  slot : Slot
  deriving DecidableEq, Inhabited

structure AttestationData where
  slot : Slot
  head : Checkpoint
  target : Checkpoint
  source : Checkpoint
  deriving DecidableEq, Inhabited

structure Attestation where
  validatorId : ValidatorIndex
  data : AttestationData
  deriving DecidableEq, Inhabited

structure SignedAttestation where
  message : Attestation
  signature : Signature
  deriving DecidableEq, Inhabited

structure BlockHeader where
  slot : Slot
  proposerIndex : ValidatorIndex
  parentRoot : Bytes32
  stateRoot : Bytes32
  bodyRoot : Bytes32
  deriving DecidableEq, Inhabited

structure BlockBody where
  attestations : List Attestation
  deriving DecidableEq, Inhabited

structure Block where
  slot : Slot
  proposerIndex : ValidatorIndex
  parentRoot : Bytes32
  stateRoot : Bytes32
  body : BlockBody
  deriving DecidableEq, Inhabited

structure BlockWithAttestation where
  block : Block
  proposerAttestation : Attestation
  deriving DecidableEq, Inhabited

abbrev BlockSignatures := List Signature

structure SignedBlockWithAttestation where
  message : BlockWithAttestation
  signature : BlockSignatures
  deriving DecidableEq, Inhabited

structure Validator where
  pubkey : PublicKey
  index : ValidatorIndex
  deriving DecidableEq, Inhabited

abbrev Validators := List Validator

structure ProtocolConfig where
  genesisTime : UInt64
  deriving DecidableEq, Inhabited

structure State where
  config : ProtocolConfig
  slot : Slot
  latestBlockHeader : BlockHeader
  latestJustified : Checkpoint
  latestFinalized : Checkpoint
  historicalBlockHashes : List Bytes32
  justifiedSlots : Bitlist historicalRootsLimit
  validators : Validators
  justificationsRoots : List Bytes32
  justificationsValidators : Bitlist justificationsValidatorsLimit
  deriving DecidableEq, Inhabited

/-- The registry length as a 64-bit word, saturating. -/
def State.numValidators (self : State) : Nat := min self.validators.length (2^64-1)

section Roots
variable [HashPair]

instance : HashTreeRoot Checkpoint := ⟨fun self => hashPair self.root (u64Chunk self.slot.get)⟩

instance : HashTreeRoot AttestationData := ⟨fun self => merkleize
  [u64Chunk self.slot.get,hashTreeRoot self.head,hashTreeRoot self.target,
    hashTreeRoot self.source]⟩

instance : HashTreeRoot Attestation := ⟨fun self => merkleize
  [u64Chunk self.validatorId.get,hashTreeRoot self.data]⟩

instance : HashTreeRoot BlockHeader := ⟨fun self => merkleize
  [hashTreeRoot self.slot,hashTreeRoot self.proposerIndex,self.parentRoot,self.stateRoot,
    self.bodyRoot]⟩

instance : HashTreeRoot BlockBody :=
  ⟨fun self => listHashTreeRoot self.attestations maxAttestations⟩

instance : HashTreeRoot Block := ⟨fun self => merkleize
  [hashTreeRoot self.slot,hashTreeRoot self.proposerIndex,self.parentRoot,self.stateRoot,
    hashTreeRoot self.body]⟩

instance : HashTreeRoot BlockSignatures := ⟨fun self => listHashTreeRoot self maxAttestations⟩

instance : HashTreeRoot BlockWithAttestation := ⟨fun self => merkleize
  [hashTreeRoot self.block,hashTreeRoot self.proposerAttestation]⟩

instance : HashTreeRoot SignedBlockWithAttestation := ⟨fun self => merkleize
  [hashTreeRoot self.message,hashTreeRoot self.signature]⟩

instance : HashTreeRoot Validator := ⟨fun self => merkleize
  [hashTreeRoot self.pubkey,hashTreeRoot self.index]⟩

instance : HashTreeRoot ProtocolConfig := ⟨fun self => merkleize
  [u64Chunk self.genesisTime.toNat]⟩

instance : HashTreeRoot State := ⟨fun self => merkleize
  [hashTreeRoot self.config,
    hashTreeRoot self.slot,
    hashTreeRoot self.latestBlockHeader,
    hashTreeRoot self.latestJustified,
    hashTreeRoot self.latestFinalized,
    listHashTreeRoot self.historicalBlockHashes historicalRootsLimit,
    bitlistHashTreeRoot self.justifiedSlots,
    listHashTreeRoot self.validators validatorRegistryLimit,
    listHashTreeRoot self.justificationsRoots historicalRootsLimit,
    bitlistHashTreeRoot self.justificationsValidators]⟩

def BlockHeader.genesis : BlockHeader :=
  { (default : BlockHeader) with bodyRoot := hashTreeRoot (default : BlockBody) }

def genesisState (genesisTime : UInt64) (validators : Validators) : State :=
  { (default : State) with
    config := ⟨genesisTime⟩
    validators := validators
    latestBlockHeader := BlockHeader.genesis }

def genesisAnchorBlock (state : State) : Block :=
  { (default : Block) with stateRoot := hashTreeRoot state }

/-- The header that stands for `block` in a state once its state root is known. -/
def Block.header (block : Block) : BlockHeader :=
  { slot := block.slot
    proposerIndex := block.proposerIndex
    parentRoot := block.parentRoot
    stateRoot := block.stateRoot
    bodyRoot := hashTreeRoot block.body }

theorem Block.hashTreeRoot_header (block : Block) :
    hashTreeRoot block.header = hashTreeRoot block := rfl

end Roots

end Devnet.Protocol
