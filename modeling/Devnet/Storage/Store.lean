import Devnet.Protocol.Containers
import Devnet.Types.OtsRecords

/-!
What a node keeps on disk: blocks, post-states, one row for the head and one watermark for
each validator. A write is a transaction that either commits or leaves the tables as they
were; whether the backend lets it commit is an argument, as is what it answers to a read.
Blocks and states stand in the tables decoded; the head row is checked again when read.
-/

set_option autoImplicit false

namespace Devnet.Storage
open Devnet.Types Devnet.Protocol

inductive StorageError where
  | backend (message : String)
  deriving DecidableEq

inductive HeadInfoError where
  | finalizedAheadOfHead (head finalized : Nat)
  deriving DecidableEq

def HeadInfoError.message : HeadInfoError → String
  | .finalizedAheadOfHead head finalized =>
    "finalized slot " ++ toString finalized ++ " is ahead of head slot " ++ toString head

structure HeadInfo where
  head : Checkpoint
  finalized : Checkpoint
  deriving DecidableEq

/-- The only check is on the slots. -/
def HeadInfo.tryNew (head finalized : Checkpoint) : Except HeadInfoError HeadInfo :=
  if head.slot.get < finalized.slot.get then
    .error (.finalizedAheadOfHead head.slot.get finalized.slot.get)
  else .ok ⟨head,finalized⟩

structure RedbStore where
  blocks : HashMap Bytes32 SignedBlockWithAttestation
  states : HashMap Bytes32 State
  head : Option HeadInfo
  otsKeyState : BTreeMap ValidatorIndex (List UInt8)

def RedbStore.empty : RedbStore := ⟨∅,∅,none,∅⟩

/-- The answer of the backend to one call: none if it does what was asked. -/
abbrev Fault := Option StorageError

def RedbStore.inWriteTxn (fault : Fault) (f : RedbStore → RedbStore) :
    EStateM StorageError RedbStore Unit :=
  match fault with
  | some e => throw e
  | none => modify f

namespace RedbStore

def saveBlock (fault : Fault) (root : Bytes32) (block : SignedBlockWithAttestation) :
    EStateM StorageError RedbStore Unit :=
  inWriteTxn fault fun self => { self with blocks := self.blocks.insert root block }

def saveState (fault : Fault) (root : Bytes32) (state : State) :
    EStateM StorageError RedbStore Unit :=
  inWriteTxn fault fun self => { self with states := self.states.insert root state }

def saveHead (fault : Fault) (info : HeadInfo) : EStateM StorageError RedbStore Unit :=
  inWriteTxn fault fun self => { self with head := some info }

def putAccepted (self : RedbStore) (blockRoot : Bytes32) (block : SignedBlockWithAttestation)
    (state : State) (head : HeadInfo) : RedbStore :=
  { self with
    blocks := self.blocks.insert blockRoot block
    states := self.states.insert blockRoot state
    head := some head }

/-- Block, state and head in one transaction. -/
def saveAccepted (fault : Fault) (blockRoot : Bytes32) (block : SignedBlockWithAttestation)
    (state : State) (head : HeadInfo) : EStateM StorageError RedbStore Unit :=
  inWriteTxn fault fun self => self.putAccepted blockRoot block state head

def inReadTxn {α : Type} (self : RedbStore) (fault : Fault)
    (f : RedbStore → Except StorageError α) : Except StorageError α :=
  match fault with
  | some e => .error e
  | none => f self

def hasBlock (self : RedbStore) (fault : Fault) (root : Bytes32) : Except StorageError Bool :=
  self.inReadTxn fault fun self => .ok (self.blocks.contains root)

def hasState (self : RedbStore) (fault : Fault) (root : Bytes32) : Except StorageError Bool :=
  self.inReadTxn fault fun self => .ok (self.states.contains root)

def loadBlock (self : RedbStore) (fault : Fault) (root : Bytes32) :
    Except StorageError (Option SignedBlockWithAttestation) :=
  self.inReadTxn fault fun self => .ok self.blocks[root]?

def loadState (self : RedbStore) (fault : Fault) (root : Bytes32) :
    Except StorageError (Option State) :=
  self.inReadTxn fault fun self => .ok self.states[root]?

/-- The row is checked as it is decoded. -/
def decodeHead (info : HeadInfo) : Except StorageError HeadInfo :=
  (HeadInfo.tryNew info.head info.finalized).mapError fun e => .backend e.message

def loadHead (self : RedbStore) (fault : Fault) : Except StorageError (Option HeadInfo) :=
  self.inReadTxn fault fun self =>
    match self.head with
    | some info => (decodeHead info).map some
    | none => .ok none

def putOtsKeyState (self : RedbStore) (validator : ValidatorIndex) (watermark : OtsWatermark) :
    RedbStore :=
  { self with otsKeyState := self.otsKeyState.insert validator watermark.toSszBytes }

def saveOtsKeyState (fault : Fault) (validator : ValidatorIndex) (watermark : OtsWatermark) :
    EStateM StorageError RedbStore Unit :=
  inWriteTxn fault fun self => self.putOtsKeyState validator watermark

def loadOtsKeyState (self : RedbStore) (fault : Fault) (validator : ValidatorIndex) :
    Except StorageError (Option OtsWatermark) :=
  self.inReadTxn fault fun self =>
    match self.otsKeyState[validator]? with
    | some bytes =>
      ((OtsWatermark.fromSszBytes bytes).mapError fun e => .backend e.message).map some
    | none => .ok none

end RedbStore

end Devnet.Storage
