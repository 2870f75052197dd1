import Devnet.Protocol.BlockCodec
import Devnet.Protocol.StateCodec
import Devnet.Storage.Store

/-!
The two adapters of the storage contract. One keeps values; the other keeps byte tables, and
encodes what it writes and decodes what it reads. The database below is taken to do what it
is asked. A call sequence is answered alike by both as long as no head row is read back whose
finalized slot is ahead of its head: only the table adapter checks that, and only on reading.
-/

set_option autoImplicit false

namespace Devnet.Storage
open Machine Wire Devnet.Types Devnet.Ssz Devnet.Protocol

inductive Call where
  | saveBlock (root : Bytes32) (block : SignedBlockWithAttestation)
  | saveState (root : Bytes32) (state : State)
  | saveHead (info : HeadInfo)
  | saveAccepted (blockRoot : Bytes32) (block : SignedBlockWithAttestation) (state : State)
      (head : HeadInfo)
  | hasBlock (root : Bytes32)
  | hasState (root : Bytes32)
  | loadBlock (root : Bytes32)
  | loadState (root : Bytes32)
  | loadHead
  | saveOtsKeyState (validator : ValidatorIndex) (watermark : OtsWatermark)
  | loadOtsKeyState (validator : ValidatorIndex)

inductive Reply where
  | done
  | found (answer : Bool)
  | block (answer : Option SignedBlockWithAttestation)
  | state (answer : Option State)
  | head (answer : Option HeadInfo)
  | watermark (answer : Option OtsWatermark)
  deriving DecidableEq

abbrev Answer := Outcome StorageError Reply

structure MemoryStore where
  blocks : HashMap Bytes32 SignedBlockWithAttestation
  states : HashMap Bytes32 State
  head : Option HeadInfo
  otsKeyStates : BTreeMap ValidatorIndex OtsWatermark

def MemoryStore.new : MemoryStore := ⟨∅,∅,none,∅⟩

/-- No call fails. -/
def MemoryStore.serve (self : MemoryStore) : Call → Answer × MemoryStore
  | .saveBlock root block => (.ok .done,{ self with blocks := self.blocks.insert root block })
  | .saveState root state => (.ok .done,{ self with states := self.states.insert root state })
  | .saveHead info => (.ok .done,{ self with head := some info })
  | .saveAccepted blockRoot block state head =>
    (.ok .done,
      { self with
        blocks := self.blocks.insert blockRoot block
        states := self.states.insert blockRoot state
        head := some head })
  | .hasBlock root => (.ok (.found (self.blocks.contains root)),self)
  | .hasState root => (.ok (.found (self.states.contains root)),self)
  | .loadBlock root => (.ok (.block self.blocks[root]?),self)
  | .loadState root => (.ok (.state self.states[root]?),self)
  | .loadHead => (.ok (.head self.head),self)
  | .saveOtsKeyState validator watermark =>
    (.ok .done,{ self with otsKeyStates := self.otsKeyStates.insert validator watermark })
  | .loadOtsKeyState validator => (.ok (.watermark self.otsKeyStates[validator]?),self)

abbrev Table := BTreeMap (List UInt8) (List UInt8)

/-- The tables of the database; the watermarks have the index itself as key. -/
structure Tables where
  blocks : Table
  states : Table
  head : Table
  otsKeyState : BTreeMap Nat (List UInt8)

def Tables.empty : Tables := ⟨∅,∅,∅,∅⟩

def headKey : List UInt8 := [104,101,97,100]

def backend {ε α : Type} (message : ε → String) (x : Except ε α) : Outcome StorageError α :=
  x.mapError fun e => .refused (.backend (message e))

def debug : DecodeError → String
  | .invalidByteLength len expected =>
    "InvalidByteLength \x7b len: " ++ toString len ++ ", expected: " ++ toString expected ++ " \x7d"
  | .offsetIntoFixedPortion offset => "OffsetIntoFixedPortion(" ++ toString offset ++ ")"
  | .offsetsAreDecreasing offset => "OffsetsAreDecreasing(" ++ toString offset ++ ")"
  | .offsetOutOfBounds offset => "OffsetOutOfBounds(" ++ toString offset ++ ")"
  | .zeroLengthItem => "ZeroLengthItem"
  | .bytesInvalid message => "BytesInvalid(" ++ reprStr message ++ ")"

/-- `ssz::decode` under `backend`; a panic is one still. -/
def decode (α : Type) [Decode α] (bytes : List UInt8) : Outcome StorageError α :=
  (fromSszBytes bytes : Decoded α).mapError fun failure =>
    match failure with
    | .refused e => .refused (.backend ("ssz decode failed: " ++ debug e))
    | .panicked => .panicked

def encodeHead (info : HeadInfo) : List UInt8 := encode info.head ++ encode info.finalized

def checkpointBytes : Nat := (encode (default : Checkpoint)).length

def decodeHead (bytes : List UInt8) : Outcome StorageError HeadInfo :=
  if bytes.length ≠ checkpointBytes*2 then
    refuse (.backend ("head record has " ++ toString bytes.length ++ " bytes, expected " ++
      toString (checkpointBytes*2)))
  else do
    let head ← decode Checkpoint (← slice bytes 0 checkpointBytes)
    let finalized ← decode Checkpoint (← slice bytes checkpointBytes bytes.length)
    backend HeadInfoError.message (HeadInfo.tryNew head finalized)

def decodeRow {α : Type} (row : Option (List UInt8)) (f : List UInt8 → Outcome StorageError α) :
    Outcome StorageError (Option α) :=
  match row with
  | some bytes => (f bytes).map some
  | none => .ok none

def Tables.putAccepted (self : Tables) (blockRoot : Bytes32) (block : SignedBlockWithAttestation)
    (state : State) (head : HeadInfo) : Tables :=
  { self with
    blocks := self.blocks.insert blockRoot.bytes (encode block)
    states := self.states.insert blockRoot.bytes (encode state)
    head := self.head.insert headKey (encodeHead head) }

def Tables.serve (self : Tables) : Call → Answer × Tables
  | .saveBlock root block =>
    (.ok .done,{ self with blocks := self.blocks.insert root.bytes (encode block) })
  | .saveState root state =>
    (.ok .done,{ self with states := self.states.insert root.bytes (encode state) })
  | .saveHead info =>
    (.ok .done,{ self with head := self.head.insert headKey (encodeHead info) })
  | .saveAccepted blockRoot block state head =>
    (.ok .done,self.putAccepted blockRoot block state head)
  | .hasBlock root => (.ok (.found (self.blocks.contains root.bytes)),self)
  | .hasState root => (.ok (.found (self.states.contains root.bytes)),self)
  | .loadBlock root =>
    ((decodeRow self.blocks[root.bytes]? (decode SignedBlockWithAttestation)).map .block,self)
  | .loadState root => ((decodeRow self.states[root.bytes]? (decode State)).map .state,self)
  | .loadHead => ((decodeRow self.head[headKey]? decodeHead).map .head,self)
  | .saveOtsKeyState validator watermark =>
    (.ok .done,
      { self with otsKeyState := self.otsKeyState.insert validator.get watermark.toSszBytes })
  | .loadOtsKeyState validator =>
    ((decodeRow self.otsKeyState[validator.get]? fun bytes =>
      backend OtsWatermarkDecodeError.message (OtsWatermark.fromSszBytes bytes)).map .watermark,self)

def answers {σ : Type} (serve : σ → Call → Answer × σ) : σ → List Call → List Answer
  | _, [] => []
  | s, call :: calls => (serve s call).1 :: answers serve (serve s call).2 calls

def Call.WithinLimits : Call → Prop
  | .saveBlock _ block => block.WithinLimits
  | .saveState _ state => state.WithinLimits
  | .saveAccepted _ block state _ => block.WithinLimits ∧ state.WithinLimits
  | _ => True

section Rows
variable {κ τ ν : Type} [Ord κ] [Ord τ] [Std.TransOrd κ] [Std.TransOrd τ]

/-- The table has the encodings of the values in the map, all of them within limits. -/
structure Rows (table : BTreeMap τ (List UInt8)) (map : BTreeMap κ ν) (key : κ → τ)
    (bytes : ν → List UInt8) (Within : ν → Prop) : Prop where
  row : ∀ k : κ, table[key k]? = map[k]?.map bytes
  within : ∀ (k : κ) (v : ν), map[k]? = some v → Within v

theorem Rows.empty (key : κ → τ) (bytes : ν → List UInt8) (Within : ν → Prop) :
    Rows ∅ ∅ key bytes Within := ⟨by simp,by simp⟩

theorem Rows.insert [Std.LawfulEqOrd κ] [Std.LawfulEqOrd τ] {table : BTreeMap τ (List UInt8)} {map : BTreeMap κ ν} {key : κ → τ}
    {bytes : ν → List UInt8} {Within : ν → Prop} (h : Rows table map key bytes Within)
    (hkey : Function.Injective key) (k : κ) {v : ν} (hv : Within v) :
    Rows (table.insert (key k) (bytes v)) (map.insert k v) key bytes Within := by
  constructor
  · intro k'
    by_cases hk : k = k'
    · simp [hk]
    · have hne : key k ≠ key k' := fun heq => hk (hkey heq)
      simp [Std.ExtTreeMap.getElem?_insert,hk,hne,h.row]
  · intro k' v' hget
    by_cases hk : k = k'
    · have heq : v = v' := by simpa [hk] using hget
      exact heq ▸ hv
    · simp only [Std.ExtTreeMap.getElem?_insert,Std.LawfulEqCmp.compare_eq_iff_eq,hk,
        if_false] at hget
      exact h.within k' v' hget

theorem Rows.contains {table : BTreeMap τ (List UInt8)} {map : BTreeMap κ ν} {key : κ → τ}
    {bytes : ν → List UInt8} {Within : ν → Prop} (h : Rows table map key bytes Within) (k : κ) :
    table.contains (key k) = map.contains k := by
  rw [← Std.ExtTreeMap.isSome_getElem?_eq_contains,← Std.ExtTreeMap.isSome_getElem?_eq_contains,
    h.row,Option.isSome_map]

theorem Rows.decodeRow {table : BTreeMap τ (List UInt8)} {map : BTreeMap κ ν} {key : κ → τ}
    {bytes : ν → List UInt8} {Within : ν → Prop} (h : Rows table map key bytes Within) (k : κ)
    {f : List UInt8 → Outcome StorageError ν} (hf : ∀ v, Within v → f (bytes v) = .ok v) :
    Storage.decodeRow table[key k]? f = .ok map[k]? := by
  rw [h.row]
  cases hget : map[k]? with
  | none => rfl
  | some v =>
    simp only [Option.map_some,Storage.decodeRow,hf v (h.within k v hget)]
    rfl

end Rows

theorem bytes_injective {N : Nat} : Function.Injective (ByteVector.bytes (N := N)) :=
  fun _ _ => ByteVector.ext_bytes

theorem decode_ok {α : Type} [Decode α] {bytes : List UInt8} {x : α}
    (h : fromSszBytes bytes = .ok x) : decode α bytes = .ok x := by
  simp [decode,h,Except.mapError]

theorem decode_encode_fixed {α : Type} [Encode α] [Decode α] [LawfulFixed α] (x : α) :
    decode α (encode x) = .ok x :=
  decode_ok ((LawfulFixed.accepts (encode x) x).mpr rfl)

@[simp] theorem checkpointBytes_eq : checkpointBytes = 40 := length_encode_checkpoint default

theorem decodeHead_encodeHead (info : HeadInfo) : decodeHead (encodeHead info) =
    backend HeadInfoError.message (HeadInfo.tryNew info.head info.finalized) := by
  have hlen : (encodeHead info).length = 80 := by simp [encodeHead]
  have hfirst : (slice (encodeHead info) 0 40 : Outcome StorageError _) = .ok (encode info.head) := by
    rw [slice_of_le (by omega) (by omega),field,encodeHead]
    simp
  have hsecond : (slice (encodeHead info) 40 (encodeHead info).length : Outcome StorageError _) =
      .ok (encode info.finalized) := by
    rw [slice_rest (by omega),encodeHead]
    simp
  rw [decodeHead,if_neg (by simp [hlen]),checkpointBytes_eq,hfirst,hsecond]
  simp only [bind,Except.bind,decode_encode_fixed]

structure Mirrors (memory : MemoryStore) (tables : Tables) : Prop where
  blocks : Rows tables.blocks memory.blocks ByteVector.bytes encode
    SignedBlockWithAttestation.WithinLimits
  states : Rows tables.states memory.states ByteVector.bytes encode State.WithinLimits
  head : tables.head[headKey]? = memory.head.map encodeHead
  otsKeyStates : Rows tables.otsKeyState memory.otsKeyStates ValidatorIndex.get
    OtsWatermark.toSszBytes fun _ => True

theorem mirrors_new : Mirrors MemoryStore.new Tables.empty :=
  ⟨Rows.empty _ _ _,Rows.empty _ _ _,by simp [Tables.empty,MemoryStore.new],Rows.empty _ _ _⟩

theorem Mirrors.serve {memory : MemoryStore} {tables : Tables} (h : Mirrors memory tables)
    {call : Call} (hcall : call.WithinLimits) :
    Mirrors (memory.serve call).2 (tables.serve call).2 := by
  have hget : Function.Injective ValidatorIndex.get := fun _ _ => ValidatorIndex.ext_get
  cases call with
  | saveBlock root block =>
    exact ⟨h.blocks.insert bytes_injective root hcall,h.states,h.head,h.otsKeyStates⟩
  | saveState root state =>
    exact ⟨h.blocks,h.states.insert bytes_injective root hcall,h.head,h.otsKeyStates⟩
  | saveHead info =>
    exact ⟨h.blocks,h.states,by simp [Tables.serve,MemoryStore.serve],h.otsKeyStates⟩
  | saveAccepted blockRoot block state head =>
    exact ⟨h.blocks.insert bytes_injective blockRoot hcall.1,
      h.states.insert bytes_injective blockRoot hcall.2,
      by simp [Tables.serve,Tables.putAccepted,MemoryStore.serve],h.otsKeyStates⟩
  | saveOtsKeyState validator watermark =>
    exact ⟨h.blocks,h.states,h.head,h.otsKeyStates.insert hget validator trivial⟩
  | hasBlock root => exact h
  | hasState root => exact h
  | loadBlock root => exact h
  | loadState root => exact h
  | loadHead => exact h
  | loadOtsKeyState validator => exact h

def RedbStore.wrote (self : RedbStore) (write : EStateM StorageError RedbStore Unit) :
    Answer × RedbStore :=
  match write self with
  | .ok _ self => (.ok .done,self)
  | .error e self => (refuse e,self)

def RedbStore.read {α : Type} (self : RedbStore) (reply : α → Reply)
    (value : Except StorageError α) : Answer × RedbStore :=
  ((value.map reply).mapError .refused,self)

def RedbStore.serve (self : RedbStore) : Call → Answer × RedbStore
  | .saveBlock root block => self.wrote (RedbStore.saveBlock none root block)
  | .saveState root state => self.wrote (RedbStore.saveState none root state)
  | .saveHead info => self.wrote (RedbStore.saveHead none info)
  | .saveAccepted blockRoot block state head =>
    self.wrote (RedbStore.saveAccepted none blockRoot block state head)
  | .hasBlock root => self.read .found (self.hasBlock none root)
  | .hasState root => self.read .found (self.hasState none root)
  | .loadBlock root => self.read .block (self.loadBlock none root)
  | .loadState root => self.read .state (self.loadState none root)
  | .loadHead => self.read .head (self.loadHead none)
  | .saveOtsKeyState validator watermark =>
    self.wrote (RedbStore.saveOtsKeyState none validator watermark)
  | .loadOtsKeyState validator => self.read .watermark (self.loadOtsKeyState none validator)

structure RedbStore.Decodes (store : RedbStore) (tables : Tables) : Prop where
  blocks : Rows tables.blocks store.blocks ByteVector.bytes encode
    SignedBlockWithAttestation.WithinLimits
  states : Rows tables.states store.states ByteVector.bytes encode State.WithinLimits
  head : tables.head[headKey]? = store.head.map encodeHead
  otsKeyState : Rows tables.otsKeyState store.otsKeyState ValidatorIndex.get id fun _ => True

theorem RedbStore.Decodes.serve {store : RedbStore} {tables : Tables} (h : store.Decodes tables)
    {call : Call} (hcall : call.WithinLimits) :
    (store.serve call).1 = (tables.serve call).1 ∧
      (store.serve call).2.Decodes (tables.serve call).2 := by
  have hget : Function.Injective ValidatorIndex.get := fun _ _ => ValidatorIndex.ext_get
  cases call with
  | saveBlock root block =>
    exact ⟨rfl,h.blocks.insert bytes_injective root hcall,h.states,h.head,h.otsKeyState⟩
  | saveState root state =>
    exact ⟨rfl,h.blocks,h.states.insert bytes_injective root hcall,h.head,h.otsKeyState⟩
  | saveHead info =>
    exact ⟨rfl,h.blocks,h.states,Std.ExtTreeMap.getElem?_insert_self,h.otsKeyState⟩
  | saveAccepted blockRoot block state head =>
    exact ⟨rfl,h.blocks.insert bytes_injective blockRoot hcall.1,
      h.states.insert bytes_injective blockRoot hcall.2,Std.ExtTreeMap.getElem?_insert_self,
      h.otsKeyState⟩
  | saveOtsKeyState validator watermark =>
    exact ⟨rfl,h.blocks,h.states,h.head,h.otsKeyState.insert hget validator trivial⟩
  | hasBlock root =>
    refine ⟨?_,h⟩
    simp only [Tables.serve,h.blocks.contains]
    rfl
  | hasState root =>
    refine ⟨?_,h⟩
    simp only [Tables.serve,h.states.contains]
    rfl
  | loadBlock root =>
    have hrow := h.blocks.decodeRow root (f := decode SignedBlockWithAttestation)
      fun v hv => decode_ok ((lawful_signedBlock.accepts _ v).mpr ⟨hv,rfl⟩)
    refine ⟨?_,h⟩
    simp only [Tables.serve,hrow]
    rfl
  | loadState root =>
    have hrow := h.states.decodeRow root (f := decode State)
      fun v hv => decode_ok ((State.accepts _ v).mpr ⟨hv,rfl⟩)
    refine ⟨?_,h⟩
    simp only [Tables.serve,hrow]
    rfl
  | loadHead =>
    refine ⟨?_,h⟩
    simp only [Tables.serve,RedbStore.serve,RedbStore.read,RedbStore.loadHead,
      RedbStore.inReadTxn,h.head]
    cases store.head with
    | none => rfl
    | some info =>
      simp only [Option.map_some,decodeRow,decodeHead_encodeHead,RedbStore.decodeHead]
      cases HeadInfo.tryNew info.head info.finalized <;> rfl
  | loadOtsKeyState validator =>
    have hrow := h.otsKeyState.row validator
    refine ⟨?_,h⟩
    simp only [Tables.serve,RedbStore.serve,RedbStore.read,RedbStore.loadOtsKeyState,
      RedbStore.inReadTxn,hrow,Option.map_id_fun,id]
    cases store.otsKeyState[validator]? with
    | none => rfl
    | some bytes =>
      simp only [decodeRow]
      cases OtsWatermark.fromSszBytes bytes <;> rfl

theorem RedbStore.Decodes.answers {store : RedbStore} {tables : Tables}
    (h : store.Decodes tables) {calls : List Call} (hcalls : ∀ call ∈ calls, call.WithinLimits) :
    Storage.answers RedbStore.serve store calls = Storage.answers Tables.serve tables calls := by
  induction calls generalizing store tables with
  | nil => rfl
  | cons call calls ih =>
    obtain ⟨hcall,hrest⟩ := List.forall_mem_cons.mp hcalls
    obtain ⟨hanswer,hnext⟩ := h.serve hcall
    rw [Storage.answers,Storage.answers,hanswer,ih hnext hrest]

/-- A head no earlier than what it names as finalized. -/
def HeadInfo.Ordered (info : HeadInfo) : Prop := info.finalized.slot.get ≤ info.head.slot.get

instance (info : HeadInfo) : Decidable info.Ordered := Nat.decLe _ _

/-- The two differ in the answer to one call alone. -/
theorem Mirrors.answer_iff {memory : MemoryStore} {tables : Tables} (h : Mirrors memory tables)
    (call : Call) : (memory.serve call).1 = (tables.serve call).1 ↔
      (call = .loadHead → ∀ info, memory.head = some info → info.Ordered) := by
  cases call with
  | saveBlock root block => simp [MemoryStore.serve,Tables.serve]
  | saveState root state => simp [MemoryStore.serve,Tables.serve]
  | saveHead info => simp [MemoryStore.serve,Tables.serve]
  | saveAccepted blockRoot block state head => simp [MemoryStore.serve,Tables.serve]
  | saveOtsKeyState validator watermark => simp [MemoryStore.serve,Tables.serve]
  | hasBlock root => simp [MemoryStore.serve,Tables.serve,h.blocks.contains]
  | hasState root => simp [MemoryStore.serve,Tables.serve,h.states.contains]
  | loadBlock root =>
    have hrow := h.blocks.decodeRow root (f := decode SignedBlockWithAttestation)
      fun v hv => decode_ok ((lawful_signedBlock.accepts _ v).mpr ⟨hv,rfl⟩)
    simp [MemoryStore.serve,Tables.serve,hrow,Except.map]
  | loadState root =>
    have hrow := h.states.decodeRow root (f := decode State)
      fun v hv => decode_ok ((State.accepts _ v).mpr ⟨hv,rfl⟩)
    simp [MemoryStore.serve,Tables.serve,hrow,Except.map]
  | loadOtsKeyState validator =>
    have hrow := h.otsKeyStates.decodeRow validator (f := fun bytes =>
      backend OtsWatermarkDecodeError.message (OtsWatermark.fromSszBytes bytes)) fun v _ => by
        simp [backend,OtsWatermark.fromSszBytes_toSszBytes,Except.mapError]
    simp [MemoryStore.serve,Tables.serve,hrow,Except.map]
  | loadHead =>
    simp only [MemoryStore.serve,Tables.serve,h.head,true_implies]
    cases memory.head with
    | none => simp [decodeRow,Except.map]
    | some info =>
      simp only [Option.map_some,decodeRow,decodeHead_encodeHead,HeadInfo.tryNew]
      by_cases hordered : info.Ordered
      · have hslots := Nat.not_lt.mpr hordered
        simp [backend,hslots,hordered,Except.map,Except.mapError]
      · have hslots := Nat.lt_of_not_le hordered
        simp [backend,hslots,hordered,Except.map,Except.mapError]

def Call.writesHead : Call → Option HeadInfo
  | .saveHead info => some info
  | .saveAccepted _ _ _ head => some head
  | _ => none

def lastHead (calls : List Call) : Option HeadInfo := (calls.filterMap Call.writesHead).getLast?

theorem head_serve {memory : MemoryStore} {served : List Call} (h : memory.head = lastHead served)
    (call : Call) : (memory.serve call).2.head = lastHead (served ++ [call]) := by
  cases call <;> simp_all [MemoryStore.serve,lastHead,Call.writesHead]

/-- A head row is read only if it is in order. -/
def ReadsOrdered (calls : List Call) : Prop :=
  ∀ before after, calls = before ++ .loadHead :: after →
    ∀ info, lastHead before = some info → info.Ordered

theorem answers_iff {memory : MemoryStore} {tables : Tables} (h : Mirrors memory tables)
    {served calls : List Call} (hhead : memory.head = lastHead served)
    (hcalls : ∀ call ∈ calls, call.WithinLimits) :
    answers MemoryStore.serve memory calls = answers Tables.serve tables calls ↔
      ∀ before after, calls = before ++ .loadHead :: after →
        ∀ info, lastHead (served ++ before) = some info → info.Ordered := by
  induction calls generalizing memory tables served with
  | nil => simp [answers]
  | cons call calls ih =>
    obtain ⟨hcall,hrest⟩ := List.forall_mem_cons.mp hcalls
    have hnext := ih (h.serve hcall) (head_serve hhead call) hrest
    simp only [answers,List.cons.injEq,h.answer_iff call,hnext,hhead]
    constructor
    · rintro ⟨hfirst,hlater⟩ before after heq info hinfo
      cases before with
      | nil =>
        obtain ⟨rfl,-⟩ := List.cons.inj heq
        exact hfirst rfl info (by simpa using hinfo)
      | cons first before =>
        obtain ⟨rfl,htail⟩ := List.cons.inj heq
        exact hlater before after htail info (by simpa using hinfo)
    · intro hall
      refine ⟨?_,?_⟩
      · rintro rfl info hinfo
        exact hall [] calls rfl info (by simpa using hinfo)
      · intro before after heq info hinfo
        exact hall (call :: before) after (by rw [heq,List.cons_append]) info (by simpa using hinfo)

/-- Both adapters, from the start, give the same answers to a sequence of calls exactly if
every head row it reads back is in order. -/
theorem backends_agree (calls : List Call) (hcalls : ∀ call ∈ calls, call.WithinLimits) :
    answers MemoryStore.serve MemoryStore.new calls = answers Tables.serve Tables.empty calls ↔
      ReadsOrdered calls := by
  have hhead : MemoryStore.new.head = lastHead [] := rfl
  simpa [ReadsOrdered] using answers_iff mirrors_new hhead hcalls

def acceptedCalls : List Call :=
  [.saveAccepted (.filled 1) (votingBlock (.ofNat 3)) votedState
      ⟨⟨.filled 1,.ofNat 3⟩,⟨.filled 2,.ofNat 1⟩⟩,
    .saveOtsKeyState default ⟨.filled 7,0,1024,4⟩,.loadHead,.loadBlock (.filled 1),
    .loadState (.filled 1),.hasBlock (.filled 2),.loadOtsKeyState default]

theorem backends_agree_accepted :
    answers Tables.serve Tables.empty acceptedCalls =
      [.ok .done,.ok .done,.ok (.head (some ⟨⟨.filled 1,.ofNat 3⟩,⟨.filled 2,.ofNat 1⟩⟩)),
        .ok (.block (some (votingBlock (.ofNat 3)))),.ok (.state (some votedState)),
        .ok (.found false),.ok (.watermark (some ⟨.filled 7,0,1024,4⟩))] := by
  have hcalls : ∀ call ∈ acceptedCalls, call.WithinLimits := by
    simp only [acceptedCalls,List.forall_mem_cons,Call.WithinLimits]
    exact ⟨⟨votingBlock_within _,by decide,by decide,by decide⟩,trivial,trivial,trivial,trivial,
      trivial,trivial,by simp⟩
  have hordered : ReadsOrdered acceptedCalls := by
    intro before after heq info hinfo
    have hall : ∀ call ∈ acceptedCalls, ∀ info, call.writesHead = some info → info.Ordered := by
      simp only [acceptedCalls,List.forall_mem_cons,Call.writesHead]
      simp [HeadInfo.Ordered,Slot.ofNat]
    obtain ⟨call,hcall,hwrites⟩ := List.mem_filterMap.mp (List.mem_of_getLast? hinfo)
    exact hall call (by rw [heq]; exact List.mem_append_left _ hcall) info hwrites
  rw [← (backends_agree acceptedCalls hcalls).mpr hordered]
  decide +kernel

def disorderedHead : HeadInfo := ⟨default,⟨default,Slot.ofNat 1⟩⟩

theorem backends_differ : ∃ calls : List Call, (∀ call ∈ calls, call.WithinLimits) ∧
    answers MemoryStore.serve MemoryStore.new calls ≠
      answers Tables.serve Tables.empty calls := by
  have hcalls : ∀ call ∈ [Call.saveHead disorderedHead,.loadHead], call.WithinLimits := by
    simp [Call.WithinLimits]
  have hhead : MemoryStore.new.head = lastHead [] := rfl
  refine ⟨_,hcalls,fun hsame => ?_⟩
  have hordered := (answers_iff mirrors_new hhead hcalls).mp hsame [.saveHead disorderedHead] []
    rfl disorderedHead rfl
  exact absurd hordered (by decide)

end Devnet.Storage
