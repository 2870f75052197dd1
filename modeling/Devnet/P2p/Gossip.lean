import Devnet.Lib.Run
import Devnet.Networking.Frames
import Devnet.P2p.Admission

/-!
Gossip as it comes in. The message id is computed first, from a decompression whose result is
kept in a small cache under the id; the router then takes the payload from there, or
decompresses again when the entry is gone.
-/

set_option autoImplicit false

namespace Devnet.P2p
open Machine Wire Devnet.Types Devnet.Ssz Devnet.Protocol Devnet.Networking

def messageDomainInvalidSnappy : List UInt8 := [0,0,0,0]
def messageDomainValidSnappy : List UInt8 := [1,0,0,0]
def messageIdLen : Nat := 20

def blockTopicV1 : String := "/leanconsensus/devnet0/block/ssz_snappy"
def voteTopicV1 : String := "/leanconsensus/devnet0/vote/ssz_snappy"

def maxSnappyDecompressed : Nat := 16*1024*1024
def maxDecodedPayloadBytes : Nat := 16*1024*1024
def decompressedCacheCap : Nat := 32

class Sha256 where
  digest : List UInt8 → ByteVector 32

abbrev MessageId := List UInt8

structure Message where
  topic : String
  data : List UInt8
  deriving DecidableEq

def topicLenLeBytes (topic : List UInt8) : List UInt8 := leBytes 8 (min topic.length (2^64-1))

/-- What is fed into the hasher, segment by segment. -/
def messageIdHashInput (domain topic payload : List UInt8) : List UInt8 :=
  domain ++ topicLenLeBytes topic ++ topic ++ payload

def computeGossipsubMessageId [Sha256] (domain topic payload : List UInt8) : MessageId :=
  (Sha256.digest (messageIdHashInput domain topic payload)).bytes.take messageIdLen

structure Channel (α : Type) where
  queue : List α
  capacity : Nat
  closed : Bool

/-- `None` when the receiver is gone or lagging. -/
def Channel.trySend {α : Type} (self : Channel α) (value : α) : Option (Channel α) :=
  if self.closed ∨ self.capacity ≤ self.queue.length then none
  else some { self with queue := self.queue ++ [value] }

/-- The statics of the message id function, the admission bound, and the two channels to the
consensus loop. The scratch buffer is one per worker thread. -/
structure Router where
  scratch : Nat → List UInt8
  cache : List (MessageId × List UInt8)
  admission : PeerAdmission
  blocks : Channel (AdmitGuard × SignedBlockWithAttestation)
  votes : Channel (AdmitGuard × SignedAttestation)

section Model
variable [Snappy]

/-- The length of the payload, which is then in the scratch buffer from the front on. -/
def isValidSnappy (data scratch : List UInt8) : Option Nat × List UInt8 :=
  match Snappy.decompressLen data with
  | none => (none,scratch)
  | some decompressedLen =>
    if maxSnappyDecompressed < decompressedLen then (none,scratch)
    else
      let buf := scratch ++ List.replicate (decompressedLen - scratch.length) 0
      let (written,out) := Snappy.decompress data (buf.take decompressedLen)
      (written.map fun _ => decompressedLen,out ++ buf.drop decompressedLen)

/-- The oldest entry makes room. -/
def cacheDecompressed (cache : List (MessageId × List UInt8)) (id : MessageId)
    (bytes : List UInt8) : List (MessageId × List UInt8) :=
  (if decompressedCacheCap ≤ cache.length then cache.tail else cache) ++ [(id,bytes)]

def gossipsubMessageId [Sha256] (thread : Nat) (msg : Message) (self : Router) :
    MessageId × Router :=
  let (validLen,scratch) := isValidSnappy msg.data (self.scratch thread)
  let self := { self with scratch := Function.update self.scratch thread scratch }
  let domain :=
    if validLen.isSome then messageDomainValidSnappy else messageDomainInvalidSnappy
  let id := computeGossipsubMessageId domain msg.topic.toUTF8.toList msg.data
  match validLen with
  | none => (id,self)
  | some len => (id,{ self with cache := cacheDecompressed self.cache id (scratch.take len) })

def takeDecompressedFor (id : MessageId) (cache : List (MessageId × List UInt8)) :
    Option (List UInt8) × List (MessageId × List UInt8) :=
  match cache.findIdx? fun entry => entry.1 = id with
  | none => (none,cache)
  | some pos => ((cache[pos]?).map Prod.snd,cache.eraseIdx pos)

def decodeGossipData (data : List UInt8) : Except NetworkingError (List UInt8) :=
  match Snappy.decompressLen data with
  | none => .error .snappy
  | some declared =>
    if maxDecodedPayloadBytes < declared then
      .error (.malformedFrame "snappy block decoded length exceeds MAX_DECODED_PAYLOAD_BYTES")
    else decompress data

def decodeSsz (α : Type) [Decode α] (bytes : List UInt8) : Outcome NetworkingError α :=
  (fromSszBytes bytes).mapError (.map .ssz)

def decodeGossip (α : Type) [Decode α] (data : List UInt8) : Outcome NetworkingError α := do
  let sszBytes ← (decodeGossipData data).mapError .refused
  decodeSsz α sszBytes

/-- Admission first, then the decoding, then the channel; the guard is dropped on every way
out but the last. -/
def forward {α : Type} [Decode α] (peer : PeerId) (data : List UInt8)
    (cachedDecompressed : Option (List UInt8)) (admission : PeerAdmission)
    (tx : Channel (AdmitGuard × α)) : PeerAdmission × Channel (AdmitGuard × α) :=
  match admission.tryAdmit peer with
  | (none,admission) => (admission,tx)
  | (some guard,admission) =>
    let decoded := match cachedDecompressed with
      | some bytes => decodeSsz α bytes
      | none => decodeGossip α data
    match decoded with
    | .error _ => (admission.release guard,tx)
    | .ok value =>
      match tx.trySend (guard,value) with
      | none => (admission.release guard,tx)
      | some tx => (admission,tx)

def routeGossipsubMessage (propagationSource : String) (id : MessageId) (msg : Message)
    (self : Router) : Router :=
  match PeerId.new propagationSource with
  | none => self
  | some peer =>
    let (cached,cache) := takeDecompressedFor id self.cache
    let self := { self with cache := cache }
    if msg.topic = blockTopicV1 then
      let (admission,blocks) := forward peer msg.data cached self.admission self.blocks
      { self with admission := admission, blocks := blocks }
    else if msg.topic = voteTopicV1 then
      let (admission,votes) := forward peer msg.data cached self.admission self.votes
      { self with admission := admission, votes := votes }
    else self

end Model

section Decoding
variable [Snappy]

/-- What the raw decoder documents: the declared length is that of the payload, a buffer of
that length is filled with it, and what cannot be decoded is refused there too. -/
structure RawDecoder : Prop where
  declares : ∀ data payload : List UInt8, Snappy.decompressVec data = some payload →
    Snappy.decompressLen data = some payload.length
  fills : ∀ data payload out : List UInt8, Snappy.decompressVec data = some payload →
    out.length = payload.length → Snappy.decompress data out = (some payload.length,payload)
  refuses : ∀ data out : List UInt8, Snappy.decompressVec data = none →
    Snappy.decompressLen data = some out.length → (Snappy.decompress data out).1 = none

theorem decompress_ok {data payload : List UInt8} :
    decompress data = .ok payload ↔ Snappy.decompressVec data = some payload := by
  cases h : Snappy.decompressVec data <;> simp [decompress,h]

theorem decodeGossipData_ok (raw : RawDecoder) {data payload : List UInt8} :
    decodeGossipData data = .ok payload ↔
      Snappy.decompressVec data = some payload ∧ payload.length ≤ maxSnappyDecompressed := by
  have hcap : maxDecodedPayloadBytes = maxSnappyDecompressed := rfl
  cases hlen : Snappy.decompressLen data with
  | none =>
    simp only [decodeGossipData,hlen,reduceCtorEq,false_iff]
    rintro ⟨hvec,-⟩
    simp [raw.declares data payload hvec] at hlen
  | some declared =>
    simp only [decodeGossipData,hlen,guard_ok,decompress_ok,hcap,Nat.not_lt]
    constructor
    · rintro ⟨hle,hvec⟩
      have hdeclared := raw.declares data payload hvec
      rw [hlen,Option.some.injEq] at hdeclared
      exact ⟨hvec,hdeclared ▸ hle⟩
    · rintro ⟨hvec,hle⟩
      have hdeclared := raw.declares data payload hvec
      rw [hlen,Option.some.injEq] at hdeclared
      exact ⟨hdeclared ▸ hle,hvec⟩

omit [Snappy] in
theorem length_scratch (scratch : List UInt8) (len : Nat) :
    ((scratch ++ List.replicate (len - scratch.length) 0).take len).length = len := by
  simp
  omega

theorem isValidSnappy_valid (raw : RawDecoder) {data payload : List UInt8}
    (h : decodeGossipData data = .ok payload) (scratch : List UInt8) :
    ∃ rest, isValidSnappy data scratch = (some payload.length,payload ++ rest) := by
  obtain ⟨hvec,hle⟩ := (decodeGossipData_ok raw).mp h
  simp only [isValidSnappy,raw.declares data payload hvec,if_neg (Nat.not_lt.mpr hle),
    raw.fills data payload _ hvec (length_scratch scratch _),Option.map_some]
  exact ⟨_,rfl⟩

theorem isValidSnappy_invalid (raw : RawDecoder) {data : List UInt8} {e : NetworkingError}
    (h : decodeGossipData data = .error e) (scratch : List UInt8) :
    (isValidSnappy data scratch).1 = none := by
  cases hlen : Snappy.decompressLen data with
  | none => simp only [isValidSnappy,hlen]
  | some declared =>
    by_cases hlarge : maxSnappyDecompressed < declared
    · simp only [isValidSnappy,hlen,if_pos hlarge]
    · have hvec : Snappy.decompressVec data = none := by
        cases hvec : Snappy.decompressVec data with
        | none => rfl
        | some payload =>
          obtain rfl : declared = payload.length :=
            Option.some.inj (hlen.symm.trans (raw.declares data payload hvec))
          cases h.symm.trans ((decodeGossipData_ok raw).mpr ⟨hvec,Nat.not_lt.mp hlarge⟩)
      have hroom := length_scratch scratch declared
      simp only [isValidSnappy,hlen,if_neg hlarge,raw.refuses data _ hvec (by rw [hlen,hroom]),
        Option.map_none]

end Decoding

section Ids
variable [Snappy] [Sha256]

theorem gossipsubMessageId_valid (raw : RawDecoder) {msg : Message} {payload : List UInt8}
    (h : decodeGossipData msg.data = .ok payload) (thread : Nat) (self : Router) :
    ∃ scratch, gossipsubMessageId thread msg self =
      (computeGossipsubMessageId messageDomainValidSnappy msg.topic.toUTF8.toList msg.data,
        { self with
          scratch := scratch
          cache := cacheDecompressed self.cache (computeGossipsubMessageId messageDomainValidSnappy
            msg.topic.toUTF8.toList msg.data) payload }) := by
  obtain ⟨rest,hvalid⟩ := isValidSnappy_valid raw h (self.scratch thread)
  simp only [gossipsubMessageId,hvalid,Option.isSome_some,if_true,List.take_left']
  exact ⟨_,rfl⟩

theorem gossipsubMessageId_invalid (raw : RawDecoder) {msg : Message} {e : NetworkingError}
    (h : decodeGossipData msg.data = .error e) (thread : Nat) (self : Router) :
    ∃ scratch, gossipsubMessageId thread msg self =
      (computeGossipsubMessageId messageDomainInvalidSnappy msg.topic.toUTF8.toList msg.data,
        { self with scratch := scratch }) := by
  have hinvalid := isValidSnappy_invalid raw h (self.scratch thread)
  cases hcall : isValidSnappy msg.data (self.scratch thread) with
  | mk validLen scratch =>
    rw [hcall] at hinvalid
    cases hinvalid
    simp only [gossipsubMessageId,hcall]
    exact ⟨_,rfl⟩

/-- No two of these inputs have the same truncated digest. -/
def CollisionFree (inputs : List (List UInt8)) : Prop :=
  ∀ x ∈ inputs, ∀ y ∈ inputs,
    (Sha256.digest x).bytes.take messageIdLen = (Sha256.digest y).bytes.take messageIdLen → x = y

omit [Snappy] in
instance (inputs : List (List UInt8)) : Decidable (CollisionFree inputs) :=
  inferInstanceAs (Decidable (∀ x ∈ inputs, ∀ y ∈ inputs,
    (Sha256.digest x).bytes.take messageIdLen = (Sha256.digest y).bytes.take messageIdLen → x = y))

omit [Snappy] [Sha256] in
theorem hashInput_injective {domain topic payload payload' : List UInt8}
    (h : messageIdHashInput domain topic payload = messageIdHashInput domain topic payload') :
    payload = payload' := List.append_cancel_left h

/-- The id is taken of the data as it came, so it stands for the payload only where the two
are the same. -/
theorem message_ids_content_based (raw : RawDecoder) {topic : String}
    {data data' payload payload' : List UInt8} (hdata : Snappy.decompressVec data = some payload)
    (hlen : payload.length ≤ maxSnappyDecompressed)
    (hdata' : Snappy.decompressVec data' = some payload')
    (hlen' : payload'.length ≤ maxSnappyDecompressed)
    (hfree : CollisionFree ([data,data',payload,payload'].map
      (messageIdHashInput messageDomainValidSnappy topic.toUTF8.toList)))
    (thread thread' : Nat) (s s' : Router) :
    ((payload = payload' →
        (gossipsubMessageId thread ⟨topic,data⟩ s).1 =
            (gossipsubMessageId thread' ⟨topic,data'⟩ s').1 ∧
          (gossipsubMessageId thread ⟨topic,data⟩ s).1 =
            computeGossipsubMessageId messageDomainValidSnappy topic.toUTF8.toList payload) ∧
      (payload ≠ payload' →
        (gossipsubMessageId thread ⟨topic,data⟩ s).1 ≠
          (gossipsubMessageId thread' ⟨topic,data'⟩ s').1)) ↔
    (payload = payload' → data = payload ∧ data' = payload') := by
  have hids : ∀ x ∈ [data,data',payload,payload'], ∀ y ∈ [data,data',payload,payload'],
      (computeGossipsubMessageId messageDomainValidSnappy topic.toUTF8.toList x =
        computeGossipsubMessageId messageDomainValidSnappy topic.toUTF8.toList y ↔ x = y) := by
    intro x hx y hy
    refine ⟨fun h => ?_,fun h => h ▸ rfl⟩
    exact hashInput_injective
      (hfree _ (List.mem_map_of_mem hx) _ (List.mem_map_of_mem hy) h)
  obtain ⟨_,hcall⟩ := gossipsubMessageId_valid raw
    ((decodeGossipData_ok raw).mpr ⟨hdata,hlen⟩ : decodeGossipData (⟨topic,data⟩ : Message).data = _)
    thread s
  obtain ⟨_,hcall'⟩ := gossipsubMessageId_valid raw
    ((decodeGossipData_ok raw).mpr ⟨hdata',hlen'⟩ :
      decodeGossipData (⟨topic,data'⟩ : Message).data = _) thread' s'
  rw [hcall,hcall']
  simp only [ne_eq,hids data (by simp) data' (by simp),hids data (by simp) payload (by simp)]
  constructor
  · rintro ⟨hsame,-⟩ hpayload
    obtain ⟨hequal,hown⟩ := hsame hpayload
    exact ⟨hown,hequal ▸ hpayload ▸ hown⟩
  · intro hown
    refine ⟨fun hpayload => ?_,fun hpayload hequal => hpayload ?_⟩
    · obtain ⟨hleft,hright⟩ := hown hpayload
      exact ⟨hleft.trans (hpayload.trans hright.symm),hleft⟩
    · subst hequal
      rw [hdata] at hdata'
      exact Option.some.inj hdata'

theorem gossipsubMessageId_rest (thread : Nat) (msg : Message) (self : Router) :
    (gossipsubMessageId thread msg self).2.admission = self.admission ∧
      (gossipsubMessageId thread msg self).2.blocks = self.blocks ∧
      (gossipsubMessageId thread msg self).2.votes = self.votes := by
  cases hcall : isValidSnappy msg.data (self.scratch thread) with
  | mk validLen scratch => cases validLen <;> simp [gossipsubMessageId,hcall]

end Ids

section Coherence
variable [Snappy] [Sha256]

/-- Calls of the message id function, for messages that come in and for those sent out; the
routing of a message; and whatever the other parties do to the admission bound and the
channels in between. -/
inductive Event where
  | messageId (thread : Nat) (msg : Message)
  | route (propagationSource : String) (id : MessageId) (msg : Message)
  | elsewhere (admission : PeerAdmission)
      (blocks : Channel (AdmitGuard × SignedBlockWithAttestation))
      (votes : Channel (AdmitGuard × SignedAttestation))

def Event.message? : Event → Option Message
  | .messageId _ msg => some msg
  | .route _ _ msg => some msg
  | .elsewhere _ _ _ => none

/-- A message is routed with the id that the id function has for it, in whatever state. -/
inductive Router.Step : Router → Event → Unit → Router → Prop where
  | messageId (s : Router) (thread : Nat) (msg : Message) :
      Step s (.messageId thread msg) () (gossipsubMessageId thread msg s).2
  | route (s : Router) (source : String) (thread : Nat) (msg : Message) (m : Router) :
      Step s (.route source (gossipsubMessageId thread msg m).1 msg) ()
        (routeGossipsubMessage source (gossipsubMessageId thread msg m).1 msg s)
  | elsewhere (s : Router) (admission : PeerAdmission)
      (blocks : Channel (AdmitGuard × SignedBlockWithAttestation))
      (votes : Channel (AdmitGuard × SignedAttestation)) :
      Step s (.elsewhere admission blocks votes) ()
        { s with admission := admission, blocks := blocks, votes := votes }

def ownId (msg : Message) : MessageId :=
  computeGossipsubMessageId
    (if (decodeGossipData msg.data).isOk then messageDomainValidSnappy
      else messageDomainInvalidSnappy) msg.topic.toUTF8.toList msg.data

theorem gossipsubMessageId_fst (raw : RawDecoder) (thread : Nat) (msg : Message) (self : Router) :
    (gossipsubMessageId thread msg self).1 = ownId msg := by
  cases h : decodeGossipData msg.data with
  | ok payload =>
    obtain ⟨_,hcall⟩ := gossipsubMessageId_valid raw h thread self
    simp [hcall,ownId,h,Except.isOk,Except.toBool]
  | error e =>
    obtain ⟨_,hcall⟩ := gossipsubMessageId_invalid raw h thread self
    simp [hcall,ownId,h,Except.isOk,Except.toBool]

/-- Behind every entry is a message that has come by, with that id and that payload. -/
def Coherent (seen : List Message) (cache : List (MessageId × List UInt8)) : Prop :=
  ∀ entry ∈ cache, ∃ msg ∈ seen, entry.1 = ownId msg ∧ decodeGossipData msg.data = .ok entry.2

theorem Coherent.subset {seen seen' : List Message} {cache cache' : List (MessageId × List UInt8)}
    (h : Coherent seen cache) (hseen : seen ⊆ seen') (hcache : cache' ⊆ cache) :
    Coherent seen' cache' := by
  intro entry hentry
  obtain ⟨msg,hmsg,hid⟩ := h entry (hcache hentry)
  exact ⟨msg,hseen hmsg,hid⟩

omit [Snappy] [Sha256] in
theorem takeDecompressedFor_subset (id : MessageId) (cache : List (MessageId × List UInt8)) :
    (takeDecompressedFor id cache).2 ⊆ cache := by
  unfold takeDecompressedFor
  split
  · exact List.Subset.refl _
  · exact (List.eraseIdx_sublist _ _).subset

omit [Snappy] [Sha256] in
theorem mem_of_takeDecompressedFor {id : MessageId} {cache : List (MessageId × List UInt8)}
    {bytes : List UInt8} (h : (takeDecompressedFor id cache).1 = some bytes) :
    (id,bytes) ∈ cache := by
  unfold takeDecompressedFor at h
  split at h
  · simp at h
  · next pos hpos =>
    obtain ⟨hlt,hid,-⟩ := List.findIdx?_eq_some_iff_getElem.mp hpos
    have hbytes : cache[pos].2 = bytes := by simpa [hlt] using h
    have hentry : cache[pos] = (id,bytes) := Prod.ext (by simpa using hid) hbytes
    exact hentry ▸ List.getElem_mem hlt

theorem Coherent.messageId (raw : RawDecoder) {seen : List Message} {s : Router}
    (h : Coherent seen s.cache) (thread : Nat) (msg : Message) :
    Coherent (seen ++ [msg]) (gossipsubMessageId thread msg s).2.cache := by
  cases hdata : decodeGossipData msg.data with
  | error e =>
    obtain ⟨_,hcall⟩ := gossipsubMessageId_invalid raw hdata thread s
    rw [hcall]
    exact h.subset (List.subset_append_left _ _) (List.Subset.refl _)
  | ok payload =>
    have hid := gossipsubMessageId_fst raw thread msg s
    obtain ⟨_,hcall⟩ := gossipsubMessageId_valid raw hdata thread s
    rw [hcall] at hid ⊢
    intro entry hentry
    rcases List.mem_append.mp hentry with hold | hnew
    · have hmem : entry ∈ s.cache := by
        split at hold
        · exact List.mem_of_mem_tail hold
        · exact hold
      exact h.subset (List.subset_append_left _ _) (List.Subset.refl _) entry hmem
    · rw [List.mem_singleton.mp hnew]
      exact ⟨msg,by simp,hid,hdata⟩

omit [Sha256] in
theorem route_block {source : String} {peer : PeerId} (hpeer : PeerId.new source = some peer)
    {msg : Message} (htopic : msg.topic = blockTopicV1) (id : MessageId) (s : Router) :
    routeGossipsubMessage source id msg s =
      { s with
        cache := (takeDecompressedFor id s.cache).2
        admission := (forward peer msg.data (takeDecompressedFor id s.cache).1 s.admission
          s.blocks).1
        blocks := (forward peer msg.data (takeDecompressedFor id s.cache).1 s.admission
          s.blocks).2 } := by
  simp only [routeGossipsubMessage,hpeer,htopic,if_true]

omit [Sha256] in
theorem route_vote {source : String} {peer : PeerId} (hpeer : PeerId.new source = some peer)
    {msg : Message} (htopic : msg.topic = voteTopicV1) (id : MessageId) (s : Router) :
    routeGossipsubMessage source id msg s =
      { s with
        cache := (takeDecompressedFor id s.cache).2
        admission := (forward peer msg.data (takeDecompressedFor id s.cache).1 s.admission
          s.votes).1
        votes := (forward peer msg.data (takeDecompressedFor id s.cache).1 s.admission
          s.votes).2 } := by
  have hother : voteTopicV1 ≠ blockTopicV1 := by decide
  simp only [routeGossipsubMessage,hpeer,htopic,if_neg hother,if_true]

omit [Sha256] in
theorem route_unknown {source : String} {peer : PeerId} (hpeer : PeerId.new source = some peer)
    {msg : Message} (hblock : msg.topic ≠ blockTopicV1) (hvote : msg.topic ≠ voteTopicV1)
    (id : MessageId) (s : Router) :
    routeGossipsubMessage source id msg s =
      { s with cache := (takeDecompressedFor id s.cache).2 } := by
  simp only [routeGossipsubMessage,hpeer,if_neg hblock,if_neg hvote]

omit [Sha256] in
theorem routeGossipsubMessage_cache (source : String) (id : MessageId) (msg : Message)
    (s : Router) : (routeGossipsubMessage source id msg s).cache ⊆ s.cache := by
  have htaken := takeDecompressedFor_subset id s.cache
  cases hpeer : PeerId.new source with
  | none => simp only [routeGossipsubMessage,hpeer,List.Subset.refl]
  | some peer =>
    by_cases hblock : msg.topic = blockTopicV1
    · rwa [route_block hpeer hblock]
    · by_cases hvote : msg.topic = voteTopicV1
      · rwa [route_vote hpeer hvote]
      · rwa [route_unknown hpeer hblock hvote]

theorem Coherent.step (raw : RawDecoder) {seen : List Event} {s t : Router} {e : Event} {u : Unit}
    (h : Coherent (seen.filterMap Event.message?) s.cache) (hstep : Router.Step s e u t) :
    Coherent ((seen ++ [e]).filterMap Event.message?) t.cache := by
  have hseen : seen.filterMap Event.message? ⊆ (seen ++ [e]).filterMap Event.message? := by
    rw [List.filterMap_append]
    exact List.subset_append_left _ _
  cases hstep with
  | messageId thread msg =>
    rw [List.filterMap_append]
    exact h.messageId raw thread msg
  | route source thread msg m => exact h.subset hseen (routeGossipsubMessage_cache _ _ _ _)
  | elsewhere => exact h.subset hseen (List.Subset.refl _)

omit [Sha256] in
/-- What the cache holds for a message is what its data decodes to, so that it makes no
difference to the forwarding. -/
theorem forward_cached {α : Type} [Decode α] {peer : PeerId} {data : List UInt8}
    {cached : Option (List UInt8)} (h : ∀ bytes, cached = some bytes →
      decodeGossipData data = .ok bytes) (admission : PeerAdmission)
    (tx : Channel (AdmitGuard × α)) :
    forward peer data cached admission tx = forward peer data none admission tx := by
  cases cached with
  | none => rfl
  | some bytes =>
    have hdecode : decodeGossip α data = decodeSsz α bytes := by
      rw [decodeGossip,h bytes rfl]
      rfl
    simp only [forward,hdecode]

def Channel.HasRoom {α : Type} (self : Channel α) : Prop :=
  self.closed = false ∧ self.queue.length < self.capacity

omit [Sha256] in
instance {α : Type} (self : Channel α) : Decidable self.HasRoom :=
  inferInstanceAs (Decidable (_ ∧ _))

omit [Sha256] in
/-- Neither decoder panics, so the errors that `forward` drops are all there are. -/
theorem decodeGossip_safe (data : List UInt8) :
    Safe (decodeGossip SignedBlockWithAttestation data) ∧
      Safe (decodeGossip SignedAttestation data) := by
  have hdata : Safe ((decodeGossipData data).mapError Failure.refused) := by
    cases decodeGossipData data with
    | ok payload => exact safe_ok payload
    | error e => exact safe_refuse e
  exact ⟨hdata.bind fun _ _ => (lawful_signedBlock.safe _).wrapped _,
    hdata.bind fun _ _ => (LawfulFixed.safe _).wrapped _⟩

omit [Sha256] in
theorem forward_granted {α : Type} [Decode α] {peer : PeerId} {data : List UInt8}
    {admission : PeerAdmission} {tx : Channel (AdmitGuard × α)}
    (hadmitted : admission.held peer < admission.cap) (hroom : tx.HasRoom) :
    (forward peer data none admission tx).2.queue =
      tx.queue ++ (decodeGossip α data).toOption.toList.map (Prod.mk ⟨peer⟩) := by
  have hguard := PeerAdmission.tryAdmit_of_lt hadmitted
  cases hslot : admission.tryAdmit peer with
  | mk guard rest =>
    rw [hslot] at hguard
    cases hguard
    have hopen : ¬(tx.closed ∨ tx.capacity ≤ tx.queue.length) := by
      simp [hroom.1,hroom.2]
    cases hdecode : decodeGossip α data with
    | error e => simp [forward,hslot,hdecode,Except.toOption]
    | ok value => simp [forward,hslot,hdecode,Except.toOption,Channel.trySend,hopen]

theorem Coherent.taken (raw : RawDecoder) {seen : List Message} {s : Router}
    (h : Coherent seen s.cache) {msg : Message} {thread : Nat} {m : Router}
    (hfree : Set.InjOn (fun msg => (gossipsubMessageId thread msg m).1)
      {other | other ∈ seen ∨ other = msg}) {bytes : List UInt8}
    (htaken : (takeDecompressedFor (gossipsubMessageId thread msg m).1 s.cache).1 = some bytes) :
    decodeGossipData msg.data = .ok bytes := by
  obtain ⟨other,hother,hid,hdata⟩ := h _ (mem_of_takeDecompressedFor htaken)
  rw [← gossipsubMessageId_fst raw thread other m] at hid
  rwa [← hfree (.inl hother) (.inr rfl) hid.symm]

/-- Whatever has come by and been evicted before, a message that is admitted is forwarded as
its own data decodes, or not at all. -/
theorem decompression_cache_invisible (raw : RawDecoder) {start s : Router}
    (hstart : start.cache = []) {events : List Event} {os : List Unit}
    (hrun : Run Router.Step start events os s) {msg : Message} {thread : Nat} {m : Router}
    (hfree : Set.InjOn (fun msg => (gossipsubMessageId thread msg m).1)
      {other | other ∈ events.filterMap Event.message? ∨ other = msg})
    {source : String} {peer : PeerId} (hpeer : PeerId.new source = some peer)
    (hadmitted : s.admission.held peer < s.admission.cap) (hblocks : s.blocks.HasRoom)
    (hvotes : s.votes.HasRoom) {t : Router}
    (ht : t = routeGossipsubMessage source (gossipsubMessageId thread msg m).1 msg s) :
    t.blocks.queue = s.blocks.queue ++
        (if msg.topic = blockTopicV1 then
          (decodeGossip SignedBlockWithAttestation msg.data).toOption.toList.map (Prod.mk ⟨peer⟩)
        else []) ∧
      t.votes.queue = s.votes.queue ++
        (if msg.topic = voteTopicV1 then
          (decodeGossip SignedAttestation msg.data).toOption.toList.map (Prod.mk ⟨peer⟩)
        else []) := by
  have hcoherent : Coherent (events.filterMap Event.message?) s.cache :=
    hrun.invariant (fun is _ n => Coherent (is.filterMap Event.message?) n.cache)
      (by simp [Coherent,hstart]) fun _ h hstep => h.step raw hstep
  have hcached := fun bytes => @Coherent.taken _ _ raw _ _ hcoherent _ _ _ hfree bytes
  subst ht
  by_cases hblock : msg.topic = blockTopicV1
  · have hother : msg.topic ≠ voteTopicV1 := by
      rw [hblock]
      decide
    rw [route_block hpeer hblock,forward_cached hcached,if_pos hblock,if_neg hother,
      List.append_nil]
    exact ⟨forward_granted hadmitted hblocks,rfl⟩
  · by_cases hvote : msg.topic = voteTopicV1
    · rw [route_vote hpeer hvote,forward_cached hcached,if_neg hblock,if_pos hvote,
        List.append_nil]
      exact ⟨rfl,forward_granted hadmitted hvotes⟩
    · rw [route_unknown hpeer hblock hvote,if_neg hblock,if_neg hvote,List.append_nil,
        List.append_nil]
      exact ⟨rfl,rfl⟩

end Coherence

section Stored

theorem length_lastBytes (x : List UInt8) :
    ((x.reverse ++ List.replicate 32 0).take 32).length = 32 := by
  simp

@[reducible] def lastBytes : Sha256 := ⟨fun x => ⟨_,length_lastBytes x⟩⟩

attribute [local instance] stored lastBytes

theorem stored_rawDecoder : RawDecoder := by
  refine ⟨fun data payload h => ?_,fun _ _ _ => RawBlocks.decompress_of_vec,
    fun _ _ => RawBlocks.decompress_refused⟩
  obtain ⟨src,hheader,-⟩ := RawBlocks.decompressVec_eq_some.mp h
  exact RawBlocks.decompressLen_of_header hheader

def quiet : Router := ⟨fun _ => [],[],.new 1 one_pos,⟨[],1,false⟩,⟨[],1,false⟩⟩

theorem message_ids_of_payloads :
    CollisionFree ([[1,0,7],[1,0,8],[7],[8]].map
      (messageIdHashInput messageDomainValidSnappy voteTopicV1.toUTF8.toList)) ∧
    (gossipsubMessageId 0 ⟨voteTopicV1,[1,0,7]⟩ quiet).1 ≠
      (gossipsubMessageId 0 ⟨voteTopicV1,[1,0,8]⟩ quiet).1 := by
  have hfree : CollisionFree ([[1,0,7],[1,0,8],[7],[8]].map
      (messageIdHashInput messageDomainValidSnappy voteTopicV1.toUTF8.toList)) := by decide +kernel
  have hcontent := message_ids_content_based stored_rawDecoder
    (show RawBlocks.decompressVec [1,0,7] = some [7] by decide +kernel) (by decide)
    (show RawBlocks.decompressVec [1,0,8] = some [8] by decide +kernel) (by decide) hfree 0 0
    quiet quiet
  exact ⟨hfree,(hcontent.mpr (by decide)).2 (by decide)⟩

/-- Three bytes, once with the length of the literal in its tag and once with a byte for it. -/
theorem recompressed_ids_differ :
    RawDecoder ∧
    CollisionFree ([[3,8,7,7,7],[3,0xf0,2,7,7,7],[7,7,7],[7,7,7]].map
      (messageIdHashInput messageDomainValidSnappy voteTopicV1.toUTF8.toList)) ∧
    Snappy.decompressVec [3,8,7,7,7] = some [7,7,7] ∧
    Snappy.decompressVec [3,0xf0,2,7,7,7] = some [7,7,7] ∧
    (gossipsubMessageId 0 ⟨voteTopicV1,[3,8,7,7,7]⟩ quiet).1 ≠
      (gossipsubMessageId 0 ⟨voteTopicV1,[3,0xf0,2,7,7,7]⟩ quiet).1 ∧
    (gossipsubMessageId 0 ⟨voteTopicV1,[3,8,7,7,7]⟩ quiet).1 ≠
      computeGossipsubMessageId messageDomainValidSnappy voteTopicV1.toUTF8.toList [7,7,7] :=
  ⟨stored_rawDecoder,by decide +kernel,by decide +kernel,by decide +kernel,by decide +kernel,
    by decide +kernel⟩

def voteBlock : List UInt8 := [0xb4,0x19,0xf4,0xb3,0x0c] ++ encode (default : SignedAttestation)

theorem votePeer_nonempty : "16Uiu2" ≠ "" := by decide

def votePeer : PeerId := ⟨"16Uiu2",votePeer_nonempty⟩

def voteMessage : Message := ⟨voteTopicV1,voteBlock⟩

theorem decodeGossipData_literal {data payload : List UInt8} (len : Nat) {low high : UInt8}
    (h : RawBlocks.header data = some (len,0xf4 :: low :: high :: payload))
    (hlen : payload.length = len) (hliteral : ofLeBytes [low,high]+1 = len)
    (hlong : 2 ≤ len ∧ len ≤ maxSnappyDecompressed) : decodeGossipData data = .ok payload := by
  subst hlen
  exact (decodeGossipData_ok stored_rawDecoder).mpr
    ⟨RawBlocks.decompressVec_literal h hliteral hlong.1,hlong.2⟩

theorem decodeGossipData_voteMessage :
    decodeGossipData voteMessage.data = .ok (encode (default : SignedAttestation)) :=
  decodeGossipData_literal 3252 rfl (LawfulFixed.length _) rfl (by decide)

def longMessage : Message := ⟨voteTopicV1,[0xe4,0x19,0xf4,0xe3,0x0c] ++ List.replicate 3300 1⟩

def shortMessage (k : Nat) : Message := ⟨voteTopicV1,[1,0,UInt8.ofNat k]⟩

def arrivals (n : Nat) : List Message :=
  longMessage :: voteMessage :: (List.range n).map shortMessage

theorem decodeGossipData_shortMessage (k : Nat) :
    decodeGossipData (shortMessage k).data = .ok [UInt8.ofNat k] := by
  refine (decodeGossipData_ok stored_rawDecoder).mpr ⟨?_,by simp [maxSnappyDecompressed]⟩
  exact RawBlocks.decompressVec_eq_some.mpr ⟨[0,UInt8.ofNat k],rfl,rfl⟩

theorem decodeGossipData_longMessage :
    decodeGossipData longMessage.data = .ok (List.replicate 3300 1) :=
  decodeGossipData_literal 3300 rfl List.length_replicate rfl (by decide)

theorem decodes_of_mem_arrivals {n : Nat} {msg : Message} (h : msg ∈ arrivals n) :
    ∃ payload, decodeGossipData msg.data = .ok payload := by
  rcases List.mem_cons.mp h with rfl | h
  · exact ⟨_,decodeGossipData_longMessage⟩
  rcases List.mem_cons.mp h with rfl | h
  · exact ⟨_,decodeGossipData_voteMessage⟩
  obtain ⟨k,-,rfl⟩ := List.mem_map.mp h
  exact ⟨_,decodeGossipData_shortMessage k⟩

def validId (msg : Message) : MessageId :=
  computeGossipsubMessageId messageDomainValidSnappy msg.topic.toUTF8.toList msg.data

theorem keys_cacheDecompressed {cache : List (MessageId × List UInt8)} {keys : List MessageId}
    (h : cache.map Prod.fst = keys.drop (keys.length-decompressedCacheCap)) (id : MessageId)
    (bytes : List UInt8) : (cacheDecompressed cache id bytes).map Prod.fst =
      (keys ++ [id]).drop ((keys ++ [id]).length-decompressedCacheCap) := by
  have hlen : cache.length = keys.length-(keys.length-decompressedCacheCap) := by
    simpa using congrArg List.length h
  have hcap : 0 < decompressedCacheCap := by decide
  rw [cacheDecompressed,List.map_append,List.length_append,List.length_singleton,
    List.drop_append_of_le_length (by omega)]
  by_cases hfull : decompressedCacheCap ≤ keys.length
  · rw [if_pos (by omega),List.map_tail,h,List.tail_drop,Nat.sub_add_comm hfull]
    rfl
  · have hzero : keys.length-decompressedCacheCap = 0 := by omega
    have hnext : keys.length+1-decompressedCacheCap = 0 := by omega
    rw [if_neg (by omega),h,hzero,hnext]
    rfl

theorem arrivals_run {msgs : List Message}
    (hdecodes : ∀ msg ∈ msgs, ∃ payload, decodeGossipData msg.data = .ok payload) :
    ∃ s, Run Router.Step quiet (msgs.map (.messageId 0)) (msgs.map fun _ => ()) s ∧
      s.cache.map Prod.fst =
        (msgs.map validId).drop ((msgs.map validId).length-decompressedCacheCap) ∧
      s.admission = quiet.admission ∧ s.blocks = quiet.blocks ∧ s.votes = quiet.votes := by
  induction msgs using List.reverseRecOn with
  | nil => exact ⟨quiet,.nil quiet,rfl,rfl,rfl,rfl⟩
  | append_singleton msgs msg ih =>
    obtain ⟨s,hrun,hcache,hrest⟩ := ih fun other hother =>
      hdecodes other (List.mem_append_left _ hother)
    obtain ⟨payload,hpayload⟩ := hdecodes msg (by simp)
    obtain ⟨scratch,hcall⟩ := gossipsubMessageId_valid stored_rawDecoder hpayload 0 s
    have hstep := Router.Step.messageId s 0 msg
    rw [hcall] at hstep
    rw [List.map_append,List.map_append,List.map_append]
    exact ⟨_,hrun.snoc hstep,keys_cacheDecompressed hcache _ _,hrest⟩

/-- The vote is routed with `n` messages behind it, and is in the cache then or is not. -/
def VoteRouted (n : Nat) (cached : Prop) : Prop :=
  ∃ s, Run Router.Step quiet ((arrivals n).map (.messageId 0)) ((arrivals n).map fun _ => ()) s ∧
    (validId voteMessage ∈ s.cache.map Prod.fst ↔ cached) ∧
    (routeGossipsubMessage "16Uiu2" (gossipsubMessageId 0 voteMessage quiet).1
      voteMessage s).votes.queue = [(⟨votePeer⟩,default)]

theorem messageId_arrivals {n : Nat} {msg : Message} (h : msg ∈ arrivals n) :
    (gossipsubMessageId 0 msg quiet).1 = validId msg := by
  obtain ⟨payload,hpayload⟩ := decodes_of_mem_arrivals h
  obtain ⟨scratch,hcall⟩ := gossipsubMessageId_valid stored_rawDecoder hpayload 0 quiet
  rw [hcall]
  rfl

theorem arrivals_injOn {n : Nat} (h : ((arrivals n).map validId).Nodup) :
    Set.InjOn (fun msg => (gossipsubMessageId 0 msg quiet).1) {msg | msg ∈ arrivals n} := by
  intro a ha b hb hab
  simp only [messageId_arrivals ha,messageId_arrivals hb] at hab
  exact List.inj_on_of_nodup_map h ha hb hab

theorem seen_arrivals {n : Nat} {msg : Message}
    (h : msg ∈ ((arrivals n).map (Event.messageId 0)).filterMap Event.message? ∨ msg = voteMessage) :
    msg ∈ arrivals n := by
  rcases h with h | rfl
  · simpa [List.filterMap_map,Function.comp_def,Event.message?] using h
  · exact .tail _ (.head _)

/-- With 31 messages behind it the vote is still in the cache when it is routed, with 32 it is
decompressed once more. -/
theorem vote_forwarded : VoteRouted 31 True ∧ VoteRouted 32 False := by
  suffices hall : ∀ n ∈ [31,32], VoteRouted n (n = 31) by
    have hlast := hall 32 (by simp)
    have hfirst := hall 31 (by simp)
    simpa using And.intro hfirst hlast
  have hids : ∀ n ∈ [31,32], ((arrivals n).map validId).Nodup ∧
      (validId voteMessage ∈
        ((arrivals n).map validId).drop (((arrivals n).map validId).length-decompressedCacheCap) ↔
          n = 31) := by decide +kernel
  have hvote : decodeGossip SignedAttestation voteMessage.data = .ok default :=
    except_bind_ok.mpr ⟨_,mapError_ok.mpr decodeGossipData_voteMessage,
      mapError_ok.mpr ((LawfulFixed.accepts _ _).mpr rfl)⟩
  have hadmitted : quiet.admission.held votePeer < quiet.admission.cap := by decide
  have hpeer : PeerId.new "16Uiu2" = some votePeer := rfl
  have hblockRoom : quiet.blocks.HasRoom := by decide
  have hvoteRoom : quiet.votes.HasRoom := by decide
  intro n hn
  obtain ⟨hdistinct,hcached⟩ := hids n hn
  obtain ⟨s,hrun,hcache,hadmission,hblocks,hvotes⟩ := arrivals_run fun msg hmem =>
    decodes_of_mem_arrivals (n := n) hmem
  refine ⟨s,hrun,by rw [hcache]; exact hcached,?_⟩
  have hfree := (arrivals_injOn hdistinct).mono fun msg => seen_arrivals
  have hforwarded := (decompression_cache_invisible stored_rawDecoder rfl hrun hfree
    hpeer (by rwa [hadmission]) (by rwa [hblocks]) (by rwa [hvotes]) rfl).2
  rw [if_pos (show voteMessage.topic = voteTopicV1 from rfl),hvote,hvotes] at hforwarded
  exact hforwarded

end Stored

end Devnet.P2p
