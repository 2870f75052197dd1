import Devnet.Engine.Importer
import Devnet.Types.OtsRecords

/-!
One-time signing keys. The hash-based scheme itself is a parameter: a key covers an
interval of epochs, holds a window of it ready and can move that window to the right. It
would sign an epoch twice; `lastSigned` is what the wrapper adds against that.
-/

set_option autoImplicit false

namespace Devnet.Crypto
open Machine Devnet.Types Devnet.Engine

structure Interval where
  start : UInt64
  end_ : UInt64
  deriving DecidableEq

def Interval.contains (self : Interval) (epoch : UInt64) : Bool :=
  self.start ≤ epoch && epoch < self.end_

/-- What is used of the signature scheme, with keys and signatures given by their bytes.
Key generation depends on the seed and the requested interval alone. -/
structure SignatureScheme where
  SecretKey : Type
  lifetime : UInt64
  payloadLen : Nat
  keyGen : Bytes32 → UInt64 → UInt64 → List UInt8 × SecretKey
  activationInterval : SecretKey → Interval
  preparedInterval : SecretKey → Interval
  advancePreparation : SecretKey → SecretKey
  sign : SecretKey → UInt32 → Bytes32 → Option (List UInt8)
  keeps : ∀ secret, activationInterval (advancePreparation secret) = activationInterval secret
  moves : ∀ secret, preparedInterval (advancePreparation secret) = preparedInterval secret ∨
    (preparedInterval secret).start.toNat <
      (preparedInterval (advancePreparation secret)).start.toNat
  inside : ∀ secret, (preparedInterval secret).start.toNat ≤ (activationInterval secret).end_.toNat

abbrev publicKeyLen : Nat := 52
abbrev signatureLen : Nat := 3116

section Keys
variable (S : SignatureScheme)

structure SigningKey where
  secret : S.SecretKey
  lastSigned : Option UInt32
  seed : Bytes32

variable {S}

def SigningKey.nextIndex (self : SigningKey S) : Nat :=
  match self.lastSigned with
  | some epoch => epoch.toNat+1
  | none => 0

def prepareRound (epoch : UInt32) (secret : S.SecretKey) :
    Except Unit (Flow S.SecretKey (S.SecretKey × Option CryptoError)) :=
  -- The window moves once, unless it has the epoch already or does not move any more.
  let before := S.preparedInterval secret
  if before.contains epoch.toUInt64 = true then .ok (.stop (secret,none))
  else
    let next := S.advancePreparation secret
    if S.preparedInterval next = before then
      .ok (.stop (next,some (.epochNotPrepared epoch before.start before.end_)))
    else .ok (.next next)

def windowMoves (secret : S.SecretKey) : Nat :=
  (S.activationInterval secret).end_.toNat - (S.preparedInterval secret).start.toNat

theorem prepareRound_cases (epoch : UInt32) (secret : S.SecretKey) :
    ((S.preparedInterval secret).contains epoch.toUInt64 = true ∧
      prepareRound epoch secret = .ok (.stop (secret,none))) ∨
    ((S.preparedInterval secret).contains epoch.toUInt64 = false ∧
      S.preparedInterval (S.advancePreparation secret) = S.preparedInterval secret ∧
      ∃ e, prepareRound epoch secret = .ok (.stop (S.advancePreparation secret,some e))) ∨
    ((S.preparedInterval secret).contains epoch.toUInt64 = false ∧
      S.preparedInterval (S.advancePreparation secret) ≠ S.preparedInterval secret ∧
      prepareRound epoch secret = .ok (.next (S.advancePreparation secret))) := by
  by_cases hcontains : (S.preparedInterval secret).contains epoch.toUInt64 = true
  · exact .inl ⟨hcontains,if_pos hcontains⟩
  · have hround : prepareRound epoch secret = _ := if_neg hcontains
    rw [Bool.not_eq_true] at hcontains
    by_cases hmoved : S.preparedInterval (S.advancePreparation secret) = S.preparedInterval secret
    · exact .inr (.inl ⟨hcontains,hmoved,_,hround.trans (if_pos hmoved)⟩)
    · exact .inr (.inr ⟨hcontains,hmoved,hround.trans (if_neg hmoved)⟩)

theorem windowMoves_lt {secret : S.SecretKey}
    (hmoved : S.preparedInterval (S.advancePreparation secret) ≠ S.preparedInterval secret) :
    windowMoves (S.advancePreparation secret) < windowMoves secret := by
  have hlt := (S.moves secret).resolve_left hmoved
  have hinside := S.inside (S.advancePreparation secret)
  rw [S.keeps] at hinside
  simp only [windowMoves,S.keeps]
  omega

/-- An epoch behind the window is refused before the loop; advancing cannot be undone. -/
def prepare (epoch : UInt32) : EStateM CryptoError (SigningKey S) Unit := do
  let self ← get
  let activation := S.activationInterval self.secret
  let prepared := S.preparedInterval self.secret
  if activation.contains epoch.toUInt64 = false then
    throw (.epochNotActive epoch activation.start activation.end_)
  else if epoch.toUInt64 < prepared.start then
    throw (.epochNotPrepared epoch prepared.start prepared.end_)
  else
    match loop (prepareRound epoch) () (windowMoves self.secret+1) self.secret with
    | .ok (secret,none) => set { self with secret := secret }
    | .ok (secret,some error) => do
      set { self with secret := secret }
      throw error
    | .error () => throw (.epochNotPrepared epoch prepared.start prepared.end_)

theorem prepareRound_ends (epoch : UInt32) (secret : S.SecretKey) :
    loop (prepareRound epoch) () (windowMoves secret+1) secret ≠ .error () := by
  refine loop_ends (fun _ => True) windowMoves ?_ ?_ trivial (Nat.lt_succ_self _)
  · intro secret
    rcases prepareRound_cases epoch secret with ⟨-,hround⟩ | ⟨-,-,e,hround⟩ | ⟨-,-,hround⟩
    all_goals simp [hround]
  · intro secret next _ hnext
    rcases prepareRound_cases epoch secret with ⟨-,hround⟩ | ⟨-,-,e,hround⟩ | ⟨-,hmoved,hround⟩
    · cases hround.symm.trans hnext
    · cases hround.symm.trans hnext
    · cases hround.symm.trans hnext
      exact ⟨trivial,windowMoves_lt hmoved⟩

def signRaw (epoch : UInt32) (message : Bytes32) :
    EStateM CryptoError (SigningKey S) (List UInt8) := do
  let self ← get
  match self.lastSigned.filter fun last => epoch ≤ last with
  | some last => throw (.epochReused epoch last)
  | none =>
    let prepared := S.preparedInterval self.secret
    if prepared.contains epoch.toUInt64 = false then
      throw (.epochNotPrepared epoch prepared.start prepared.end_)
    else
      match S.sign self.secret epoch message with
      | none => throw .signing
      | some signature => do
        set { self with lastSigned := some epoch }
        pure signature

def signatureToWire (S : SignatureScheme) (bytes : List UInt8) : Except CryptoError Signature :=
  if bytes.length ≠ S.payloadLen then .error (.payloadLength bytes.length S.payloadLen)
  else if h : signatureLen < bytes.length then .error (.payloadTooLong bytes.length signatureLen)
  else .ok ⟨bytes ++ List.replicate (signatureLen - bytes.length) 0,by
    rw [List.length_append,List.length_replicate]
    exact Nat.add_sub_cancel' (Nat.not_lt.mp h)⟩

def sign (epoch : UInt32) (message : Bytes32) : EStateM CryptoError (SigningKey S) Signature := do
  let signature ← signRaw epoch message
  check (signatureToWire S signature)

def generateFromSeed (S : SignatureScheme) (seed : Bytes32)
    (activationEpoch numActiveEpochs : UInt64) :
    Except CryptoError (PublicKey × SigningKey S) :=
  let last := activationEpoch.toNat+numActiveEpochs.toNat
  if S.lifetime.toNat < last then
    .error (.activationOutOfRange activationEpoch.toNat numActiveEpochs.toNat S.lifetime)
  else
    let generated := S.keyGen seed activationEpoch numActiveEpochs
    if h : generated.1.length = publicKeyLen then .ok (⟨generated.1,h⟩,⟨generated.2,none,seed⟩)
    else .error (.publicKeyLength generated.1.length publicKeyLen)

theorem generateFromSeed_ok {seed : Bytes32} {start count : UInt64} {pk : PublicKey}
    {key : SigningKey S} (hkey : generateFromSeed S seed start count = .ok (pk,key)) :
    start.toNat+count.toNat ≤ S.lifetime.toNat ∧ key = ⟨(S.keyGen seed start count).2,none,seed⟩ := by
  unfold generateFromSeed at hkey
  obtain ⟨hfits,hkey⟩ := guard_ok.mp hkey
  dsimp only at hkey
  by_cases hlength : (S.keyGen seed start count).1.length = publicKeyLen
  · rw [dif_pos hlength] at hkey
    cases hkey
    exact ⟨Nat.le_of_not_lt hfits,rfl⟩
  · rw [dif_neg hlength] at hkey
    cases hkey

def u32TryFrom (value : UInt64) : Option UInt32 :=
  if value.toNat < 2^32 then some (UInt32.ofNat value.toNat) else none

/-- The key of a record, behind its watermark. A nonzero watermark is within the interval. -/
def fromRecord (S : SignatureScheme) (record : OtsKeyState) :
    Except CryptoError (SigningKey S) := do
  let (_,signingKey) ← generateFromSeed S record.seed record.activationEpoch record.numActiveEpochs
  if 0 < record.nextIndex then
    let activationEnd := record.activationEpoch+record.numActiveEpochs
    if record.nextIndex ≤ record.activationEpoch ∨ activationEnd < record.nextIndex then
      .error (.epochNotActive ((u32TryFrom record.nextIndex).getD (UInt32.ofNat (2^32-1)))
        record.activationEpoch activationEnd)
    else
      match u32TryFrom (record.nextIndex-1) with
      | none =>
        .error (.epochNotActive (UInt32.ofNat (2^32-1)) record.activationEpoch activationEnd)
      | some lastSigned => .ok { signingKey with lastSigned := some lastSigned }
  else .ok signingKey

/-- The watermark of a key; the digest of the seed is a parameter. -/
def SigningKey.toWatermark (seedCommitment : Bytes32 → Bytes32) (self : SigningKey S) :
    OtsWatermark :=
  let activation := S.activationInterval self.secret
  { keyCommitment := seedCommitment self.seed
    activationEpoch := activation.start
    numActiveEpochs := activation.end_-activation.start
    nextIndex :=
      match self.lastSigned with
      | some epoch => epoch.toUInt64+1
      | none => 0 }

theorem toNat_succ_epoch (epoch : UInt32) : (epoch.toUInt64+1).toNat = epoch.toNat+1 := by
  have hlt := epoch.toNat_lt
  rw [UInt64.toNat_add,UInt32.toNat_toUInt64]
  exact Nat.mod_eq_of_lt (by change epoch.toNat+1 < 2^64; omega)

theorem SigningKey.nextIndex_toWatermark (seedCommitment : Bytes32 → Bytes32)
    (key : SigningKey S) : (key.toWatermark seedCommitment).nextIndex.toNat = key.nextIndex := by
  unfold SigningKey.toWatermark SigningKey.nextIndex
  cases key.lastSigned with
  | none => rfl
  | some epoch => exact toNat_succ_epoch epoch

theorem nextIndex_fromRecord {record : OtsKeyState} {key : SigningKey S}
    (h : fromRecord S record = .ok key) : key.nextIndex = record.nextIndex.toNat := by
  obtain ⟨⟨pk,fresh⟩,hfresh,h⟩ := except_bind_ok.mp h
  obtain ⟨-,rfl⟩ := generateFromSeed_ok hfresh
  dsimp only at h
  split at h
  · next hpos =>
    obtain ⟨-,h⟩ := guard_ok.mp h
    have hpos' : 0 < record.nextIndex.toNat := UInt64.lt_iff_toNat_lt.mp hpos
    have hpred : (record.nextIndex-1).toNat = record.nextIndex.toNat-1 := by
      rw [UInt64.toNat_sub_of_le]
      · rfl
      · exact UInt64.le_iff_toNat_le.mpr hpos'
    unfold u32TryFrom at h
    split at h
    · cases h
    · next last hlast =>
      cases h
      split at hlast
      · next hlt =>
        cases hlast
        simp only [SigningKey.nextIndex,UInt32.toNat_ofNat']
        omega
      · cases hlast
  · next hzero =>
    cases h
    have hzero' : ¬ 0 < record.nextIndex.toNat := fun hpos => hzero (UInt64.lt_iff_toNat_lt.mpr hpos)
    simp only [SigningKey.nextIndex]
    omega

theorem lastSigned_prepare (epoch : UInt32) (key : SigningKey S) :
    (after (prepare epoch) key).lastSigned = key.lastSigned := by
  unfold prepare after
  simp only [estate_get_bind]
  generalize loop (prepareRound epoch) () (windowMoves key.secret+1) key.secret = result
  split_ifs
  · rfl
  · rfl
  · rcases result with _ | ⟨secret,_ | error⟩ <;> rfl

def SigningKey.Unspent (self : SigningKey S) (epoch : UInt32) : Prop :=
  ∀ last, self.lastSigned = some last → last < epoch

theorem filter_lastSigned {key : SigningKey S} {epoch : UInt32} :
    key.lastSigned.filter (fun last => epoch ≤ last) = none ↔ key.Unspent epoch := by
  unfold SigningKey.Unspent
  cases key.lastSigned with
  | none => simp
  | some last => simp [Option.filter]

theorem SigningKey.nextIndex_le_iff {key : SigningKey S} {epoch : UInt32} :
    key.nextIndex ≤ epoch.toNat ↔ key.Unspent epoch := by
  unfold SigningKey.nextIndex SigningKey.Unspent
  cases key.lastSigned with
  | none => simp
  | some last => simp [UInt32.lt_iff_toNat_lt]

theorem signRaw_cases (epoch : UInt32) (message : Bytes32) (key : SigningKey S) :
    (∃ e, signRaw epoch message key = .error e key) ∨
      ∃ bytes, signRaw epoch message key = .ok bytes { key with lastSigned := some epoch } ∧
        key.nextIndex ≤ epoch.toNat := by
  unfold signRaw
  simp only [estate_get_bind]
  cases hlast : key.lastSigned.filter (fun last => epoch ≤ last) with
  | some last => exact .inl ⟨_,rfl⟩
  | none =>
    have hfresh := SigningKey.nextIndex_le_iff.mpr (filter_lastSigned.mp hlast)
    dsimp only
    split_ifs
    · exact .inl ⟨_,rfl⟩
    · cases S.sign key.secret epoch message with
      | none => exact .inl ⟨_,rfl⟩
      | some bytes => exact .inr ⟨bytes,rfl,hfresh⟩

/-- Preparing and signing: the index stays, or it passes the epoch. A signature comes out
only in the second case. -/
theorem prepareSign_cases (epoch : UInt32) (message : Bytes32) (key : SigningKey S) :
    (∃ e t, (prepare epoch >>= fun _ => sign epoch message) key = .error e t ∧
      (t.nextIndex = key.nextIndex ∨
        key.nextIndex ≤ epoch.toNat ∧ t.nextIndex = epoch.toNat+1)) ∨
    ∃ signature t, (prepare epoch >>= fun _ => sign epoch message) key = .ok signature t ∧
      key.nextIndex ≤ epoch.toNat ∧ t.nextIndex = epoch.toNat+1 := by
  have hkept := lastSigned_prepare epoch key
  cases hprepare : prepare epoch key with
  | error e m =>
    rw [after_of_error hprepare] at hkept
    refine .inl ⟨e,m,estate_bind_error.mpr (.inl hprepare),.inl ?_⟩
    simp only [SigningKey.nextIndex,hkept]
  | ok u m =>
    rw [after_of_ok hprepare] at hkept
    have hsame : m.nextIndex = key.nextIndex := by simp only [SigningKey.nextIndex,hkept]
    rw [estate_bind_of_ok hprepare]
    rcases signRaw_cases epoch message m with ⟨e,hraw⟩ | ⟨bytes,hraw,hfresh⟩
    · exact .inl ⟨e,m,estate_bind_error.mpr (.inl hraw),.inl hsame⟩
    · rw [hsame] at hfresh
      cases hwire : signatureToWire S bytes with
      | error e =>
        refine .inl ⟨e,{ m with lastSigned := some epoch },?_,.inr ⟨hfresh,rfl⟩⟩
        rw [sign,estate_bind_of_ok hraw,hwire]
        rfl
      | ok signature =>
        refine .inr ⟨signature,{ m with lastSigned := some epoch },?_,hfresh,rfl⟩
        rw [sign,estate_bind_of_ok hraw,hwire]
        rfl

end Keys

end Devnet.Crypto
