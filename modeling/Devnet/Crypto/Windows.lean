import Devnet.Crypto.SigningKey

/-!
The window of epochs a key holds ready, and what is left of a key when it goes through its record.
The window only moves to the right. Preparing an epoch therefore refuses what lies behind it and
otherwise walks until the epoch is covered; a reloaded key starts at the left end of its interval
again, behind the watermark it was stored with.
-/

set_option autoImplicit false

namespace Devnet.Crypto
open Machine Devnet.Types Devnet.Engine

section Keys
variable {S : SignatureScheme}

theorem Interval.contains_iff {self : Interval} {epoch : UInt32} :
    self.contains epoch.toUInt64 = true ↔
      self.start.toNat ≤ epoch.toNat ∧ epoch.toNat < self.end_.toNat := by
  simp [contains,UInt64.le_iff_toNat_le,UInt64.lt_iff_toNat_lt]

/-- What is assumed of the signature scheme. The prepared window is a part of the activation
interval; it moves on without skipping an epoch and stands still only at the end. A fresh key is
prepared from the left end of its interval on. The interval takes in the one that was asked for,
lies within the lifetime, and comes out unchanged when it is asked for itself. Public keys and
signatures have the lengths the wire types are made for, and a prepared epoch can be signed. -/
structure SignatureScheme.Sliding (S : SignatureScheme) : Prop where
  part : ∀ secret, (S.activationInterval secret).start.toNat ≤ (S.preparedInterval secret).start.toNat ∧
    (S.preparedInterval secret).end_.toNat ≤ (S.activationInterval secret).end_.toNat
  connected : ∀ secret, (S.preparedInterval (S.advancePreparation secret)).start.toNat ≤
    (S.preparedInterval secret).end_.toNat
  stands : ∀ secret, S.preparedInterval (S.advancePreparation secret) = S.preparedInterval secret →
    (S.preparedInterval secret).end_ = (S.activationInterval secret).end_
  fresh : ∀ seed start count, start.toNat+count.toNat ≤ S.lifetime.toNat →
    (S.preparedInterval (S.keyGen seed start count).2).start =
      (S.activationInterval (S.keyGen seed start count).2).start
  expands : ∀ seed start count, start.toNat+count.toNat ≤ S.lifetime.toNat →
    (S.activationInterval (S.keyGen seed start count).2).start.toNat ≤ start.toNat ∧
    start.toNat+count.toNat ≤ (S.activationInterval (S.keyGen seed start count).2).end_.toNat ∧
    (S.activationInterval (S.keyGen seed start count).2).end_.toNat ≤ S.lifetime.toNat
  idempotent : ∀ seed start count, start.toNat+count.toNat ≤ S.lifetime.toNat →
    S.activationInterval (S.keyGen seed
        (S.activationInterval (S.keyGen seed start count).2).start
        ((S.activationInterval (S.keyGen seed start count).2).end_ -
          (S.activationInterval (S.keyGen seed start count).2).start)).2 =
      S.activationInterval (S.keyGen seed start count).2
  publicKey : ∀ seed start count, start.toNat+count.toNat ≤ S.lifetime.toNat →
    (S.keyGen seed start count).1.length = publicKeyLen
  signs : ∀ secret epoch message, (S.preparedInterval secret).contains epoch.toUInt64 = true →
    ∃ bytes, S.sign secret epoch message = some bytes ∧ bytes.length = S.payloadLen
  payload : S.payloadLen ≤ signatureLen

def advance (self : SigningKey S) : SigningKey S :=
  { self with secret := S.advancePreparation self.secret }

def SigningKey.toRecord (self : SigningKey S) : OtsKeyState :=
  let activation := S.activationInterval self.secret
  { seed := self.seed
    activationEpoch := activation.start
    numActiveEpochs := activation.end_-activation.start
    nextIndex :=
      match self.lastSigned with
      | some epoch => epoch.toUInt64+1
      | none => 0 }

def Toward (epoch : UInt32) (secret m : S.SecretKey) : Prop :=
  S.activationInterval m = S.activationInterval secret ∧
    (S.preparedInterval m).start.toNat ≤ epoch.toNat

def Arrived (epoch : UInt32) (secret : S.SecretKey) (r : S.SecretKey × Option CryptoError) : Prop :=
  r.2 = none ∧ (S.preparedInterval r.1).contains epoch.toUInt64 = true ∧
    S.activationInterval r.1 = S.activationInterval secret

theorem Toward.round (h : S.Sliding) {epoch : UInt32} {secret m : S.SecretKey}
    (hactive : (S.activationInterval secret).contains epoch.toUInt64 = true)
    (hm : Toward epoch secret m) :
    (∃ r, prepareRound epoch m = .ok (.stop r) ∧ Arrived epoch secret r) ∨
      ∃ next, prepareRound epoch m = .ok (.next next) ∧ Toward epoch secret next ∧
        windowMoves next < windowMoves m := by
  obtain ⟨hsame,hstart⟩ := hm
  have hpast : (S.preparedInterval m).contains epoch.toUInt64 = false →
      (S.preparedInterval m).end_.toNat ≤ epoch.toNat := by
    intro hnot
    rw [← Bool.not_eq_true,Interval.contains_iff] at hnot
    omega
  rcases prepareRound_cases epoch m with ⟨hcontains,hround⟩ | ⟨hnot,hstands,-⟩ | ⟨hnot,hmoved,hround⟩
  · exact .inl ⟨_,hround,rfl,hcontains,hsame⟩
  · -- At the end of the interval the window has every active epoch from its start on.
    have hend := hpast hnot
    have hbelow := (Interval.contains_iff.mp hactive).2
    rw [h.stands m hstands,hsame] at hend
    omega
  · refine .inr ⟨_,hround,⟨(S.keeps m).trans hsame,?_⟩,windowMoves_lt hmoved⟩
    exact (h.connected m).trans (hpast hnot)

theorem prepare_walk (h : S.Sliding) {epoch : UInt32} {secret : S.SecretKey}
    (hactive : (S.activationInterval secret).contains epoch.toUInt64 = true)
    (hahead : (S.preparedInterval secret).start.toNat ≤ epoch.toNat) :
    ∃ last, loop (prepareRound epoch) () (windowMoves secret+1) secret = .ok (last,none) ∧
      (S.preparedInterval last).contains epoch.toUInt64 = true ∧
      S.activationInterval last = S.activationInterval secret := by
  obtain ⟨r,hloop,hnone,hcovered⟩ := @loop_correct _ _ _ (prepareRound epoch) ()
    (Toward epoch secret) (Arrived epoch secret) windowMoves _ secret (Toward.round h hactive)
    ⟨rfl,hahead⟩ (Nat.lt_succ_self _)
  refine ⟨r.1,?_,hcovered⟩
  rw [hloop,← hnone]

/-- The outcome of `prepare`: the two refusals leave the key as it is, and otherwise the window
covers the epoch and nothing else has changed. -/
theorem prepare_cases (h : S.Sliding) (epoch : UInt32) (key : SigningKey S) :
    (((S.activationInterval key.secret).contains epoch.toUInt64 = true ∧
      (S.preparedInterval key.secret).start.toNat ≤ epoch.toNat) ∧
      ∃ secret, prepare epoch key = .ok () { key with secret := secret } ∧
        (S.preparedInterval secret).contains epoch.toUInt64 = true ∧
        S.activationInterval secret = S.activationInterval key.secret) ∨
    (¬ ((S.activationInterval key.secret).contains epoch.toUInt64 = true ∧
      (S.preparedInterval key.secret).start.toNat ≤ epoch.toNat) ∧
      ∃ e, prepare epoch key = .error e key) := by
  by_cases hactive : (S.activationInterval key.secret).contains epoch.toUInt64 = true
  · by_cases hahead : (S.preparedInterval key.secret).start.toNat ≤ epoch.toNat
    · obtain ⟨secret,hloop,hcovered,hsame⟩ := prepare_walk h hactive hahead
      refine .inl ⟨⟨hactive,hahead⟩,secret,?_,hcovered,hsame⟩
      have hnot : ¬ epoch.toUInt64 < (S.preparedInterval key.secret).start := by
        rw [UInt64.lt_iff_toNat_lt,UInt32.toNat_toUInt64]
        omega
      simp [prepare,hactive,hnot,hloop]
    · refine .inr ⟨fun hboth => hahead hboth.2,?_⟩
      have hbehind : epoch.toUInt64 < (S.preparedInterval key.secret).start := by
        rw [UInt64.lt_iff_toNat_lt,UInt32.toNat_toUInt64]
        omega
      simp [prepare,hactive,hbehind]
  · refine .inr ⟨fun hboth => hactive hboth.1,?_⟩
    rw [Bool.not_eq_true] at hactive
    simp [prepare,hactive]

theorem signRaw_ok {epoch : UInt32} {message : Bytes32} {key t : SigningKey S} {bytes : List UInt8} :
    signRaw epoch message key = .ok bytes t ↔ key.Unspent epoch ∧
      (S.preparedInterval key.secret).contains epoch.toUInt64 = true ∧
      S.sign key.secret epoch message = some bytes ∧ { key with lastSigned := some epoch } = t := by
  rw [← filter_lastSigned]
  unfold signRaw
  simp only [estate_get_bind]
  cases key.lastSigned.filter (fun last => epoch ≤ last) with
  | some last => simp
  | none =>
    cases hcontains : (S.preparedInterval key.secret).contains epoch.toUInt64 with
    | false => simp
    | true =>
      cases S.sign key.secret epoch message with
      | none => simp
      | some signature => simp [pure,EStateM.pure,bind,EStateM.bind,set,MonadStateOf.set,EStateM.set]

theorem sign_iff (h : S.Sliding) {epoch : UInt32} {message : Bytes32} {key : SigningKey S} :
    (∃ signature t, sign epoch message key = .ok signature t) ↔ key.Unspent epoch ∧
      (S.preparedInterval key.secret).contains epoch.toUInt64 = true := by
  constructor
  · rintro ⟨signature,t,hsign⟩
    obtain ⟨bytes,m,hraw,-⟩ := estate_bind_ok.mp hsign
    obtain ⟨hunspent,hprepared,-⟩ := signRaw_ok.mp hraw
    exact ⟨hunspent,hprepared⟩
  · rintro ⟨hunspent,hprepared⟩
    obtain ⟨bytes,hbytes,hlength⟩ := h.signs key.secret epoch message hprepared
    have hfits : ¬ signatureLen < bytes.length := by
      rw [hlength]
      exact Nat.not_lt.mpr h.payload
    obtain ⟨signature,hwire⟩ : ∃ signature, signatureToWire S bytes = .ok signature := by
      rw [signatureToWire,if_neg (not_not.mpr hlength),dif_neg hfits]
      exact ⟨_,rfl⟩
    have hraw := signRaw_ok.mpr ⟨hunspent,hprepared,hbytes,rfl⟩
    exact ⟨signature,_,estate_bind_ok.mpr ⟨bytes,_,hraw,check_ok.mpr ⟨hwire,rfl⟩⟩⟩

theorem generateFromSeed_total (h : S.Sliding) (seed : Bytes32) {start count : UInt64}
    (hfits : start.toNat+count.toNat ≤ S.lifetime.toNat) :
    ∃ pk, generateFromSeed S seed start count = .ok (pk,⟨(S.keyGen seed start count).2,none,seed⟩) := by
  have hlength := h.publicKey seed start count hfits
  unfold generateFromSeed
  dsimp only
  rw [if_neg (Nat.not_lt.mpr hfits),dif_pos hlength]
  exact ⟨_,rfl⟩

/-- The keys there are: made from a seed or a record, and used. -/
inductive Obtained : SigningKey S → Prop where
  | generated {seed : Bytes32} {start count : UInt64} {pk : PublicKey} {key : SigningKey S}
      (h : generateFromSeed S seed start count = .ok (pk,key)) : Obtained key
  | restored {record : OtsKeyState} {key : SigningKey S} (h : fromRecord S record = .ok key) :
      Obtained key
  | advanced {key : SigningKey S} (h : Obtained key) : Obtained (advance key)
  | prepared {key : SigningKey S} (h : Obtained key) (epoch : UInt32) :
      Obtained (after (prepare epoch) key)
  | signed {key : SigningKey S} (h : Obtained key) (epoch : UInt32) (message : Bytes32) :
      Obtained (after (sign epoch message) key)

/-- The interval of a key comes from its seed, and its watermark is an epoch of the interval. -/
structure SigningKey.Sound (key : SigningKey S) : Prop where
  seeded : ∃ start count : UInt64, start.toNat+count.toNat ≤ S.lifetime.toNat ∧
    S.activationInterval key.secret = S.activationInterval (S.keyGen key.seed start count).2
  marked : ∀ last, key.lastSigned = some last →
    (S.activationInterval key.secret).contains last.toUInt64 = true

theorem SigningKey.Sound.moved {key : SigningKey S} (h : key.Sound) {secret : S.SecretKey}
    (hsame : S.activationInterval secret = S.activationInterval key.secret) :
    SigningKey.Sound { key with secret := secret } := by
  obtain ⟨start,count,hfits,hseeded⟩ := h.seeded
  exact ⟨⟨start,count,hfits,hsame.trans hseeded⟩,fun last hlast => hsame ▸ h.marked last hlast⟩

theorem fromRecord_ok {record : OtsKeyState} {key : SigningKey S}
    (h : fromRecord S record = .ok key) :
    record.activationEpoch.toNat+record.numActiveEpochs.toNat ≤ S.lifetime.toNat ∧
      key.secret = (S.keyGen record.seed record.activationEpoch record.numActiveEpochs).2 ∧
      key.seed = record.seed ∧
      ∀ last, key.lastSigned = some last → record.activationEpoch.toNat ≤ last.toNat ∧
        last.toNat < record.activationEpoch.toNat+record.numActiveEpochs.toNat := by
  have hnext := nextIndex_fromRecord h
  obtain ⟨⟨pk,fresh⟩,hfresh,h⟩ := except_bind_ok.mp h
  obtain ⟨hfits,rfl⟩ := generateFromSeed_ok hfresh
  have hlife := S.lifetime.toNat_lt
  have hsum : (record.activationEpoch+record.numActiveEpochs).toNat =
      record.activationEpoch.toNat+record.numActiveEpochs.toNat := by
    rw [UInt64.toNat_add]
    exact Nat.mod_eq_of_lt (by omega)
  refine ⟨hfits,?_⟩
  dsimp only at h
  split at h
  · obtain ⟨hrange,h⟩ := guard_ok.mp h
    rw [not_or,UInt64.not_le,UInt64.not_lt,UInt64.lt_iff_toNat_lt,UInt64.le_iff_toNat_le,hsum] at hrange
    split at h
    · cases h
    · next last hlast =>
      cases h
      refine ⟨rfl,rfl,fun epoch hepoch => ?_⟩
      cases hepoch
      have hindex : last.toNat+1 = record.nextIndex.toNat := hnext
      omega
  · cases h
    exact ⟨rfl,rfl,fun last hlast => by cases hlast⟩

theorem SigningKey.Sound.sign {key : SigningKey S} (h : S.Sliding) (hkey : key.Sound)
    (epoch : UInt32) (message : Bytes32) : (after (Crypto.sign epoch message) key).Sound := by
  have hchecked : ∀ {bytes : List UInt8} {m : SigningKey S},
      after (check (signatureToWire S bytes)) m = m := by
    intro bytes m
    cases hwire : signatureToWire S bytes with
    | error e => exact after_of_error (check_error.mpr ⟨rfl,rfl⟩)
    | ok signature => exact after_of_ok (check_ok.mpr ⟨rfl,rfl⟩)
  rcases signRaw_cases epoch message key with ⟨e,hraw⟩ | ⟨bytes,hraw,-⟩
  · rw [Crypto.sign,after_bind_of_error hraw]
    exact hkey
  · obtain ⟨-,hprepared,-⟩ := signRaw_ok.mp hraw
    rw [Crypto.sign,after_bind_of_ok hraw,hchecked]
    refine ⟨hkey.seeded,fun last hlast => ?_⟩
    cases hlast
    have hpart := h.part key.secret
    rw [Interval.contains_iff] at hprepared ⊢
    exact ⟨hpart.1.trans hprepared.1,hprepared.2.trans_le hpart.2⟩

theorem Obtained.sound (h : S.Sliding) {key : SigningKey S} (hkey : Obtained key) : key.Sound := by
  induction hkey with
  | generated hgenerated =>
    obtain ⟨hfits,rfl⟩ := generateFromSeed_ok hgenerated
    exact ⟨⟨_,_,hfits,rfl⟩,fun last hlast => by cases hlast⟩
  | @restored record key hrestored =>
    obtain ⟨hfits,hsecret,hseed,hmarked⟩ := fromRecord_ok hrestored
    refine ⟨⟨_,_,hfits,by rw [hsecret,hseed]⟩,fun last hlast => ?_⟩
    have hexpands := h.expands record.seed _ _ hfits
    have hlast := hmarked last hlast
    rw [Interval.contains_iff,hsecret]
    exact ⟨hexpands.1.trans hlast.1,hlast.2.trans_le hexpands.2.1⟩
  | advanced _ ih => exact ih.moved (S.keeps _)
  | @prepared key _ epoch ih =>
    rcases prepare_cases h epoch key with ⟨-,secret,hprepare,-,hsame⟩ | ⟨-,e,hprepare⟩
    · rw [after_of_ok hprepare]
      exact ih.moved hsame
    · rw [after_of_error hprepare]
      exact ih
  | signed _ epoch message ih => exact ih.sign h epoch message

theorem SigningKey.Sound.again (h : S.Sliding) {key : SigningKey S} (hkey : key.Sound) :
    (S.activationInterval key.secret).start.toNat +
        ((S.activationInterval key.secret).end_ - (S.activationInterval key.secret).start).toNat =
      (S.activationInterval key.secret).end_.toNat ∧
    (S.activationInterval key.secret).end_.toNat ≤ S.lifetime.toNat ∧
    S.activationInterval (S.keyGen key.seed (S.activationInterval key.secret).start
        ((S.activationInterval key.secret).end_ - (S.activationInterval key.secret).start)).2 =
      S.activationInterval key.secret := by
  obtain ⟨start,count,hfits,hseeded⟩ := hkey.seeded
  have hexpands := h.expands key.seed start count hfits
  rw [hseeded]
  refine ⟨?_,hexpands.2.2,h.idempotent key.seed start count hfits⟩
  rw [UInt64.toNat_sub_of_le _ _ (UInt64.le_iff_toNat_le.mpr (by omega))]
  omega

theorem fromRecord_toRecord (h : S.Sliding) {key : SigningKey S} (hkey : key.Sound) :
    fromRecord S key.toRecord = .ok ⟨(S.keyGen key.seed (S.activationInterval key.secret).start
      ((S.activationInterval key.secret).end_ - (S.activationInterval key.secret).start)).2,
      key.lastSigned,key.seed⟩ := by
  obtain ⟨hsum,hlife,-⟩ := hkey.again h
  obtain ⟨pk,hgenerated⟩ := generateFromSeed_total h key.seed (hsum.le.trans hlife)
  refine except_bind_ok.mpr ⟨_,hgenerated,?_⟩
  have hend : (S.activationInterval key.secret).start +
      ((S.activationInterval key.secret).end_ - (S.activationInterval key.secret).start) =
        (S.activationInterval key.secret).end_ := by
    rw [UInt64.add_comm,UInt64.sub_add_cancel]
  cases hlast : key.lastSigned with
  | none => simp [SigningKey.toRecord,hlast]
  | some last =>
    have hmarked := Interval.contains_iff.mp (hkey.marked last hlast)
    have hlt := last.toNat_lt
    have hnext := toNat_succ_epoch last
    have hpos : 0 < last.toUInt64+1 := by
      rw [UInt64.lt_iff_toNat_lt,hnext]
      exact Nat.succ_pos _
    have hrange : ¬ (last.toUInt64+1 ≤ (S.activationInterval key.secret).start ∨
        (S.activationInterval key.secret).end_ < last.toUInt64+1) := by
      rw [UInt64.le_iff_toNat_le,UInt64.lt_iff_toNat_lt,hnext]
      omega
    have hback : u32TryFrom (last.toUInt64+1-1) = some last := by
      rw [UInt64.add_sub_cancel,u32TryFrom,UInt32.toNat_toUInt64,if_pos hlt,UInt32.ofNat_toNat]
    simp only [SigningKey.toRecord,hlast,hend]
    rw [if_pos hpos,if_neg hrange,hback]

/-- A key that starts at the left end of its interval signs every active epoch that is unspent,
once the epoch is prepared. -/
theorem prepare_sign_iff (h : S.Sliding) (epoch : UInt32) (message : Bytes32) {key : SigningKey S}
    (hleft : (S.preparedInterval key.secret).start = (S.activationInterval key.secret).start) :
    (∃ signature t, (prepare epoch >>= fun _ => sign epoch message) key = .ok signature t) ↔
      (S.activationInterval key.secret).contains epoch.toUInt64 = true ∧ key.Unspent epoch := by
  rcases prepare_cases h epoch key with ⟨⟨hactive,-⟩,secret,hprepare,hcovered,-⟩ | ⟨hnot,e,hprepare⟩
  · rw [estate_bind_of_ok hprepare,sign_iff h]
    simp [hactive,hcovered,SigningKey.Unspent]
  · have hinactive : ¬ (S.activationInterval key.secret).contains epoch.toUInt64 = true := by
      intro hactive
      have hstart := (Interval.contains_iff.mp hactive).1
      exact hnot ⟨hactive,hleft ▸ hstart⟩
    have herror : (prepare epoch >>= fun _ => sign epoch message) key = .error e key :=
      estate_bind_error.mpr (.inl hprepare)
    simp [herror,hinactive]

/-- Preparing an epoch ends, succeeds exactly for an active epoch that is not behind the window,
which then has it, and changes nothing when it fails. A key that goes through its record keeps its
interval and its watermark; after `prepare` it signs exactly the active epochs above the
watermark. -/
theorem key_window_and_reload (h : S.Sliding) (key : SigningKey S) :
    (∀ epoch, loop (prepareRound epoch) () (windowMoves key.secret+1) key.secret ≠ .error ()) ∧
    (∀ epoch, (∃ t, prepare epoch key = .ok () t) ↔
      (S.activationInterval key.secret).contains epoch.toUInt64 = true ∧
        (S.preparedInterval key.secret).start.toNat ≤ epoch.toNat) ∧
    (∀ epoch t, prepare epoch key = .ok () t →
      (S.preparedInterval t.secret).contains epoch.toUInt64 = true) ∧
    (∀ epoch e t, prepare epoch key = .error e t → t = key) ∧
    (Obtained key → ∃ reloaded, fromRecord S key.toRecord = .ok reloaded ∧
      S.activationInterval reloaded.secret = S.activationInterval key.secret ∧
      reloaded.lastSigned = key.lastSigned ∧
      ∀ epoch message,
        (∃ signature t, (prepare epoch >>= fun _ => sign epoch message) reloaded =
          .ok signature t) ↔
        (S.activationInterval key.secret).contains epoch.toUInt64 = true ∧ key.Unspent epoch) := by
  refine ⟨fun epoch => prepareRound_ends epoch key.secret,fun epoch => ?_,fun epoch t hprepare => ?_,
    fun epoch e t hprepare => ?_,fun hkey => ?_⟩
  · rcases prepare_cases h epoch key with ⟨hboth,secret,hok,-⟩ | ⟨hnot,e,herror⟩
    · exact ⟨fun _ => hboth,fun _ => ⟨_,hok⟩⟩
    · rw [herror]
      exact ⟨fun hok => (by obtain ⟨t,ht⟩ := hok; cases ht),fun hboth => absurd hboth hnot⟩
  · rcases prepare_cases h epoch key with ⟨-,secret,hok,hcovered,-⟩ | ⟨-,e,herror⟩
    · cases hok.symm.trans hprepare
      exact hcovered
    · cases herror.symm.trans hprepare
  · rcases prepare_cases h epoch key with ⟨-,secret,hok,-⟩ | ⟨-,e',herror⟩
    · cases hok.symm.trans hprepare
    · cases herror.symm.trans hprepare
      rfl
  · have hsound := hkey.sound h
    obtain ⟨hsum,hlife,hsame⟩ := hsound.again h
    have hfresh := h.fresh key.seed _ _ (hsum.le.trans hlife)
    refine ⟨_,fromRecord_toRecord h hsound,hsame,rfl,fun epoch message => ?_⟩
    rw [prepare_sign_iff h epoch message hfresh,hsame]
    rfl

end Keys

/-- A key over some of sixteen trees, of sixteen epochs each. Two neighbouring trees are held
ready. -/
structure TreeKey where
  first : Nat
  left : Nat
  last : Nat
  ordered : first ≤ left ∧ left+2 ≤ last ∧ last ≤ 16

def treeEpochs (first last : Nat) : Interval :=
  ⟨UInt64.ofNat (first*16),UInt64.ofNat (last*16)⟩

theorem toNat_tree {tree : Nat} (h : tree ≤ 16) : (UInt64.ofNat (tree*16)).toNat = tree*16 := by
  rw [UInt64.toNat_ofNat']
  exact Nat.mod_eq_of_lt (by omega)

def firstTree (start : Nat) : Nat := min (start/16) 14

def lastTree (start count : Nat) : Nat :=
  min (max ((start+count+15)/16) (firstTree start+2)) 16

theorem trees_ordered (start count : Nat) :
    firstTree start ≤ firstTree start ∧ firstTree start+2 ≤ lastTree start count ∧
      lastTree start count ≤ 16 := by
  simp only [firstTree,lastTree]
  omega

def TreeKey.expand (start count : Nat) : TreeKey :=
  ⟨firstTree start,firstTree start,lastTree start count,trees_ordered start count⟩

def TreeKey.advancePreparation (self : TreeKey) : TreeKey :=
  if h : self.left+3 ≤ self.last then
    ⟨self.first,self.left+1,self.last,Nat.le_succ_of_le self.ordered.1,h,self.ordered.2.2⟩
  else self

theorem TreeKey.advancePreparation_cases (self : TreeKey) :
    self.advancePreparation.first = self.first ∧ self.advancePreparation.last = self.last ∧
      (self.left+3 ≤ self.last ∧ self.advancePreparation.left = self.left+1 ∨
        self.left+2 = self.last ∧ self.advancePreparation.left = self.left) := by
  have hordered := self.ordered
  unfold advancePreparation
  split
  · next hroom => exact ⟨rfl,rfl,.inl ⟨hroom,rfl⟩⟩
  · next hfull => exact ⟨rfl,rfl,.inr ⟨by omega,rfl⟩⟩

theorem TreeKey.keeps (self : TreeKey) :
    treeEpochs self.advancePreparation.first self.advancePreparation.last =
      treeEpochs self.first self.last := by
  obtain ⟨hfirst,hlast,-⟩ := self.advancePreparation_cases
  rw [hfirst,hlast]

theorem toNat_treeEpochs {first last : Nat} (h : first ≤ last) (hlast : last ≤ 16) :
    (treeEpochs first last).start.toNat = first*16 ∧
      (treeEpochs first last).end_.toNat = last*16 :=
  ⟨toNat_tree (h.trans hlast),toNat_tree hlast⟩

theorem TreeKey.bounds (self : TreeKey) :
    (treeEpochs self.first self.last).start.toNat = self.first*16 ∧
      (treeEpochs self.first self.last).end_.toNat = self.last*16 ∧
      (treeEpochs self.left (self.left+2)).start.toNat = self.left*16 ∧
      (treeEpochs self.left (self.left+2)).end_.toNat = (self.left+2)*16 := by
  have hordered := self.ordered
  have hactive := toNat_treeEpochs (show self.first ≤ self.last by omega) hordered.2.2
  have hprepared := toNat_treeEpochs (show self.left ≤ self.left+2 by omega) (by omega)
  exact ⟨hactive.1,hactive.2,hprepared⟩

theorem TreeKey.moves (self : TreeKey) :
    treeEpochs self.advancePreparation.left (self.advancePreparation.left+2) =
        treeEpochs self.left (self.left+2) ∨
      (treeEpochs self.left (self.left+2)).start.toNat <
        (treeEpochs self.advancePreparation.left (self.advancePreparation.left+2)).start.toNat := by
  have hbounds := self.bounds
  have hbounds' := self.advancePreparation.bounds
  obtain ⟨-,-,⟨-,hleft⟩ | ⟨-,hleft⟩⟩ := self.advancePreparation_cases
  · right
    omega
  · left
    rw [hleft]

theorem TreeKey.inside (self : TreeKey) :
    (treeEpochs self.left (self.left+2)).start.toNat ≤
      (treeEpochs self.first self.last).end_.toNat := by
  have hbounds := self.bounds
  have hordered := self.ordered
  omega

/-- A scheme with the windows of the small instance. Its keys and signatures are zeros. -/
def treeScheme (payloadLen : Nat) : SignatureScheme where
  SecretKey := TreeKey
  lifetime := 256
  payloadLen := payloadLen
  keyGen _ start count := (List.replicate publicKeyLen 0,TreeKey.expand start.toNat count.toNat)
  activationInterval secret := treeEpochs secret.first secret.last
  preparedInterval secret := treeEpochs secret.left (secret.left+2)
  advancePreparation := TreeKey.advancePreparation
  sign _ _ _ := some (List.replicate payloadLen 0)
  keeps := TreeKey.keeps
  moves := TreeKey.moves
  inside := TreeKey.inside

theorem expand_again {start count : Nat} (h : start+count ≤ 256) :
    let active := treeEpochs (firstTree start) (lastTree start count)
    treeEpochs (firstTree active.start.toNat)
      (lastTree active.start.toNat (active.end_-active.start).toNat) = active := by
  intro active
  obtain ⟨hstart,hend,-⟩ := (TreeKey.expand start count).bounds
  change active.start.toNat = firstTree start*16 at hstart
  change active.end_.toNat = lastTree start count*16 at hend
  have hordered := trees_ordered start count
  have hle : active.start ≤ active.end_ := by
    rw [UInt64.le_iff_toNat_le,hstart,hend]
    omega
  rw [UInt64.toNat_sub_of_le _ _ hle,hstart,hend]
  have hfirst : firstTree (firstTree start*16) = firstTree start := by
    simp only [firstTree]
    omega
  have hlast : lastTree (firstTree start*16) (lastTree start count*16-firstTree start*16) =
      lastTree start count := by
    simp only [firstTree,lastTree]
    omega
  rw [hfirst,hlast]

theorem TreeKey.part (self : TreeKey) :
    (treeEpochs self.first self.last).start.toNat ≤
        (treeEpochs self.left (self.left+2)).start.toNat ∧
      (treeEpochs self.left (self.left+2)).end_.toNat ≤
        (treeEpochs self.first self.last).end_.toNat := by
  have hbounds := self.bounds
  have hordered := self.ordered
  omega

theorem TreeKey.connected (self : TreeKey) :
    (treeEpochs self.advancePreparation.left (self.advancePreparation.left+2)).start.toNat ≤
      (treeEpochs self.left (self.left+2)).end_.toNat := by
  have hbounds := self.bounds
  have hbounds' := self.advancePreparation.bounds
  obtain ⟨-,-,⟨-,hleft⟩ | ⟨-,hleft⟩⟩ := self.advancePreparation_cases
  · omega
  · omega

theorem TreeKey.stands (self : TreeKey)
    (h : treeEpochs self.advancePreparation.left (self.advancePreparation.left+2) =
      treeEpochs self.left (self.left+2)) :
    (treeEpochs self.left (self.left+2)).end_ = (treeEpochs self.first self.last).end_ := by
  have hbounds := self.bounds
  have hbounds' := self.advancePreparation.bounds
  rw [h] at hbounds'
  obtain ⟨-,-,⟨-,hleft⟩ | ⟨hfull,-⟩⟩ := self.advancePreparation_cases
  · omega
  · simp only [treeEpochs,hfull]

theorem TreeKey.expand_bounds {start count : Nat} (h : start+count ≤ 256) :
    firstTree start*16 ≤ start ∧ start+count ≤ lastTree start count*16 ∧
      lastTree start count*16 ≤ 256 := by
  simp only [firstTree,lastTree]
  omega

theorem treeScheme_sliding {payloadLen : Nat} (h : payloadLen ≤ signatureLen) :
    (treeScheme payloadLen).Sliding where
  part := TreeKey.part
  connected := TreeKey.connected
  stands := TreeKey.stands
  fresh _ _ _ _ := rfl
  expands _ start count hfits := by
    obtain ⟨hstart,hend,-⟩ := (TreeKey.expand start.toNat count.toNat).bounds
    exact hstart ▸ hend ▸ TreeKey.expand_bounds hfits
  idempotent _ _ _ hfits := expand_again hfits
  publicKey _ _ _ _ := List.length_replicate
  signs _ _ _ _ := ⟨_,rfl,List.length_replicate⟩
  payload := h

/-- A key asked for fifty epochs. Epoch 40 lies in a tree that is not ready yet. -/
theorem key_window_and_reload_tree : ∃ key : SigningKey (treeScheme 2344), Obtained key ∧
    (∃ t, prepare 40 key = .ok () t) ∧ ∃ reloaded : SigningKey (treeScheme 2344),
      fromRecord _ key.toRecord = .ok reloaded ∧
      ∃ signature t, (prepare 40 >>= fun _ => sign 40 ByteVector.zero) reloaded =
        .ok signature t := by
  have hsliding := treeScheme_sliding (show 2344 ≤ signatureLen by decide)
  obtain ⟨pk,hkey⟩ := generateFromSeed_total hsliding ByteVector.zero
    (show (0 : UInt64).toNat+(50 : UInt64).toNat ≤ (256 : UInt64).toNat by decide)
  obtain ⟨-,hprepare,-,-,hreload⟩ := key_window_and_reload hsliding _
  obtain ⟨reloaded,hrecord,-,-,hsign⟩ := hreload (.generated hkey)
  refine ⟨_,.generated hkey,(hprepare 40).mpr ?_,reloaded,hrecord,(hsign 40 _).mpr ⟨?_,?_⟩⟩
  · decide
  · decide
  · intro last hlast
    cases hlast

end Devnet.Crypto
