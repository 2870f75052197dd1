import Devnet.Crypto.Containers

/-!
The key behind a signature. Whatever is done to a key, its secret is the generated one some moves
of the window later. What it signs is then accepted under the public key it was generated with,
and it signs every active epoch above its watermark.
-/

set_option autoImplicit false

namespace Devnet.Crypto
open Machine Wire Devnet.Types Devnet.Engine Devnet.Ssz

variable {S : SignatureScheme} {W : SchemeWire S}

def Later (first secret : S.SecretKey) : Prop := ∃ moves, secret = S.advancePreparation^[moves] first

theorem Later.refl (secret : S.SecretKey) : Later secret secret := ⟨0,rfl⟩

theorem Later.move {first secret : S.SecretKey} (h : Later first secret) :
    Later first (S.advancePreparation secret) := by
  obtain ⟨moves,rfl⟩ := h
  exact ⟨moves+1,(Function.iterate_succ_apply' _ _ _).symm⟩

theorem Later.trans {first m secret : S.SecretKey} (h : Later first m) (h' : Later m secret) :
    Later first secret := by
  obtain ⟨moves,rfl⟩ := h
  obtain ⟨more,rfl⟩ := h'
  exact ⟨more+moves,(Function.iterate_add_apply _ _ _ _).symm⟩

theorem Later.activation {first secret : S.SecretKey} (h : Later first secret) :
    S.activationInterval secret = S.activationInterval first := by
  obtain ⟨moves,rfl⟩ := h
  induction moves with
  | zero => rfl
  | succ moves ih => rw [Function.iterate_succ_apply',S.keeps,ih]

theorem prepare_later {epoch : UInt32} {key t : SigningKey S} (h : prepare epoch key = .ok () t) :
    Later key.secret t.secret := by
  have hwalk : ∀ {n : Nat} {r : S.SecretKey × Option CryptoError},
      loop (prepareRound epoch) () n key.secret = .ok r → Later key.secret r.1 := by
    intro n r hloop
    refine loop_sound (Later key.secret) (fun r => Later key.secret r.1) ?_ ?_ (Later.refl _) hloop
    · intro secret next hsecret hround
      rcases prepareRound_cases epoch secret with ⟨-,hcase⟩ | ⟨-,-,e,hcase⟩ | ⟨-,-,hcase⟩
      all_goals cases hcase.symm.trans hround
      exact hsecret.move
    · intro secret r hsecret hround
      rcases prepareRound_cases epoch secret with ⟨-,hcase⟩ | ⟨-,-,e,hcase⟩ | ⟨-,-,hcase⟩
      all_goals cases hcase.symm.trans hround
      · exact hsecret
      · exact hsecret.move
  unfold prepare at h
  rw [estate_get_bind] at h
  split_ifs at h
  · cases h
  · cases h
  · cases hloop : loop (prepareRound epoch) () (windowMoves key.secret+1) key.secret with
    | error u => rw [hloop] at h; cases h
    | ok r =>
      rw [hloop] at h
      obtain ⟨secret,_ | e⟩ := r
      · cases h
        exact hwalk hloop
      · cases h

/-- What is assumed of a scheme and its verifier: a public key that was generated is one, and what
the secret signs, at any time and for any epoch it holds ready, is encoded with the declared
offsets and accepted. -/
structure SchemeVerifier.Genuine (V : SchemeVerifier W) : Prop where
  sliding : S.Sliding
  splits : W.Splits
  canonical : W.layout.Canonical
  accepted : ∀ seed start count, start.toNat+count.toNat ≤ S.lifetime.toNat →
    ∃ pk, V.keyFromBytes (S.keyGen seed start count).1 = .ok pk ∧
      ∀ secret epoch message bytes, Later (S.keyGen seed start count).2 secret →
        (S.preparedInterval secret).contains epoch.toUInt64 = true →
        S.sign secret epoch message = some bytes →
        ∃ sig, readU32Le bytes 0 = some W.layout.offsetPath ∧
          readU32Le bytes 32 = some W.layout.offsetHashes ∧ W.fromBytes bytes = .ok sig ∧
          V.accepts pk epoch message sig = true

def settle {ε α : Type} (x : Outcome ε α) (h : Safe x) : Except ε α :=
  match x,h with
  | .ok a,_ => .ok a
  | .error (.refused e),_ => .error e
  | .error .panicked,h => absurd rfl h

theorem settle_ok {ε α : Type} {x : Outcome ε α} {a : α} (h : x = .ok a) (hsafe : Safe x) :
    settle x hsafe = .ok a := by
  subst h
  rfl

/-- `ProdVerifier`: the scheme behind the port of the engine. -/
def SchemeVerifier.Genuine.prodVerifier {V : SchemeVerifier W} (h : V.Genuine) : Verifier where
  verify publicKey epoch message signature :=
    settle (Crypto.verify V publicKey epoch message signature)
      (safe_verify h.splits h.canonical V publicKey epoch message signature)

theorem pubkey_generated {seed : Bytes32} {start count : UInt64} {pk : PublicKey}
    {key : SigningKey S} (h : generateFromSeed S seed start count = .ok (pk,key)) :
    pk.bytes = (S.keyGen seed start count).1 := by
  unfold generateFromSeed at h
  obtain ⟨-,h⟩ := guard_ok.mp h
  dsimp only at h
  split at h
  · cases h
    rfl
  · cases h

theorem signatureFromWire_of {bytes : List UInt8} {w : Signature} {sig : W.Signature}
    (hwire : signatureToWire S bytes = .ok w) (hpath : readU32Le bytes 0 = some W.layout.offsetPath)
    (hhashes : readU32Le bytes 32 = some W.layout.offsetHashes)
    (hsig : W.fromBytes bytes = .ok sig) : signatureFromWire W w = .ok sig := by
  obtain ⟨hlength,hbytes⟩ := signatureToWire_ok.mp hwire
  rw [W.declared] at hlength
  have hsize : w.bytes.length = signatureLen := w.size
  have hfront : w.bytes.take W.layout.payloadLen = bytes := by
    rw [hbytes]
    exact List.take_left' hlength
  have hrest : w.bytes.drop W.layout.payloadLen = List.replicate (signatureLen - bytes.length) 0 := by
    rw [hbytes]
    exact List.drop_left' hlength
  refine signatureFromWire_ok.mpr ⟨?_,fun byte hbyte => ?_,?_⟩
  · rw [hbytes,List.length_append] at hsize
    omega
  · rw [hrest] at hbyte
    exact List.eq_of_mem_replicate hbyte
  · rw [hfront]
    exact ⟨hpath,hhashes,hsig⟩

theorem SchemeVerifier.Genuine.verifies {V : SchemeVerifier W} (h : V.Genuine) {seed : Bytes32}
    {start count : UInt64} {pk : PublicKey} {key : SigningKey S}
    (hmade : generateFromSeed S seed start count = .ok (pk,key)) {secret : S.SecretKey}
    (hlater : Later (S.keyGen seed start count).2 secret) {epoch : UInt32} {message : Bytes32}
    {bytes : List UInt8} {w : Signature}
    (hready : (S.preparedInterval secret).contains epoch.toUInt64 = true)
    (hsigned : S.sign secret epoch message = some bytes)
    (hwire : signatureToWire S bytes = .ok w) : Crypto.verify V pk epoch message w = .ok () := by
  obtain ⟨hfits,-⟩ := generateFromSeed_ok hmade
  obtain ⟨vk,hkey,haccepted⟩ := h.accepted seed start count hfits
  obtain ⟨sig,hpath,hhashes,hsig,haccepts⟩ := haccepted secret epoch message bytes hlater hready hsigned
  have hfrom := signatureFromWire_of hwire hpath hhashes hsig
  have hwithin : ¬ S.lifetime ≤ epoch.toUInt64 := by
    have hbelow := (Interval.contains_iff.mp hready).2
    have hpart := (h.sliding.part secret).2
    have hlife := (h.sliding.expands seed start count hfits).2.2
    rw [hlater.activation] at hpart
    rw [UInt64.le_iff_toNat_le,UInt32.toNat_toUInt64]
    omega
  obtain ⟨hcoPath,hcount⟩ := counts_of_splits h.splits hfrom
  have hfirst := h.canonical.hashes
  have hsecond := h.canonical.payload
  have hchecked : epoch.toUInt64 < S.lifetime ∧ (W.coPath sig).length = W.layout.logLifetime ∧
      W.layout.dimension ≤ (W.hashes sig).length :=
    ⟨UInt64.not_le.mp hwithin,by omega,by omega⟩
  have hpk : publicKeyFromWire V pk = .ok vk := by
    rw [publicKeyFromWire,pubkey_generated hmade,hkey]
    rfl
  have hverify : V.verify vk epoch message sig = .ok true := by
    rw [SchemeVerifier.verify,if_pos hchecked,haccepts]
  rw [Crypto.verify,if_neg hwithin,hpk,hfrom]
  refine except_bind_ok.mpr ⟨vk,rfl,except_bind_ok.mpr ⟨sig,rfl,except_bind_ok.mpr ⟨true,hverify,?_⟩⟩⟩
  rfl

/-- A key in use: of this seed and interval, with a watermark that is an active epoch and a window
that is not past any epoch above it. -/
structure Serves (seed : Bytes32) (start count : UInt64) (key : SigningKey S) : Prop where
  fits : start.toNat+count.toNat ≤ S.lifetime.toNat
  seeded : key.seed = seed
  later : Later (S.keyGen seed start count).2 key.secret
  marked : ∀ last, key.lastSigned = some last →
    (S.activationInterval (S.keyGen seed start count).2).contains last.toUInt64 = true
  ahead : ∀ epoch : UInt32,
    (S.activationInterval (S.keyGen seed start count).2).contains epoch.toUInt64 = true →
    key.Unspent epoch → (S.preparedInterval key.secret).start.toNat ≤ epoch.toNat

theorem serves_fresh (h : S.Sliding) {seed : Bytes32} {start count : UInt64} {last : Option UInt32}
    (hfits : start.toNat+count.toNat ≤ S.lifetime.toNat)
    (hmarked : ∀ epoch, last = some epoch →
      (S.activationInterval (S.keyGen seed start count).2).contains epoch.toUInt64 = true) :
    Serves seed start count (⟨(S.keyGen seed start count).2,last,seed⟩ : SigningKey S) := by
  refine ⟨hfits,rfl,Later.refl _,hmarked,fun epoch hactive _ => ?_⟩
  rw [h.fresh seed start count hfits]
  exact (Interval.contains_iff.mp hactive).1

/-- Preparing and signing: refused, and the key is as good as before, or signed, and the signature
verifies. It is refused only for an epoch that is not active or not above the watermark. -/
theorem Serves.prepareSign {V : SchemeVerifier W} (h : V.Genuine) {seed : Bytes32}
    {start count : UInt64} {pk : PublicKey} {made key : SigningKey S}
    (hmade : generateFromSeed S seed start count = .ok (pk,made))
    (hkey : Serves seed start count key) (epoch : UInt32) (message : Bytes32) :
    (∃ e t, (prepare epoch >>= fun _ => sign epoch message) key = .error e t ∧
      Serves seed start count t ∧ t.lastSigned = key.lastSigned ∧
      ¬ ((S.activationInterval (S.keyGen seed start count).2).contains epoch.toUInt64 = true ∧
        key.Unspent epoch)) ∨
    ∃ w t, (prepare epoch >>= fun _ => sign epoch message) key = .ok w t ∧
      Serves seed start count t ∧ t.lastSigned = some epoch ∧
      Crypto.verify V pk epoch message w = .ok () := by
  have hsame := hkey.later.activation
  rcases prepare_cases h.sliding epoch key with
    ⟨⟨hactive,-⟩,secret,hprepare,hready,-⟩ | ⟨hnot,e,hprepare⟩
  · have hlater := hkey.later.trans (prepare_later hprepare)
    have hstart := (Interval.contains_iff.mp hready).1
    rw [hsame] at hactive
    rw [estate_bind_of_ok hprepare]
    by_cases hunspent : key.Unspent epoch
    · obtain ⟨bytes,hsigned,hlength⟩ := h.sliding.signs secret epoch message hready
      have hraw : signRaw epoch message { key with secret := secret } =
          .ok bytes { key with secret := secret, lastSigned := some epoch } :=
        signRaw_ok.mpr ⟨hunspent,hready,hsigned,rfl⟩
      obtain ⟨w,t,hsign⟩ := (sign_iff h.sliding).mpr
        (show SigningKey.Unspent { key with secret := secret } epoch ∧ _ from ⟨hunspent,hready⟩)
      obtain ⟨bytes',m,hraw',hcheck⟩ := estate_bind_ok.mp hsign
      cases hraw.symm.trans hraw'
      obtain ⟨hwire,rfl⟩ := check_ok.mp hcheck
      refine .inr ⟨w,_,hsign,⟨hkey.fits,hkey.seeded,hlater,?_,?_⟩,rfl,
        h.verifies hmade hlater hready hsigned hwire⟩
      · intro last hlast
        cases hlast
        exact hactive
      · intro other _ hother
        exact hstart.trans (UInt32.lt_iff_toNat_lt.mp (hother epoch rfl)).le
    · -- The epoch is not above the watermark, so that the window has not passed the watermark.
      obtain ⟨last,hlast,hle⟩ : ∃ last, key.lastSigned = some last ∧ ¬ last < epoch := by
        simpa [SigningKey.Unspent] using hunspent
      rcases signRaw_cases epoch message { key with secret := secret } with ⟨e,hraw⟩ | ⟨bytes,hraw,-⟩
      · refine .inl ⟨e,_,estate_bind_error.mpr (.inl hraw),
          ⟨hkey.fits,hkey.seeded,hlater,hkey.marked,fun other _ hother => ?_⟩,rfl,fun hboth => hunspent hboth.2⟩
        have hbelow := UInt32.lt_iff_toNat_lt.mp (hother last hlast)
        rw [UInt32.lt_iff_toNat_lt] at hle
        exact hstart.trans (by omega)
      · exact absurd (signRaw_ok.mp hraw).1 hunspent
  · refine .inl ⟨e,key,estate_bind_error.mpr (.inl hprepare),hkey,rfl,fun hboth => hnot ?_⟩
    rw [hsame]
    exact ⟨hboth.1,hkey.ahead epoch hboth.1 hboth.2⟩

end Devnet.Crypto
