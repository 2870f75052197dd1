import Devnet.Cli.Keygen
import Devnet.Crypto.Genuine
import Devnet.Duties.OneTime
import Devnet.Engine.Authentic

/-!
From the key ceremony to the votes of a running network. The public keys come out of the manifest
as they went in; each node restores the secrets of its group, signs through crashes and restarts,
and whatever it lets out verifies under the registry that every node has from the manifest.
-/

set_option autoImplicit false

namespace Devnet.Cli
open Machine WriteOnce Tables Devnet.Types Devnet.Ssz Devnet.Protocol Devnet.Engine Devnet.Crypto
  Devnet.Storage Devnet.Duties Devnet.Node

section Keys
variable {S : SignatureScheme} {activation activeEpochs : UInt64}

def NewKey.behind (self : NewKey S activation activeEpochs) (last : Option UInt32) : SigningKey S :=
  ⟨(S.keyGen self.seed activation activeEpochs).2,last,self.seed⟩

def NewKey.Exact (self : NewKey S activation activeEpochs) : Prop :=
  S.activationInterval (S.keyGen self.seed activation activeEpochs).2 =
    ⟨activation,activation+activeEpochs⟩

theorem NewKey.fits (self : NewKey S activation activeEpochs) :
    activation.toNat+activeEpochs.toNat ≤ S.lifetime.toNat := (generateFromSeed_ok self.made).1

theorem NewKey.record_eq (self : NewKey S activation activeEpochs) :
    self.record = (self.behind none).toRecord.toSszBytes := by
  rw [NewKey.record,(generateFromSeed_ok self.made).2]
  rfl

theorem NewKey.Exact.active_iff {self : NewKey S activation activeEpochs} (h : self.Exact)
    {epoch : UInt32} :
    (S.activationInterval (S.keyGen self.seed activation activeEpochs).2).contains epoch.toUInt64 =
      true ↔ activation.toNat ≤ epoch.toNat ∧
        epoch.toNat < activation.toNat+activeEpochs.toNat := by
  have hlife := S.lifetime.toNat_lt
  have hfits := self.fits
  have hend : (activation+activeEpochs).toNat = activation.toNat+activeEpochs.toNat := by
    rw [UInt64.toNat_add]
    exact Nat.mod_eq_of_lt (by omega)
  rw [h,Interval.contains_iff,hend]

def NewKey.Marks (self : NewKey S activation activeEpochs) (last : Option UInt32) : Prop :=
  ∀ epoch, last = some epoch →
    (S.activationInterval (S.keyGen self.seed activation activeEpochs).2).contains epoch.toUInt64 =
      true

theorem NewKey.restored (h : S.Sliding) {self : NewKey S activation activeEpochs}
    (hexact : self.Exact) {last : Option UInt32} (hmarks : self.Marks last) :
    fromRecord S (self.behind last).toRecord = .ok (self.behind last) := by
  have hsound : (self.behind last).Sound := ⟨⟨activation,activeEpochs,self.fits,rfl⟩,hmarks⟩
  have hcount : activation+activeEpochs-activation = activeEpochs := by
    rw [UInt64.add_comm,UInt64.add_sub_cancel]
  have hinterval : S.activationInterval (self.behind last).secret = _ := hexact
  rw [fromRecord_toRecord h hsound,hinterval,hcount]
  rfl

def NewKey.row (self : NewKey S activation activeEpochs) (seedCommitment : Bytes32 → Bytes32)
    (last : Option UInt32) : Option OtsWatermark :=
  last.map fun epoch => (self.behind (some epoch)).toWatermark seedCommitment

theorem NewKey.resolved (self : NewKey S activation activeEpochs)
    (seedCommitment : Bytes32 → Bytes32) (index : ValidatorIndex) (last : Option UInt32) :
    resolveRecord seedCommitment index (self.behind none).toRecord (self.row seedCommitment last) =
      .ok (self.behind last).toRecord := by
  cases last with
  | none => rfl
  | some epoch =>
    have hsame : ((self.behind (some epoch)).toWatermark seedCommitment).identifies
        (seedCommitment (self.behind none).toRecord.seed)
        (self.behind none).toRecord.activationEpoch
        (self.behind none).toRecord.numActiveEpochs ≠ false := by
      simp [OtsWatermark.identifies,SigningKey.toWatermark,SigningKey.toRecord,NewKey.behind]
    have hmax : max (0 : UInt64) (epoch.toUInt64+1) = epoch.toUInt64+1 :=
      if_pos (UInt64.le_iff_toNat_le.mpr (Nat.zero_le _))
    simp only [NewKey.row,Option.map_some,resolveRecord]
    rw [if_neg hsame]
    simp only [SigningKey.toWatermark,SigningKey.toRecord,NewKey.behind,hmax]

end Keys

section Stations
variable {S : SignatureScheme} {activation activeEpochs : UInt64}

structure Stocked (source : KeySource) (keys : List (NewKey S activation activeEpochs)) : Prop where
  secret : ∀ {v : ValidatorIndex} {key : NewKey S activation activeEpochs}, keys[v.get]? = some key →
    source.files (validatorSecretPath source.secretsDir v.get) = some key.record
  exact : ∀ key ∈ keys, key.Exact

structure Tried (key : NewKey S activation activeEpochs) (slots : List Nat)
    (last : Option UInt32) : Prop where
  marks : key.Marks last
  before : ∀ epoch, last = some epoch → epoch.toNat ∈ slots

theorem Tried.mono {key : NewKey S activation activeEpochs} {slots slots' : List Nat}
    {last : Option UInt32} (h : Tried key slots last) (hsub : slots ⊆ slots') :
    Tried key slots' last := ⟨h.marks,fun epoch hepoch => hsub (h.before epoch hepoch)⟩

def Stored (source : KeySource) (keys : List (NewKey S activation activeEpochs))
    (slots : ValidatorIndex → List Nat) (store : RedbStore) : Prop :=
  ∀ ⦃v : ValidatorIndex⦄ ⦃key : NewKey S activation activeEpochs⦄, keys[v.get]? = some key →
    ∃ last, Tried key (slots v) last ∧ store.otsKeyState[v]? =
      (key.row source.seedCommitment last).map OtsWatermark.toSszBytes

def Held (keys : List (NewKey S activation activeEpochs)) (slots : ValidatorIndex → List Nat)
    (table : BTreeMap ValidatorIndex (SigningKey S)) : Prop :=
  ∀ ⦃v : ValidatorIndex⦄ ⦃signing : SigningKey S⦄, table[v]? = some signing →
    ∃ key, keys[v.get]? = some key ∧ Serves key.seed activation activeEpochs signing ∧
      Tried key (slots v) signing.lastSigned

theorem Held.insert {keys : List (NewKey S activation activeEpochs)}
    {slots : ValidatorIndex → List Nat} {table : BTreeMap ValidatorIndex (SigningKey S)}
    (h : Held keys slots table) {v : ValidatorIndex} {signing : SigningKey S}
    {key : NewKey S activation activeEpochs} (hkey : keys[v.get]? = some key)
    (hserves : Serves key.seed activation activeEpochs signing)
    (htried : Tried key (slots v) signing.lastSigned) : Held keys slots (table.insert v signing) := by
  intro other held hother
  rw [Std.ExtTreeMap.getElem?_insert] at hother
  split at hother
  · next heq =>
    obtain rfl : v = other := Std.LawfulEqOrd.eq_of_compare heq
    obtain rfl := Option.some.inj hother
    exact ⟨key,hkey,hserves,htried⟩
  · exact h hother

theorem loadOtsKeyState_row {store : RedbStore} {v : ValidatorIndex} {row : Option OtsWatermark}
    (h : store.otsKeyState[v]? = row.map OtsWatermark.toSszBytes) :
    store.loadOtsKeyState none v = .ok row := by
  unfold RedbStore.loadOtsKeyState RedbStore.inReadTxn
  cases row with
  | none => simp only [h,Option.map_none]
  | some watermark =>
    simp only [h,Option.map_some,OtsWatermark.fromSszBytes_toSszBytes]
    rfl

theorem loadKey_cases (hS : S.Sliding) {source : KeySource}
    {keys : List (NewKey S activation activeEpochs)} (hstocked : Stocked source keys)
    {slots : ValidatorIndex → List Nat} {store : RedbStore} (hstored : Stored source keys slots store)
    {v : ValidatorIndex} {key : NewKey S activation activeEpochs} (hkey : keys[v.get]? = some key)
    (faults : ValidatorIndex → Fault) (table : BTreeMap ValidatorIndex (SigningKey S)) :
    (∃ signing, loadKey source store faults table v = .ok (table.insert v signing) ∧
      Serves key.seed activation activeEpochs signing ∧ Tried key (slots v) signing.lastSigned) ∨
    faults v ≠ none ∧ ∃ e, loadKey source store faults table v = .error e := by
  have hread : readSecretRecord source.files source.secretsDir v =
      .ok (key.behind none).toRecord := by
    rw [readSecretRecord,hstocked.secret hkey,key.record_eq]
    simp only [OtsKeyState.fromSszBytes_toSszBytes]
    rfl
  obtain ⟨last,htried,hrow⟩ := hstored hkey
  have hexact := hstocked.exact key (List.mem_of_getElem? hkey)
  unfold loadKey
  rw [hread]
  cases hfault : faults v with
  | some e => exact .inr ⟨by simp,_,rfl⟩
  | none =>
    refine .inl ⟨key.behind last,?_,serves_fresh hS key.fits htried.marks,htried⟩
    simp only [except_bind_ok,mapError_ok]
    exact ⟨_,rfl,_,loadOtsKeyState_row hrow,_,key.resolved _ v last,_,
      NewKey.restored hS hexact htried.marks,rfl⟩

theorem loadKeys_cases (hS : S.Sliding) {source : KeySource}
    {keys : List (NewKey S activation activeEpochs)} (hstocked : Stocked source keys)
    {slots : ValidatorIndex → List Nat} {store : RedbStore} (hstored : Stored source keys slots store)
    (faults : ValidatorIndex → Fault) (indices : List ValidatorIndex)
    (hindices : ∀ v ∈ indices, v.get < keys.length)
    (table : BTreeMap ValidatorIndex (SigningKey S)) (htable : Held keys slots table) :
    (∃ loaded, indices.foldlM (loadKey source store faults) table = .ok loaded ∧
      Held keys slots loaded ∧ ∀ v, v ∈ table ∨ v ∈ indices → v ∈ loaded) ∨
    (∃ v ∈ indices, faults v ≠ none) ∧
      ∃ e, indices.foldlM (loadKey source store faults) table = .error e := by
  induction indices generalizing table with
  | nil => exact .inl ⟨table,rfl,htable,by simp⟩
  | cons v rest ih =>
    have hlt := hindices v List.mem_cons_self
    have hkey : keys[v.get]? = some keys[v.get] := List.getElem?_eq_getElem hlt
    rw [List.foldlM_cons]
    rcases loadKey_cases hS hstocked hstored hkey faults table with
      ⟨signing,hload,hserves,htried⟩ | ⟨hfault,e,hload⟩
    · rw [hload]
      rcases ih (fun w hw => hindices w (List.mem_cons_of_mem _ hw)) (table.insert v signing)
        (htable.insert hkey hserves htried) with ⟨loaded,hrest,hheld,hall⟩ | ⟨⟨w,hw,hfault⟩,e,hrest⟩
      · refine .inl ⟨loaded,hrest,hheld,fun w hw => hall w ?_⟩
        rcases hw with hw | hw
        · exact .inl (Std.ExtTreeMap.mem_insert.mpr (.inr hw))
        · rcases List.mem_cons.mp hw with rfl | hw
          · exact .inl (Std.ExtTreeMap.mem_insert.mpr (.inl Std.ReflCmp.compare_self))
          · exact .inr hw
      · exact .inr ⟨⟨w,List.mem_cons_of_mem _ hw,hfault⟩,e,hrest⟩
    · rw [hload]
      exact .inr ⟨⟨v,List.mem_cons_self,hfault⟩,e,rfl⟩

def also (slots : ValidatorIndex → List Nat) (att : Attestation) (v : ValidatorIndex) : List Nat :=
  if att.validatorId = v then slots v ++ [att.data.slot.get] else slots v

theorem subset_also (slots : ValidatorIndex → List Nat) (att : Attestation) (v : ValidatorIndex) :
    slots v ⊆ also slots att v := by
  unfold also
  split
  · exact List.subset_append_left _ _
  · exact List.Subset.refl _

theorem Held.mono {keys : List (NewKey S activation activeEpochs)}
    {slots slots' : ValidatorIndex → List Nat} {table : BTreeMap ValidatorIndex (SigningKey S)}
    (h : Held keys slots table) (hsub : ∀ v, slots v ⊆ slots' v) : Held keys slots' table := by
  intro v signing hsigning
  obtain ⟨key,hkey,hserves,htried⟩ := h hsigning
  exact ⟨key,hkey,hserves,htried.mono (hsub v)⟩

theorem Stored.mono {source : KeySource} {keys : List (NewKey S activation activeEpochs)}
    {slots slots' : ValidatorIndex → List Nat} {store : RedbStore}
    (h : Stored source keys slots store) (hsub : ∀ v, slots v ⊆ slots' v) :
    Stored source keys slots' store := by
  intro v key hkey
  obtain ⟨last,htried,hrow⟩ := h hkey
  exact ⟨last,htried.mono (hsub v),hrow⟩

end Stations

section Signing
variable [HashPair] {S : SignatureScheme} {W : SchemeWire S} {activation activeEpochs : UInt64}

/-- A vote that a signer has to sign: one of its validators', in the interval, and for a later slot
than any it was asked for before. -/
structure Due (activation activeEpochs : UInt64) (slots : ValidatorIndex → List Nat)
    (table : BTreeMap ValidatorIndex (SigningKey S)) (att : Attestation) : Prop where
  held : att.validatorId ∈ table
  active : activation.toNat ≤ att.data.slot.get ∧
    att.data.slot.get < activation.toNat+activeEpochs.toNat
  later : ∀ slot ∈ slots att.validatorId, slot < att.data.slot.get

def Passes (V : SchemeVerifier W) (keys : List (NewKey S activation activeEpochs)) (att : Attestation)
    (w : Signature) : Prop :=
  ∃ key epoch message, keys[att.validatorId.get]? = some key ∧
    attestationSigningInputs att = .ok (epoch,message) ∧
    Crypto.verify V key.pubkey epoch message w = .ok ()

/-- A vote is refused only if it is not due. What is signed passes, and the key is then at its
epoch. -/
theorem localSign_held {V : SchemeVerifier W} (hV : V.Genuine) (hlife : S.lifetime.toNat ≤ 2^32)
    {keys : List (NewKey S activation activeEpochs)} (hexact : ∀ key ∈ keys, key.Exact)
    {slots : ValidatorIndex → List Nat} {s : LocalSigner S} (hs : Held keys slots s.keys)
    (att : Attestation) :
    (∃ e t, LocalSigner.signAttestation att s = .error e t ∧ Held keys (also slots att) t.keys ∧
      ¬ Due activation activeEpochs slots s.keys att) ∨
    ∃ w t, LocalSigner.signAttestation att s = .ok w t ∧ Held keys (also slots att) t.keys ∧
      Passes V keys att w ∧ ∃ key signing epoch, keys[att.validatorId.get]? = some key ∧
        t.keys[att.validatorId]? = some signing ∧ signing.lastSigned = some epoch ∧
        Serves key.seed activation activeEpochs signing ∧
        Tried key (also slots att att.validatorId) (some epoch) := by
  have hmore : Held keys (also slots att) s.keys := hs.mono (subset_also slots att)
  unfold LocalSigner.signAttestation
  cases hsigning : s.keys[att.validatorId]? with
  | none =>
    refine .inl ⟨_,s,rfl,hmore,fun hdue => ?_⟩
    have hheld := hdue.held
    rw [Std.ExtTreeMap.mem_iff_isSome_getElem?,hsigning] at hheld
    cases hheld
  | some signing =>
    obtain ⟨key,hkey,hserves,htried⟩ := hs hsigning
    have hfits := hserves.fits
    have hinterval := hexact key (List.mem_of_getElem? hkey)
    cases hinputs : attestationSigningInputs att with
    | error e =>
      refine .inl ⟨_,s,rfl,hmore,fun hdue => ?_⟩
      have hslot : att.data.slot.get < 2^32 := by
        have hbelow := hdue.active.2
        omega
      rw [attestationSigningInputs,if_pos hslot] at hinputs
      cases hinputs
    | ok inputs =>
      obtain ⟨epoch,message⟩ := inputs
      have hepoch := attestationSigningInputs_epoch hinputs
      rcases hserves.prepareSign hV key.made epoch message with
        ⟨e,t,hrun,hnext,hlast,hnot⟩ | ⟨w,t,hrun,hnext,hlast,hverify⟩
      · refine .inl ⟨.crypto e,⟨s.keys.insert att.validatorId t⟩,by simp only [hrun],?_,fun hdue => ?_⟩
        · exact hmore.insert hkey hnext (hlast ▸ htried.mono (subset_also slots att _))
        · refine hnot ⟨hinterval.active_iff.mpr (hepoch ▸ hdue.active),fun last hmark => ?_⟩
          rw [UInt32.lt_iff_toNat_lt,hepoch]
          exact hdue.later _ (htried.before last hmark)
      · have hbefore : Tried key (also slots att att.validatorId) (some epoch) := by
          refine ⟨fun last hmark => ?_,fun last hmark => ?_⟩
          · exact hnext.marked last (hlast.trans hmark)
          · cases hmark
            rw [hepoch,also,if_pos rfl]
            exact List.mem_append_right _ (List.mem_singleton_self _)
        refine .inr ⟨w,⟨s.keys.insert att.validatorId t⟩,by simp only [hrun],?_,
          ⟨key,epoch,message,hkey,hinputs,hverify⟩,key,t,epoch,hkey,by simp,hlast,hnext,hbefore⟩
        exact hmore.insert hkey hnext (hlast ▸ hbefore)

omit [HashPair] in
theorem watermark_eq {key : NewKey S activation activeEpochs} {signing : SigningKey S} {epoch : UInt32}
    (h : Serves key.seed activation activeEpochs signing) (hlast : signing.lastSigned = some epoch)
    (seedCommitment : Bytes32 → Bytes32) :
    some (signing.toWatermark seedCommitment) = key.row seedCommitment (some epoch) := by
  have hinterval := h.later.activation
  simp only [NewKey.row,Option.map_some,SigningKey.toWatermark,NewKey.behind,hinterval,hlast,h.seeded]

omit [HashPair] in
theorem Stored.put {source : KeySource} {keys : List (NewKey S activation activeEpochs)}
    {slots : ValidatorIndex → List Nat} {store : RedbStore} (h : Stored source keys slots store)
    {v : ValidatorIndex} {key : NewKey S activation activeEpochs} (hkey : keys[v.get]? = some key)
    {epoch : UInt32} {watermark : OtsWatermark} (htried : Tried key (slots v) (some epoch))
    (hrow : some watermark = key.row source.seedCommitment (some epoch)) :
    Stored source keys slots (store.putOtsKeyState v watermark) := by
  intro other key' hkey'
  by_cases heq : v = other
  · subst heq
    obtain rfl := Option.some.inj (hkey.symm.trans hkey')
    refine ⟨some epoch,htried,?_⟩
    rw [← hrow]
    simp [RedbStore.putOtsKeyState]
  · obtain ⟨last,hlast,hold⟩ := h hkey'
    refine ⟨last,hlast,?_⟩
    rw [← hold]
    simp [RedbStore.putOtsKeyState,Std.ExtTreeMap.getElem?_insert,heq]

theorem otsSign_held {V : SchemeVerifier W} (hV : V.Genuine) (hlife : S.lifetime.toNat ≤ 2^32)
    {source : KeySource} {keys : List (NewKey S activation activeEpochs)}
    (hexact : ∀ key ∈ keys, key.Exact) {slots : ValidatorIndex → List Nat} {s : OtsSigner S}
    (hs : Held keys slots s.inner.keys) (hstored : Stored source keys slots s.store)
    (att : Attestation) (fault : Fault) :
    (∃ e t, OtsSigner.signAttestation source.seedCommitment fault att s = .error e t ∧
      Held keys (also slots att) t.inner.keys ∧ Stored source keys (also slots att) t.store ∧
      (fault = none → ¬ Due activation activeEpochs slots s.inner.keys att)) ∨
    ∃ w t, OtsSigner.signAttestation source.seedCommitment fault att s = .ok w t ∧
      Held keys (also slots att) t.inner.keys ∧ Stored source keys (also slots att) t.store ∧
      Passes V keys att w := by
  have hmore : Stored source keys (also slots att) s.store := hstored.mono (subset_also slots att)
  unfold OtsSigner.signAttestation
  rcases localSign_held hV hlife hexact hs att with
    ⟨e,t,hrun,hheld,hnot⟩ | ⟨w,t,hrun,hheld,hpasses,key,signing,epoch,hkey,hsigning,hlast,hserves,htried⟩
  · exact .inl ⟨e,{ s with inner := t },by simp only [hrun],hheld,hmore,fun _ => hnot⟩
  · have hwatermark : t.watermarkFor source.seedCommitment att.validatorId =
        some (signing.toWatermark source.seedCommitment) := by
      simp [LocalSigner.watermarkFor,hsigning]
    cases fault with
    | some e =>
      refine .inl ⟨.persist att.validatorId.get e,⟨t,s.store⟩,?_,hheld,hmore,fun h => by cases h⟩
      simp only [hrun,hwatermark]
      rfl
    | none =>
      refine .inr ⟨w,⟨t,s.store.putOtsKeyState att.validatorId
        (signing.toWatermark source.seedCommitment)⟩,?_,hheld,?_,hpasses⟩
      · simp only [hrun,hwatermark]
        rfl
      · exact hmore.put hkey htried (watermark_eq hserves hlast _)

end Signing

section Runs
variable [HashPair] {S : SignatureScheme} {W : SchemeWire S} {activation activeEpochs : UInt64}

/-- A node of the network, whether its signer is running or not. -/
structure Sworn (source : KeySource) (keys : List (NewKey S activation activeEpochs))
    (slots : ValidatorIndex → List Nat) (st : Station S) : Prop where
  stored : Stored source keys slots st.store
  held : ∀ inner, st.inner = some inner → Held keys slots inner.keys

def asked : SignerEvent → Option Attestation
  | .signAttestation att _ => some att
  | .crashSigning att _ => some att
  | _ => none

def requested (events : List SignerEvent) (v : ValidatorIndex) : List Nat :=
  ((events.filterMap asked).filter fun att => att.validatorId = v).map fun att => att.data.slot.get

omit [HashPair] in
theorem requested_quiet (events : List SignerEvent) {event : SignerEvent} (h : asked event = none) :
    requested (events ++ [event]) = requested events := by
  funext v
  simp [requested,h]

omit [HashPair] in
theorem requested_asked (events : List SignerEvent) {event : SignerEvent} {att : Attestation}
    (h : asked event = some att) : requested (events ++ [event]) = also (requested events) att := by
  funext v
  by_cases hv : att.validatorId = v
  · simp [requested,also,h,hv]
  · simp [requested,also,h,hv]

def Given (count : Nat) : SignerEvent → Prop
  | .start localIndices _ => ∀ v ∈ localIndices, v.get < count
  | _ => True

variable {V : SchemeVerifier W} {source : KeySource} {keys : List (NewKey S activation activeEpochs)}

omit [HashPair] in
theorem Sworn.stopped {slots : ValidatorIndex → List Nat} {store : RedbStore}
    (h : Stored source keys slots store) : Sworn source keys slots ⟨none,store⟩ :=
  ⟨h,fun inner hinner => by cases hinner⟩

omit [HashPair] in
theorem Sworn.running {slots : ValidatorIndex → List Nat} {store : RedbStore} {inner : LocalSigner S}
    (h : Stored source keys slots store) (hheld : Held keys slots inner.keys) :
    Sworn source keys slots ⟨some inner,store⟩ := by
  refine ⟨h,fun other hother => ?_⟩
  obtain rfl := Option.some.inj hother
  exact hheld

omit [HashPair] in
theorem Sworn.start (hS : S.Sliding) (hstocked : Stocked source keys)
    {slots : ValidatorIndex → List Nat} {st : Station S} (h : Sworn source keys slots st)
    {localIndices : List ValidatorIndex} (hgiven : ∀ v ∈ localIndices, v.get < keys.length)
    (faults : ValidatorIndex → Fault) :
    (∃ inner, loadResuming source st.store faults localIndices = .ok inner ∧
      Held keys slots inner.keys ∧ ∀ v ∈ localIndices, v ∈ inner.keys) ∨
    (∃ v ∈ localIndices, faults v ≠ none) ∧
      ∃ e, loadResuming (S := S) source st.store faults localIndices = .error e := by
  have hempty : Held keys slots (∅ : BTreeMap ValidatorIndex (SigningKey S)) := by
    intro v signing hsigning
    simp at hsigning
  unfold loadResuming
  rcases loadKeys_cases hS hstocked h.stored faults localIndices hgiven ∅ hempty with
    ⟨loaded,hload,hheld,hall⟩ | ⟨hfault,e,hload⟩
  · exact .inl ⟨⟨loaded⟩,by rw [hload]; rfl,hheld,fun v hv => hall v (.inr hv)⟩
  · exact .inr ⟨hfault,e,by rw [hload]; rfl⟩

theorem Sworn.sign (hV : V.Genuine) (hlife : S.lifetime.toNat ≤ 2^32)
    (hstocked : Stocked source keys) {slots : ValidatorIndex → List Nat} {st : Station S}
    (h : Sworn source keys slots st) (att : Attestation) (fault : Fault) :
    Sworn source keys (also slots att) (operate source (.signAttestation att fault) st).2 ∧
      ∀ release ∈ (operate source (.signAttestation att fault) st).1,
        Passes V keys att release.signature := by
  obtain ⟨inner,store⟩ := st
  unfold operate
  cases inner with
  | none => exact ⟨.stopped (h.stored.mono (subset_also _ att)),by simp⟩
  | some inner =>
    rcases otsSign_held hV hlife hstocked.exact (s := ⟨inner,store⟩) (h.held inner rfl) h.stored att
      fault with ⟨e,m,hrun,hm,hstored,-⟩ | ⟨w,m,hrun,hm,hstored,hpasses⟩
    · simp only [hrun]
      exact ⟨.running hstored hm,by simp⟩
    · simp only [hrun]
      refine ⟨.running hstored hm,fun release hrelease => ?_⟩
      obtain rfl := List.mem_singleton.mp hrelease
      exact hpasses

theorem Sworn.crashSigning (hV : V.Genuine) (hlife : S.lifetime.toNat ≤ 2^32)
    (hstocked : Stocked source keys) {slots : ValidatorIndex → List Nat} {st : Station S}
    (h : Sworn source keys slots st) (att : Attestation) (fault : Fault) :
    Sworn source keys (also slots att) (operate source (.crashSigning att fault) st).2 := by
  obtain ⟨inner,store⟩ := st
  unfold operate
  cases inner with
  | none => exact .stopped (h.stored.mono (subset_also _ att))
  | some inner =>
    refine .stopped ?_
    rcases otsSign_held hV hlife hstocked.exact (s := ⟨inner,store⟩) (h.held inner rfl) h.stored att
      fault with ⟨e,m,hrun,-,hstored,-⟩ | ⟨w,m,hrun,-,hstored,-⟩
    · rw [after_of_error hrun]
      exact hstored
    · rw [after_of_ok hrun]
      exact hstored

/-- One event keeps a node in order, and what it lets out passes. -/
theorem Sworn.step (hV : V.Genuine) (hlife : S.lifetime.toNat ≤ 2^32)
    (hstocked : Stocked source keys) {events : List SignerEvent} {st t : Station S}
    (h : Sworn source keys (requested events) st) {event : SignerEvent}
    (hgiven : Given keys.length event) {out : List Release} (hstep : Operates source st event out t) :
    Sworn source keys (requested (events ++ [event])) t ∧
      ∀ att fault, event = .signAttestation att fault → ∀ release ∈ out,
        Passes V keys att release.signature := by
  obtain rfl : (operate source event st).1 = out := congrArg Prod.fst hstep
  obtain rfl : (operate source event st).2 = t := congrArg Prod.snd hstep
  cases event with
  | start localIndices faults =>
    rw [requested_quiet events rfl]
    refine ⟨?_,fun _ _ hevent => by cases hevent⟩
    unfold operate
    rcases h.start hV.sliding hstocked hgiven faults with ⟨loaded,hload,hheld,-⟩ | ⟨-,e,hload⟩
    · simp only [hload]
      exact .running h.stored hheld
    · simp only [hload]
      exact .stopped h.stored
  | crash =>
    rw [requested_quiet events rfl]
    exact ⟨.stopped h.stored,fun _ _ hevent => by cases hevent⟩
  | signAttestation att fault =>
    rw [requested_asked events rfl]
    obtain ⟨hnext,hpasses⟩ := h.sign hV hlife hstocked att fault
    refine ⟨hnext,fun other _ hevent => ?_⟩
    cases hevent
    exact hpasses
  | crashSigning att fault =>
    rw [requested_asked events rfl]
    exact ⟨h.crashSigning hV hlife hstocked att fault,fun _ _ hevent => by cases hevent⟩

theorem sworn_run (hV : V.Genuine) (hlife : S.lifetime.toNat ≤ 2^32) (hstocked : Stocked source keys)
    {store : RedbStore} (hfresh : ∀ v : ValidatorIndex, v.get < keys.length →
      store.otsKeyState[v]? = none) {events : List SignerEvent} {outs : List (List Release)}
    {st : Station S} (hrun : Run (Operates source) ⟨none,store⟩ events outs st)
    (hgiven : ∀ event ∈ events, Given keys.length event) :
    Sworn source keys (requested events) st ∧ ∀ att fault out,
      (SignerEvent.signAttestation att fault,out) ∈ events.zip outs → ∀ release ∈ out,
        Passes V keys att release.signature := by
  refine hrun.invariant (fun events outs st => (∀ event ∈ events, Given keys.length event) →
    Sworn source keys (requested events) st ∧ ∀ att fault out,
      (SignerEvent.signAttestation att fault,out) ∈ events.zip outs → ∀ release ∈ out,
        Passes V keys att release.signature) ?_ ?_ hgiven
  · intro _
    refine ⟨⟨fun v key hkey => ⟨none,⟨by simp [NewKey.Marks],by simp⟩,?_⟩,by simp⟩,by simp⟩
    exact hfresh v (List.getElem?_eq_some_iff.mp hkey).1
  · intro earlier before m event out t hbefore ih hstep hall
    obtain ⟨hm,hpassed⟩ := ih fun event hevent => hall event (List.mem_append_left _ hevent)
    obtain ⟨ht,hout⟩ := hm.step hV hlife hstocked
      (hall event (List.mem_append_right _ (List.mem_singleton_self _))) hstep
    refine ⟨ht,fun att fault out' hpair => ?_⟩
    rw [List.zip_append hbefore.length_eq,List.mem_append] at hpair
    rcases hpair with hpair | hpair
    · exact hpassed att fault out' hpair
    · obtain ⟨hevent,rfl⟩ := Prod.mk.inj (List.mem_singleton.mp hpair)
      exact hout att fault hevent.symm

theorem Sworn.serves (hV : V.Genuine) (hlife : S.lifetime.toNat ≤ 2^32)
    (hexact : ∀ key ∈ keys, key.Exact) {slots : ValidatorIndex → List Nat} {st : Station S}
    (h : Sworn source keys slots st) {inner : LocalSigner S} (hinner : st.inner = some inner)
    {att : Attestation} (hdue : Due activation activeEpochs slots inner.keys att) :
    ∃ w t, operate source (.signAttestation att none) st =
      ([⟨att.validatorId,att.data.slot.get,w⟩],t) ∧ Passes V keys att w := by
  rcases otsSign_held hV hlife hexact (s := ⟨inner,st.store⟩) (h.held inner hinner) h.stored att none
    with ⟨e,m,-,-,-,hnot⟩ | ⟨w,m,hrun,-,-,hpasses⟩
  · exact absurd hdue (hnot rfl)
  · exact ⟨w,⟨some m.inner,m.store⟩,by simp only [operate,hinner,hrun],hpasses⟩

theorem Passes.verifies (hV : V.Genuine) {att : Attestation} {w : Signature}
    (h : Passes V keys att w) :
    verifyOne hV.prodVerifier (registryOf (keys.map NewKey.pubkey)) att w = .ok () := by
  obtain ⟨key,epoch,message,hkey,hinputs,hverify⟩ := h
  refine verifyOne_ok.mpr ⟨key.pubkey,epoch,message,?_,hinputs,settle_ok hverify _⟩
  simp [registryKey,registryOf,hkey]

end Runs

section Manifests
variable {pubkeys : List PublicKey}

theorem length_manifestText (pubkeys : List PublicKey) :
    (manifestText (pubkeys.map fun pubkey => hexEncode pubkey.bytes)).length =
      20+109*pubkeys.length := by
  have hline : ∀ pubkey : PublicKey, (manifestLine (hexEncode pubkey.bytes)).length = 109 := by
    intro pubkey
    have hsize : pubkey.bytes.length = 52 := pubkey.size
    simp only [manifestLine,List.length_append,length_hexEncode,hsize]
    rfl
  rw [manifestText,List.length_append,List.flatMap_map,List.length_flatMap]
  simp only [hline,List.map_const',List.sum_replicate,smul_eq_mul]
  rw [Nat.mul_comm]
  rfl

theorem plain_manifestText (pubkeys : List PublicKey) {c : UInt8}
    (hc : c ∈ manifestText (pubkeys.map fun pubkey => hexEncode pubkey.bytes)) : c ≠ 38 ∧ c ≠ 42 := by
  have hheader : ∀ c ∈ manifestHeader, c ≠ 38 ∧ c ≠ 42 := by simp [manifestHeader]
  have hfront : ∀ c ∈ ([32,32,45,32] : List UInt8), c ≠ 38 ∧ c ≠ 42 := by simp
  have hnewline : ∀ c ∈ ([10] : List UInt8), c ≠ 38 ∧ c ≠ 42 := by simp
  rw [manifestText,List.flatMap_map] at hc
  rcases List.mem_append.mp hc with hc | hc
  · exact hheader c hc
  · obtain ⟨pubkey,-,hc⟩ := List.mem_flatMap.mp hc
    rcases List.mem_append.mp hc with hc | hc
    · rcases List.mem_append.mp hc with hc | hc
      · exact hfront c hc
      · obtain ⟨value,hvalue⟩ := digit_of_mem_hexEncode hc
        refine ⟨?_,?_⟩ <;> rintro rfl <;> cases hvalue
    · exact hnewline c hc

end Manifests

section Networks
variable [Yaml] {S : SignatureScheme} {W : SchemeWire S} {R : Type} {fillBytes : R → Bytes32 × R}
  {params : KeygenParams} {faults : KeygenFaults} {bench done : Bench R} {pubkeys : List PublicKey}
  {assignments : ValidatorAssignments}

/-- What is assumed of the libraries. The scheme has the lifetime that the command reckons with, and
an interval that starts at a multiple of its root is taken as it is. The YAML reader finds the
scalars of a block sequence of hex digits. -/
structure Dependable (V : SchemeVerifier W) : Prop where
  genuine : V.Genuine
  lifetime : S.lifetime = Cli.lifetime
  aligned : ∀ seed start, start % sqrtLifetime = 0 →
    start.toNat+sharedKeysetActiveEpochs.toNat ≤ S.lifetime.toNat →
    S.activationInterval (S.keyGen seed start sharedKeysetActiveEpochs).2 =
      ⟨start,start+sharedKeysetActiveEpochs⟩
  reads : ∀ scalars : List (List UInt8), scalars ≠ [] →
    (∀ scalar ∈ scalars, scalar ≠ [] ∧ ∀ c ∈ scalar, ∃ value, hexNibble c = .ok value) →
    Yaml.rawManifest (manifestText scalars) = .ok scalars

omit [Yaml] in
theorem validate_ok (h : params.validate = .ok ()) :
    (1 ≤ params.count.toNat ∧ params.count.toNat ≤ validatorRegistryLimit) ∧
      params.activationEpoch % sqrtLifetime = 0 := by
  obtain ⟨hcount,h⟩ := guard_ok.mp h
  obtain ⟨haligned,-⟩ := guard_ok.mp h
  exact ⟨not_not.mp hcount,not_not.mp haligned⟩

theorem Dependable.exact {V : SchemeVerifier W} (h : Dependable V) (hvalid : params.validate = .ok ())
    (key : params.Key S) : key.Exact :=
  h.aligned key.seed params.activationEpoch (validate_ok hvalid).2 key.fits

omit [Yaml] in
theorem keygen_outputs (h : generateValidatorKeys S fillBytes params faults bench = .ok pubkeys done) :
    params.validate = .ok () ∧ ∃ keys : List (params.Key S), keys.length = params.count.toNat ∧
      keys.map NewKey.pubkey = pubkeys ∧ Lays bench.files (outputs params keys) done.files := by
  rcases generateValidatorKeys_cases S fillBytes params faults bench with
    ⟨e,hrun⟩ | ⟨hvalid,t,⟨e,hrun,-⟩ | ⟨keys,hall,hrun,hlays⟩⟩
  · cases h.symm.trans hrun
  · cases h.symm.trans hrun
  · cases h.symm.trans hrun
    exact ⟨hvalid,keys,hall,rfl,hlays⟩

omit [Yaml] in
theorem group_lt {raw : BTreeMap String (List UInt64)} (h : fromCanonical raw = .ok assignments)
    {name : String} {owned : List ValidatorIndex} (hname : assignments.group name = some owned)
    {v : ValidatorIndex} (hv : v ∈ owned) : v.get < assignments.totalValidators.toNat := by
  rcases fromCanonical_cases raw with ⟨total,hraw,hok⟩ | ⟨-,e,herror⟩
  · obtain rfl := Except.ok.inj (hok.symm.trans h)
    simp only [ValidatorAssignments.group,groupsOf,Std.ExtTreeMap.getElem?_map] at hname
    obtain ⟨indices,hindices,rfl⟩ := Option.map_eq_some_iff.mp hname
    obtain ⟨index,hindex,rfl⟩ := List.mem_map.mp hv
    refine List.mem_range.mp (hraw.complete.mem_iff.mp (List.mem_map_of_mem ?_))
    exact List.mem_flatten.mpr ⟨indices,mem_rowsOf.mpr ⟨name,hindices⟩,hindex⟩
  · cases h.symm.trans herror

theorem registry_loads {V : SchemeVerifier W} (hV : Dependable V)
    {keys : List (params.Key S)} (hvalid : params.validate = .ok ())
    (hlength : keys.length = params.count.toNat)
    (hlays : Lays bench.files (outputs params keys) done.files)
    (htotal : assignments.totalValidators = params.count)
    (habsolute : params.manifestPath.toList.head? = some '/') (crateRoot : String) :
    loadGenesisRegistry done.files crateRoot assignments params.manifestPath =
      .ok (registryOf (keys.map NewKey.pubkey)) := by
  obtain ⟨⟨hpos,hlimit⟩,-⟩ := validate_ok hvalid
  have hsome : keys.map NewKey.pubkey ≠ [] := by
    rw [ne_eq,List.map_eq_nil_iff,← List.length_eq_zero_iff]
    omega
  have hfile := (hlays.written (List.mem_append_right _ (List.mem_singleton_self _))).2
  have htext : serializeManifest (keys.map NewKey.pubkey) =
      manifestText ((keys.map NewKey.pubkey).map fun pubkey => hexEncode pubkey.bytes) := by
    refine if_neg fun hempty => hsome ?_
    exact List.isEmpty_iff.mp hempty
  rw [htext] at hfile
  refine loadGenesisRegistry_of habsolute hfile ?_ ⟨fun hc => ?_,fun hc => ?_⟩ (hV.reads _ ?_ ?_) ?_
  · rw [length_manifestText,List.length_map,hlength]
    refine (Nat.add_le_add_left (Nat.mul_le_mul_left 109 hlimit) 20).trans ?_
    decide
  · exact (plain_manifestText _ hc).1 rfl
  · exact (plain_manifestText _ hc).2 rfl
  · simpa using hsome
  · intro scalar hscalar
    obtain ⟨pubkey,-,rfl⟩ := List.mem_map.mp hscalar
    refine ⟨fun hnil => ?_,fun c hc => digit_of_mem_hexEncode hc⟩
    have hwidth := length_hexEncode pubkey.bytes
    rw [hnil,pubkey.size] at hwidth
    cases hwidth
  · rw [htotal,List.length_map,hlength,UInt64.ofNat_toNat]

variable (S fillBytes params faults bench done pubkeys assignments) in
omit [Yaml] in
/-- A network as it is set up: one run of the command made a key for every validator that is
assigned, and the nodes read what it wrote. -/
structure Ceremony (source : KeySource) : Prop where
  keyed : generateValidatorKeys S fillBytes params faults bench = .ok pubkeys done
  assigned : ∃ raw, fromCanonical raw = .ok assignments
  total : assignments.totalValidators = params.count
  absolute : params.manifestPath.toList.head? = some '/'
  files : source.files = done.files
  secrets : source.secretsDir = params.outDir

omit [Yaml] in
theorem stocked_of_outputs {source : KeySource} {keys : List (params.Key S)}
    (hfiles : source.files = done.files) (hsecrets : source.secretsDir = params.outDir)
    (hlays : Lays bench.files (outputs params keys) done.files) (hexact : ∀ key ∈ keys, key.Exact) :
    Stocked source keys := by
  refine ⟨fun {v key} hkey => ?_,hexact⟩
  rw [hfiles,hsecrets]
  exact (hlays.written (List.mem_append_left _ (mem_secretWrites hkey))).2

def Grouped (assignments : ValidatorAssignments) (events : List SignerEvent) : Prop :=
  ∀ localIndices faults, SignerEvent.start localIndices faults ∈ events →
    ∃ name, assignments.group name = some localIndices

/-- From the ceremony on. The manifest is read as the public keys that were generated, one for each
validator. A node whose store starts without watermarks may then crash and lose writes at any time:
every signature it lets out verifies under that registry, it can be started again with any group of
validators, and it signs every vote in the interval that is for a later slot than the validator was
asked for before. -/
theorem ceremony_serves [HashPair] {V : SchemeVerifier W} (hV : Dependable V) {source : KeySource}
    (h : Ceremony S fillBytes params faults bench done pubkeys assignments source)
    (crateRoot : String) :
    ∃ registry, loadGenesisRegistry done.files crateRoot assignments params.manifestPath =
        .ok registry ∧ registry.map Validator.pubkey = pubkeys ∧
      registry.length = params.count.toNat ∧
      ∀ (store : RedbStore) (events : List SignerEvent) (outs : List (List Release)) (st : Station S),
        (∀ v : ValidatorIndex, v.get < params.count.toNat → store.otsKeyState[v]? = none) →
        Run (Operates source) ⟨none,store⟩ events outs st → Grouped assignments events →
        (∀ att fault out, (SignerEvent.signAttestation att fault,out) ∈ events.zip outs →
          ∀ release ∈ out,
            verifyOne hV.genuine.prodVerifier registry att release.signature = .ok ()) ∧
        (∀ name owned, assignments.group name = some owned →
          ∃ inner, operate source (.start owned fun _ => none) st = ([],⟨some inner,st.store⟩) ∧
            ∀ v ∈ owned, v ∈ inner.keys) ∧
        ∀ inner att, st.inner = some inner →
          Due params.activationEpoch sharedKeysetActiveEpochs (requested events) inner.keys att →
          ∃ w t, operate source (.signAttestation att none) st =
              ([⟨att.validatorId,att.data.slot.get,w⟩],t) ∧
            verifyOne hV.genuine.prodVerifier registry att w = .ok () := by
  obtain ⟨hvalid,keys,hlength,rfl,hlays⟩ := keygen_outputs h.keyed
  obtain ⟨raw,hraw⟩ := h.assigned
  have hexact : ∀ key ∈ keys, key.Exact := fun key _ => hV.exact hvalid key
  have hstocked : Stocked source keys := stocked_of_outputs h.files h.secrets hlays hexact
  have hlife : S.lifetime.toNat ≤ 2^32 := by
    rw [hV.lifetime]
    exact Nat.le_of_eq rfl
  have howned : ∀ {name owned}, assignments.group name = some owned →
      ∀ v ∈ owned, v.get < keys.length := by
    intro name owned hname v hv
    rw [hlength,← h.total]
    exact group_lt hraw hname hv
  refine ⟨_,registry_loads hV hvalid hlength hlays h.total h.absolute crateRoot,?_,?_,?_⟩
  · exact pubkeys_registryOf _
  · simp [registryOf,hlength]
  intro store events outs st hfresh hrun hgrouped
  have hgiven : ∀ event ∈ events, Given keys.length event := by
    intro event hevent
    cases event with
    | start localIndices faults =>
      obtain ⟨name,hname⟩ := hgrouped localIndices faults hevent
      exact howned hname
    | signAttestation att fault => trivial
    | crash => trivial
    | crashSigning att fault => trivial
  obtain ⟨hsworn,hpassed⟩ := sworn_run hV.genuine hlife hstocked (fun v hv => hfresh v (hlength ▸ hv))
    hrun hgiven
  refine ⟨fun att fault out hpair release hrelease => ?_,fun name owned hname => ?_,?_⟩
  · exact (hpassed att fault out hpair release hrelease).verifies hV.genuine
  · rcases hsworn.start hV.genuine.sliding hstocked (howned hname) fun _ => none with
      ⟨inner,hload,-,hall⟩ | ⟨⟨v,-,hfault⟩,-⟩
    · exact ⟨inner,by simp only [operate,hload],hall⟩
    · exact absurd rfl hfault
  · intro inner att hinner hdue
    obtain ⟨w,t,hcall,hpasses⟩ := hsworn.serves hV.genuine hlife hexact hinner hdue
    exact ⟨w,t,hcall,hpasses.verifies hV.genuine⟩

end Networks

section
attribute [local instance] mixPair

def epochWord (epoch : UInt32) : Bytes32 := ⟨Wire.leBytes 32 epoch.toNat,Wire.length_leBytes 32 _⟩

def named (seed : Bytes32) (epoch : UInt32) (message : Bytes32) : XmssSignature :=
  ⟨ByteVector.zero,seed :: epochWord epoch :: message :: List.replicate 29 ByteVector.zero,
    List.replicate 64 ByteVector.zero⟩

theorem length_named (seed : Bytes32) (epoch : UInt32) (message : Bytes32) :
    (named seed epoch message).toBytes.length = prodLayout.payloadLen := by
  rw [XmssSignature.length_toBytes]
  simp [named,prodLayout]

def openScheme : SignatureScheme where
  SecretKey := PlainKey × Bytes32
  lifetime := lifetime
  payloadLen := prodLayout.payloadLen
  keyGen seed start count := (seed.bytes ++ List.replicate 20 0,(PlainKey.over start count,seed))
  activationInterval secret := ⟨secret.1.start,secret.1.end_⟩
  preparedInterval secret := ⟨secret.1.start,secret.1.end_⟩
  advancePreparation secret := secret
  sign secret epoch message := some (named secret.2 epoch message).toBytes
  keeps _ := rfl
  moves _ := .inl rfl
  inside secret := secret.1.ordered

def openWire : SchemeWire openScheme where
  layout := prodLayout
  declared := rfl
  Signature := XmssSignature
  coPath := XmssSignature.coPath
  hashes := XmssSignature.hashes
  toBytes := XmssSignature.toBytes
  fromBytes := XmssSignature.fromBytes

def openVerifier : SchemeVerifier openWire where
  Key := Bytes32
  keyFromBytes bytes :=
    if h : (bytes.take 32).length = 32 then .ok ⟨bytes.take 32,h⟩ else .error "InvalidByteLength"
  accepts seed epoch message sig := sig.coPath == (named seed epoch message).coPath

theorem interval_over (seed : Bytes32) {start count : UInt64}
    (h : start.toNat+count.toNat ≤ lifetime.toNat) :
    openScheme.activationInterval (openScheme.keyGen seed start count).2 = ⟨start,start+count⟩ := by
  have hover : PlainKey.over start count = ⟨start,start+count,plain_ordered h⟩ := dif_pos h
  change (⟨(PlainKey.over start count).start,(PlainKey.over start count).end_⟩ : Interval) = _
  rw [hover]

theorem openScheme_sliding : openScheme.Sliding where
  part _ := ⟨le_rfl,le_rfl⟩
  connected secret := secret.1.ordered
  stands _ _ := rfl
  fresh _ _ _ _ := rfl
  expands seed start count h := by
    have hend := end_fits h
    rw [interval_over seed h]
    exact ⟨le_rfl,hend.ge,hend.trans_le h⟩
  idempotent seed start count h := by
    have hcount : start+count-start = count := by
      rw [UInt64.add_comm,UInt64.add_sub_cancel]
    rw [interval_over seed h,hcount,interval_over seed h]
  publicKey seed _ _ _ := by
    change (seed.bytes ++ List.replicate 20 0).length = 52
    rw [List.length_append,seed.size,List.length_replicate]
  signs secret epoch message _ := ⟨_,rfl,length_named secret.2 epoch message⟩
  payload := by decide

theorem openVerifier_genuine : openVerifier.Genuine where
  sliding := openScheme_sliding
  splits := ⟨(@xmssWire_splits prodLayout rfl).cuts,(@xmssWire_splits prodLayout rfl).reencodes⟩
  canonical := prodLayout_canonical
  accepted := by
    intro seed start count _
    refine ⟨seed,?_,?_⟩
    · have hfront : (seed.bytes ++ List.replicate 20 0).take 32 = seed.bytes := List.take_left' seed.size
      refine (dif_pos ((congrArg List.length hfront).trans seed.size)).trans (congrArg Except.ok ?_)
      exact ByteVector.ext_bytes hfront
    rintro secret epoch message bytes ⟨moves,rfl⟩ - hsigned
    have hstays : (openScheme.advancePreparation^[moves] (openScheme.keyGen seed start count).2) =
        (openScheme.keyGen seed start count).2 := Function.iterate_fixed rfl moves
    rw [hstays] at hsigned
    obtain rfl := Option.some.inj hsigned
    have hoffset : prodLayout.offsetHashes.toNat = 40+(named seed epoch message).coPath.length*32 := by
      simp [named,prodLayout]
    obtain ⟨hpath,hhashes,hdecode⟩ := XmssSignature.fromBytes_toBytes hoffset
    exact ⟨named seed epoch message,hpath,hhashes,hdecode,beq_self_eq_true _⟩

@[reducible] def lineReader : Yaml where
  rawManifest bytes :=
    if bytes.take 20 = manifestHeader then
      .ok (((bytes.drop 20).splitOn 10).dropLast.map (List.drop 4))
    else .error "missing field genesis_validators"

attribute [local instance] lineReader

theorem splitOn_lines (scalars : List (List UInt8)) (h : ∀ scalar ∈ scalars, 10 ∉ scalar) :
    (scalars.flatMap manifestLine).splitOn 10 =
      scalars.map (fun scalar => [32,32,45,32] ++ scalar) ++ [[]] := by
  induction scalars with
  | nil => rfl
  | cons scalar rest ih =>
    have hfront : ∀ c ∈ [32,32,45,32] ++ scalar, (c == 10) = false := by
      intro c hc
      rw [beq_eq_false_iff_ne]
      rintro rfl
      rcases List.mem_append.mp hc with hc | hc
      · exact absurd hc (by decide)
      · exact h scalar List.mem_cons_self hc
    have hrest := ih fun other hother => h other (List.mem_cons_of_mem _ hother)
    rw [List.flatMap_cons,manifestLine,List.append_assoc,List.splitOn]
    change List.splitOnP (· == 10) (([32,32,45,32] ++ scalar) ++ 10 :: rest.flatMap manifestLine) = _
    rw [List.splitOnP_append_cons_of_forall_mem hfront 10 rfl]
    exact congrArg (List.cons _) hrest

theorem dependable_open : Dependable openVerifier where
  genuine := openVerifier_genuine
  lifetime := rfl
  aligned seed _ _ h := interval_over seed h
  reads scalars _ hscalars := by
    have hplain : ∀ scalar ∈ scalars, 10 ∉ scalar := by
      intro scalar hscalar hc
      obtain ⟨value,hvalue⟩ := (hscalars scalar hscalar).2 10 hc
      cases hvalue
    have hheader : (manifestText scalars).take 20 = manifestHeader := List.take_left' rfl
    have hlines : (manifestText scalars).drop 20 = scalars.flatMap manifestLine := List.drop_left' rfl
    refine (if_pos hheader).trans ?_
    rw [hlines,splitOn_lines scalars hplain,List.dropLast_concat,List.map_map]
    exact congrArg Except.ok (List.map_id scalars)

def trioParams : KeygenParams := { pairParams with count := 3 }

def trioRun : Option (List PublicKey × Bench Nat) :=
  success (generateValidatorKeys openScheme countUp trioParams ⟨fun _ => none,none⟩) ⟨0,noFiles⟩

def trioSource (done : Bench Nat) : KeySource := ⟨done.files,"/keys",id⟩

def thirdVote (slot : Nat) : Attestation :=
  ⟨validatorIndex 2,{ (default : AttestationData) with slot := Slot.ofNat slot }⟩

def trioStart : SignerEvent := .start [validatorIndex 2,validatorIndex 0] fun _ => none

def trioEvents : List SignerEvent :=
  [trioStart,.signAttestation (thirdVote 3) none,.crash,trioStart,.signAttestation (thirdVote 4) none]

def TrioRuns (done : Bench Nat) : List SignerEvent → List (List Release) → Station openScheme → Prop :=
  Run (Operates (trioSource done)) ⟨none,RedbStore.empty⟩

/-- Three keys, two groups. A node with the first votes, crashes, starts again and votes once more;
both votes verify under the registry that was read from the manifest. -/
theorem ceremony_serves_trio : ∃ pubkeys done assignments registry w w' st,
    trioRun = some (pubkeys,done) ∧ fromCanonical pairFile = .ok assignments ∧
    loadGenesisRegistry done.files "" assignments trioParams.manifestPath = .ok registry ∧
    registry.length = 3 ∧
    TrioRuns done trioEvents [[],[⟨validatorIndex 2,3,w⟩],[],[],[⟨validatorIndex 2,4,w'⟩]] st ∧
    verifyOne dependable_open.genuine.prodVerifier registry (thirdVote 3) w = .ok () ∧
    verifyOne dependable_open.genuine.prodVerifier registry (thirdVote 4) w' = .ok () := by
  have hkeyed : trioRun.isSome = true := by decide +kernel
  have hloaded : (fromCanonical pairFile).toOption.map (fun assignments =>
      (assignments.totalValidators,assignments.group "lean-0")) =
        some (3,some [validatorIndex 2,validatorIndex 0]) := by decide +kernel
  obtain ⟨⟨pubkeys,done⟩,hdone⟩ := Option.isSome_iff_exists.mp hkeyed
  obtain ⟨assignments,hfile,hassigned⟩ := Option.map_eq_some_iff.mp hloaded
  obtain ⟨htotal,hgroup⟩ := Prod.mk.inj hassigned
  have hraw : fromCanonical pairFile = .ok assignments := toOption_eq_some.mp hfile
  have hnet : Ceremony openScheme countUp trioParams ⟨fun _ => none,none⟩ ⟨0,noFiles⟩ done pubkeys
      assignments (trioSource done) :=
    ⟨success_eq_some.mp hdone,⟨pairFile,hraw⟩,htotal,rfl,rfl,rfl⟩
  obtain ⟨registry,hload,-,hlength,hserves⟩ := ceremony_serves dependable_open hnet ""
  have hgrouped : ∀ {events : List SignerEvent}, events ⊆ trioEvents → Grouped assignments events := by
    intro events hsub localIndices faults hstart
    have hmem := hsub hstart
    simp only [trioEvents,trioStart,List.mem_cons,List.not_mem_nil,SignerEvent.start.injEq,reduceCtorEq,
      or_false,false_or,or_self] at hmem
    exact ⟨"lean-0",hmem.1 ▸ hgroup⟩
  have hfresh : ∀ v : ValidatorIndex, v.get < trioParams.count.toNat →
      RedbStore.empty.otsKeyState[v]? = none := by simp [RedbStore.empty]
  have hgroups := fun events outs st hrun hsub =>
    (hserves RedbStore.empty events outs st hfresh hrun (hgrouped hsub)).2
  obtain ⟨inner,hstart,hheld⟩ := (hgroups [] [] _ (.nil _) (by simp)).1 "lean-0" _ hgroup
  have hstarted : TrioRuns done [trioStart] [[]] _ := .single hstart
  obtain ⟨w,t,hvote,hverify⟩ := (hgroups _ _ _ hstarted (by simp [trioEvents])).2 inner (thirdVote 3) rfl
    ⟨hheld _ List.mem_cons_self,by decide +kernel,by decide +kernel⟩
  -- The watermark of the first vote is all that is left of it after the crash.
  have hcrashed : TrioRuns done [trioStart,.signAttestation (thirdVote 3) none,.crash]
      [[],[⟨validatorIndex 2,3,w⟩],[]] _ := (hstarted.snoc hvote).snoc rfl
  obtain ⟨inner',hstart',hheld'⟩ := (hgroups _ _ _ hcrashed (by simp [trioEvents])).1 "lean-0" _ hgroup
  have hagain : TrioRuns done [trioStart,.signAttestation (thirdVote 3) none,.crash,trioStart]
      [[],[⟨validatorIndex 2,3,w⟩],[],[]] _ := hcrashed.snoc hstart'
  obtain ⟨w',t',hvote',hverify'⟩ := (hgroups _ _ _ hagain (by simp [trioEvents])).2 inner' (thirdVote 4) rfl
    ⟨hheld' _ List.mem_cons_self,by decide +kernel,by decide +kernel⟩
  exact ⟨pubkeys,done,assignments,registry,w,w',t',hdone,hraw,hload,hlength,hagain.snoc hvote',
    hverify,hverify'⟩

end

end Devnet.Cli
