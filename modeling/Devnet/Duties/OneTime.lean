import Devnet.Duties.Signer

/-!
No one-time key is used twice. Seen from one validator, each event of a signer's run is a
turn of its mark; the rest is about marks.
-/

set_option autoImplicit false

namespace Devnet.Duties
open Machine Marks Devnet.Types Devnet.Ssz Devnet.Protocol Devnet.Engine Devnet.Crypto
  Devnet.Storage

section
variable {S : SignatureScheme}

structure Passed (s t : LocalSigner S) (validator : ValidatorIndex) (epoch : Nat) : Prop where
  fresh : ∃ next, s.index validator = some next ∧ next ≤ epoch
  passed : t.index validator = some (epoch+1)
  others : ∀ v, validator ≠ v → t.index v = s.index v

theorem index_insert (s : LocalSigner S) (validator v : ValidatorIndex) (key : SigningKey S) :
    (⟨s.keys.insert validator key⟩ : LocalSigner S).index v =
      if validator = v then some key.nextIndex else s.index v := by
  by_cases hv : validator = v
  · simp [LocalSigner.index,hv]
  · simp [LocalSigner.index,Std.ExtTreeMap.getElem?_insert,hv]

theorem passed_insert {s : LocalSigner S} {validator : ValidatorIndex} {key next : SigningKey S}
    {epoch : Nat} (hkey : s.keys[validator]? = some key) (hfresh : key.nextIndex ≤ epoch)
    (hnext : next.nextIndex = epoch+1) :
    Passed s ⟨s.keys.insert validator next⟩ validator epoch := by
  refine ⟨⟨key.nextIndex,by simp [LocalSigner.index,hkey],hfresh⟩,?_,?_⟩
  · simp [index_insert,hnext]
  · intro v hv
    simp [index_insert,hv]

theorem persistedIndex_put (store : RedbStore) (validator v : ValidatorIndex)
    (watermark : OtsWatermark) :
    persistedIndex (store.putOtsKeyState validator watermark) v =
      if validator = v then watermark.nextIndex.toNat else persistedIndex store v := by
  by_cases hv : validator = v
  · simp [persistedIndex,RedbStore.putOtsKeyState,hv,OtsWatermark.fromSszBytes_toSszBytes,
      Except.toOption]
  · simp [persistedIndex,RedbStore.putOtsKeyState,Std.ExtTreeMap.getElem?_insert,hv]

theorem persistedIndex_load {store : RedbStore} {fault : Fault} {validator : ValidatorIndex}
    {stored : Option OtsWatermark} (h : store.loadOtsKeyState fault validator = .ok stored) :
    persistedIndex store validator = (stored.map (·.nextIndex.toNat)).getD 0 := by
  unfold RedbStore.loadOtsKeyState RedbStore.inReadTxn at h
  cases fault with
  | some e => cases h
  | none =>
    cases hbytes : store.otsKeyState[validator]? with
    | none =>
      obtain rfl : none = stored := by simpa [hbytes] using h
      simp [persistedIndex,hbytes]
    | some bytes =>
      cases hdecode : OtsWatermark.fromSszBytes bytes with
      | error e => simp [hbytes,hdecode,Except.mapError,Except.map] at h
      | ok watermark =>
        obtain rfl : some watermark = stored := by
          simpa [hbytes,hdecode,Except.mapError,Except.map] using h
        simp [persistedIndex,hbytes,hdecode,Except.toOption]

theorem nextIndex_resolveRecord {seedCommitment : Bytes32 → Bytes32} {index : ValidatorIndex}
    {file record : OtsKeyState} {stored : Option OtsWatermark}
    (h : resolveRecord seedCommitment index file stored = .ok record) :
    (stored.map (·.nextIndex.toNat)).getD 0 ≤ record.nextIndex.toNat := by
  cases stored with
  | none => simp
  | some stored =>
    obtain ⟨-,h⟩ := guard_ok.mp h
    cases h
    change stored.nextIndex.toNat ≤
      (if file.nextIndex ≤ stored.nextIndex then stored.nextIndex else file.nextIndex).toNat
    split
    · exact le_rfl
    · next hle => exact (Nat.lt_of_not_le fun h => hle (UInt64.le_iff_toNat_le.mpr h)).le

theorem loadKey_ahead {source : KeySource} {store : RedbStore} {faults : ValidatorIndex → Fault}
    {keys loaded : BTreeMap ValidatorIndex (SigningKey S)} {index : ValidatorIndex}
    (h : loadKey source store faults keys index = .ok loaded) {v : ValidatorIndex}
    {key : SigningKey S} (hkey : loaded[v]? = some key) :
    keys[v]? = some key ∨ persistedIndex store v ≤ key.nextIndex := by
  unfold loadKey at h
  simp only [except_bind_ok,mapError_ok,Except.ok.injEq] at h
  obtain ⟨file,-,stored,hload,record,hresolve,restored,hrestore,rfl⟩ := h
  rw [Std.ExtTreeMap.getElem?_insert] at hkey
  split at hkey
  · next hv =>
    right
    obtain rfl : index = v := Std.LawfulEqOrd.eq_of_compare hv
    obtain rfl : restored = key := by simpa using hkey
    rw [persistedIndex_load hload,nextIndex_fromRecord hrestore]
    exact nextIndex_resolveRecord hresolve
  · exact .inl hkey

theorem loadResuming_ahead {source : KeySource} {store : RedbStore}
    {faults : ValidatorIndex → Fault} {localIndices : List ValidatorIndex} {inner : LocalSigner S}
    (h : loadResuming source store faults localIndices = .ok inner) {v : ValidatorIndex}
    {next : Nat} (hnext : inner.index v = some next) : persistedIndex store v ≤ next := by
  unfold loadResuming at h
  cases hfold : localIndices.foldlM (loadKey (S := S) source store faults) ∅ with
  | error e => simp [hfold,Except.map] at h
  | ok keys =>
    obtain rfl : ⟨keys⟩ = inner := by simpa [hfold,Except.map] using h
    obtain ⟨key,hkey,rfl⟩ := Option.map_eq_some_iff.mp hnext
    obtain ⟨outs,hrun⟩ := (foldlM_ok_iff _ _ _ _).mp hfold
    refine hrun.preserves (fun keys => ∀ v key, keys[v]? = some key →
      persistedIndex store v ≤ key.nextIndex) (by simp) ?_ v key hkey
    intro m index _ n hm hround v key hkey
    rcases loadKey_ahead hround hkey with hold | hahead
    · exact hm v key hold
    · exact hahead

theorem reaches_unreleased {s t : OtsSigner S} {validator : ValidatorIndex} {epoch : Nat}
    (hstore : t.store = s.store)
    (h : (∀ v, t.inner.index v = s.inner.index v) ∨ Passed s.inner t.inner validator epoch)
    (v : ValidatorIndex) :
    Reaches ((⟨some s.inner,s.store⟩ : Station S).mark v) []
      ((⟨some t.inner,t.store⟩ : Station S).mark v) := by
  rw [mark_running,mark_running,hstore]
  rcases h with hsame | hpassed
  · rw [hsame v]
    exact .refl _
  · by_cases hv : validator = v
    · subst hv
      obtain ⟨next,hnext,hle⟩ := hpassed.fresh
      rw [hpassed.passed,hnext]
      exact .step (.burn rfl hle)
    · rw [hpassed.others v hv]
      exact .refl _

theorem reaches_stored {s t : OtsSigner S} {validator : ValidatorIndex} {epoch : Nat}
    (hpassed : Passed s.inner t.inner validator epoch)
    (hstore : ∀ v, persistedIndex t.store v =
      if validator = v then epoch+1 else persistedIndex s.store v) (v : ValidatorIndex) :
    Reaches ((⟨some s.inner,s.store⟩ : Station S).mark v) []
        ((⟨some t.inner,t.store⟩ : Station S).mark v) ∧
      Reaches ((⟨some s.inner,s.store⟩ : Station S).mark v) (if validator = v then [epoch] else [])
        ((⟨some t.inner,t.store⟩ : Station S).mark v) := by
  rw [mark_running,mark_running,hstore]
  by_cases hv : validator = v
  · subst hv
    obtain ⟨next,hnext,hle⟩ := hpassed.fresh
    rw [hpassed.passed,hnext,if_pos rfl,if_pos rfl]
    exact ⟨.step (.store rfl hle),.step (.release rfl hle)⟩
  · rw [hpassed.others v hv,if_neg hv,if_neg hv]
    exact ⟨.refl _,.refl _⟩

end

section
variable [HashPair] {S : SignatureScheme}

theorem attestationSigningInputs_epoch {att : Attestation} {epoch : UInt32} {message : Bytes32}
    (h : attestationSigningInputs att = .ok (epoch,message)) :
    epoch.toNat = att.data.slot.get := by
  unfold attestationSigningInputs at h
  dsimp only at h
  split at h
  · next hlt =>
    obtain ⟨rfl,-⟩ := Prod.mk.inj (Except.ok.inj h)
    simp only [UInt32.toNat_ofNat']
    omega
  · cases h

theorem localSign_cases (att : Attestation) (s : LocalSigner S) :
    (∃ e t, LocalSigner.signAttestation att s = .error e t ∧ ∀ v, t.index v = s.index v) ∨
    (∃ e t, LocalSigner.signAttestation att s = .error e t ∧
      Passed s t att.validatorId att.data.slot.get) ∨
    ∃ signature t, LocalSigner.signAttestation att s = .ok signature t ∧
      Passed s t att.validatorId att.data.slot.get := by
  unfold LocalSigner.signAttestation
  cases hkey : s.keys[att.validatorId]? with
  | none => exact .inl ⟨_,s,rfl,fun _ => rfl⟩
  | some key =>
    cases hinputs : attestationSigningInputs att with
    | error e => exact .inl ⟨_,s,rfl,fun _ => rfl⟩
    | ok inputs =>
      obtain ⟨epoch,message⟩ := inputs
      have hepoch := attestationSigningInputs_epoch hinputs
      rcases prepareSign_cases epoch message key with
        ⟨e,t,hrun,hsame | ⟨hfresh,hnext⟩⟩ | ⟨signature,t,hrun,hfresh,hnext⟩
      · refine .inl ⟨.crypto e,⟨s.keys.insert att.validatorId t⟩,by simp only [hrun],?_⟩
        intro v
        by_cases hv : att.validatorId = v
        · subst hv
          simp [hsame,LocalSigner.index,hkey]
        · simp [index_insert,hv]
      · rw [hepoch] at hfresh hnext
        exact .inr (.inl ⟨.crypto e,_,by simp only [hrun],passed_insert hkey hfresh hnext⟩)
      · rw [hepoch] at hfresh hnext
        exact .inr (.inr ⟨signature,_,by simp only [hrun],passed_insert hkey hfresh hnext⟩)

/-- The guarded signer: it releases a signature exactly if the watermark beyond its epoch is
stored. -/
theorem otsSign_cases (seedCommitment : Bytes32 → Bytes32) (fault : Fault) (att : Attestation)
    (s : OtsSigner S) :
    (∃ e t, OtsSigner.signAttestation seedCommitment fault att s = .error e t ∧
      t.store = s.store ∧ ((∀ v, t.inner.index v = s.inner.index v) ∨
        Passed s.inner t.inner att.validatorId att.data.slot.get)) ∨
    ∃ signature t, OtsSigner.signAttestation seedCommitment fault att s = .ok signature t ∧
      Passed s.inner t.inner att.validatorId att.data.slot.get ∧
      ∀ v, persistedIndex t.store v =
        if att.validatorId = v then att.data.slot.get+1 else persistedIndex s.store v := by
  unfold OtsSigner.signAttestation
  rcases localSign_cases att s.inner with
    ⟨e,t,hrun,hsame⟩ | ⟨e,t,hrun,hpassed⟩ | ⟨signature,t,hrun,hpassed⟩
  · exact .inl ⟨e,{ s with inner := t },by simp only [hrun],rfl,.inl hsame⟩
  · exact .inl ⟨e,{ s with inner := t },by simp only [hrun],rfl,.inr hpassed⟩
  · obtain ⟨key,hkey,hnext⟩ := Option.map_eq_some_iff.mp hpassed.passed
    have hwatermark : t.watermarkFor seedCommitment att.validatorId =
        some (key.toWatermark seedCommitment) := by
      simp [LocalSigner.watermarkFor,hkey]
    cases fault with
    | some e =>
      refine .inl ⟨.persist att.validatorId.get e,⟨t,s.store⟩,?_,rfl,.inr hpassed⟩
      simp only [hrun,hwatermark]
      rfl
    | none =>
      refine .inr ⟨signature,⟨t,s.store.putOtsKeyState att.validatorId
        (key.toWatermark seedCommitment)⟩,?_,hpassed,?_⟩
      · simp only [hrun,hwatermark]
        rfl
      · intro v
        rw [persistedIndex_put,SigningKey.nextIndex_toWatermark,hnext]

def releasedEpochs (releases : List Release) (validator : ValidatorIndex) : List Nat :=
  (releases.filter fun release => release.validator = validator).map (·.epoch)

/-- Each event is, for each validator, a run of its mark. -/
theorem operate_reaches {source : KeySource} {st t : Station S} {event : SignerEvent}
    {out : List Release} (h : Operates source st event out t) (v : ValidatorIndex) :
    Reaches (st.mark v) (releasedEpochs out v) (t.mark v) := by
  cases event with
  | start localIndices faults =>
    unfold Operates operate at h
    cases hload : loadResuming (S := S) source st.store faults localIndices with
    | error e =>
      obtain ⟨rfl,rfl⟩ : [] = out ∧ { st with inner := none } = t := by simpa [hload] using h
      exact (Reaches.refl _).stop
    | ok inner =>
      obtain ⟨rfl,rfl⟩ : [] = out ∧ { st with inner := some inner } = t := by
        simpa [hload] using h
      rw [mark_running]
      cases hindex : inner.index v with
      | none => exact (Reaches.refl _).stop
      | some next => exact .step (.resume (loadResuming_ahead hload hindex))
  | crash =>
    obtain ⟨rfl,rfl⟩ := Prod.mk.inj h
    exact (Reaches.refl _).stop
  | signAttestation att fault =>
    unfold Operates operate at h
    obtain ⟨_ | inner,store⟩ := st
    · obtain ⟨rfl,rfl⟩ := Prod.mk.inj h
      exact .refl _
    · rcases otsSign_cases source.seedCommitment fault att ⟨inner,store⟩ with
        ⟨e,m,hrun,hstore,hindex⟩ | ⟨signature,m,hrun,hpassed,hstore⟩
      · obtain ⟨rfl,rfl⟩ : [] = out ∧ ⟨some m.inner,m.store⟩ = t := by simpa [hrun] using h
        exact reaches_unreleased hstore hindex v
      · obtain ⟨rfl,rfl⟩ : [⟨att.validatorId,att.data.slot.get,signature⟩] = out ∧
            ⟨some m.inner,m.store⟩ = t := by simpa [hrun] using h
        have hreleased := (reaches_stored hpassed hstore v).2
        by_cases hv : att.validatorId = v
        · simpa [releasedEpochs,hv] using hreleased
        · simpa [releasedEpochs,hv] using hreleased
  | crashSigning att fault =>
    unfold Operates operate at h
    obtain ⟨_ | inner,store⟩ := st
    · obtain ⟨rfl,rfl⟩ := Prod.mk.inj h
      exact .refl _
    · rcases otsSign_cases source.seedCommitment fault att ⟨inner,store⟩ with
        ⟨e,m,hrun,hstore,hindex⟩ | ⟨signature,m,hrun,hpassed,hstore⟩
      · obtain ⟨rfl,rfl⟩ : [] = out ∧ ⟨none,m.store⟩ = t := by
          simpa [after_of_error hrun] using h
        exact (reaches_unreleased hstore hindex v).stop
      · obtain ⟨rfl,rfl⟩ : [] = out ∧ ⟨none,m.store⟩ = t := by
          simpa [after_of_ok hrun] using h
        exact (reaches_stored hpassed hstore v).1.stop

theorem run_reaches {source : KeySource} {st t : Station S} {events : List SignerEvent}
    {outs : List (List Release)} (h : Run (Operates source) st events outs t)
    (v : ValidatorIndex) : Reaches (st.mark v) (releasedEpochs outs.flatten v) (t.mark v) := by
  refine h.invariant (fun _ outs t => Reaches (st.mark v) (releasedEpochs outs.flatten v)
    (t.mark v)) (.refl _) ?_
  intro _ earlier m event out n _ ih hstep
  have hnext := ih.trans (operate_reaches hstep v)
  simpa [releasedEpochs] using hnext

/-- From any disk, in any run: no validator's key releases two signatures for one epoch, and
no stored index ever goes back. -/
theorem one_time_keys {source : KeySource} {store : RedbStore} {st : Station S}
    {events : List SignerEvent} {outs : List (List Release)}
    (hrun : Run (Operates source) ⟨none,store⟩ events outs st) :
    (outs.flatten.map fun release => (release.validator,release.epoch)).Nodup ∧
      ∀ later outs' t, Run (Operates source) st later outs' t →
        ∀ v, persistedIndex st.store v ≤ persistedIndex t.store v := by
  have hguarded : ∀ v, Guarded (st.mark v) (releasedEpochs outs.flatten v) := by
    intro v
    have hfresh : Guarded ((⟨none,store⟩ : Station S).mark v) [] :=
      ⟨by simp [Station.mark],by simp,.nil⟩
    exact (hfresh.reaches (run_reaches hrun v)).1
  refine ⟨?_,?_⟩
  · refine nodup_of_columns Release.validator Release.epoch fun v => ?_
    exact (hguarded v).increasing.imp fun h => h.ne
  · intro later outs' t hlater v
    exact ((hguarded v).reaches (run_reaches hlater v)).2

end

section
attribute [local instance] mixPair

def bareScheme : SignatureScheme where
  SecretKey := Unit
  lifetime := 8
  payloadLen := 0
  keyGen _ _ _ := (List.replicate publicKeyLen 0,())
  activationInterval _ := ⟨0,8⟩
  preparedInterval _ := ⟨0,8⟩
  advancePreparation _ := ()
  sign _ _ _ := some []
  keeps _ := rfl
  moves _ := .inl rfl
  inside _ := by decide

def bareSource : KeySource where
  files _ := some (OtsKeyState.toSszBytes ⟨ByteVector.zero,0,8,0⟩)
  secretsDir := "keys"
  seedCommitment := id

def voteAt (slot : Nat) : Attestation :=
  ⟨default,{ (default : AttestationData) with slot := Slot.ofNat slot }⟩

def interruptedDuties : List SignerEvent :=
  [.start [default] fun _ => none,.signAttestation (voteAt 1) (some (.backend "full")),
    .signAttestation (voteAt 2) none,.crash,.start [default] fun _ => none,
    .signAttestation (voteAt 2) none,.crashSigning (voteAt 3) none,
    .start [default] fun _ => none,.signAttestation (voteAt 3) none,
    .signAttestation (voteAt 4) none]

def interruptedRun : List (List Release) × Station bareScheme :=
  trace (operate bareSource) interruptedDuties ⟨none,RedbStore.empty⟩

theorem one_time_keys_interrupted :
    interruptedRun.1.flatten.map (fun release => (release.validator,release.epoch)) =
      [(default,2),(default,4)] ∧
    (interruptedRun.1.flatten.map fun release => (release.validator,release.epoch)).Nodup ∧
    persistedIndex interruptedRun.2.store default ≤
      persistedIndex (operate bareSource .crash interruptedRun.2).2.store default := by
  have hrun : Run (Operates bareSource) ⟨none,RedbStore.empty⟩ interruptedDuties
      interruptedRun.1 interruptedRun.2 := run_trace _ _ _
  obtain ⟨hnodup,hmono⟩ := one_time_keys hrun
  exact ⟨by decide +kernel,hnodup,hmono [.crash] _ _ (Run.single rfl) default⟩

end

end Devnet.Duties
