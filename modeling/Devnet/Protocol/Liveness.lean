import Devnet.Protocol.Justifiable
import Devnet.Protocol.Tally

/-!
Finality is never stuck. From every state of a chain two thirds of the registry, and no
one else, can bring about a newer finalized checkpoint with three blocks: one at the next
slot whose distance from the finalized slot is a square, one a root further on with the
votes for the first, and one with the votes from the first to the second. No justifiable
slot lies between the two.
-/

set_option autoImplicit false

namespace Devnet.Protocol
open Machine Devnet.Types Devnet.Ssz

namespace Ledger

def pledges (data : AttestationData) (voters : List ValidatorIndex) : List Attestation :=
  voters.map fun v => ⟨v,data⟩

/-- How far votes for one link have come on a ledger that was at `L₀`: all of them are in the
box of the target, or the target is justified and the source finalized if that is next. -/
inductive Pursuit (n : Nat) (L₀ : Ledger) (data : AttestationData) (done : List ValidatorIndex)
    (L : Ledger) : Prop where
  | underway (accepted : L.Acceptable data) (same : L.latestFinalized = L₀.latestFinalized)
      (history : L.history = L₀.history)
      (counted : ∀ v ∈ done, v.get ∈ L.ballots data.target.root)
      (short : done ≠ [] → 3*(L.ballots data.target.root).card < 2*n) : Pursuit n L₀ data done L
  | reached (bit : L.justified[data.target.slot.get]? = some true) (history : L.history = L₀.history)
      (finality : Consecutive L₀.latestFinalized.slot data ∧ L.latestFinalized = data.source ∨
        ¬ Consecutive L₀.latestFinalized.slot data ∧ L.latestFinalized = L₀.latestFinalized) :
      Pursuit n L₀ data done L

theorem Pursuit.vote {n : Nat} {L₀ L L' : Ledger} {data : AttestationData}
    {done : List ValidatorIndex} {v : ValidatorIndex} {out : List Cast}
    (h : Pursuit n L₀ data done L) (hstep : Step n L (.vote ⟨v,data⟩) out L') :
    Pursuit n L₀ data (done ++ [v]) L' := by
  cases h with
  | underway accepted same history counted short =>
    cases hstep with
    | skip refused => exact absurd accepted refused
    | count voter accepted hshort =>
      have hbox : (L.record ⟨v,data⟩).ballots data.target.root = L.ballot ⟨v,data⟩ := by
        simp [record]
      refine .underway ⟨accepted.sourceBit,accepted.targetBit,accepted.sourceRoot,
        accepted.targetRoot,accepted.order,accepted.justifiable⟩ same history ?_ fun _ => ?_
      · intro u hu
        rw [hbox]
        rcases List.mem_append.mp hu with hu | hu
        · exact Finset.mem_insert_of_mem (counted u hu)
        · obtain rfl := List.mem_singleton.mp hu
          exact Finset.mem_insert_self _ _
      · rw [hbox]
        exact hshort
    | justify voter accepted quorum finality =>
      have hlt := (List.getElem?_eq_some_iff.mp accepted.targetBit).1
      rw [same] at finality
      exact .reached (by simp [Ledger.justify,hlt]) history finality
  | reached bit history finality =>
    have hclosed : ¬ L.Acceptable data := by
      intro hacc
      have hfalse := hacc.targetBit
      rw [bit] at hfalse
      simp at hfalse
    cases hstep with
    | skip => exact .reached bit history finality
    | count voter accepted => exact absurd accepted hclosed
    | justify voter accepted => exact absurd accepted hclosed

theorem pledges_reach {n : Nat} {L₀ L : Ledger} {data : AttestationData}
    {voters : List ValidatorIndex} {outs : List (List Cast)} (hn : n ≠ 0)
    (hnodup : voters.Nodup) (hquorum : 2*n ≤ 3*voters.length) (hacc : L₀.Acceptable data)
    (hrun : Run (Step n) L₀ ((pledges data voters).map .vote) outs L) :
    L.justified[data.target.slot.get]? = some true ∧ L.history = L₀.history ∧
      (Consecutive L₀.latestFinalized.slot data ∧ L.latestFinalized = data.source ∨
        ¬ Consecutive L₀.latestFinalized.slot data ∧ L.latestFinalized = L₀.latestFinalized) := by
  have hpursuit : Pursuit n L₀ data voters L := by
    clear hnodup hquorum
    induction voters using List.reverseRecOn generalizing outs L with
    | nil =>
      obtain ⟨rfl,-⟩ := hrun.nil_inv
      exact .underway hacc rfl rfl (by simp) (by simp)
    | append_singleton voters v ih =>
      simp only [pledges,List.map_append,List.map_cons,List.map_nil] at hrun
      obtain ⟨m,_,_,hbefore,hstep,-⟩ := hrun.snoc_inv
      exact (ih hbefore).vote hstep
  cases hpursuit with
  | reached bit history finality => exact ⟨bit,history,finality⟩
  | underway accepted same history counted short =>
    -- All the voters are in the box, which is too many for it to be short.
    have hsub : (voters.map (·.get)).toFinset ⊆ L.ballots data.target.root := by
      intro i hi
      obtain ⟨v,hv,rfl⟩ := List.mem_map.mp (List.mem_toFinset.mp hi)
      exact counted v hv
    have hdistinct : (voters.map (·.get)).Nodup :=
      hnodup.map (fun a b => ValidatorIndex.ext_get)
    have hcard := Finset.card_le_card hsub
    rw [List.toFinset_card_of_nodup hdistinct,List.length_map] at hcard
    have hne : voters ≠ [] := by
      rintro rfl
      simp only [List.length_nil] at hquorum
      omega
    have := short hne
    omega

end Ledger

/-- The root of the first square distance, from three on, that leads past the current slot. -/
def State.stride (s : State) : Nat := max 3 (Nat.sqrt (s.slot.get - s.latestFinalized.slot.get)+1)

theorem State.lt_stride (s : State) :
    3 ≤ s.stride ∧ s.slot.get < s.latestFinalized.slot.get+s.stride*s.stride := by
  have hroot : s.slot.get - s.latestFinalized.slot.get <
      (Nat.sqrt (s.slot.get - s.latestFinalized.slot.get)+1)*
        (Nat.sqrt (s.slot.get - s.latestFinalized.slot.get)+1) := Nat.lt_succ_sqrt _
  have hle : Nat.sqrt (s.slot.get - s.latestFinalized.slot.get)+1 ≤ s.stride := le_max_right _ _
  have hsquare := Nat.mul_le_mul hle hle
  exact ⟨le_max_left _ _,by omega⟩

theorem consecutive_square {finalized : Slot} {data : AttestationData} {m : Nat} (hm : 3 ≤ m)
    (hsource : data.source.slot.get = finalized.get+m*m)
    (htarget : data.target.slot.get = finalized.get+m*(m+1)) :
    Ledger.Consecutive finalized data := by
  intro mid hlo hhi
  obtain ⟨d,rfl⟩ : ∃ d, mid = finalized.get+d := ⟨mid - finalized.get,by omega⟩
  have hmid : (Slot.ofNat (finalized.get+d)).get = finalized.get+d :=
    Slot.get_ofNat (hhi.trans data.target.slot.isLt)
  have hd : m*m < d := by omega
  have hd' : d < m*(m+1) := by omega
  rw [Bool.eq_false_iff,ne_eq,Slot.isJustifiableAfter_iff,hmid,Nat.add_sub_cancel_left]
  rintro ⟨-,hsmall | ⟨k,rfl⟩ | ⟨k,rfl⟩⟩
  · have := Nat.mul_le_mul hm hm
    omega
  · rcases Nat.lt_or_ge m k with hlt | hge
    · have : m*(m+1) ≤ k*k := Nat.mul_le_mul hlt.le hlt
      omega
    · have := Nat.mul_le_mul hge hge
      omega
  · rcases Nat.lt_or_ge k m with hlt | hge
    · have : k*(k+1) ≤ m*m := Nat.mul_le_mul hlt.le hlt
      omega
    · have : m*(m+1) ≤ k*(k+1) := Nat.mul_le_mul hge (Nat.add_le_add_right hge 1)
      omega

theorem Ledger.extend_finalized (L : Ledger) (root : Bytes32) (gap : Nat) :
    (L.extend root gap).latestFinalized.slot = L.latestFinalized.slot := by
  simp only [Ledger.extend]
  split <;> rfl

theorem Ledger.marked_extend {L : Ledger} {root : Bytes32} {gap : Nat}
    (h : (L.extend root gap).Consistent) :
    (L.extend root gap).Marked (L.extend root gap).latestFinalized := by
  rcases h.checkpoints with ⟨hnil,-⟩ | hmarked
  · simp [Ledger.extend] at hnil
  · exact hmarked.1

theorem Represents.fresh {n : Nat} {s : State} {L : Ledger} (h : Represents n s L)
    (hc : L.Consistent) (hpos : 0 < s.slot.get) (root : Bytes32) (gap : Nat) :
    (L.extend root gap).justified[s.slot.get]? = some false ∧
      (L.extend root gap).history[s.slot.get]? = some root ∧
      (L.extend root gap).latestFinalized = L.latestFinalized := by
  have hlen : L.history.length = s.slot.get := by rw [h.history,h.length,← h.clock]
  have hbits : L.justified.length = s.slot.get := hc.aligned.trans hlen
  have hne : L.history.isEmpty = false := by
    cases hh : L.history with
    | nil =>
      rw [hh,List.length_nil] at hlen
      omega
    | cons => rfl
  refine ⟨?_,?_,?_⟩
  · simp [Ledger.extend,hne,hbits]
  · simp [Ledger.extend,hlen]
  · simp [Ledger.extend,hne]

section
variable [HashPair]

/-- On a state of a chain the proposer of any later slot, up to the bound of the history, can
have a block accepted with any votes for earlier slots. -/
theorem Represents.proposes {n : Nat} {s : State} {L : Ledger} {acts : List Ledger.Action}
    {outs : List (List Cast)} (h : Represents n s L) (hreach : Ledger.Reaches n acts outs L)
    (hn : n ≠ 0) (hlimit : n ≤ validatorRegistryLimit) (slot : Slot)
    (hlater : s.slot.get < slot.get) (hroom : slot.get ≤ historicalRootsLimit) :
    ∃ root, ∀ atts : List Attestation, (∀ att ∈ atts, att.data.source.slot.get < slot.get ∧
        att.data.target.slot.get < slot.get ∧ att.validatorId.get < n) →
      ∃ signed log t votes L', Applies true s signed log t ∧ t.slot = slot ∧
        signed.message.block.body.attestations = atts ∧
        Run (Ledger.Step n) (L.extend root (slot.get - s.slot.get - 1)) (atts.map .vote) votes L' ∧
        Represents n t L' := by
  obtain ⟨next,hslots⟩ := processSlots_total hlater
  obtain ⟨-,sealing,rfl,-⟩ := processSlots_ok hslots
  have hturn : slot.get % n < 2^64 :=
    (Nat.mod_lt _ (Nat.pos_of_ne_zero hn)).trans_le (hlimit.trans (by decide))
  refine ⟨hashTreeRoot (s.sealed slot sealing).latestBlockHeader,fun atts hatts => ?_⟩
  let block (stateRoot : Bytes32) : Block :=
    ⟨slot,⟨slot.get % n,hturn⟩,hashTreeRoot (s.sealed slot sealing).latestBlockHeader,stateRoot,
      ⟨atts⟩⟩
  have hclock : s.latestBlockHeader.slot.get = s.slot.get := by rw [h.clock]
  have hcount : (s.sealed slot sealing).numValidators = n := by
    have hsmall : validatorRegistryLimit ≤ 2^64-1 := by decide
    simp only [State.numValidators,State.sealed,h.registry]
    omega
  have hfits : ∀ root, HeaderFits (s.sealed slot sealing) (block root) := by
    intro root
    have hlength := h.length
    refine ⟨rfl,hclock ▸ hlater,hcount ▸ hn,?_,rfl,?_⟩
    · rw [hcount]
      rfl
    · simp only [State.sealed,block,hlength]
      omega
  have hlen : s.justifiedSlots.len = s.historicalBlockHashes.length := by
    rw [← Bitlist.length_toList,← h.justified,hreach.consistent.aligned,h.history]
  -- The state root plays no part before the votes.
  obtain ⟨m,hheader⟩ := processBlockHeader_total (hfits ByteVector.zero) hlen
  have hopened : ∀ root, s.opened (block root) = .ok m := by
    intro root
    simp only [State.opened,except_bind_ok,onCopy_ok]
    exact ⟨_,⟨(),hslots⟩,(),hheader⟩
  obtain ⟨hat,root,start,hstart,hmirror⟩ := h.opened (hopened ByteVector.zero)
  obtain rfl := Represents.records h (hopened ByteVector.zero) hmirror
  have hgap : s.gap (block ByteVector.zero) = slot.get - s.slot.get - 1 := by
    simp only [State.gap,block,hclock]
  rw [hgap] at hmirror
  have hreach' := Run.append hreach (Run.single (.extend L (block ByteVector.zero).parentRoot
    (slot.get - s.slot.get - 1)))
  have hbits : m.justifiedSlots.len = slot.get := by
    obtain ⟨_,_,-,rfl⟩ := except_bind_ok.mp hstart
    have haligned := (Ledger.Reaches.consistent hreach').aligned
    rw [hmirror.justified,hmirror.history,Bitlist.length_toList,hat.length] at haligned
    exact haligned
  have hhist : m.historicalBlockHashes.length = slot.get := hat.length
  obtain ⟨t,hproc⟩ := (processAttestations_range hreach' hat.registry hlimit hstart hmirror atts).1
    fun att hatt => by
      obtain ⟨hsource,htarget,hvoter⟩ := hatts att hatt
      exact ⟨hbits ▸ hsource,hhist ▸ hsource,hbits ▸ htarget,hhist ▸ htarget,hat.registry ▸ hvoter⟩
  obtain ⟨start',w,stored,hstart',hrun,hpack,rfl⟩ := processAttestations_ok.mp hproc
  obtain rfl : start = start' := Except.ok.inj (hstart.symm.trans hstart')
  obtain ⟨votes,L',hvotes,-,hmirror'⟩ := hmirror.attestAll hrun
  rw [hat.registry] at hvotes
  refine ⟨⟨⟨block (hashTreeRoot (m.committed w stored)),default⟩,[]⟩,_,m.committed w stored,votes,L',
    ⟨?_,rfl⟩,hat.clock,rfl,hvotes,hmirror'.committed hat hpack⟩
  exact stateTransition_ok.mpr ⟨m,hopened _,hproc,fun _ => rfl⟩

theorem Represents.justifies {n : Nat} {s : State} {L : Ledger} {acts : List Ledger.Action}
    {outs : List (List Cast)} (h : Represents n s L) (hreach : Ledger.Reaches n acts outs L)
    (hn : n ≠ 0) (hlimit : n ≤ validatorRegistryLimit) {voters : List ValidatorIndex}
    (hnodup : voters.Nodup) (hvoters : ∀ v ∈ voters, v.get < n) (hquorum : 2*n ≤ 3*voters.length)
    {source : Checkpoint} (hsource : L.Marked source) (horder : source.slot.get < s.slot.get)
    (hjustifiable : s.slot.isJustifiableAfter L.latestFinalized.slot = true)
    (slot : Slot) (hlater : s.slot.get < slot.get) (hroom : slot.get ≤ historicalRootsLimit) :
    ∃ data signed log t acts' outs' L', data.source = source ∧ data.target.slot = s.slot ∧
      Applies true s signed log t ∧ t.slot = slot ∧
      signed.message.block.body.attestations = Ledger.pledges data voters ∧
      Ledger.Reaches n acts' outs' L' ∧ Represents n t L' ∧ L'.Marked data.target ∧
      (Ledger.Consecutive L.latestFinalized.slot data ∧ L'.latestFinalized = source ∨
        ¬ Ledger.Consecutive L.latestFinalized.slot data ∧
          L'.latestFinalized = L.latestFinalized) := by
  obtain ⟨root,hblock⟩ := h.proposes hreach hn hlimit slot hlater hroom
  have hstep : Ledger.Step n L _ [] _ := .extend L root (slot.get - s.slot.get - 1)
  obtain ⟨hopen,hroot,hkept⟩ := h.fresh hreach.consistent (by omega) root
    (slot.get - s.slot.get - 1)
  have hstill := hsource.mono (fun _ => hstep.bit_mono) hstep.history_mono
  let data : AttestationData := ⟨s.slot,⟨root,s.slot⟩,⟨root,s.slot⟩,source⟩
  have hacc : (L.extend root (slot.get - s.slot.get - 1)).Acceptable data :=
    ⟨hstill.bit,hopen,hstill.root,hroot,horder,hkept.symm ▸ hjustifiable⟩
  obtain ⟨signed,log,t,votes,L',happ,hslot,hatts,hrun,hL'⟩ :=
    hblock (Ledger.pledges data voters) fun att hatt => by
      obtain ⟨v,hv,rfl⟩ := List.mem_map.mp hatt
      exact ⟨horder.trans hlater,hlater,hvoters v hv⟩
  obtain ⟨hbit,hhist,hfinality⟩ := Ledger.pledges_reach hn hnodup hquorum hacc hrun
  rw [hkept] at hfinality
  exact ⟨data,signed,log,t,_,_,L',rfl,rfl,happ,hslot,hatts,
    (hreach.append (Run.single hstep)).append hrun,hL',⟨hbit,hhist ▸ hroot⟩,hfinality⟩

/-- From every state of a chain two thirds of the registry can finalize a slot after it with
three more blocks that carry their votes alone, while the history has room. -/
theorem finality_can_advance {genesisTime : UInt64} {validators : Validators}
    {blocks : List SignedBlockWithAttestation} {logs : List (List Cast)} {s : State}
    (h : Chain true (genesisState genesisTime validators) blocks logs s)
    (hn : validators.length ≠ 0) (hlimit : validators.length ≤ validatorRegistryLimit)
    {voters : List ValidatorIndex} (hnodup : voters.Nodup)
    (hvoters : ∀ v ∈ voters, v.get < validators.length)
    (hquorum : 2*validators.length ≤ 3*voters.length)
    (hroom : s.latestFinalized.slot.get+s.stride*(s.stride+1) < historicalRootsLimit) :
    ∃ more moreLogs t, Chain true s more moreLogs t ∧ more.length = 3 ∧
      s.slot.get < t.latestFinalized.slot.get ∧
      ∀ signed ∈ more, signed.message.block.body.attestations.length ≤ voters.length ∧
        ∀ att ∈ signed.message.block.body.attestations, att.validatorId ∈ voters := by
  obtain ⟨acts,outs,L,hreach,-,hL⟩ := h.represented
  obtain ⟨hm,hpast⟩ := s.lt_stride
  have hsquare : 0 < s.stride*s.stride := Nat.mul_pos (by omega) (by omega)
  have hnext : s.stride*(s.stride+1) = s.stride*s.stride+s.stride := Nat.mul_succ _ _
  have hbound : historicalRootsLimit < 2^64 := by decide
  obtain ⟨first,hfirst⟩ : ∃ first : Slot,
      first.get = s.latestFinalized.slot.get+s.stride*s.stride := ⟨⟨_,by omega⟩,rfl⟩
  obtain ⟨second,hsecond⟩ : ∃ second : Slot,
      second.get = s.latestFinalized.slot.get+s.stride*(s.stride+1) := ⟨⟨_,by omega⟩,rfl⟩
  obtain ⟨third,hthird⟩ : ∃ third : Slot, third.get = second.get+1 := ⟨⟨_,by omega⟩,rfl⟩
  have hjust₁ : first.isJustifiableAfter s.latestFinalized.slot = true :=
    (Slot.isJustifiableAfter_iff ..).mpr ⟨by omega,.inr (.inl ⟨s.stride,by omega⟩)⟩
  have hjust₂ : second.isJustifiableAfter s.latestFinalized.slot = true :=
    (Slot.isJustifiableAfter_iff ..).mpr ⟨by omega,.inr (.inr ⟨s.stride,by omega⟩)⟩
  -- The first block carries no votes.
  obtain ⟨root₀,hblock₁⟩ := hL.proposes hreach hn hlimit first (by omega) (by omega)
  obtain ⟨signed₁,log₁,s₁,votes₁,L₁,happ₁,rfl,hatts₁,hrun₁,hL₁⟩ := hblock₁ [] (by simp)
  obtain ⟨rfl,-⟩ := hrun₁.nil_inv
  have hreach₁ := hreach.append (Run.single (.extend L root₀ (s₁.slot.get - s.slot.get - 1)))
  have hfinal₁ : (L.extend root₀ (s₁.slot.get - s.slot.get - 1)).latestFinalized.slot =
      s.latestFinalized.slot := by
    rw [L.extend_finalized,hL.latestFinalized]
  -- The second justifies the first, and does not change the finalized slot either way.
  obtain ⟨data₁,signed₂,log₂,s₂,_,_,L₂,hsource₁,htarget₁,happ₂,rfl,hatts₂,hreach₂,hL₂,hmarked,hfin₂⟩ :=
    hL₁.justifies hreach₁ hn hlimit hnodup hvoters hquorum
      (Ledger.marked_extend (Ledger.Reaches.consistent hreach₁)) (by rw [hfinal₁]; omega)
      (hfinal₁ ▸ hjust₁) second (by omega) (by omega)
  have hfinal₂ : L₂.latestFinalized.slot = s.latestFinalized.slot := by
    rcases hfin₂ with ⟨-,heq⟩ | ⟨-,heq⟩
    · rw [heq,hfinal₁]
    · rw [heq,hfinal₁]
  -- The third goes from the first to the second, with nothing justifiable in between.
  obtain ⟨data₂,signed₃,log₃,s₃,_,_,L₃,hsource₂,htarget₂,happ₃,-,hatts₃,-,hL₃,-,hfin₃⟩ :=
    hL₂.justifies hreach₂ hn hlimit hnodup hvoters hquorum hmarked (by rw [htarget₁]; omega)
      (hfinal₂ ▸ hjust₂) third (by omega) (by omega)
  have hadvance : s₃.latestFinalized.slot = s₁.slot := by
    rw [← hL₃.latestFinalized]
    rcases hfin₃ with ⟨-,heq⟩ | ⟨hno,-⟩
    · rw [heq,htarget₁]
    · refine absurd (consecutive_square hm ?_ ?_) hno
      · rw [hsource₂,htarget₁,hfinal₂,hfirst]
      · rw [htarget₂,hfinal₂,hsecond]
  refine ⟨[signed₁,signed₂,signed₃],[log₁,log₂,log₃],s₃,
    ((Run.single happ₁).snoc happ₂).snoc happ₃,rfl,by rw [hadvance]; omega,?_⟩
  intro signed hsigned
  simp only [List.mem_cons,List.not_mem_nil,or_false] at hsigned
  rcases hsigned with rfl | rfl | rfl
  · simp [hatts₁]
  · simp [hatts₂,Ledger.pledges]
  · simp [hatts₃,Ledger.pledges]

end

section
attribute [local instance] mixPair

theorem finality_can_advance_solo :
    ∃ more moreLogs t, Chain true soloChain more moreLogs t ∧ more.length = 3 ∧
      soloChain.slot.get < t.latestFinalized.slot.get := by
  obtain ⟨blocks,hs,-⟩ := soloChain_chain
  obtain ⟨more,moreLogs,t,hmore,hlength,hslot,-⟩ := finality_can_advance hs (by decide) (by decide)
    (List.nodup_singleton default) (by decide) (by decide) (by decide +kernel)
  exact ⟨more,moreLogs,t,hmore,hlength,hslot⟩

end

end Devnet.Protocol
