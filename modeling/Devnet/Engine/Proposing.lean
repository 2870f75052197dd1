import Devnet.Engine.Enrolled
import Devnet.Engine.Ladder
import Devnet.ForkChoice.Packing
import Devnet.Protocol.Tally

/-!
When a proposal goes through. The producer takes pooled votes for tracked targets whose
source is the candidate's own justified checkpoint; the transition then aborts on a vote for
a slot that is not yet in the candidate's history. A vote for a block of another branch that
is as late as the proposal is admitted and collected all the same.
-/

set_option autoImplicit false

namespace Devnet.Engine
open Machine Trees Devnet.Types Devnet.Ssz Devnet.Protocol Devnet.ForkChoice

section
variable [HashPair]

/-- The hash is sound on the blocks held and gives none of their post-states the zero root,
which a pending header uses to say that it is not sealed. -/
structure Firm (held : List Block) : Prop extends Sound held where
  stateRoot : ∀ b ∈ held, b.stateRoot ≠ ByteVector.zero

instance (held : List Block) : Decidable (Firm held) :=
  decidable_of_iff (Sound held ∧ ∀ b ∈ held, b.stateRoot ≠ ByteVector.zero)
    ⟨fun h => ⟨h.1,h.2⟩,fun h => ⟨h.toSound,h.stateRoot⟩⟩

theorem Firm.mono {held held' : List Block} (h : Firm held') (hsub : ∀ b ∈ held, b ∈ held') :
    Firm held :=
  ⟨h.toSound.mono hsub,fun b hb => h.stateRoot b (hsub b hb)⟩

/-- What the proposer of a slot finds at its head: a pair that hangs together, its own turn,
and room for the block. -/
structure Ready (b : Block) (s : State) (slot : Slot) (validator : ValidatorIndex) : Prop where
  paired : Paired b s
  header : s.latestBlockHeader = { b.header with stateRoot := ByteVector.zero }
  stateRoot : b.stateRoot ≠ ByteVector.zero
  later : b.slot.get < slot.get
  proposer : isProposer validator slot s.numValidators = .ok true
  room : slot.get ≤ historicalRootsLimit
  registry : s.validators.length ≤ validatorRegistryLimit

theorem Ready.opens {b : Block} {s : State} {slot : Slot} {validator : ValidatorIndex}
    (h : Ready b s slot validator) (root : Bytes32) (body : BlockBody) :
    ∃ m, s.opened ⟨slot,validator,hashTreeRoot b,root,body⟩ = .ok m := by
  have hcached : s.cachedRoot = b.stateRoot := by
    rw [State.cachedRoot,h.header,if_pos rfl,h.paired.root]
  have hclock := h.paired.chain.clock
  have hlength := h.paired.chain.length
  rw [h.paired.slot] at hclock hlength
  have hlen : s.justifiedSlots.len = s.historicalBlockHashes.length := by
    obtain ⟨n,L,hL,hc⟩ := h.paired.chain.represented
    rw [← Bitlist.length_toList,← hL.justified,hc.aligned,hL.history]
  have hlater := h.later
  have hroom := h.room
  have hbefore : s.slot.get < slot.get := by rwa [h.paired.slot]
  obtain ⟨t,hslots⟩ := processSlots_total hbefore
  obtain ⟨-,sealing,rfl,hsealed⟩ := processSlots_ok hslots
  obtain rfl : sealing = b.stateRoot := hcached ▸ hsealed (hcached ▸ h.stateRoot)
  obtain ⟨hregistry,hturn⟩ := isProposer_ok.mp h.proposer
  have hfits : HeaderFits (s.sealed slot b.stateRoot)
      ⟨slot,validator,hashTreeRoot b,root,body⟩ := by
    refine ⟨rfl,?_,hregistry,hturn,?_,?_⟩
    · simpa [State.sealed,hclock] using hlater
    · rw [← b.hashTreeRoot_header]
      simp only [State.sealed,h.header]
      rfl
    · simp only [State.sealed,hclock,hlength]
      omega
  obtain ⟨m,hm⟩ := processBlockHeader_total hfits hlen
  refine ⟨m,?_⟩
  simp only [State.opened,except_bind_ok,onCopy_ok]
  exact ⟨_,⟨(),hslots⟩,(),hm⟩

/-- A vote the transition of a block at `slot` does not abort on. -/
structure Timely (n : Nat) (slot : Slot) (att : Attestation) : Prop where
  source : att.data.source.slot.get < slot.get
  target : att.data.target.slot.get < slot.get
  validator : att.validatorId.get < n

theorem OnChain.batch_iff {s m : State} (h : OnChain s)
    (hn : s.validators.length ≤ validatorRegistryLimit) {block : Block}
    (hm : s.opened block = .ok m) (atts : List Attestation) :
    (∃ t, processAttestations atts m = .ok () t) ↔
      ∀ att ∈ atts, Timely s.validators.length block.slot att := by
  obtain ⟨_,validators,_,_,hchain⟩ := h
  obtain ⟨acts,outs,L,hreach,-,hL⟩ := hchain.represented
  obtain ⟨hat,root,start,hstart,hmirror⟩ := hL.opened hm
  have hreach' := Run.append hreach (Run.single (.extend L root (s.gap block)))
  have hlen : m.justifiedSlots.len = block.slot.get := by
    obtain ⟨_,_,-,rfl⟩ := except_bind_ok.mp hstart
    have haligned := (Ledger.Reaches.consistent hreach').aligned
    rw [hmirror.justified,hmirror.history,Bitlist.length_toList,hat.length] at haligned
    exact haligned
  have hrange : ∀ att, InRange m att ↔ Timely s.validators.length block.slot att := by
    intro att
    rw [hL.registry,← hat.registry]
    constructor
    · intro hin
      exact ⟨hlen ▸ hin.sourceBit,hlen ▸ hin.targetBit,hin.validator⟩
    · intro hfits
      exact ⟨hlen ▸ hfits.source,hat.length ▸ hfits.source,hlen ▸ hfits.target,
        hat.length ▸ hfits.target,hfits.validator⟩
  rw [hL.registry] at hn
  constructor
  · rintro ⟨t,hrun⟩ att hatt
    obtain ⟨_,last,_,-,hall,-⟩ := processAttestations_ok.mp hrun
    exact (hrange att).mp (attestAll_iff.mp ⟨last,hall⟩ att hatt)
  · intro hatts
    refine (processAttestations_range hreach' hat.registry hn hstart hmirror atts).1 ?_
    exact fun att hatt => (hrange att).mpr (hatts att hatt)

theorem OnChain.justified_lt {s post : State} (h : OnChain s) {block : Block}
    (hassembled : Assembled s block post) :
    post.latestJustified.slot.get < block.slot.get := by
  -- With its own state root filled in the candidate passes the transition.
  have hstep : s.stateTransition ⟨⟨{ block with stateRoot := hashTreeRoot post },default⟩,[]⟩
      true = .ok post := Assembled.stateTransition (by
        obtain ⟨m,opened,hm,hheader,hpost⟩ := hassembled.run
        exact ⟨m,opened,hm,hheader,hpost⟩) h.clock rfl
  obtain ⟨⟨_,hext⟩,-⟩ := stateTransition_extends hstep
  have hpost := h.next hstep
  have hslot : post.slot.get = block.slot.get := congrArg Slot.get hext.slot
  rcases Nat.eq_zero_or_pos post.latestJustified.slot.get with hzero | hpos
  · have := hext.later
    simp only at this
    omega
  · obtain ⟨hlt,-⟩ := List.getElem?_eq_some_iff.mp (hpost.recorded (.inl rfl) hpos)
    rw [hpost.length] at hlt
    omega

theorem Ready.candidate_iff {b : Block} {s : State} {slot : Slot} {validator : ValidatorIndex}
    (h : Ready b s slot validator) {votes : List SignedAttestation} :
    (∃ candidate post,
        buildCandidateBlock (hashTreeRoot b) slot validator s votes = .ok (candidate,post)) ↔
      ∀ vote ∈ votes, Timely s.validators.length slot vote.message := by
  obtain ⟨opened,hopened⟩ := h.opens ByteVector.zero (bodyFrom votes)
  have hbatch := h.paired.chain.batch_iff h.registry hopened (bodyFrom votes).attestations
  have hbody : (∀ att ∈ (bodyFrom votes).attestations, Timely s.validators.length slot att) ↔
      ∀ vote ∈ votes, Timely s.validators.length slot vote.message := List.forall_mem_map
  simp only [State.opened,except_bind_ok,onCopy_ok] at hopened
  obtain ⟨m,⟨⟨⟩,hslots⟩,⟨⟩,hheader⟩ := hopened
  have hadvance : advanceStateToSlot s slot = .ok m := advanceStateToSlot_ok.mpr (.inr hslots)
  rw [← hbody,← hbatch]
  simp only [buildCandidateBlock,except_bind_ok,mapError_ok,onCopy_ok]
  constructor
  · rintro ⟨candidate,post,m',hm',opened',⟨_,hheader'⟩,post',⟨_,hpost⟩,-⟩
    obtain rfl : m = m' := Except.ok.inj (hadvance.symm.trans hm')
    cases hheader.symm.trans hheader'
    exact ⟨post',hpost⟩
  · rintro ⟨post,hpost⟩
    exact ⟨⟨slot,validator,hashTreeRoot b,ByteVector.zero,bodyFrom votes⟩,post,m,hadvance,opened,
      ⟨(),hheader⟩,post,⟨(),hpost⟩,rfl⟩

section Gathering
variable {st : Store} {order : IterationOrder SignedAttestation} {b : Block} {s : State}
  {slot : Slot} {validator : ValidatorIndex}

/-- The lists of votes that the rounds of the gathering come to. -/
def Gathers (st : Store) (order : IterationOrder SignedAttestation) (headRoot : Bytes32)
    (slot : Slot) (validator : ValidatorIndex) (headState : State) :
    List SignedAttestation → Prop :=
  Relation.ReflTransGen (fun votes next =>
    st.convergeRound order headRoot slot validator headState votes = .ok (.next next)) []

theorem Ready.gathered (h : Ready b s slot validator) {votes : List SignedAttestation}
    (hgathers : Gathers st order (hashTreeRoot b) slot validator s votes) :
    Packing st votes ∧ ∀ vote ∈ votes, vote.message.data.source.slot.get < slot.get := by
  induction hgathers with
  | refl => exact ⟨packing_nil st,by simp⟩
  | tail _ hround ih =>
    refine ⟨(ih.1.round hround).1,?_⟩
    obtain ⟨candidate,post,hbuild,⟨-,hflow⟩ | ⟨-,hflow⟩⟩ := convergeRound_ok hround
    · cases hflow
    · cases hflow
      have hearlier := h.paired.chain.justified_lt (buildCandidateBlock_ok hbuild ByteVector.zero)
      intro vote hvote
      rcases List.mem_append.mp hvote with hold | hnew
      · exact ih.2 vote hold
      · rw [(mem_collectIncludableVotes hnew).2.1]
        exact hearlier

theorem Gathers.subset {headRoot : Bytes32} {votes more : List SignedAttestation}
    (h : Relation.ReflTransGen (fun votes next =>
      st.convergeRound order headRoot slot validator s votes = .ok (.next next)) votes more) :
    ∀ vote ∈ votes, vote ∈ more := by
  induction h with
  | refl => exact fun _ hvote => hvote
  | tail _ hround ih =>
    intro vote hvote
    obtain ⟨candidate,post,-,⟨-,hflow⟩ | ⟨-,hflow⟩⟩ := convergeRound_ok hround
    · cases hflow
    · cases hflow
      exact List.mem_append_left _ (ih vote hvote)

/-- The rounds end, with a candidate or at the first list that cannot be one. The rounds are a
function, so every list they come to is part of the last. -/
theorem Ready.converges (h : Ready b s slot validator)
    (hknown : Registered s.validators.length st.latestKnownVotes)
    (order : IterationOrder SignedAttestation) :
    (∃ votes post,
        st.convergeAttestations order (hashTreeRoot b) slot validator s = .ok (votes,post)) ↔
      ∀ votes, Gathers st order (hashTreeRoot b) slot validator s votes →
        ∀ vote ∈ votes, vote.message.data.target.slot.get < slot.get := by
  have hroom : min maxAttestations st.latestKnownVotes.size - ([] : List SignedAttestation).length <
      maxAttestations+1 := by omega
  obtain ⟨last,hreach,hpacking,hend⟩ := loop_run .unending (Packing st)
    (fun votes => min maxAttestations st.latestKnownVotes.size - votes.length) Packing.round
    (packing_nil st) hroom
  rcases hend with ⟨e,hfails,hloop⟩ | ⟨⟨votes,post⟩,hstop,hloop⟩
  · refine iff_of_false ?_ fun hearly => ?_
    · rintro ⟨votes,post,hconv⟩
      cases hloop.symm.trans hconv
    · have hsources := (h.gathered hreach).2
      obtain ⟨candidate,post,hbuild⟩ := h.candidate_iff.mpr fun vote hvote => by
        obtain ⟨v,hv⟩ := hpacking.drawn.mem hvote
        exact ⟨hsources vote hvote,hearly last hreach vote hvote,hknown v vote hv⟩
      cases hbuild.symm.trans (convergeRound_error hfails)
  · refine iff_of_true ⟨votes,post,hloop⟩ fun more hmore vote hvote => ?_
    obtain ⟨candidate,post',hbuild,⟨-,hflow⟩ | ⟨-,hflow⟩⟩ := convergeRound_ok hstop
    · have htimely := h.candidate_iff.mp ⟨candidate,post',hbuild⟩
      have hunique : Relator.RightUnique fun votes next =>
          st.convergeRound order (hashTreeRoot b) slot validator s votes = .ok (.next next) := by
        intro a b c hb hc
        cases hb.symm.trans hc
        rfl
      have hmem : vote ∈ last := by
        rcases Relation.ReflTransGen.total_of_right_unique hunique hmore hreach with hpath | hpath
        · exact Gathers.subset hpath vote hvote
        · rcases hpath.cases_head with rfl | ⟨next,hnext,-⟩
          · exact hvote
          · cases hstop.symm.trans hnext
      exact (htimely vote hmem).target
    · cases hflow

end Gathering

theorem Grounded.finalize_ok {held : List Block} {anchor headRoot : Bytes32} {st : Store}
    (h : Grounded held anchor st) (hsound : Sound held) {slot : Slot} {validator : ValidatorIndex}
    {headState post : State} {votes : List SignedAttestation} {candidate : Block}
    (hstate : st.states[headRoot]? = some headState)
    (hbuild : buildCandidateBlock headRoot slot validator headState votes = .ok (candidate,post))
    (hheld : ∀ b ∈ Tables.values
      (after (finalizeProducedBlock headRoot slot validator votes post) st).blocks, b ∈ held) :
    ∃ produced t, finalizeProducedBlock headRoot slot validator votes post st =
      .ok produced t := by
  generalize hblock : (⟨slot,validator,headRoot,hashTreeRoot post,bodyFrom votes⟩ : Block) = block
  have hroot : block.stateRoot = hashTreeRoot post := by rw [← hblock]
  have hparent : block.parentRoot = headRoot := by rw [← hblock]
  have hassembled : Assembled headState block post := by
    rw [← hblock]
    exact buildCandidateBlock_ok hbuild _
  simp only [finalizeProducedBlock,hblock] at hheld ⊢
  by_cases hknown : hashTreeRoot block ∈ st.blocks
  · obtain ⟨t,haccept,-⟩ := h.acceptNewVotes_ok hsound
    rw [estate_bind_of_ok (trackBlock_known hroot hknown),estate_bind_of_ok haccept]
    exact ⟨_,t,rfl⟩
  · rw [← hparent] at hstate
    have htrack := trackBlock_total hroot hknown (h.linked.stated.mp (mem_of_get hstate))
    rw [after_bind_of_ok htrack,after_bind_pure] at hheld
    have hmem : block ∈ held := by
      refine hheld block (Tables.mem_values.mpr ⟨hashTreeRoot block,?_⟩)
      rw [(sameTree_of_touches (touches_acceptNewVotes _)).blocks,
        (getElem?_tracking hknown block post _).1,if_pos rfl]
    have hnext := h.track hsound hstate hassembled hroot hknown hmem
    obtain ⟨t,haccept,-⟩ := hnext.acceptNewVotes_ok hsound
    rw [estate_bind_of_ok htrack,estate_bind_of_ok haccept]
    exact ⟨_,t,rfl⟩

/-- Whoever's turn it is produces a block on the proposal head, in every store of a life, unless
the gathering comes to a vote for a slot at or after the proposal's. Such a vote is a pooled one
for a tracked block of another branch, with a source before the proposal. -/
theorem proposal_succeeds {held : List Block} {st : Store} (hlife : Lives held st)
    (order : IterationOrder SignedAttestation) (slot : Slot) (validator : ValidatorIndex)
    (hfirm : Firm (held ++ Tables.values (handle (.produceBlock order slot validator) st).blocks)) :
    ∃ m hb hs, acceptNewVotes st = .ok () m ∧ m.blocks[m.head]? = some hb ∧
      m.states[m.head]? = some hs ∧
      (hb.slot.get < slot.get → isProposer validator slot hs.numValidators = .ok true →
        slot.get ≤ historicalRootsLimit → hs.validators.length ≤ validatorRegistryLimit →
        (∀ votes, Gathers m order m.head slot validator hs votes → ∀ vote ∈ votes,
          (vote ∈ Tables.values st.latestKnownVotes ∨ vote ∈ Tables.values st.latestNewVotes) ∧
          vote.message.data.target.root ∈ m.blocks ∧
          vote.message.data.source.slot.get < slot.get) ∧
        ((∃ produced t, produceBlock order slot validator st = .ok produced t) ↔
          ∀ votes, Gathers m order m.head slot validator hs votes → ∀ vote ∈ votes,
            vote.message.data.target.slot.get < slot.get)) := by
  have hsub : ∀ b ∈ held,
      b ∈ held ++ Tables.values (handle (.produceBlock order slot validator) st).blocks :=
    fun b hb => List.mem_append_left _ hb
  obtain ⟨anchor,hsteady⟩ := hlife.steady (hfirm.toSound.mono hsub)
  have hst := hsteady.toGrounded.mono hsub
  obtain ⟨m,haccept,-⟩ := hst.acceptNewVotes_ok hfirm.toSound
  have htouches := touches_acceptNewVotes st
  rw [after_of_ok haccept] at htouches
  have hm := hst.touches hfirm.toSound htouches
  obtain ⟨hb,hhb⟩ := get_of_mem hm.pointed.head
  obtain ⟨hs,hhs,hpair⟩ := hm.linked.state hhb
  refine ⟨m,hb,hs,haccept,hhb,hhs,?_⟩
  intro hlater hproposer hroom hregistry
  obtain ⟨validators,henrolled⟩ := hlife.enrolled
  have hen : Enrolled validators m := henrolled.writes (writes_of_touches htouches)
  have hready : Ready hb hs slot validator :=
    ⟨hpair,hen.header hhb hhs,hfirm.stateRoot hb (hm.linked.kept hhb),hlater,hproposer,hroom,
      hregistry⟩
  have hknown : Registered hs.validators.length m.latestKnownVotes := by
    rw [hen.registry hhs]
    exact hen.known
  have hroot := hm.linked.keyed hhb
  have hconverges := hready.converges hknown order
  rw [hroot] at hconverges
  refine ⟨fun votes hvotes vote hvote => ?_,?_⟩
  · rw [← hroot] at hvotes
    obtain ⟨hpacking,hsources⟩ := hready.gathered hvotes
    obtain ⟨v,hv⟩ := hpacking.drawn.mem hvote
    refine ⟨?_,hpacking.tracked vote hvote,hsources vote hvote⟩
    rcases known_of_accepted haccept hv with h | h
    · exact .inl (Tables.mem_values.mpr ⟨v,h⟩)
    · exact .inr (Tables.mem_values.mpr ⟨v,h⟩)
  rw [← hconverges]
  constructor
  · rintro ⟨produced,t,hrun⟩
    obtain ⟨m',hs',votes,post,_,_,haccept',hhs',hconv,-⟩ := produceBlock_ok hrun
    cases haccept.symm.trans haccept'
    cases hhs.symm.trans hhs'
    exact ⟨votes,post,hconv⟩
  · rintro ⟨votes,post,hconv⟩
    have heq := produceBlock_eq haccept hhs hproposer hconv
    obtain ⟨-,candidate,hbuild⟩ := convergeAttestations_ok hconv
    rw [heq]
    refine hm.finalize_ok hfirm.toSound hhs hbuild fun b hmem => List.mem_append_right _ ?_
    have hafter : handle (.produceBlock order slot validator) st =
        after (finalizeProducedBlock m.head slot validator votes post) m := by
      simp only [handle,after,heq]
    rwa [hafter]

end

section
attribute [local instance] mixPair

def ballotOf (i : Nat) (source target : Checkpoint) : SignedAttestation :=
  ⟨⟨⟨(Slot.ofNat i).get,(Slot.ofNat i).isLt⟩,⟨Slot.zero,target,target,source⟩⟩,default⟩

-- Three validators and two blocks on genesis; two vote for the earlier one.
def trioStore : Store := genesisStore 0 [default,default,default]
def fork3 : Store := extend trioStore (tip trioStore) 3 []
def fork6 : Store := extend fork3 (tip trioStore) 6 []

def second : ValidatorIndex := (ballotOf 1 default default).message.validatorId

def stalledVotes : List SignedAttestation :=
  [ballotOf 0 (tip trioStore) (tip fork3),ballotOf 1 (tip trioStore) (tip fork3),
    ballotOf 2 (tip fork6) (tip fork6)]

def forkStalled : Store := drive (stalledVotes.map .importAttestation) fork6

/-- The pool has a vote for a later block, which no candidate of slot 4 has the source of. -/
theorem proposal_succeeds_fork :
    (∃ vote ∈ Tables.values forkStalled.latestNewVotes, vote.message.data.target.slot.get = 6) ∧
    ∃ produced t, produceBlock default (Slot.ofNat 4) second forkStalled = .ok produced t := by
  have hlife : Lives _ forkStalled :=
    (((((lives_genesis 0 [default,default,default]).extend (tip trioStore) 3 []).extend
      (tip trioStore) 6 []).event (.importAttestation (ballotOf 0 (tip trioStore) (tip fork3)))).event
      (.importAttestation (ballotOf 1 (tip trioStore) (tip fork3)))).event
      (.importAttestation (ballotOf 2 (tip fork6) (tip fork6)))
  obtain ⟨m,hb,hs,haccept,hhb,hhs,hproduces⟩ := proposal_succeeds hlife
    default (Slot.ofNat 4) second (by decide +kernel)
  obtain rfl := after_of_ok haccept
  obtain ⟨hlate,hblock,hstate,hpool⟩ :
      (∃ vote ∈ Tables.values forkStalled.latestNewVotes,
        vote.message.data.target.slot.get = 6) ∧
      (∀ b ∈ (after acceptNewVotes forkStalled).blocks[(after acceptNewVotes forkStalled).head]?,
        b.slot.get < 4) ∧
      (∀ s ∈ (after acceptNewVotes forkStalled).states[(after acceptNewVotes forkStalled).head]?,
        isProposer second (Slot.ofNat 4) s.numValidators = .ok true ∧
          s.validators.length ≤ validatorRegistryLimit) ∧
      ∀ vote ∈ Tables.values forkStalled.latestKnownVotes ++
          Tables.values forkStalled.latestNewVotes,
        vote.message.data.source.slot.get < 4 → vote.message.data.target.slot.get < 4 := by
    decide +kernel
  obtain ⟨hgathered,hiff⟩ :=
    hproduces (hblock hb hhb) (hstate hs hhs).1 (by decide) (hstate hs hhs).2
  refine ⟨hlate,hiff.mpr fun votes hvotes vote hvote => ?_⟩
  obtain ⟨hmem,-,hsource⟩ := hgathered votes hvotes vote hvote
  exact hpool vote (List.mem_append.mpr hmem) hsource

def forkVotes : List SignedAttestation :=
  [ballotOf 0 (tip trioStore) (tip fork3),ballotOf 1 (tip trioStore) (tip fork3),
    ballotOf 2 (tip trioStore) (tip fork6)]

def forkVoted : Store := drive (forkVotes.map .importAttestation) fork6

/-- The third validator's vote for the later block is admitted; the proposer of slot 4 builds
on the earlier block, takes that vote and aborts. -/
theorem late_vote_stops_proposal :
    ∃ held proposer, Lives held forkVoted ∧
      Firm (held ++ Tables.values
        (handle (.produceBlock default (Slot.ofNat 4) proposer) forkVoted).blocks) ∧
      ∃ m hb hs, acceptNewVotes forkVoted = .ok () m ∧ m.blocks[m.head]? = some hb ∧
        m.states[m.head]? = some hs ∧ hb.slot.get < 4 ∧
        isProposer proposer (Slot.ofNat 4) hs.numValidators = .ok true ∧
        hs.validators.length ≤ validatorRegistryLimit ∧
        ∃ t, produceBlock default (Slot.ofNat 4) proposer forkVoted =
          .error (.stateTransition (.attestationSlotOutOfRange .target (Slot.ofNat 6) 4)) t := by
  have hlife : Lives _ forkVoted :=
    (((((lives_genesis 0 [default,default,default]).extend (tip trioStore) 3 []).extend
      (tip trioStore) 6 []).event (.importAttestation (ballotOf 0 (tip trioStore) (tip fork3)))).event
      (.importAttestation (ballotOf 1 (tip trioStore) (tip fork3)))).event
      (.importAttestation (ballotOf 2 (tip trioStore) (tip fork6)))
  obtain ⟨haccept,⟨hb,hhb,hlater⟩,⟨hs,hhs,hproposer,hregistry⟩,hfails⟩ :
      failure acceptNewVotes forkVoted = none ∧
      (∃ hb ∈ (after acceptNewVotes forkVoted).blocks[(after acceptNewVotes forkVoted).head]?,
        hb.slot.get < 4) ∧
      (∃ hs ∈ (after acceptNewVotes forkVoted).states[(after acceptNewVotes forkVoted).head]?,
        isProposer second (Slot.ofNat 4) hs.numValidators = .ok true ∧
          hs.validators.length ≤ validatorRegistryLimit) ∧
      failure (produceBlock default (Slot.ofNat 4) second) forkVoted =
        some (.stateTransition (.attestationSlotOutOfRange .target (Slot.ofNat 6) 4)) := by
    decide +kernel
  obtain ⟨⟨⟩,m,hm⟩ := failure_eq_none.mp haccept
  obtain rfl := after_of_ok hm
  exact ⟨_,second,hlife,by decide +kernel,_,hb,hs,hm,hhb,hhs,hlater,hproposer,hregistry,
    failure_eq_some.mp hfails⟩

end

end Devnet.Engine
