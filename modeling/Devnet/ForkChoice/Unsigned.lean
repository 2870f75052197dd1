import Devnet.ForkChoice.Production
import Devnet.Lib.Twins

/-!
Stores that differ in the signatures of their pooled votes and in nothing else. No
operation of the store tells them apart. The one place that compares signatures is the
producer's test whether a vote is in the block already; it never decides anything, since
votes with one message are taken in the same round.
-/

set_option autoImplicit false

namespace Devnet.ForkChoice
open Machine Trees Devnet.Types Devnet.Ssz Devnet.Protocol

def messages (votes : Votes) : HashMap ValidatorIndex Attestation :=
  votes.map fun _ vote => vote.message

theorem getElem?_messages (votes : Votes) (v : ValidatorIndex) :
    (messages votes)[v]? = votes[v]?.map (·.message) := by
  simp [messages,Std.ExtTreeMap.getElem?_map]

theorem messages_insert (votes : Votes) (v : ValidatorIndex) (vote : SignedAttestation) :
    messages (votes.insert v vote) = (messages votes).insert v vote.message := by
  apply Std.ExtTreeMap.ext_getElem?
  intro w
  by_cases hw : v = w
  · simp [getElem?_messages,hw]
  · simp [getElem?_messages,Std.ExtTreeMap.getElem?_insert,hw]

theorem messages_erase (votes : Votes) (v : ValidatorIndex) :
    messages (votes.erase v) = (messages votes).erase v := by
  apply Std.ExtTreeMap.ext_getElem?
  intro w
  by_cases hw : v = w
  · simp [getElem?_messages,hw]
  · simp [getElem?_messages,Std.ExtTreeMap.getElem?_erase,hw]

theorem messages_union (votes others : Votes) :
    messages (votes ∪ others) = messages votes ∪ messages others := by
  apply Std.ExtTreeMap.ext_getElem?
  intro w
  simp only [getElem?_messages,Std.ExtTreeMap.getElem?_union]
  cases others[w]? with
  | none => simp
  | some vote => simp

theorem map_message_values (votes : Votes) :
    (Tables.values votes).map (·.message) = Tables.values (messages votes) := by
  simp [Tables.values,messages,Std.ExtTreeMap.toList_map]

theorem voteHeadCheckpoints_messages (votes : Votes) :
    voteHeadCheckpoints votes = (messages votes).map fun _ message => message.data.head := by
  apply Std.ExtTreeMap.ext_getElem?
  intro w
  simp [voteHeadCheckpoints,messages,Std.ExtTreeMap.getElem?_map]

theorem insertIfNewer_messages {votes votes' : Votes} {vote vote' : SignedAttestation}
    (h : messages votes = messages votes') (hvote : vote.message = vote'.message)
    (v : ValidatorIndex) :
    messages (insertIfNewer votes v vote).1 = messages (insertIfNewer votes' v vote').1 ∧
      (insertIfNewer votes v vote).2 = (insertIfNewer votes' v vote').2 := by
  have hv := congrArg (·[v]?) h
  simp only [getElem?_messages] at hv
  have hinserted : messages (votes.insert v vote) = messages (votes'.insert v vote') := by
    rw [messages_insert,messages_insert,h,hvote]
  cases hold : votes[v]? with
  | none =>
    have hold' : votes'[v]? = none := by simpa [hold] using hv.symm
    simp [insertIfNewer,hold,hold',hinserted]
  | some old =>
    obtain ⟨old',hold',hsame⟩ : ∃ old', votes'[v]? = some old' ∧ old'.message = old.message := by
      simpa [hold] using hv.symm
    simp only [insertIfNewer,hold,hold',hvote,hsame]
    by_cases hle : vote'.message.data.slot.get ≤ old.message.data.slot.get
    · simp [hle,h]
    · simp [hle,hinserted]

theorem evictIfOlder_messages {votes votes' : Votes} (h : messages votes = messages votes')
    (v : ValidatorIndex) (slot : Slot) :
    messages (evictIfOlder votes v slot).1 = messages (evictIfOlder votes' v slot).1 ∧
      (evictIfOlder votes v slot).2 = (evictIfOlder votes' v slot).2 := by
  have hv := congrArg (·[v]?) h
  simp only [getElem?_messages] at hv
  have herased : messages (votes.erase v) = messages (votes'.erase v) := by
    rw [messages_erase,messages_erase,h]
  cases hold : votes[v]? with
  | none =>
    have hold' : votes'[v]? = none := by simpa [hold] using hv.symm
    simp [evictIfOlder,hold,hold',h]
  | some old =>
    obtain ⟨old',hold',hsame⟩ : ∃ old', votes'[v]? = some old' ∧ old'.message = old.message := by
      simpa [hold] using hv.symm
    simp only [evictIfOlder,hold,hold',hsame]
    by_cases hlt : old.message.data.slot.get < slot.get
    · simp [hlt,herased]
    · simp [hlt,h]

/-- The second store is the first with other signatures in its pools. -/
inductive Alike (s : Store) : Store → Prop where
  | mk {known pending : Votes} (hknown : messages s.latestKnownVotes = messages known)
      (hpending : messages s.latestNewVotes = messages pending) :
      Alike s { s with latestKnownVotes := known, latestNewVotes := pending }

theorem Alike.refl (s : Store) : Alike s s := .mk rfl rfl

theorem alike_processAttestation {vote vote' : SignedAttestation}
    (hvote : vote.message = vote'.message) (isFromBlock : Bool) :
    Agree Alike Eq (processAttestation vote isFromBlock) (processAttestation vote' isFromBlock) := by
  refine agree_get ?_
  rintro s _ ⟨hknown,hpending⟩
  rw [← hvote]
  refine agree_bind (agree_check (.refl (s.validateValidatorIndex _))) fun _ _ _ => ?_
  refine agree_bind (agree_check (.refl (s.validateAttestation _))) fun _ _ _ => ?_
  have hold := insertIfNewer_messages hknown hvote vote.message.validatorId
  have hnew := insertIfNewer_messages hpending hvote vote.message.validatorId
  have hevict := evictIfOlder_messages hpending vote.message.validatorId vote.message.data.slot
  cases isFromBlock with
  | true =>
    refine agree_bind (agree_set ?_) fun _ _ _ => agree_pure ?_
    · simp only [Store.withOnChain,← hvote]
      exact .mk hold.1 hevict.1
    · rw [hold.2,hevict.2]
  | false =>
    refine agree_bind (agree_set ?_) fun _ _ _ => agree_pure hnew.2
    simp only [Store.withGossip,← hvote]
    exact .mk hknown hnew.1

theorem alike_updateHead : Agree Alike Eq updateHead updateHead := by
  refine agree_get ?_
  rintro s _ ⟨hknown,hpending⟩
  simp only [voteHeadCheckpoints_messages,hknown]
  refine agree_bind (agree_check (.refl _)) ?_
  rintro head _ rfl
  exact agree_set (.mk hknown hpending)

theorem alike_acceptNewVotes : Agree Alike Eq acceptNewVotes acceptNewVotes := by
  refine agree_bind (agree_modify ?_) fun _ _ _ => alike_updateHead
  rintro s _ ⟨hknown,hpending⟩
  refine .mk ?_ rfl
  simp only [Store.promoted,messages_union,hknown,hpending]

theorem alike_updateSafeTarget : Agree Alike Eq updateSafeTarget updateSafeTarget := by
  refine agree_get ?_
  rintro s _ ⟨hknown,hpending⟩
  refine agree_bind (agree_check (.refl s.headValidatorCount)) ?_
  rintro numValidators _ rfl
  simp only [voteHeadCheckpoints_messages,hpending]
  refine agree_bind (agree_check (.refl _)) ?_
  rintro safeTarget _ rfl
  exact agree_set (.mk hknown hpending)

theorem alike_tickInterval (hasProposal : Bool) :
    Agree Alike Eq (tickInterval hasProposal) (tickInterval hasProposal) := by
  refine agree_get ?_
  rintro s _ ⟨hknown,hpending⟩
  cases s.time.checkedAdvance with
  | none => exact agree_throw _
  | some next =>
    refine agree_bind (agree_set (.mk hknown hpending)) fun _ _ _ => ?_
    cases next.phase with
    | proposal =>
      cases hasProposal with
      | true => exact alike_acceptNewVotes
      | false => exact agree_pure rfl
    | idle => exact agree_pure rfl
    | updateSafeTarget => exact alike_updateSafeTarget
    | acceptNewVotes => exact alike_acceptNewVotes

theorem alike_getProposalHead : Agree Alike Eq getProposalHead getProposalHead := by
  refine agree_bind alike_acceptNewVotes fun _ _ _ => agree_get ?_
  rintro s _ ⟨-,-⟩
  exact agree_pure rfl

theorem Alike.tracking {s t : Store} (h : Alike s t) (root : Bytes32) (block : Block)
    (post : State) : Alike (s.tracking root block post) (t.tracking root block post) := by
  obtain ⟨hknown,hpending⟩ := h
  unfold Store.tracking Store.insertBlock Store.adoptPostStateCheckpoints
  simp only [Store.shouldAdoptCheckpoint]
  split_ifs <;> exact .mk hknown hpending

theorem alike_produceAttestationVote (slot : Slot) :
    Agree Alike Eq (produceAttestationVote slot) (produceAttestationVote slot) := by
  refine agree_bind alike_getProposalHead ?_
  rintro headRoot _ rfl
  refine agree_get ?_
  rintro s _ ⟨-,-⟩
  refine agree_bind (agree_check (.refl (s.lookupBlock headRoot .unknownHeadBlock))) ?_
  rintro headBlock _ rfl
  refine agree_bind (agree_check (.refl s.getVoteTarget)) ?_
  rintro target _ rfl
  exact agree_pure rfl

def SameOrder (order order' : IterationOrder SignedAttestation) : Prop :=
  ∀ votes votes', votes.map (·.message) = votes'.map (·.message) →
    (order.arrange votes).map (·.message) = (order'.arrange votes').map (·.message)

/-- The block is full, or a pooled vote whose message it has is in it. -/
def Taken (self : Store) (included : List SignedAttestation) : Prop :=
  maxAttestations ≤ included.length ∨ ∀ vote ∈ Tables.values self.latestKnownVotes,
    vote.message ∈ included.map (·.message) → vote ∈ included

theorem Taken.collect {self : Store} {included : List SignedAttestation}
    (h : Taken self included) (order : IterationOrder SignedAttestation) (post : State) :
    Taken self (included ++ self.collectIncludableVotes order post included) := by
  rcases h with hfull | htaken
  · left
    simp only [List.length_append]
    omega
  · by_cases hcap : maxAttestations - included.length = 0
    · left
      simp only [List.length_append]
      omega
    · -- Either the round was cut short at the cap, or it took every vote it could.
      simp only [Store.collectIncludableVotes,if_neg hcap]
      set eligible := (((order.arrange (Tables.values self.latestKnownVotes)).filter fun vote =>
        self.hasBlock vote.message.data.target.root).filter fun vote =>
        decide (vote.message.data.source = post.latestJustified)).filter fun vote =>
        !included.contains vote with heligible
      by_cases hcut : maxAttestations - included.length ≤ eligible.length
      · left
        simp only [List.length_append,List.length_take]
        omega
      · right
        rw [List.take_of_length_le (by omega)]
        intro vote hvote hmessage
        by_cases hold : vote ∈ included
        · exact List.mem_append_left _ hold
        · rw [List.map_append,List.mem_append] at hmessage
          rcases hmessage with hmessage | hmessage
          · exact absurd (htaken vote hvote hmessage) hold
          · obtain ⟨other,hother,hsame⟩ := List.mem_map.mp hmessage
            refine List.mem_append_right _ ?_
            rw [heligible] at hother ⊢
            simp only [List.mem_filter,hsame] at hother ⊢
            exact ⟨⟨⟨(order.perm _).mem_iff.mpr hvote,hother.1.1.2⟩,hother.1.2⟩,by simpa using hold⟩

/-- Short of the cap the test for a signed vote is a test for its message. -/
theorem Taken.collect_messages {self : Store} {included : List SignedAttestation}
    (h : Taken self included) (hroom : included.length < maxAttestations)
    {order : IterationOrder SignedAttestation} {post : State} :
    (self.collectIncludableVotes order post included).map (·.message) =
      (((order.arrange (Tables.values self.latestKnownVotes)).map (·.message)).filter fun message =>
        self.hasBlock message.data.target.root &&
          (decide (message.data.source = post.latestJustified) &&
            !(included.map (·.message)).contains message)).take
        (maxAttestations - included.length) := by
  have htaken := h.resolve_left (by omega)
  rw [Store.collectIncludableVotes,if_neg (by omega),List.map_take,List.filter_map]
  congr 2
  simp only [List.filter_filter]
  apply List.filter_congr
  intro vote hvote
  have htest : included.contains vote = (included.map (·.message)).contains vote.message := by
    rw [Bool.eq_iff_iff,List.contains_iff_mem,List.contains_iff_mem]
    exact ⟨fun hmem => List.mem_map_of_mem hmem,htaken vote ((order.perm _).mem_iff.mp hvote)⟩
  simp only [Function.comp_apply,htest]
  cases self.hasBlock vote.message.data.target.root with
  | true => simp [Bool.and_comm]
  | false => simp

theorem Alike.collectIncludableVotes {s t : Store} (h : Alike s t)
    {order order' : IterationOrder SignedAttestation} (horder : SameOrder order order')
    {included included' : List SignedAttestation}
    (hsame : included.map (·.message) = included'.map (·.message)) (hs : Taken s included)
    (ht : Taken t included') (post : State) :
    (s.collectIncludableVotes order post included).map (·.message) =
      (t.collectIncludableVotes order' post included').map (·.message) := by
  have hlength : included.length = included'.length := by
    simpa using congrArg List.length hsame
  by_cases hfull : maxAttestations ≤ included.length
  · have hcap : maxAttestations - included.length = 0 := by omega
    simp [Store.collectIncludableVotes,← hlength,hcap]
  · obtain @⟨known,pending,hknown,hpending⟩ := h
    have hpool : (Tables.values s.latestKnownVotes).map (·.message) =
        (Tables.values known).map (·.message) := by
      rw [map_message_values,hknown,map_message_values]
    rw [hs.collect_messages (by omega),ht.collect_messages (by omega),← hsame,← hlength,
      horder _ _ hpool]
    rfl

section Producing
variable [HashPair]

theorem alike_trackBlock (block : Block) (post : State) :
    Agree Alike Eq (trackBlock block post) (trackBlock block post) := by
  refine agree_get ?_
  intro s t hst
  have htracking := hst.tracking (hashTreeRoot block) block post
  obtain ⟨hknown,hpending⟩ := hst
  dsimp only
  split_ifs
  · exact agree_throw _
  · exact agree_pure rfl
  · exact agree_throw _
  · exact agree_bind (agree_set htracking) fun _ _ _ => agree_pure rfl

theorem alike_convergeAttestations {s t : Store} (h : Alike s t)
    {order order' : IterationOrder SignedAttestation} (horder : SameOrder order order')
    (headRoot : Bytes32) (slot : Slot) (validator : ValidatorIndex) (headState : State) :
    Matches (fun p p' => bodyFrom p.1 = bodyFrom p'.1 ∧ p.2 = p'.2)
      (s.convergeAttestations order headRoot slot validator headState)
      (t.convergeAttestations order' headRoot slot validator headState) := by
  refine loop_matches (I := fun xs ys =>
    xs.map (·.message) = ys.map (·.message) ∧ Taken s xs ∧ Taken t ys) ?_ _
    ⟨rfl,.inr (by simp),.inr (by simp)⟩
  intro xs ys hinv
  obtain ⟨hsame,hxs,hys⟩ := hinv
  have hbody : bodyFrom xs = bodyFrom ys := by rw [bodyFrom,bodyFrom,hsame]
  have hbuild : buildCandidateBlock headRoot slot validator headState xs =
      buildCandidateBlock headRoot slot validator headState ys := by
    rw [buildCandidateBlock,buildCandidateBlock,hbody]
  rw [Store.convergeRound,Store.convergeRound,hbuild]
  cases buildCandidateBlock headRoot slot validator headState ys with
  | error e => exact .error e
  | ok built =>
    have hadd := h.collectIncludableVotes horder hsame hxs hys built.2
    have hxs' := hxs.collect order built.2
    have hys' := hys.collect order' built.2
    have hempty := congrArg List.isEmpty hadd
    simp only [List.isEmpty_map] at hempty
    simp only [bind,Except.bind,hempty]
    split_ifs
    · exact .ok (.stop ⟨hbody,rfl⟩)
    · refine .ok (.next ⟨?_,hxs',hys'⟩)
      rw [List.map_append,List.map_append,hsame,hadd]

theorem alike_finalizeProducedBlock {votes votes' : List SignedAttestation}
    (hbody : bodyFrom votes = bodyFrom votes') (headRoot : Bytes32) (slot : Slot)
    (validator : ValidatorIndex) (post : State) :
    Agree Alike Eq (finalizeProducedBlock headRoot slot validator votes post)
      (finalizeProducedBlock headRoot slot validator votes' post) := by
  simp only [finalizeProducedBlock,hbody]
  refine agree_bind (alike_trackBlock _ post) fun _ _ _ => ?_
  exact agree_bind alike_acceptNewVotes fun _ _ _ => agree_pure rfl

theorem alike_produceBlock {order order' : IterationOrder SignedAttestation}
    (horder : SameOrder order order') (slot : Slot) (validator : ValidatorIndex) :
    Agree Alike Eq (produceBlock order slot validator) (produceBlock order' slot validator) := by
  refine agree_bind alike_getProposalHead ?_
  rintro headRoot _ rfl
  refine agree_get ?_
  intro s t hst
  have hconverge := alike_convergeAttestations hst horder headRoot slot validator
  obtain ⟨hknown,hpending⟩ := hst
  cases s.states[headRoot]? with
  | none => exact agree_throw _
  | some headState =>
    refine agree_bind (agree_check (.refl _)) ?_
    rintro proposes _ rfl
    split_ifs
    · exact agree_throw _
    · refine agree_bind (agree_check (hconverge headState)) ?_
      rintro ⟨votes,post⟩ ⟨votes',_⟩ ⟨hbody,rfl⟩
      exact alike_finalizeProducedBlock hbody headRoot slot validator post

end Producing

end Devnet.ForkChoice
