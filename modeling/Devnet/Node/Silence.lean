import Devnet.Chain.Reception
import Devnet.Duties.OneTime
import Devnet.Node.Rounds

/-!
A node that comes back. Its loop starts over with the duties of slot 0, while its engine stands
at the head it resumed from and its keys are spent up to where it last signed. The engine makes
no block for a slot that is not later than its blocks, and the signer refuses what is spent: the
node has nothing to say until its loop has counted up to where it was, and its health says so.
-/

set_option autoImplicit false

namespace Devnet.Node
open Machine Devnet.Types Devnet.Ssz Devnet.Protocol Devnet.ForkChoice Devnet.Engine
  Devnet.Crypto Devnet.Storage Devnet.Duties Devnet.Chain

/-- What a call hands to the publisher. -/
inductive Emission where
  | block (signed : SignedBlockWithAttestation)
  | vote (signed : SignedAttestation)

def Emission.slot : Emission → Slot
  | .block signed => signed.message.block.slot
  | .vote signed => signed.message.data.slot

def Round.Uses (self : Round) (signer : AttestationSigner) : Prop :=
  self.signer = signer ∨ ∃ v turn, self.turn v = some turn ∧ turn.signer = signer

/-- A signer that signs for none of these validators below slot `n`. -/
def Refuses (owned : List ValidatorIndex) (n : Nat) (signer : AttestationSigner) : Prop :=
  ∀ {att : Attestation} {signature : Signature}, signer att = .ok signature →
    att.validatorId ∈ owned → n ≤ att.data.slot.get

def Withheld (owned : List ValidatorIndex) (n : Nat) : NodeEvent → Prop
  | .produceBlock _ _ _ signer _ => Refuses owned n signer
  | .produceAttestation _ _ signer => Refuses owned n signer
  | _ => True

/-- The failures of the proposer pass in a row, as far as a counter of 32 bits goes. -/
structure Health where
  consecutiveFailures : Nat

namespace Health

def new : Health := ⟨0⟩

def recordSuccess (_ : Health) : Health := ⟨0⟩

def most : Nat := 2^32-1

def recordFailure (self : Health) : Health := ⟨min (self.consecutiveFailures+1) most⟩

def failureThreshold : Nat := 3

def isDegraded (self : Health) : Bool := decide (failureThreshold ≤ self.consecutiveFailures)

end Health

def ownPass (proposers : LocalProposers) (tick : Nat) : Bool :=
  decide (tick%intervalsPerSlot = 0) &&
    (proposers.proposerForSlot (Slot.ofNat (tick/intervalsPerSlot))).isSome

section
variable [HashPair]

def emits : NodeEvent → Service → List Emission
  | .produceBlock order slot validator signer fault, chain =>
    (success (produceBlock order slot validator signer fault) chain).toList.map fun result => .block result.1
  | .produceAttestation slot validator signer, chain =>
    (success (produceAttestation slot validator signer) chain).toList.map fun result => .vote result.1
  | _, _ => []

def emitted (calls : List NodeEvent) (chain : Service) : List Emission :=
  (trace (fun call chain => (emits call chain,perform call chain)) calls chain).1.flatten

theorem of_emitted {I : Store → Prop}
    (hstep : ∀ (e : Event) {st : Store}, I st → I (handle e st)) {calls : List NodeEvent}
    {chain : Service} (h : I chain.engine) {emission : Emission}
    (hmem : emission ∈ emitted calls chain) :
    ∃ call ∈ calls, ∃ chain' : Service, I chain'.engine ∧ emission ∈ emits call chain' := by
  induction calls generalizing chain with
  | nil => simp [emitted,trace] at hmem
  | cons call rest ih =>
    rcases List.mem_append.mp hmem with hnow | hlater
    · exact ⟨call,List.mem_cons_self,chain,h,hnow⟩
    · obtain ⟨later,hlater,hrest⟩ := ih (perform_preserves hstep call h) hlater
      exact ⟨later,List.mem_cons_of_mem _ hlater,hrest⟩

def From (s : Nat) (st : Store) : Prop :=
  ∀ (r : Bytes32) (state : State), st.states[r]? = some state →
    s ≤ state.latestBlockHeader.slot.get

theorem slot_lt_of_assembled {parent post : State} {block : Block}
    (h : Assembled parent block post) : parent.latestBlockHeader.slot.get < block.slot.get := by
  obtain ⟨m,opened,hm,hheader,-⟩ := h.run
  have hlater := (processBlockHeader_ok hheader).1.later
  rcases advanceStateToSlot_ok.mp hm with ⟨-,rfl⟩ | hslots
  · exact hlater
  · obtain ⟨-,root,rfl,-⟩ := processSlots_ok hslots
    exact hlater

theorem From.writes {s : Nat} {st t : Store} (h : From s st) (hwrites : Writes st t) :
    From s t := by
  induction hwrites with
  | refl => exact h
  | tail _ hwrite ih =>
    cases hwrite with
    | touch htouch =>
      intro r state hs
      rw [htouch.sameTree.states] at hs
      exact ih r state hs
    | track hasParent assembled root isNew =>
      intro r state hs
      rcases of_states_tracking isNew hs with ⟨-,rfl⟩ | ⟨-,hs⟩
      · rw [assembled.frame.2]
        have hparent := ih _ _ hasParent
        have hlt := slot_lt_of_assembled assembled
        simp only [Block.header]
        omega
      · exact ih r state hs

theorem From.handle {s : Nat} {st : Store} (h : From s st) (e : Event) :
    From s (handle e st) := by
  cases hg : e.gossip with
  | none => exact h.writes (handle_settles hg st).writes
  | some vote =>
    rcases handle_gossip hg st with heq | ⟨-,heq⟩
    · rw [heq]
      exact h
    · rw [heq]
      exact h

theorem block_emitted {owned : List ValidatorIndex} {s n : Nat} {order : IterationOrder SignedAttestation} {slot : Slot}
    {validator : ValidatorIndex} {signer : AttestationSigner} {fault : Fault} {chain : Service}
    (h : From s chain.engine) (hsigner : Refuses owned n signer) (howned : validator ∈ owned)
    {emission : Emission}
    (hmem : emission ∈ emits (.produceBlock order slot validator signer fault) chain) :
    emission.slot = slot ∧ s < slot.get ∧ n ≤ slot.get := by
  obtain ⟨⟨signed,t⟩,hsuccess,rfl⟩ := List.mem_map.mp hmem
  have hrun := success_eq_some.mp (Option.mem_toList.mp hsuccess)
  obtain ⟨produced,m,signature,hproduced,hblock,-,hsign,rfl,hslot⟩ := proposed hrun
  obtain ⟨m,headState,votes,post,_,_,haccept,hstate,hconv,hfields,-⟩ := produceBlock_ok hproduced
  have htouches := touches_acceptNewVotes chain.engine
  rw [after_of_ok haccept] at htouches
  have hhead := h.writes (writes_of_touches htouches) _ _ hstate
  obtain ⟨-,candidate,hcandidate⟩ := convergeAttestations_ok hconv
  have hlt := slot_lt_of_assembled (buildCandidateBlock_ok hcandidate (hashTreeRoot post))
  refine ⟨?_,Nat.lt_of_le_of_lt hhead hlt,?_⟩
  · rw [Emission.slot,hblock,hfields]
  · rw [← hslot]
    exact hsigner hsign howned

theorem vote_emitted {owned : List ValidatorIndex} {n : Nat} {slot : Slot} {validator : ValidatorIndex}
    {signer : AttestationSigner} {chain : Service} (hsigner : Refuses owned n signer)
    (howned : validator ∈ owned) {emission : Emission}
    (hmem : emission ∈ emits (.produceAttestation slot validator signer) chain) :
    emission.slot = slot ∧ n ≤ slot.get := by
  obtain ⟨⟨signed,t⟩,hsuccess,rfl⟩ := List.mem_map.mp hmem
  have hrun := success_eq_some.mp (Option.mem_toList.mp hsuccess)
  obtain ⟨produced,m,hproduced,hrest⟩ := estate_bind_ok.mp hrun
  obtain ⟨signature,_,hchecked,hrest⟩ := estate_bind_ok.mp hrest
  obtain ⟨_,_,-,hpure⟩ := estate_bind_ok.mp hrest
  obtain ⟨rfl,-⟩ := EStateM.Result.ok.inj hpure
  obtain ⟨engine,hengine⟩ : ∃ engine, (produceAttestationVote slot).adaptExcept
      EngineError.forkchoice chain.engine = .ok produced engine := by
    cases hvote : (produceAttestationVote slot).adaptExcept EngineError.forkchoice
        chain.engine with
    | ok vote engine =>
      rw [onEngine_of_ok hvote] at hproduced
      obtain ⟨rfl,-⟩ := EStateM.Result.ok.inj hproduced
      exact ⟨engine,rfl⟩
    | error e engine => simp [onEngine_of_error hvote] at hproduced
  have hslot := slot_produced (adaptExcept_ok.mp hengine)
  have hsign : signer ⟨validator,produced.vote⟩ = .ok signature :=
    mapError_ok.mp (check_ok.mp hchecked).1
  refine ⟨hslot,?_⟩
  rw [← hslot]
  exact hsigner hsign howned

omit [HashPair] in
theorem withheld_dutyCalls {owned : List ValidatorIndex} {n : Nat} {proposers : LocalProposers} {round : Round}
    (h : ∀ signer, round.Uses signer → Refuses owned n signer) (duty : Slot × Nat) :
    ∀ call ∈ dutyCalls proposers round duty, Withheld owned n call := by
  intro call hcall
  unfold dutyCalls at hcall
  split at hcall
  · obtain ⟨v,-,rfl⟩ := List.mem_map.mp hcall
    exact h _ (.inl rfl)
  · split at hcall
    · obtain ⟨⟨v,turn⟩,hturn,hcall⟩ := List.mem_flatMap.mp hcall
      rcases List.mem_append.mp hcall with hbackfill | hattest
      · obtain ⟨d,-,rfl⟩ := List.mem_map.mp hbackfill
        trivial
      · obtain rfl : call = .produceAttestation duty.1 v turn.signer := by simpa using hattest
        obtain ⟨v',-,hv'⟩ := List.mem_filterMap.mp hturn
        obtain ⟨turn',hturn',heq⟩ := Option.map_eq_some_iff.mp hv'
        obtain ⟨rfl,rfl⟩ := Prod.mk.inj heq
        exact h _ (.inr ⟨v',turn',hturn',rfl⟩)
    · cases hcall

theorem withheld_loopCalls {owned : List ValidatorIndex} {n : Nat} {rounds : List Round}
    (h : ∀ round ∈ rounds, ∀ signer, round.Uses signer → Refuses owned n signer) (self : Runner) :
    ∀ call ∈ loopCalls rounds self, Withheld owned n call := by
  induction rounds generalizing self with
  | nil => simp [loopCalls,trace]
  | cons round rest ih =>
    intro call hcall
    rw [loopCalls_cons] at hcall
    rcases List.mem_append.mp hcall with hnow | hlater
    · simp only [tickCalls,backfillCalls,gossipCalls,List.mem_append,List.mem_map,
        List.mem_singleton] at hnow
      rcases hnow with ((⟨d,-,rfl⟩ | ⟨d,-,rfl⟩ | ⟨vote,-,rfl⟩) | hduty) | rfl
      · trivial
      · trivial
      · trivial
      · exact withheld_dutyCalls (h round List.mem_cons_self) _ call hduty
      · trivial
    · exact ih (fun r hr => h r (List.mem_cons_of_mem _ hr)) _ call hlater

/-- What a loop emits from its start is for a slot that the loop has come to and that its
signers have not spent; and a block is later than the blocks the loop started with. -/
theorem emitted_late {s n : Nat} {chain : Service} {proposers : LocalProposers}
    {rounds : List Round} (hfrom : From s chain.engine)
    (hsigners : ∀ round ∈ rounds, ∀ signer, round.Uses signer →
      Refuses proposers.owned n signer)
    {emission : Emission}
    (hmem : emission ∈ emitted (loopCalls rounds (.start chain proposers)) chain) :
    n ≤ emission.slot.get ∧ emission.slot.get*intervalsPerSlot < rounds.length ∧
      ∀ signed, emission = .block signed → s < emission.slot.get := by
  obtain ⟨call,hcall,chain',hfrom',hemits⟩ :=
    of_emitted (I := From s) (fun e _ h => h.handle e) hfrom hmem
  have hwithheld := withheld_loopCalls hsigners (.start chain proposers) call hcall
  have hcome : ∀ {ask : ValidatorIndex × Slot}, asks call = some ask →
      ask.1 ∈ proposers.owned ∧ ask.2.get*intervalsPerSlot < rounds.length := by
    intro ask hask
    have hasked : ask ∈ asked rounds (.start chain proposers) :=
      List.mem_filterMap.mpr ⟨call,hcall,hask⟩
    obtain ⟨hbefore,howned⟩ : dueTick proposers ask < 0+rounds.length ∧
        ask.1 ∈ proposers.owned := asked_before rounds _ hasked
    have hdue : ask.2.get*intervalsPerSlot ≤ dueTick proposers ask := by
      unfold dueTick
      split
      · exact le_rfl
      · exact Nat.le_add_right _ _
    exact ⟨howned,by omega⟩
  cases call with
  | produceBlock order slot validator signer fault =>
    obtain ⟨howned,hreached⟩ := hcome rfl
    obtain ⟨hslot,hlater,hspent⟩ := block_emitted hfrom' hwithheld howned hemits
    rw [hslot]
    exact ⟨hspent,hreached,fun _ _ => hlater⟩
  | produceAttestation slot validator signer =>
    obtain ⟨howned,hreached⟩ := hcome rfl
    obtain ⟨hslot,hspent⟩ := vote_emitted hwithheld howned hemits
    rw [hslot]
    refine ⟨hspent,hreached,?_⟩
    rintro signed rfl
    simp [emits] at hemits
  | _ => simp [emits] at hemits

section
variable {S : SignatureScheme}

def signerOf (seedCommitment : Bytes32 → Bytes32) (fault : Fault) (self : OtsSigner S) :
    AttestationSigner := fun att =>
  match OtsSigner.signAttestation seedCommitment fault att self with
  | .ok signature _ => .ok signature
  | .error e _ => .error e

/-- A signer that the process has at some point of a run that began with this disk. -/
def SignsFrom (S : SignatureScheme) (source : KeySource) (disk : RedbStore)
    (signer : AttestationSigner) : Prop :=
  ∃ (events : List SignerEvent) (outs : List (List Release)) (inner : LocalSigner S)
    (store : RedbStore) (fault : Fault),
    Run (Operates source) ⟨none,disk⟩ events outs ⟨some inner,store⟩ ∧
      signer = signerOf source.seedCommitment fault ⟨inner,store⟩

theorem refuses_of_signsFrom {source : KeySource} {disk : RedbStore} {signer : AttestationSigner}
    (h : SignsFrom S source disk signer) {owned : List ValidatorIndex} {n : Nat}
    (hmarks : ∀ v ∈ owned, n ≤ persistedIndex disk v) : Refuses owned n signer := by
  obtain ⟨events,outs,inner,store,fault,hrun,rfl⟩ := h
  intro att signature hsign howned
  rcases otsSign_cases source.seedCommitment fault att ⟨inner,store⟩ with
    ⟨e,t,heq,-⟩ | ⟨_,t,-,hpassed,-⟩
  · simp [signerOf,heq] at hsign
  · obtain ⟨next,hnext,hle⟩ := hpassed.fresh
    have hfresh : Marks.Guarded ((⟨none,disk⟩ : Station S).mark att.validatorId) [] :=
      ⟨by simp [Station.mark],by simp,.nil⟩
    obtain ⟨hguarded,hdurable⟩ := hfresh.reaches (run_reaches hrun att.validatorId)
    have hahead := hguarded.ahead next hnext
    calc n ≤ persistedIndex disk att.validatorId := hmarks _ howned
      _ ≤ persistedIndex store att.validatorId := hdurable
      _ ≤ next := hahead
      _ ≤ att.data.slot.get := hle

end

/-- What the proposer pass of a tick makes of the health; `published` says whether a block gets
out. -/
def judge (published : SignedBlockWithAttestation → Bool) (round : Round) (self : Runner)
    (health : Health) : Health :=
  let chain := drainGossip round (backfilled round.backfill self.chain)
  let (slot,interval) := slotIntervalAt self.tick
  if interval = 0 then
    match self.proposers.proposerForSlot slot with
    | none => health
    | some validator =>
      match success (produceBlock round.order slot validator round.signer round.fault) chain with
      | some (signed,_) =>
        if published signed = true then health.recordSuccess else health.recordFailure
      | none => health.recordFailure
  else health

def healthAfter (published : SignedBlockWithAttestation → Bool) :
    List Round → Runner → Health → Health
  | [], _, health => health
  | round :: rest, self, health =>
    healthAfter published rest (runTick round self).2 (judge published round self health)

theorem From.performAll {s : Nat} {chain : Service} (h : From s chain.engine)
    (calls : List NodeEvent) : From s (performAll calls chain).engine := by
  induction calls generalizing chain with
  | nil => exact h
  | cons call rest ih =>
    exact ih (perform_preserves (I := From s) (fun e _ h => h.handle e) call h)

theorem judge_past {s : Nat} {self : Runner} (h : From s self.chain.engine)
    (hpast : self.tick.val/intervalsPerSlot ≤ s)
    (published : SignedBlockWithAttestation → Bool) (round : Round) (health : Health) :
    judge published round self health =
      if ownPass self.proposers self.tick.val = true then health.recordFailure else health := by
  have hdrained : From s (drainGossip round (backfilled round.backfill self.chain)).engine :=
    (h.performAll _).performAll _
  have hslot : Slot.ofNat (self.tick.val/intervalsPerSlot) = (slotIntervalAt self.tick).1 := by
    have hlt := self.tick.isLt
    refine Slot.ext_get ?_
    simp only [Slot.ofNat,slotIntervalAt,intervalsPerSlot]
    omega
  unfold judge ownPass
  rw [hslot]
  dsimp only
  by_cases hzero : (slotIntervalAt self.tick).2 = 0
  · have hfirst : self.tick.val%intervalsPerSlot = 0 := hzero
    rw [if_pos hzero]
    cases hproposer : self.proposers.proposerForSlot (slotIntervalAt self.tick).1 with
    | none => simp
    | some validator =>
      cases hsuccess : success (produceBlock round.order (slotIntervalAt self.tick).1 validator
          round.signer round.fault) (drainGossip round (backfilled round.backfill self.chain)) with
      | none => simp [hfirst,hsuccess]
      | some result =>
        have hemitted : Emission.block result.1 ∈ emits (.produceBlock round.order
            (slotIntervalAt self.tick).1 validator round.signer round.fault)
            (drainGossip round (backfilled round.backfill self.chain)) := by
          simp [emits,hsuccess]
        have hany : Refuses [validator] 0 round.signer := fun _ _ => Nat.zero_le _
        have hlater := (block_emitted hdrained hany (List.mem_singleton_self _) hemitted).2.1
        exact absurd hlater (Nat.not_lt.mpr hpast)
  · have hnot : self.tick.val%intervalsPerSlot ≠ 0 := hzero
    rw [if_neg hzero]
    simp [hnot]

omit [HashPair] in
theorem saturating_add (a k most : Nat) : min (min (a+1) most+k) most = min (a+(k+1)) most := by
  omega

theorem healthAfter_past {s : Nat} {rounds : List Round} {self : Runner}
    (h : From s self.chain.engine)
    (hpast : self.tick.val+rounds.length ≤ (s+1)*intervalsPerSlot)
    (hclock : self.tick.val+rounds.length < 2^64)
    (published : SignedBlockWithAttestation → Bool) {health : Health}
    (hfits : health.consecutiveFailures ≤ Health.most) :
    (healthAfter published rounds self health).consecutiveFailures =
      min (health.consecutiveFailures+
        (List.range' self.tick.val rounds.length).countP (ownPass self.proposers)) Health.most := by
  induction rounds generalizing self health with
  | nil => simpa [healthAfter] using hfits
  | cons round rest ih =>
    have hnext : (runTick round self).2.tick.val = self.tick.val+1 := by
      rw [(runTick_clocks round self).2.2.1,saturatingSucc,dif_pos]
      simp only [List.length_cons] at hclock
      omega
    have hfrom : From s (runTick round self).2.chain.engine := by
      rw [runTick_calls]
      exact h.performAll _
    simp only [List.length_cons] at hpast hclock
    have hslot : self.tick.val/intervalsPerSlot ≤ s := by
      simp only [intervalsPerSlot] at hpast ⊢
      omega
    rw [healthAfter,judge_past h hslot,List.length_cons,List.range'_succ,List.countP_cons]
    by_cases hown : ownPass self.proposers self.tick.val = true
    · have hrecorded : health.recordFailure.consecutiveFailures ≤ Health.most := Nat.min_le_right _ _
      have hrest := ih hfrom (by omega) (by omega) hrecorded
      rw [proposers_runTick,hnext] at hrest
      rw [if_pos hown,if_pos hown,hrest]
      exact saturating_add _ _ _
    · have hrest := ih hfrom (by omega) (by omega) hfits
      rw [proposers_runTick,hnext] at hrest
      rw [if_neg hown,if_neg hown,hrest]
      rfl

theorem from_resumed {held : List Block} {st engine : Store} {root : Bytes32} {block : Block}
    {state : State} (hlife : Lives held st) (hblock : st.blocks[root]? = some block)
    (hstate : st.states[root]? = some state)
    (hresumed : Store.fromTrustedHead state block = .ok engine) :
    From block.slot.get engine := by
  -- The engine that resumes has one block, and no earlier one comes in.
  obtain ⟨validators,henrolled⟩ := hlife.enrolled
  have hheader := henrolled.header hblock hstate
  obtain ⟨-,time,rfl⟩ := seedAnchor_ok hresumed
  intro r s hs
  obtain ⟨-,rfl⟩ : hashTreeRoot block = r ∧ state = s := by
    simpa [Std.ExtTreeMap.getElem?_insert] using hs
  rw [hheader]
  exact le_rfl

/-- A process resumes at a block of its node's life, on a disk whose watermarks stand at `n` or
beyond for all validators it owns, and runs its loop. Whatever sync and gossip bring, it hands
nothing to the publisher for a slot below `n`, and no block for a slot up to the resumed one.
So it is silent for `n` slots, makes no block for as many slots as the chain it resumed was
old, and all that time each of its proposer slots counts as a failure. -/
theorem restarted_node_silent {S : SignatureScheme} {source : KeySource} {disk : RedbStore}
    {held : List Block} {st : Store} {root : Bytes32} {block : Block} {state : State}
    {chain : Service} (hlife : Lives held st) (hblock : st.blocks[root]? = some block)
    (hstate : st.states[root]? = some state)
    (hresumed : Store.fromTrustedHead state block = .ok chain.engine)
    (proposers : LocalProposers) (rounds : List Round) {n : Nat}
    (hmarks : ∀ v ∈ proposers.owned, n ≤ persistedIndex disk v)
    (hsigners : ∀ round ∈ rounds, ∀ signer, round.Uses signer → SignsFrom S source disk signer) :
    (∀ emission ∈ emitted (loopCalls rounds (.start chain proposers)) chain,
      n ≤ emission.slot.get ∧
      ∀ signed, emission = .block signed → block.slot.get < emission.slot.get) ∧
    (rounds.length ≤ n*intervalsPerSlot →
      emitted (loopCalls rounds (.start chain proposers)) chain = []) ∧
    (rounds.length ≤ (block.slot.get+1)*intervalsPerSlot →
      (∀ signed, .block signed ∉ emitted (loopCalls rounds (.start chain proposers)) chain) ∧
      (rounds.length < 2^64 → ∀ published,
        ((healthAfter published rounds (.start chain proposers) .new).isDegraded = true ↔
          Health.failureThreshold ≤ (List.range rounds.length).countP (ownPass proposers)))) := by
  have hfrom := from_resumed hlife hblock hstate hresumed
  have hlate : ∀ emission ∈ emitted (loopCalls rounds (.start chain proposers)) chain,
      n ≤ emission.slot.get ∧ emission.slot.get*intervalsPerSlot < rounds.length ∧
        ∀ signed, emission = .block signed → block.slot.get < emission.slot.get :=
    fun _ hmem => emitted_late hfrom
      (fun round hround signer huses => refuses_of_signsFrom (hsigners round hround signer huses)
        hmarks) hmem
  refine ⟨?_,?_,?_⟩
  · intro emission hmem
    obtain ⟨hspent,-,hlater⟩ := hlate emission hmem
    exact ⟨hspent,hlater⟩
  · intro hshort
    refine List.eq_nil_iff_forall_not_mem.mpr ?_
    intro emission hmem
    obtain ⟨hspent,hreached,-⟩ := hlate emission hmem
    have hmul := Nat.mul_le_mul_right intervalsPerSlot hspent
    omega
  · intro hshort
    refine ⟨?_,?_⟩
    · intro signed hmem
      obtain ⟨-,hreached,hlater⟩ := hlate _ hmem
      have hmul := Nat.mul_le_mul_right intervalsPerSlot (Nat.succ_le_of_lt (hlater signed rfl))
      simp only [Nat.succ_eq_add_one] at hmul
      omega
    · intro hclock published
      have hrun : (healthAfter published rounds (.start chain proposers)
          .new).consecutiveFailures = min (0+(List.range' 0 rounds.length).countP
            (ownPass proposers)) Health.most :=
        healthAfter_past hfrom ((Nat.zero_add _).le.trans hshort) ((Nat.zero_add _).trans_lt hclock)
          published (Nat.zero_le _)
      rw [Health.isDegraded,decide_eq_true_eq,hrun,List.range_eq_range']
      have hmost : Health.failureThreshold ≤ Health.most := by decide
      omega

end

section
attribute [local instance] mixPair

def resumedLine : Option Store :=
  line1.blocks[line1.head]?.bind fun block => line1.states[line1.head]?.bind fun state =>
    (Store.fromTrustedHead state block).toOption

def signing (signer : AttestationSigner) : Round :=
  ⟨[],[],[],default,signer,none,default,fun _ => some ⟨[],signer⟩⟩

/-- Its validator has signed for slot 4. -/
theorem restarted_node_silent_line : ∃ (chain : Service) (signer : AttestationSigner),
    resumedLine = some chain.engine ∧
    SignsFrom bareScheme bareSource interruptedRun.2.store signer ∧
    emitted (loopCalls (List.replicate 20 (signing signer)) (.start chain soloProposers))
      chain = [] := by
  have hresumes : resumedLine.isSome = true := by decide +kernel
  obtain ⟨engine,hengine⟩ := Option.isSome_iff_exists.mp hresumes
  obtain ⟨block,hblock,hrest⟩ := Option.bind_eq_some_iff.mp hengine
  obtain ⟨state,hstate,hopen⟩ := Option.bind_eq_some_iff.mp hrest
  have hloads : (loadResuming (S := bareScheme) bareSource interruptedRun.2.store (fun _ => none)
      [default]).toOption.isSome = true := by decide +kernel
  obtain ⟨inner,hinner⟩ := Option.isSome_iff_exists.mp hloads
  have hstart : Operates bareSource (⟨none,interruptedRun.2.store⟩ : Station bareScheme)
      (.start [default] fun _ => none) [] ⟨some inner,interruptedRun.2.store⟩ := by
    rw [Operates,operate,toOption_eq_some.mp hinner]
  have hsigner : SignsFrom bareScheme bareSource interruptedRun.2.store
      (signerOf bareSource.seedCommitment none ⟨inner,interruptedRun.2.store⟩) :=
    ⟨_,_,inner,_,none,.single hstart,rfl⟩
  refine ⟨⟨engine,RedbStore.empty⟩,_,hengine,hsigner,?_⟩
  have hmarks : ∀ v ∈ soloProposers.owned, 5 ≤ persistedIndex interruptedRun.2.store v := by
    decide +kernel
  have hlife : Lives (Tables.values soloStore.blocks ++ Tables.values line1.blocks) line1 :=
    (lives_genesis 0 [default]).extend genesisPoint 1 []
  have hsigners : ∀ round ∈ List.replicate 20 (signing (signerOf bareSource.seedCommitment none
      ⟨inner,interruptedRun.2.store⟩)), ∀ signer, round.Uses signer →
        SignsFrom bareScheme bareSource interruptedRun.2.store signer := by
    intro round hround signer huses
    obtain rfl := List.eq_of_mem_replicate hround
    rcases huses with rfl | ⟨v,turn,hturn,rfl⟩
    · exact hsigner
    · obtain rfl := Option.some.inj hturn
      exact hsigner
  exact (restarted_node_silent hlife hblock hstate (toOption_eq_some.mp hopen) soloProposers _
    hmarks hsigners).2.1 (by simp [intervalsPerSlot])

end

end Devnet.Node
