import Devnet.Engine.WellFormed

/-!
What every post-state and every pooled vote of a node has in common: the registry of its
genesis. A vote is admitted by the registry of the head alone, but no transition ever changes
it. The header a post-state leaves pending is that of its own block.
-/

set_option autoImplicit false

namespace Devnet.Engine
open Machine Trees Devnet.Types Devnet.Ssz Devnet.Protocol Devnet.ForkChoice

def Registered (n : Nat) (pool : Votes) : Prop :=
  ∀ (v : ValidatorIndex) (vote : SignedAttestation), pool[v]? = some vote →
    vote.message.validatorId.get < n

theorem registered_empty (n : Nat) : Registered n ∅ := by
  intro v vote h
  simp at h

theorem Registered.insertIfNewer {n : Nat} {pool : Votes} (h : Registered n pool)
    {vote : SignedAttestation} (hvote : vote.message.validatorId.get < n) :
    Registered n (insertIfNewer pool vote.message.validatorId vote).1 := by
  intro v entry he
  rw [getElem?_insertIfNewer] at he
  split at he
  · obtain rfl : vote = entry := by simpa using he
    exact hvote
  · exact h v entry he

theorem Registered.evictIfOlder {n : Nat} {pool : Votes} (h : Registered n pool)
    (validator : ValidatorIndex) (slot : Slot) :
    Registered n (evictIfOlder pool validator slot).1 := by
  intro v entry he
  rw [getElem?_evictIfOlder] at he
  split at he
  · cases he
  · exact h v entry he

theorem Registered.union {n : Nat} {known pending : Votes} (h : Registered n known)
    (h' : Registered n pending) : Registered n (known ∪ pending) := by
  intro v entry he
  rw [Std.ExtTreeMap.getElem?_union,Option.or_eq_some_iff] at he
  rcases he with he | ⟨-,he⟩
  · exact h' v entry he
  · exact h v entry he

section
variable [HashPair]

/-- The store of a node with these validators. -/
structure Enrolled (validators : Validators) (st : Store) : Prop where
  registry : ∀ {r : Bytes32} {s : State}, st.states[r]? = some s → s.validators = validators
  header : ∀ {r : Bytes32} {b : Block} {s : State}, st.blocks[r]? = some b →
    st.states[r]? = some s →
    s.latestBlockHeader = { b.header with stateRoot := ByteVector.zero }
  known : Registered validators.length st.latestKnownVotes
  pending : Registered validators.length st.latestNewVotes

theorem Enrolled.admits {validators : Validators} {st : Store} {vote : SignedAttestation}
    (h : Enrolled validators st) (hadmits : st.Admits vote) :
    vote.message.validatorId.get < validators.length := by
  obtain ⟨n,hn,hguard⟩ := except_bind_ok.mp hadmits.validator
  have hlt : vote.message.validatorId.get < n := Nat.lt_of_not_le (guard_ok.mp hguard).1
  unfold Store.headValidatorCount at hn
  split at hn
  · next s hs =>
    obtain rfl := Except.ok.inj hn
    rw [State.numValidators,h.registry hs] at hlt
    omega
  · cases hn

theorem Enrolled.touch {validators : Validators} {st t : Store} (h : Enrolled validators st)
    (htouch : Touch st t) : Enrolled validators t := by
  cases htouch with
  | clock time => exact ⟨h.registry,h.header,h.known,h.pending⟩
  | @onChain vote admits =>
    exact ⟨h.registry,h.header,h.known.insertIfNewer (h.admits admits),h.pending.evictIfOlder _ _⟩
  | promote => exact ⟨h.registry,h.header,h.known.union h.pending,registered_empty _⟩
  | head votes selects => exact ⟨h.registry,h.header,h.known,h.pending⟩
  | safeTarget votes minScore selects => exact ⟨h.registry,h.header,h.known,h.pending⟩

theorem Enrolled.track {validators : Validators} {st : Store} {block : Block}
    {parent post : State} (h : Enrolled validators st)
    (hparent : st.states[block.parentRoot]? = some parent)
    (hassembled : Assembled parent block post) (hnew : hashTreeRoot block ∉ st.blocks) :
    Enrolled validators (st.tracking (hashTreeRoot block) block post) := by
  obtain ⟨hregistry,hheader⟩ := hassembled.frame
  have hget := getElem?_tracking hnew block post
  obtain ⟨hknown,hpending,-,-⟩ := tracking_frame st (hashTreeRoot block) block post
  refine ⟨?_,?_,by rw [hknown]; exact h.known,by rw [hpending]; exact h.pending⟩
  · intro r s hs
    rcases of_states_tracking hnew hs with ⟨-,rfl⟩ | ⟨-,hs⟩
    · exact hregistry.trans (h.registry hparent)
    · exact h.registry hs
  · intro r b s hb hs
    rcases of_blocks_tracking hnew hb with ⟨rfl,rfl⟩ | ⟨hne,hb⟩
    · rw [(hget _).2,if_pos rfl] at hs
      obtain rfl := Option.some.inj hs
      exact hheader
    · rw [(hget _).2,if_neg hne] at hs
      exact h.header hb hs

theorem Enrolled.writes {validators : Validators} {st t : Store} (h : Enrolled validators st)
    (hwrites : Writes st t) : Enrolled validators t := by
  induction hwrites with
  | refl => exact h
  | tail _ hwrite ih =>
    cases hwrite with
    | touch htouch => exact ih.touch htouch
    | track hasParent assembled root isNew => exact ih.track hasParent assembled isNew

theorem Enrolled.handle {validators : Validators} {st : Store} (h : Enrolled validators st)
    (e : Event) : Enrolled validators (handle e st) := by
  cases hg : e.gossip with
  | none => exact h.writes (handle_settles hg st).writes
  | some vote =>
    rcases handle_gossip hg st with heq | ⟨hadmits,heq⟩
    · rw [heq]
      exact h
    · rw [heq]
      exact ⟨h.registry,h.header,h.known,h.pending.insertIfNewer (h.admits hadmits)⟩

theorem enrolled_seed {t : Store} {block : Block} {state : State}
    {checkpoints : Bytes32 → Slot → Checkpoint × Checkpoint}
    (hopen : Store.seedAnchor state block checkpoints = .ok t)
    (hheader : state.latestBlockHeader = { block.header with stateRoot := ByteVector.zero }) :
    Enrolled state.validators t := by
  obtain ⟨-,time,rfl⟩ := seedAnchor_ok hopen
  refine ⟨?_,?_,registered_empty _,registered_empty _⟩
  · intro r s hs
    obtain ⟨-,rfl⟩ : hashTreeRoot block = r ∧ state = s := by
      simpa [Std.ExtTreeMap.getElem?_insert] using hs
    rfl
  · intro r b s hb hs
    obtain ⟨-,rfl⟩ : hashTreeRoot block = r ∧ state = s := by
      simpa [Std.ExtTreeMap.getElem?_insert] using hs
    obtain ⟨-,rfl⟩ : hashTreeRoot block = r ∧ block = b := by
      simpa [Std.ExtTreeMap.getElem?_insert] using hb
    exact hheader

theorem Lives.enrolled {held : List Block} {st : Store} (h : Lives held st) :
    ∃ validators, Enrolled validators st := by
  refine h.rule (fun _ st => ∃ validators, Enrolled validators st) ?_ ?_
  · intro genesisTime validators g hopen
    exact ⟨_,enrolled_seed hopen rfl⟩
  · intro held st action out t hst hstep
    obtain ⟨validators,henrolled⟩ := hst
    cases hstep with
    | event e => exact ⟨validators,henrolled.handle e⟩
    | resume hasBlock hasState opens =>
      exact ⟨_,enrolled_seed opens (henrolled.header hasBlock hasState)⟩

end

end Devnet.Engine
