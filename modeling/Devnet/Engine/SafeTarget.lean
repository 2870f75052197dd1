import Devnet.Engine.Enrolled
import Devnet.Engine.Ladder
import Devnet.ForkChoice.Heaviest

/-!
The safe target. It is chosen among the pending votes with a threshold of two thirds of the
registry. The pool has one vote for each validator and none from outside the registry, and the
subtrees of siblings share no vote, so two siblings never both reach the threshold.
-/

set_option autoImplicit false

namespace Devnet.Engine
open Machine Trees Devnet.Types Devnet.Ssz Devnet.Protocol Devnet.ForkChoice

def Keyed (pool : Votes) : Prop :=
  ∀ (v : ValidatorIndex) (vote : SignedAttestation), pool[v]? = some vote →
    vote.message.validatorId = v

theorem keyed_empty : Keyed ∅ := by
  intro v vote h
  simp at h

theorem Keyed.insertIfNewer {pool : Votes} (h : Keyed pool) (vote : SignedAttestation) :
    Keyed (insertIfNewer pool vote.message.validatorId vote).1 := by
  intro v entry he
  rw [getElem?_insertIfNewer] at he
  split at he
  · next hnewer =>
    obtain rfl : vote = entry := by simpa using he
    exact hnewer.1
  · exact h v entry he

theorem Keyed.evictIfOlder {pool : Votes} (h : Keyed pool) (validator : ValidatorIndex)
    (slot : Slot) : Keyed (evictIfOlder pool validator slot).1 := by
  intro v entry he
  rw [getElem?_evictIfOlder] at he
  split at he
  · cases he
  · exact h v entry he

theorem Keyed.union {known pending : Votes} (h : Keyed known) (h' : Keyed pending) :
    Keyed (known ∪ pending) := by
  intro v entry he
  rw [Std.ExtTreeMap.getElem?_union,Option.or_eq_some_iff] at he
  rcases he with he | ⟨-,he⟩
  · exact h' v entry he
  · exact h v entry he

structure OwnKeys (st : Store) : Prop where
  known : Keyed st.latestKnownVotes
  pending : Keyed st.latestNewVotes

theorem OwnKeys.touch {st t : Store} (htouch : Touch st t) (h : OwnKeys st) : OwnKeys t := by
  cases htouch with
  | clock time => exact ⟨h.known,h.pending⟩
  | onChain admits => exact ⟨h.known.insertIfNewer _,h.pending.evictIfOlder _ _⟩
  | promote => exact ⟨h.known.union h.pending,keyed_empty⟩
  | head votes selects => exact ⟨h.known,h.pending⟩
  | safeTarget votes minScore selects => exact ⟨h.known,h.pending⟩

section
variable [HashPair]

theorem Lives.ownKeys {held : List Block} {st : Store} (h : Lives held st) : OwnKeys st := by
  refine h.rule (fun _ st => OwnKeys st) ?_ ?_
  · intro genesisTime validators g hopen
    obtain ⟨-,time,rfl⟩ := seedAnchor_ok hopen
    exact ⟨keyed_empty,keyed_empty⟩
  · intro held st action out t hst hstep
    cases hstep with
    | event e =>
      refine handle_rule OwnKeys ?_ OwnKeys.touch ?_ e hst
      · intro st vote hkeys
        exact ⟨hkeys.known,hkeys.pending.insertIfNewer vote⟩
      · intro st block post _ hkeys
        obtain ⟨hknown,hpending,-,-⟩ := tracking_frame st (hashTreeRoot block) block post
        exact ⟨by rw [hknown]; exact hkeys.known,by rw [hpending]; exact hkeys.pending⟩
    | resume hasBlock hasState opens =>
      obtain ⟨-,time,rfl⟩ := seedAnchor_ok opens
      exact ⟨keyed_empty,keyed_empty⟩

end

def headsOf (pool : Votes) : List Bytes32 := pool.toList.map fun entry => entry.2.message.data.head.root

theorem headsOf_eq (pool : Votes) :
    (Tables.values (voteHeadCheckpoints pool)).map Checkpoint.root = headsOf pool := by
  simp [Tables.values,voteHeadCheckpoints,headsOf,Std.ExtTreeMap.toList_map]

open Classical in
/-- The validators with a pending vote for the block or a descendant of it. -/
noncomputable def supporters (st : Store) (r : Bytes32) : Finset ValidatorIndex :=
  ((st.latestNewVotes.toList.filter fun entry =>
    decide (AncestorOrSelf (parentLink st.blocks) r entry.2.message.data.head.root)).map
      fun entry => entry.2.message.validatorId).toFinset

theorem mem_supporters {st : Store} {r : Bytes32} {v : ValidatorIndex} :
    v ∈ supporters st r ↔ ∃ (key : ValidatorIndex) (vote : SignedAttestation),
      st.latestNewVotes[key]? = some vote ∧ vote.message.validatorId = v ∧
        AncestorOrSelf (parentLink st.blocks) r vote.message.data.head.root := by
  simp only [supporters,List.mem_toFinset,List.mem_map,List.mem_filter,decide_eq_true_eq,
    Prod.exists,Std.ExtTreeMap.mem_toList_iff_getElem?_eq_some]
  constructor
  · rintro ⟨key,vote,⟨hvote,hanc⟩,hv⟩
    exact ⟨key,vote,hvote,hv,hanc⟩
  · rintro ⟨key,vote,hvote,hv,hanc⟩
    exact ⟨key,vote,⟨hvote,hanc⟩,hv⟩

theorem Keyed.nodup {pool : Votes} (h : Keyed pool) :
    (pool.toList.map fun entry => entry.2.message.validatorId).Nodup := by
  have hkeys : pool.toList.map (fun entry => entry.2.message.validatorId) = pool.keys := by
    rw [← Std.ExtTreeMap.map_fst_toList_eq_keys]
    refine List.map_congr_left fun entry hentry => ?_
    exact h entry.1 entry.2 (Std.ExtTreeMap.mem_toList_iff_getElem?_eq_some.mp hentry)
  rw [hkeys]
  exact Std.ExtTreeMap.nodup_keys

theorem card_supporters {st : Store} (h : Keyed st.latestNewVotes) (r : Bytes32) :
    (supporters st r).card =
      score (parentLink st.blocks) (headsOf st.latestNewVotes) r := by
  have hnodup := h.nodup
  rw [supporters,List.toFinset_card_of_nodup,List.length_map,← List.countP_eq_length_filter,score,
    headsOf,List.countP_map]
  · rfl
  · exact hnodup.sublist (List.filter_sublist.map _)

theorem length_headsOf_le {pool : Votes} {n : Nat} (hkeyed : Keyed pool)
    (hregistered : Registered n pool) : (headsOf pool).length ≤ n := by
  have hsub : (pool.toList.map fun entry => entry.2.message.validatorId.get) ⊆ List.range n := by
    intro i hi
    obtain ⟨entry,hentry,rfl⟩ := List.mem_map.mp hi
    exact List.mem_range.mpr (hregistered entry.1 entry.2
      (Std.ExtTreeMap.mem_toList_iff_getElem?_eq_some.mp hentry))
  have hnodup : (pool.toList.map fun entry => entry.2.message.validatorId.get).Nodup := by
    have hmapped := hkeyed.nodup.map (f := ValidatorIndex.get)
      (fun a b hab => ValidatorIndex.ext_get hab)
    rwa [List.map_map] at hmapped
  have hle := (hnodup.subperm hsub).length_le
  simpa [headsOf] using hle

theorem minTargetScore_le_iff {n k : Nat} (h : n < 2^63) : minTargetScore n ≤ k ↔ 2*n ≤ 3*k := by
  -- Two thirds, rounded up; within the bound the doubling does not saturate.
  have hmin : min (n*2) (2^64-1) = n*2 := Nat.min_eq_left (by omega)
  rw [minTargetScore,hmin]
  omega

def Supermajority (st : Store) (n : Nat) (r : Bytes32) : Prop := 2*n ≤ 3*(supporters st r).card

/-- The pending votes as the fork choice sees them: those of at most `n` validators. -/
structure Polled (n : Nat) (st : Store) : Prop where
  keyed : Keyed st.latestNewVotes
  registered : Registered n st.latestNewVotes

theorem Polled.siblings {st : Store} {n : Nat} {anchor a kid kid' : Bytes32} (h : Polled n st)
    (hpos : 1 ≤ n) (hplanted : Planted st.blocks anchor) (ha : a ∈ st.blocks)
    (hkid : parentLink st.blocks kid = some a) (hkid' : parentLink st.blocks kid' = some a)
    (hne : kid ≠ kid') (hmajority : Supermajority st n kid) : ¬Supermajority st n kid' := by
  intro hmajority'
  have hsum := Rooted.score_siblings_le (T := hplanted.tree) (hplanted.mem_nodes.mpr ha) hkid hkid'
    hne (headsOf st.latestNewVotes)
  have hlength := length_headsOf_le h.keyed h.registered
  have hcard := card_supporters h.keyed kid
  have hcard' := card_supporters h.keyed kid'
  change score (parentLink st.blocks) _ kid+score (parentLink st.blocks) _ kid' ≤ _ at hsum
  unfold Supermajority at hmajority hmajority'
  omega

/-- The blocks from the justified one to the safe target, without the former, have two thirds
each and no sibling that has; no child of the safe target has two thirds. -/
structure SafePath (st : Store) (n : Nat) : Prop where
  descends : AncestorOrSelf (parentLink st.blocks) st.latestJustified.root st.safeTarget
  supported : ∀ r, AncestorOrSelf (parentLink st.blocks) st.latestJustified.root r →
    r ≠ st.latestJustified.root → AncestorOrSelf (parentLink st.blocks) r st.safeTarget →
    Supermajority st n r
  unrivalled : ∀ r, AncestorOrSelf (parentLink st.blocks) st.latestJustified.root r →
    r ≠ st.latestJustified.root → AncestorOrSelf (parentLink st.blocks) r st.safeTarget →
    ∀ sibling, sibling ≠ r → parentLink st.blocks sibling = parentLink st.blocks r →
      ¬Supermajority st n sibling
  ends : ∀ kid, parentLink st.blocks kid = some st.safeTarget → ¬Supermajority st n kid

theorem Polled.safePath {st : Store} {n : Nat} {anchor : Bytes32} (h : Polled n st)
    (hpos : 1 ≤ n) (hvec : n < 2^63) (hplanted : Planted st.blocks anchor)
    (hjustified : st.latestJustified.root ∈ st.blocks)
    (hghost : GhostPath st.blocks (headsOf st.latestNewVotes) (minTargetScore n)
      st.latestJustified.root st.safeTarget) : SafePath st n := by
  have hmajority : ∀ r, Supermajority st n r ↔
      minTargetScore n ≤ score (parentLink st.blocks) (headsOf st.latestNewVotes) r := by
    intro r
    rw [minTargetScore_le_iff hvec,Supermajority,card_supporters h.keyed]
  obtain ⟨jb,hjb⟩ := get_of_mem hjustified
  have hdescends : AncestorOrSelf (parentLink st.blocks) st.latestJustified.root st.safeTarget :=
    Ghost.descends hghost (by rw [parentLink_of_get hjb]; rfl)
  have hpicked : ∀ r, AncestorOrSelf (parentLink st.blocks) st.latestJustified.root r →
      r ≠ st.latestJustified.root → AncestorOrSelf (parentLink st.blocks) r st.safeTarget →
      Supermajority st n r := by
    intro r hjr hne hrs
    obtain ⟨p,hpick⟩ := Ghost.picked (T := hplanted.tree) hghost hjr hrs hne
    exact (hmajority r).mpr hpick.reached
  refine ⟨hdescends,hpicked,?_,?_⟩
  · intro r hjr hne hrs sibling hsibling hparent
    obtain ⟨p,hp,rfl | hjp⟩ := ancestorOrSelf_iff.mp hjr
    · exact absurd rfl hne
    · have hmem := hplanted.mem_nodes.mp (Rooted.rank_le_of_ancestor (T := hplanted.tree) hjp).2
      exact h.siblings hpos hplanted hmem hp (hparent.trans hp) hsibling.symm
        (hpicked r hjr hne hrs)
  · intro kid hkid hreached
    exact Ghost.ends hghost hkid ((hmajority kid).mp hreached)

section
variable [HashPair]

theorem Lives.polled {held : List Block} {st : Store} (hlife : Lives held st) {n : Nat}
    (hcount : st.headValidatorCount = .ok n) (hvec : n < 2^63) : Polled n st := by
  obtain ⟨validators,henrolled⟩ := hlife.enrolled
  refine ⟨hlife.ownKeys.pending,?_⟩
  unfold Store.headValidatorCount at hcount
  split at hcount
  · next s hs =>
    obtain rfl := Except.ok.inj hcount
    have hlength : s.numValidators = validators.length := by
      rw [State.numValidators,henrolled.registry hs] at hvec ⊢
      omega
    rw [hlength]
    exact henrolled.pending
  · cases hcount

/-- Whatever the forks, in every store of a life the safe target that is chosen ends the one
path of blocks with two thirds of the registry behind them. A vector has fewer than `2^63`
elements, so the doubling of the count does not saturate. -/
theorem safeTarget_supermajority {held : List Block} {st : Store} (hlife : Lives held st)
    (hsound : Sound held) {n : Nat} (hcount : st.headValidatorCount = .ok n) (hpos : 1 ≤ n)
    (hvec : n < 2^63) :
    ∃ t, updateSafeTarget st = .ok () t ∧ SameTree st t ∧
      t.latestNewVotes = st.latestNewVotes ∧ SafePath t n := by
  obtain ⟨anchor,hsteady⟩ := hlife.steady hsound
  have hplanted := hsteady.linked.planted hsound
  obtain ⟨jb,hjb,-⟩ := hsteady.pointed.justified.tracked
  have hjustified := mem_of_get hjb
  have hstart : startOf anchor st.latestJustified.root = st.latestJustified.root :=
    if_neg (hsteady.linked.nonzero hsound hjustified)
  obtain ⟨head,hhead,hghost⟩ := forkChoiceHead_ghost hplanted hjustified (List.Perm.refl _)
    (Tables.values (voteHeadCheckpoints st.latestNewVotes)) (minTargetScore n)
  rw [← getForkChoiceHead_eq_over] at hhead
  rw [headsOf_eq,hstart] at hghost
  have hselected : st.selectedTarget = .ok head := by
    simp [Store.selectedTarget,hcount,hhead,bind,Except.bind]
  rcases updateSafeTarget_cases st with ⟨target,htarget,hrun⟩ | ⟨e,herr,-⟩
  · obtain rfl := Except.ok.inj (hselected.symm.trans htarget)
    refine ⟨_,hrun,⟨rfl,rfl,rfl,rfl,rfl⟩,rfl,?_⟩
    obtain ⟨hkeyed,hregistered⟩ := hlife.polled hcount hvec
    exact Polled.safePath ⟨hkeyed,hregistered⟩ hpos hvec hplanted hjustified hghost
  · cases hselected.symm.trans herr

end

section
attribute [local instance] mixPair

def polledLine : Store := handle (.importAttestation (soloVote genesisPoint (tip line1))) line1

theorem lives_polledLine : ∃ held, Lives held polledLine ∧ Sound held :=
  ⟨_,((lives_genesis 0 [default]).extend genesisPoint 1 []).event _,by decide +kernel⟩

theorem safeTarget_supermajority_line :
    polledLine.headValidatorCount = .ok 1 ∧
      ∃ t, updateSafeTarget polledLine = .ok () t ∧ t.safeTarget = (tip line1).root ∧
        SafePath t 1 := by
  obtain ⟨held,hlife,hsound⟩ := lives_polledLine
  have hcount : polledLine.headValidatorCount = .ok 1 := by decide +kernel
  obtain ⟨t,hrun,-,-,hpath⟩ :=
    safeTarget_supermajority hlife hsound hcount (by decide) (by decide)
  have htarget : (after updateSafeTarget polledLine).safeTarget = (tip line1).root := by
    decide +kernel
  rw [after_of_ok hrun] at htarget
  exact ⟨hcount,t,hrun,htarget,hpath⟩

end

end Devnet.Engine
